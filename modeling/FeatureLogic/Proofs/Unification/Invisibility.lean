import FeatureLogic.Proofs.Graph.Plainness
import FeatureLogic.Proofs.Unification.Outcome
import FeatureLogic.Unification.Session

/-!
# Failed unifications leave no trace

A call that fails leaves the graph and the scopes of its session exactly as they were. So the
failing calls of a run can be left out, and every other step does what it did among them.
-/

namespace FeatureLogic

open FeatureLogic.Graph

namespace Session

structure Sound (s : Session) : Prop where
  wellFormed : s.graph.WellFormed
  within : ∀ name scope, s.scopes.get? name = some scope → scope.Within s.graph

def Allows (s : Session) : SessionStep → Prop
  | .call v w _ => s.graph.Contains v ∧ s.graph.Contains w
  | .assign _ scope => scope.Within s.graph

def AllowsAll (s : Session) : List SessionStep → Prop
  | [] => True
  | step :: rest =>
    s.Allows step ∧ ∀ outcome ∈ s.step? step, outcome.2.AllowsAll rest

instance (s : Session) (step : SessionStep) : Decidable (s.Allows step) :=
  match step with
  | .call v w _ => inferInstanceAs (Decidable (s.graph.Contains v ∧ s.graph.Contains w))
  | .assign _ scope => inferInstanceAs (Decidable (scope.Within s.graph))

instance decidableAllowsAll (s : Session) :
    (steps : List SessionStep) → Decidable (s.AllowsAll steps)
  | [] => .isTrue trivial
  | step :: rest =>
    have _ (after : Session) : Decidable (after.AllowsAll rest) := decidableAllowsAll after rest
    inferInstanceAs
      (Decidable (s.Allows step ∧ ∀ outcome ∈ s.step? step, outcome.2.AllowsAll rest))

variable {s : Session}

theorem Sound.within_scope (sound : s.Sound) (name : String) : (s.scope name).Within s.graph := by
  unfold scope
  cases found : s.scopes.get? name with
  | none =>
    intro key v listed
    cases listed
  | some scope => exact sound.within name scope found

theorem Sound.within_scoping (sound : s.Sound) (choice : ScopeChoice) :
    (s.scoping choice).All (Scope.Within · s.graph) := by
  cases choice with
  | fresh => exact Scoping.within_fresh _
  | common name => exact sound.within_scope name
  | separate left right => exact ⟨sound.within_scope left, sound.within_scope right⟩

theorem Sound.assign (sound : s.Sound) (name : String) {scope : Scope}
    (within : scope.Within s.graph) : (s.assign name scope).Sound where
  wellFormed := sound.wellFormed
  within key scope' found := by
    rw [Session.assign, NameMap.get?_insert] at found
    split at found
    · cases found
      exact within
    · exact sound.within key scope' found

theorem Sound.giveBack (sound : s.Sound) {after : Scoping}
    (within : after.All (Scope.Within · s.graph)) (choice : ScopeChoice) :
    (s.giveBack after choice).Sound := by
  cases choice with
  | fresh => exact sound
  | common name => exact sound.assign name within.left
  | separate left right => exact (sound.assign left within.left).assign right within.right

/-- The graph after a successful unification serves the scopes of the session as well. -/
theorem Sound.yields (sound : s.Sound) {h : Graph} {u : Value} {after : Scoping}
    (yields : s.graph.Yields h u after) : { s with graph := h }.Sound where
  wellFormed := yields.wellFormed
  within name scope found := (sound.within name scope found).mono yields.structs yields.vars

/-- A call ends, in a sound session again, and in the same one if it fails. -/
theorem Sound.exists_call (sound : s.Sound) {v w : Value} (hv : s.graph.Contains v)
    (hw : s.graph.Contains w) (choice : ScopeChoice) :
    ∃ result after, s.call? v w choice = some (result, after) ∧ after.Sound ∧
      ∀ f, result = .error f → after = s := by
  obtain ⟨out, h, ends, leaves⟩ :=
    sound.wellFormed.exists_unify s.limit hv hw (sound.within_scoping choice)
  cases out with
  | ok result =>
    obtain ⟨u, after⟩ := result
    refine ⟨.ok u, { s with graph := h }.giveBack after choice, by simp only [call?, ends], ?_,
      fun f eq => by cases eq⟩
    exact (sound.yields leaves).giveBack leaves.within choice
  | error f =>
    cases leaves
    exact ⟨.error f, s, by simp only [call?, ends], sound, fun _ _ => rfl⟩

theorem Sound.exists_step (sound : s.Sound) {step : SessionStep} (allowed : s.Allows step) :
    ∃ result after, s.step? step = some (result, after) ∧ after.Sound ∧
      ∀ f, result = some (.error f) → after = s := by
  cases step with
  | call v w choice =>
    obtain ⟨result, after, ends, soundAfter, same⟩ := sound.exists_call allowed.1 allowed.2 choice
    refine ⟨some result, after, by simp [step?, ends], soundAfter, fun f eq => ?_⟩
    exact same f (Option.some.inj eq)
  | assign name scope =>
    exact ⟨none, s.assign name scope, rfl, sound.assign name allowed, fun f eq => by cases eq⟩

end Session

def SessionEvent.remaining (events : List SessionEvent) : List SessionEvent :=
  events.filter fun e => !e.failed

namespace Session

theorem run?_cons {s after : Session} {step : SessionStep} {result : Option (Except Failure Value)}
    (taken : s.step? step = some (result, after)) (rest : List SessionStep) :
    s.run? (step :: rest) = (after.run? rest).map ({ step, result, after } :: ·) := by
  simp only [run?, taken]

/-- Every run of allowed steps ends, and so does the run of its remaining steps, with the same
events. -/
theorem Sound.exists_run {s : Session} (sound : s.Sound) {steps : List SessionStep}
    (allowed : s.AllowsAll steps) :
    ∃ events, s.run? steps = some events ∧ events.map SessionEvent.step = steps ∧
      s.run? ((SessionEvent.remaining events).map SessionEvent.step) =
        some (SessionEvent.remaining events) := by
  induction steps generalizing s with
  | nil => exact ⟨[], rfl, rfl, rfl⟩
  | cons step rest ih =>
    obtain ⟨result, after, taken, soundAfter, same⟩ := sound.exists_step allowed.1
    obtain ⟨events, ran, reported, again⟩ := ih soundAfter (allowed.2 (result, after) taken)
    let event : SessionEvent := { step, result, after }
    refine ⟨event :: events, by rw [run?_cons taken, ran]; rfl, by rw [List.map_cons, reported], ?_⟩
    cases failed : event.failed with
    | true =>
      -- the step is left out, and the rest of the run starts from the session before it
      have stays : after = s := by
        unfold SessionEvent.failed at failed
        split at failed
        · next f eq => exact same f eq
        · cases failed
      have skipped : SessionEvent.remaining (event :: events) = SessionEvent.remaining events := by
        simp [SessionEvent.remaining, failed]
      rw [skipped, ← stays]
      exact again
    | false =>
      have kept : SessionEvent.remaining (event :: events) =
          event :: SessionEvent.remaining events := by
        simp [SessionEvent.remaining, failed]
      rw [kept, List.map_cons, run?_cons taken, again]
      rfl

/-- A failed call leaves the whole session as it was. So of every run the steps that did not fail
are a run as well: each of them has the same result and leaves the same graph and scopes as it did
among the failing ones. -/
theorem failures_invisible {s : Session} (sound : s.Sound) :
    (∀ v w choice, s.graph.Contains v → s.graph.Contains w →
      ∃ result after, s.call? v w choice = some (result, after) ∧ after.Sound ∧
        ∀ f, result = .error f → after = s) ∧
    ∀ steps, s.AllowsAll steps →
      ∃ events, s.run? steps = some events ∧ events.map SessionEvent.step = steps ∧
        s.run? ((SessionEvent.remaining events).map SessionEvent.step) =
          some (SessionEvent.remaining events) := by
  constructor
  · intro v w choice hv hw
    exact sound.exists_call hv hw choice
  · intro steps allowed
    exact sound.exists_run allowed

/-- A run on the sample graph in which the first call finds its operands incompatible, the next
one reaches its limit, and the last one succeeds. -/
theorem records_invisible : ∃ events,
    { graph := records, limit := 1 : Session }.run?
        [.call (.struct ⟨1⟩) (.atom (.int 5)) .fresh,
          .assign "both" (.ofList [("n", .atom (.int 1))]),
          .call (.struct ⟨0⟩) (.struct ⟨1⟩) (.common "both"),
          .call (.struct ⟨0⟩) .unspecified (.common "both")] = some events ∧
      events.map SessionEvent.failed = [true, false, true, false] ∧
      { graph := records, limit := 1 : Session }.run?
        [.assign "both" (.ofList [("n", .atom (.int 1))]),
          .call (.struct ⟨0⟩) .unspecified (.common "both")] =
        some (SessionEvent.remaining events) := by
  have sound : { graph := records, limit := 1 : Session }.Sound :=
    ⟨wellFormed_records, fun _ _ found => by cases found⟩
  obtain ⟨events, ran, -, again⟩ := (failures_invisible sound).2
    [.call (.struct ⟨1⟩) (.atom (.int 5)) .fresh,
      .assign "both" (.ofList [("n", .atom (.int 1))]),
      .call (.struct ⟨0⟩) (.struct ⟨1⟩) (.common "both"),
      .call (.struct ⟨0⟩) .unspecified (.common "both")] (by decide +kernel)
  refine ⟨events, ran, ?_, ?_⟩
  · cases ran
    rfl
  · cases ran
    exact again

end Session

end FeatureLogic
