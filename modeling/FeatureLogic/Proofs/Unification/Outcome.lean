import FeatureLogic.Proofs.Copy.Scoped
import FeatureLogic.Proofs.Join.Execution
import FeatureLogic.Proofs.NormalForm.Normalization

/-!
# What a unification leaves behind

In a well-formed graph the unification of any two values under any scopes ends. A join works on
copies only, so that giving up the copies undoes all of it. A success keeps the graph well-formed,
and its result and its scopes lead to nodes of the graph.
-/

namespace FeatureLogic

namespace Graph

open Join

/-- What a successful unification in `g` has made of the graph, with its result and its scopes. -/
structure Yields (g h : Graph) (u : Value) (scoping : Scoping) : Prop where
  wellFormed : h.WellFormed
  structs : g.structCount ≤ h.structCount
  vars : g.varCount ≤ h.varCount
  contains : h.Contains u
  within : scoping.All (Scope.Within · h)

def Leaves (g h : Graph) : Except Failure (Value × Scoping) → Prop
  | .ok (u, scoping) => g.Yields h u scoping
  | .error _ => h = g

variable {g h k : Graph} {v w u : Value} {copied : Scoping} {st : JoinState}

theorem Leaves.wellFormed (wf : g.WellFormed) {out : Except Failure (Value × Scoping)}
    (leaves : g.Leaves h out) : h.WellFormed := by
  cases out with
  | ok result => exact Yields.wellFormed leaves
  | error f =>
    cases leaves
    exact wf

namespace OperandCopies

variable (copies : g.OperandCopies h v w copied)

include copies

theorem invariant : Invariant (g.added h) { graph := h } :=
  ⟨copies.closed, fun mem => by cases mem⟩

theorem ready : (Task.join v w).Ready (g.added h) h := ⟨copies.left, copies.right⟩

theorem invariant_entirety : Invariant h.entirety { graph := h } :=
  ⟨copies.wellFormed.closed, fun mem => by cases mem⟩

theorem ready_entirety : (Task.join v w).Ready h.entirety h :=
  ⟨entirety_has.2 (contains_of_added copies.left),
    entirety_has.2 (contains_of_added copies.right)⟩

theorem truncate_of_fails {f : Failure} (run : Runs (.join v w) { graph := h } (.error f) st) :
    st.graph.truncate g.structCount g.varCount = g := by
  have frames : (g.added h).Frames st.graph := run.keeps copies.invariant copies.ready
  exact frames.truncate

end OperandCopies

/-- What the normal form of joined copies is: `joined` is the graph at the end of the join, in which
the added nodes are closed among themselves. -/
structure NormalForm (g h joined : Graph) (u : Value) (copied : Scoping) (result : Value)
    (scoping : Scoping) (final : Graph) (visited : List StructId) : Prop where
  added : (g.added h).Closed joined
  hasOutcome : (g.added h).Has u
  whole : h.entirety.Closed joined
  inside : copied.All fun scope => ∀ name v, scope.get? name = some v → h.entirety.Has v
  settles : joined.Settles u result
  normal : h.entirety.Normal joined final visited result
  scopes : copied.Related (Region.ScopeSettles joined visited) scoping

/-- A join of the copies that succeeds is brought into normal form. -/
theorem OperandCopies.exists_normal_form (copies : g.OperandCopies h v w copied)
    (run : Runs (.join v w) { graph := h } (.ok u) st) :
    ∃ result scoping final visited, st.graph.normalize u copied = some (result, scoping, final) ∧
      NormalForm g h st.graph u copied result scoping final visited := by
  have confined := run.keeps copies.invariant copies.ready
  have success := run.keeps copies.invariant_entirety copies.ready_entirety
  have inside : copied.All fun scope => ∀ name v, scope.get? name = some v → h.entirety.Has v :=
    copies.within.imp fun scope within name v found => entirety_has.2 (within name v found)
  obtain ⟨result, scoping, final, visited, normalized, settles, normal, related⟩ :=
    Region.exists_normalize success.invariant.closed success.has inside
  exact ⟨result, scoping, final, visited, normalized, confined.invariant.closed, confined.has,
    success.invariant.closed, inside, settles, normal, related⟩

namespace NormalForm

variable {joined final : Graph} {result : Value} {scoping : Scoping} {visited : List StructId}
  (form : NormalForm g h joined u copied result scoping final visited)

include form

/-- Everything below the result is settled, and every structure below it was visited. -/
theorem settles_of_below {w : Value} (below : final.Below result w) :
    h.entirety.Has w ∧ joined.Settles w w ∧ ∀ t, w = .struct t → t ∈ visited := by
  have has := entirety_has.2 (contains_of_added form.hasOutcome)
  exact form.normal.settles_of_below (form.whole.settled has form.settles).has
    (form.whole.settles_self has form.settles) form.normal.reached below

theorem deref?_self {w : Value} (has : h.entirety.Has w) (settles : joined.Settles w w) :
    final.deref? w = some w :=
  (form.normal.settled form.whole has settles).deref?
    (form.normal.settling.reshapes.closed.contains has)

theorem settles_features {t : StructId} (entered : t ∈ visited) {m n : NameMap Value}
    (before : joined.features? t = some m) (after : final.features? t = some n) (name : String) :
    Option.Rel joined.Settles (m.get? name) (n.get? name) := by
  have reshapes := form.normal.settling.reshapes
  have has := (form.normal.settling.inside t entered).1
  cases held : m.get? name with
  | none =>
    cases held' : n.get? name with
    | none => exact .none
    | some w =>
      obtain ⟨v, ⟨m', found, holds⟩, -⟩ := reshapes.origin has ⟨n, after, held'⟩
      cases before.symm.trans found
      cases held.symm.trans holds
  | some v =>
    obtain ⟨w, ⟨n', found, holds⟩, updates⟩ := reshapes.kept has ⟨m, before, held⟩
    cases after.symm.trans found
    rw [holds]
    exact .some ((updates.same w).2 (form.normal.tidy t entered name w ⟨n, after, holds⟩).1)

end NormalForm

/-- What is in normal form yields a well-formed graph. -/
theorem NormalForm.yields {joined final : Graph} {result : Value} {scoping : Scoping}
    {visited : List StructId} (wf : g.WellFormed) (copies : g.OperandCopies h v w copied)
    (form : NormalForm g h joined u copied result scoping final visited) :
    g.Yields (final.forgetAbsorbed g.structCount) result scoping := by
  have reshapes := form.normal.settling.reshapes
  have structs : final.structCount = h.structCount := reshapes.closed.structCount
  have vars : final.varCount = h.varCount := reshapes.closed.varCount
  have whole : final.entirety = h.entirety := by rw [entirety, entirety, structs, vars]
  have contains {v : Value} (has : h.entirety.Has v) :
      (final.forgetAbsorbed g.structCount).Contains v :=
    (entirety_has.1 (whole ▸ has)).mono (by simp) (by simp)
  refine ⟨?_, ?_, ?_, ?_, ?_⟩
  · refine wellFormed_forgetAbsorbed (whole ▸ reshapes.closed) fun {s node} old found => ?_
    -- the join of the copies absorbs no structure from before
    have live : joined.forward? (.struct s) = none := by
      rw [forward?, form.added.frames.struct old]
      exact wf.forward?_struct s
    have stops := (reshapes.forward (.struct s)).trans live
    cases absorbed : node.absorbedBy with
    | none => rfl
    | some t => cases stops.symm.trans (forward?_struct_eq_some.2 ⟨node, t, found, absorbed, rfl⟩)
  · rw [structCount_forgetAbsorbed, structs]
    exact copies.structs
  · rw [varCount_forgetAbsorbed, vars]
    exact copies.vars
  · have has := entirety_has.2 (contains_of_added (form.hasOutcome))
    exact contains (form.whole.settled has form.settles).has
  · refine form.scopes.imp_all (fun before after settles inside name v found => ?_) form.inside
    obtain ⟨c, listed, settled, -⟩ := settles.exists_of_get? found
    exact contains (form.whole.settled (inside name c listed) settled).has

section Ends

variable {a b : Value} {scoping : Scoping} {limit : Nat} {join : Value → Value → Join Value}
  (copies : g.OperandCopies h v w copied)
  (walked : g.copyOperands a b scoping = some (v, w, copied, h))

include copies walked

theorem OperandCopies.unifyWith?_of_error {f : Failure}
    (ends : join v w { graph := h } = .error (.failure f) st)
    (run : Runs (.join v w) { graph := h } (.error f) st) :
    g.unifyWith? join a b scoping = some (.error f, g) := by
  have failed : g.unifyWith? join a b scoping =
      some (.error f, st.graph.truncate g.structCount g.varCount) := by
    simp [unifyWith?, walked, ends]
  rw [failed, copies.truncate_of_fails run]

theorem OperandCopies.exists_unifyWith?_of_ok (ends : join v w { graph := h } = .ok u st)
    (run : Runs (.join v w) { graph := h } (.ok u) st) :
    ∃ result after final visited,
      g.unifyWith? join a b scoping =
        some (.ok (result, after), final.forgetAbsorbed g.structCount) ∧
      NormalForm g h st.graph u copied result after final visited := by
  obtain ⟨result, after, final, visited, normalized, form⟩ := copies.exists_normal_form run
  refine ⟨result, after, final, visited, ?_, form⟩
  simp [unifyWith?, walked, ends, normalized]

theorem OperandCopies.unify?_of_error {f : Failure}
    (ends : joinWithin limit limit [] v w { graph := h } = .error (.failure f) st)
    (run : Runs (.join v w) { graph := h } (.error f) st) :
    g.unify? limit a b scoping = some (.error f, g) :=
  copies.unifyWith?_of_error walked ends run

theorem OperandCopies.exists_unify?_of_ok
    (ends : joinWithin limit limit [] v w { graph := h } = .ok u st)
    (run : Runs (.join v w) { graph := h } (.ok u) st) :
    ∃ result after final visited,
      g.unify? limit a b scoping =
        some (.ok (result, after), final.forgetAbsorbed g.structCount) ∧
      NormalForm g h st.graph u copied result after final visited :=
  copies.exists_unifyWith?_of_ok walked ends run

end Ends

/-- How the unification of any two values can end: in a failure that leaves the graph as it was, or
in the normal form of the joined copies. -/
inductive Concludes (g : Graph) (limit : Nat) (a b : Value) (scoping : Scoping) :
    Except Failure (Value × Scoping) × Graph → Prop where
  | fails {f : Failure} : Concludes g limit a b scoping (.error f, g)
  | succeeds {h final : Graph} {v w u result : Value} {copied after : Scoping} {st : JoinState}
      {visited : List StructId} : g.copyOperands a b scoping = some (v, w, copied, h) →
      g.OperandCopies h v w copied →
      joinWithin limit limit [] v w { graph := h } = .ok u st →
      NormalForm g h st.graph u copied result after final visited →
      Concludes g limit a b scoping (.ok (result, after), final.forgetAbsorbed g.structCount)

theorem WellFormed.exists_concludes (wf : g.WellFormed) (limit : Nat) {a b : Value}
    (ha : g.Contains a) (hb : g.Contains b) {scoping : Scoping}
    (within : scoping.All (Scope.Within · g)) :
    ∃ result, g.unify? limit a b scoping = some result ∧
      g.Concludes limit a b scoping result := by
  obtain ⟨v, w, copied, h, walked, copies⟩ := wf.exists_copyOperands ha hb within
  obtain ⟨out, st, ends, run⟩ := executes_joinWithin limit limit [] v w { graph := h }
    copies.invariant copies.ready
  cases out with
  | error f => exact ⟨(.error f, g), copies.unify?_of_error walked ends run, .fails⟩
  | ok u =>
    obtain ⟨result, after, final, visited, done, form⟩ :=
      copies.exists_unify?_of_ok walked ends run
    exact ⟨_, done, .succeeds walked copies ends form⟩

/-- The unification of any two values of a well-formed graph ends, and either leaves the graph as
it was or yields a value of a well-formed graph that has all the old handles. -/
theorem WellFormed.exists_unify (wf : g.WellFormed) (limit : Nat) {a b : Value}
    (ha : g.Contains a) (hb : g.Contains b) {scoping : Scoping}
    (within : scoping.All (Scope.Within · g)) :
    ∃ out g', g.unify? limit a b scoping = some (out, g') ∧ g.Leaves g' out := by
  obtain ⟨⟨out, g'⟩, ends, how⟩ := wf.exists_concludes limit ha hb within
  refine ⟨out, g', ends, ?_⟩
  cases how with
  | fails => exact rfl
  | succeeds _ copies _ form => exact form.yields wf copies

end Graph

end FeatureLogic
