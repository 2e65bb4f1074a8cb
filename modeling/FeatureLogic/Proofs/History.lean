import FeatureLogic.History
import FeatureLogic.Proofs.Copy.Imaging
import FeatureLogic.Proofs.Description.Building
import FeatureLogic.Proofs.Graph.Comparing
import FeatureLogic.Proofs.Join.Stability
import FeatureLogic.Proofs.Unification.Outcome

/-!
# Graphs stay well-formed

Whatever is done to an empty graph, as long as operands and scopes are handles of nodes, every
operation ends and leaves a well-formed graph. While copies are joined for a unification, structures
are absorbed and variables become aliases; after every single write both kinds of pointers still
come to an end, so that every value has a representative.
-/

namespace FeatureLogic

def Operation.Within (g : Graph) : Operation → Prop
  | .readStruct _ => True
  | .readValue _ => True
  | .newStruct features => ∀ e ∈ features, g.Contains e.2
  | .newVar _ => True
  | .copyVar x => g.Contains (.var x)
  | .rename v replaced _ => g.Contains v ∧ g.Replaces replaced
  | .substitute scope v => scope.Within g ∧ g.Contains v
  | .subsumes general specific => g.Contains general ∧ g.Contains specific
  | .unify _ v w scoping _ => g.Contains v ∧ g.Contains w ∧ scoping.All (Scope.Within · g)

namespace Graph

/-- The graphs that come of operations on the empty graph. -/
inductive Reached : Graph → Prop where
  | start : Reached ∅
  | step {g h : Graph} (op : Operation) : Reached g → op.Within g → g.perform? op = some h →
      Reached h

def IsAbsorbed (g : Graph) (s t : StructId) : Prop :=
  ∃ node, g.struct? s = some node ∧ node.absorbedBy = some t

/-- Do all pointers between structures and between variables come to an end? -/
structure Grounded (g : Graph) : Prop where
  structs : WellFounded fun t s => g.IsAbsorbed s t
  vars : WellFounded fun y x => g.IsAlias x y
  survivor : ∀ {s}, g.Contains (.struct s) → ∃ u, g.survivor? s = some u
  root : ∀ {x}, g.Contains (.var x) → ∃ root, g.root? x = some root
  representative : ∀ {v}, g.Contains v → ∃ w, g.representative? v = some w
  deref : ∀ {v}, g.Contains v → ∃ w, g.deref? v = some w

variable {g h : Graph}

theorem grounded_of_closed (closed : h.entirety.Closed g) : g.Grounded := by
  have resolves {v : Value} (contains : g.Contains v) : ∃ w, g.Resolves v w :=
    closed.grounded (entirety_has.2 (contains.mono closed.structCount.le closed.varCount.le))
  refine ⟨?_, wellFounded_isAlias closed, ?_, ?_, ?_, ?_⟩
  · refine Subrelation.wf ?_ (InvImage.wf Value.struct (wellFounded_forwards closed))
    rintro t s ⟨node, found, absorbed⟩
    exact forward?_struct_eq_some.2 ⟨node, t, found, absorbed, rfl⟩
  · intro s contains
    obtain ⟨w, resolves⟩ := resolves contains
    obtain ⟨u, rfl⟩ := path_struct resolves.path
    exact ⟨u, survivor?_eq_some_iff.2 resolves⟩
  · intro x contains
    obtain ⟨w, resolves⟩ := resolves contains
    obtain ⟨root, rfl⟩ := path_var resolves.path
    exact ⟨root, root?_eq_some_iff.2 resolves⟩
  · intro v contains
    obtain ⟨w, resolves⟩ := resolves contains
    exact ⟨w, representative?_eq_some_iff.2 resolves⟩
  · intro v contains
    obtain ⟨w, reads, -⟩ := closed.exists_deref
      (entirety_has.2 (contains.mono closed.structCount.le closed.varCount.le))
    exact ⟨w, reads⟩

theorem WellFormed.partOf_newStruct (wf : g.WellFormed) {features : List (String × Value)}
    (inside : ∀ e ∈ features, g.Contains e.2) : g.PartOf (g.newStruct features).2 := by
  refine (PartOf.refl wf).addStruct fun name v found => ?_
  exact (inside _ (NameMap.mem_of_get?_ofList found)).mono (by simp) (by simp)

theorem WellFormed.exists_subsumes (wf : g.WellFormed) {v w : Value} (hv : g.Contains v)
    (hw : g.Contains w) : ∃ answer h, g.subsumes? v w = some (answer, h) ∧ h.WellFormed := by
  obtain ⟨out, h, ends, leaves⟩ := wf.exists_unify defaultLimit hv hw (Scoping.within_fresh g)
  cases out with
  | error f =>
    cases leaves
    exact ⟨_, g, subsumes?_of_error ends, wf⟩
  | ok result =>
    obtain ⟨u, scoping⟩ := result
    obtain ⟨wf', structs, vars, contains, -⟩ := leaves
    obtain ⟨answer, compared, -⟩ := wf'.equal?_iff contains (hw.mono structs vars)
    exact ⟨.ok answer, h, subsumes?_of_ok ends compared, wf'⟩

theorem WellFormed.exists_unifyCached (wf : g.WellFormed) (limit : Nat) {v w : Value}
    (hv : g.Contains v) (hw : g.Contains w) {scoping : Scoping}
    (within : scoping.All (Scope.Within · g)) (cache : Cache) :
    ∃ out h cache', g.unifyCached? limit v w scoping cache = some (out, h, cache') ∧
      h.WellFormed := by
  cases known : cache.get? v w with
  | some entry =>
    obtain ⟨out, ends⟩ := unifyCached?_of_some known
    exact ⟨out, g, cache, ends, wf⟩
  | none =>
    obtain ⟨out, h, ends, leaves⟩ := wf.exists_unify limit hv hw within
    exact ⟨out, h, _, unifyCached?_of_none known ends, leaves.wellFormed wf⟩

/-- Every operation ends and leaves a well-formed graph. -/
theorem WellFormed.exists_perform (wf : g.WellFormed) {op : Operation} (within : op.Within g) :
    ∃ h, g.perform? op = some h ∧ h.WellFormed := by
  have received {result : Except SyntaxError Value × Graph} (receives : g.Receives result) :
      result.2.WellFormed := by
    obtain ⟨result, h⟩ := result
    cases result with
    | error e =>
      cases receives
      exact wf
    | ok v => exact receives.1.wellFormed
  cases op with
  | readStruct text => exact ⟨_, rfl, received (wf.receives_readStruct text)⟩
  | readValue text => exact ⟨_, rfl, received (wf.receives_readValue text)⟩
  | newStruct features => exact ⟨_, rfl, (wf.partOf_newStruct within).wellFormed⟩
  | newVar name? => exact ⟨_, rfl, wf.addVar _⟩
  | copyVar x =>
    obtain ⟨y, h, copied, part, -⟩ := wf.exists_copyVar within
    exact ⟨h, by simp [perform?, copied], part.wellFormed⟩
  | rename v replaced used =>
    obtain ⟨w, replaced', h, renamed, part, -⟩ := wf.exists_rename within.1 within.2 used
    exact ⟨h, by simp [perform?, renamed], part.wellFormed⟩
  | substitute scope v =>
    obtain ⟨w, h, substituted, part, -⟩ := Scope.exists_substitute wf within.1 within.2
    exact ⟨h, by simp [perform?, substituted], part.wellFormed⟩
  | subsumes general specific =>
    obtain ⟨answer, h, ends, wf'⟩ := wf.exists_subsumes within.1 within.2
    exact ⟨h, by simp [perform?, ends], wf'⟩
  | unify limit v w scoping cache =>
    obtain ⟨out, h, cache', ends, wf'⟩ :=
      wf.exists_unifyCached limit within.1 within.2.1 within.2.2 cache
    exact ⟨h, by simp [perform?, ends], wf'⟩

theorem Reached.wellFormed (reached : g.Reached) : g.WellFormed := by
  induction reached with
  | start => exact wellFormed_empty
  | step op _ within performed ih =>
    obtain ⟨h, ends, wf⟩ := ih.exists_perform within
    cases ends.symm.trans performed
    exact wf

/-- Do all pointers come to an end in every graph that the join of two values goes through? These
graphs are made one by one from that of the copies, up to the one that the join leaves. -/
def JoinsGrounded (g : Graph) (limit : Nat) (a b : Value) (scoping : Scoping) : Prop :=
  ∃ v w copied start, g.copyOperands a b scoping = some (v, w, copied, start) ∧
    let graphs := (Traced.joinWithin limit limit [] v w).graphs { graph := start }
    Traced.Makes start graphs
        (Traced.left (Join.joinWithin limit limit [] v w { graph := start })) ∧
      ∀ k ∈ start :: graphs, k.Grounded

theorem WellFormed.joinsGrounded (wf : g.WellFormed) (limit : Nat) {a b : Value}
    (ha : g.Contains a) (hb : g.Contains b) {scoping : Scoping}
    (within : scoping.All (Scope.Within · g)) : g.JoinsGrounded limit a b scoping := by
  obtain ⟨v, w, copied, start, walked, copies⟩ := wf.exists_copyOperands ha hb within
  refine ⟨v, w, copied, start, walked, ?_, fun k mem => ?_⟩
  · have makes := Traced.tracks_joinWithin limit limit [] v w { graph := start }
    rwa [Traced.run_joinWithin] at makes
  · rcases List.mem_cons.1 mem with rfl | mem
    · exact grounded_of_closed copies.wellFormed.closed
    · exact grounded_of_closed (Traced.stable_joinWithin limit limit [] v w _
        copies.invariant_entirety copies.ready_entirety k mem)

/-- A graph reached from the empty one is well-formed. Dereferencing a value of it once is enough,
every operation on it ends in such a graph again, and while two of its values are joined every
search for a representative ends. -/
theorem reached_sound {g : Graph} (reached : g.Reached) :
    g.WellFormed ∧
      (∀ {v}, g.Contains v → ∃ w, g.deref? v = some w ∧ g.deref? w = some w) ∧
      (∀ {op : Operation}, op.Within g → ∃ h, g.perform? op = some h ∧ h.Reached) ∧
      ∀ {limit a b scoping}, g.Contains a → g.Contains b → scoping.All (Scope.Within · g) →
        g.JoinsGrounded limit a b scoping := by
  have wf := reached.wellFormed
  refine ⟨wf, fun {v} inside => ?_, fun {op} within => ?_,
    fun {limit a b scoping} ha hb within => ?_⟩
  · obtain ⟨w, reads, -⟩ := wf.exists_deref inside
    exact ⟨w, reads, wf.deref?_deref? reads⟩
  · obtain ⟨h, performed, -⟩ := wf.exists_perform within
    exact ⟨h, performed, reached.step op within performed⟩
  · exact wf.joinsGrounded limit ha hb within

/-- A variable is put into a structure under two names and this unified with a structure that knows
more about one of them. -/
theorem records_reached : ∃ g : Graph, g.Reached ∧ g.structCount = 4 ∧ g.WellFormed ∧
    (∀ {v}, g.Contains v → ∃ w, g.deref? v = some w ∧ g.deref? w = some w) ∧
    (∀ {op : Operation}, op.Within g → ∃ h, g.perform? op = some h ∧ h.Reached) ∧
    ∀ {limit a b scoping}, g.Contains a → g.Contains b → scoping.All (Scope.Within · g) →
      g.JoinsGrounded limit a b scoping := by
  have named := Reached.start.step (.newVar (some "n")) trivial rfl
  have shared := named.step (.newStruct [("left", .var ⟨0⟩), ("right", .var ⟨0⟩)])
    (by simp [Operation.Within]; decide) rfl
  have more := shared.step (.newStruct [("right", .atom (.int 1))])
    (by simp [Operation.Within]; decide) rfl
  have unified := more.step (.unify 50 (.struct ⟨0⟩) (.struct ⟨1⟩) .fresh ∅)
    ⟨by decide, by decide, by decide, by decide⟩ rfl
  exact ⟨_, unified, rfl, reached_sound unified⟩

end Graph

end FeatureLogic
