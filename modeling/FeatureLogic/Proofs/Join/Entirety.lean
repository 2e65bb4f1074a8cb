import FeatureLogic.Proofs.Graph.Forgetting
import FeatureLogic.Proofs.Graph.Settlement

/-!
# All nodes as a region

A graph is well-formed exactly if its nodes are a closed region and none of them is absorbed. So
whatever keeps regions closed keeps graphs well-formed, and what ends in closed regions ends in
well-formed graphs.
-/

namespace FeatureLogic.Graph

def entirety (g : Graph) : Region := ⟨∅, g.structCount, g.varCount⟩

variable {g : Graph}

@[simp] theorem entirety_has {v : Value} : g.entirety.Has v ↔ g.Contains v := by
  cases v with
  | atom a => exact Iff.rfl
  | struct s => exact ⟨fun has => has.2, fun contains => ⟨Nat.zero_le _, contains⟩⟩
  | var x => exact ⟨fun has => has.2, fun contains => ⟨Nat.zero_le _, contains⟩⟩

theorem entirety_frames (g h : Graph) : g.entirety.Frames h where
  struct old := absurd old (Nat.not_lt_zero _)
  var old := absurd old (Nat.not_lt_zero _)

theorem WellFormed.forward?_struct (wf : g.WellFormed) (s : StructId) :
    g.forward? (.struct s) = none := by
  cases step : g.forward? (.struct s) with
  | none => rfl
  | some w =>
    obtain ⟨node, t, found, absorbed, -⟩ := forward?_struct_eq_some.1 step
    rw [wf.unabsorbed found] at absorbed
    cases absorbed

theorem WellFormed.exists_resolves (wf : g.WellFormed) {v : Value} (contains : g.Contains v) :
    ∃ w, g.Resolves v w := by
  cases v with
  | atom a => exact ⟨.atom a, resolves_atom g a⟩
  | struct s => exact ⟨.struct s, .refl, wf.forward?_struct s, contains⟩
  | var x =>
    induction x using wf.acyclic.induction with
    | h x ih =>
      cases step : g.forward? (.var x) with
      | none => exact ⟨.var x, .refl, step, contains⟩
      | some w =>
        obtain ⟨node, y, found, holds, rfl⟩ := forward?_var_eq_some.1 step
        have isAlias : g.IsAlias x y := ⟨node, found, holds⟩
        obtain ⟨w, resolves⟩ := ih y isAlias (wf.link isAlias)
        exact ⟨w, .head step resolves.path, resolves.stops, resolves.contains⟩

theorem WellFormed.closed (wf : g.WellFormed) : g.entirety.Closed g where
  structCount := rfl
  varCount := rfl
  frames := entirety_frames g g
  feature {s m name v} _ found holds := by
    obtain ⟨node, present, rfl⟩ := Option.map_eq_some_iff.1 found
    exact entirety_has.2 (wf.feature present holds)
  forward {v w} _ step := by
    rw [entirety_has]
    cases v with
    | atom a => cases step
    | struct s =>
      rw [wf.forward?_struct s] at step
      cases step
    | var x =>
      obtain ⟨node, y, found, holds, rfl⟩ := forward?_var_eq_some.1 step
      exact wf.link ⟨node, found, holds⟩
  content {v c} _ held := by
    rw [entirety_has]
    cases v with
    | atom a => cases held
    | struct s => cases held
    | var x =>
      obtain ⟨node, found, holds⟩ := content?_var_eq_some.1 held
      exact wf.bound found holds
  grounded has := wf.exists_resolves (entirety_has.1 has)

theorem WellFormed.exists_deref (wf : g.WellFormed) {v : Value} (contains : g.Contains v) :
    ∃ w, g.deref? v = some w ∧ g.Contains w := by
  obtain ⟨w, reads, has, -⟩ := wf.closed.exists_deref (entirety_has.2 contains)
  exact ⟨w, reads, entirety_has.1 has⟩

theorem WellFormed.exists_path (wf : g.WellFormed) {v : Value} (inside : g.Contains v)
    (path : List String) : ∃ found, g.path? v path = some found := by
  induction path generalizing v with
  | nil =>
    obtain ⟨w, reads, -⟩ := wf.exists_deref inside
    exact ⟨some w, by rw [path?_nil, reads, Option.map_some]⟩
  | cons name path ih =>
    obtain ⟨w, reads, insideW⟩ := wf.exists_deref inside
    cases w with
    | atom a => exact ⟨none, by simp [path?, reads]⟩
    | var x => exact ⟨none, by simp [path?, reads]⟩
    | struct s =>
      obtain ⟨node, stored⟩ := exists_struct_of_contains insideW
      have found : g.features? s = some node.features := by simp [features?, stored]
      rw [path?_cons_struct reads found]
      cases held : node.features.get? name with
      | none => exact ⟨none, rfl⟩
      | some child => exact ih (wf.feature stored held)

theorem WellFormed.free_of_deref? (wf : g.WellFormed) {x y : VarId}
    (reads : g.deref? (.var x) = some (.var y)) : ∃ name, g.var? y = some { name } := by
  have self := wf.deref?_deref? reads
  simp only [deref?, Option.bind_eq_bind, Option.bind_eq_some_iff, Option.pure_def,
    Option.some.injEq] at self
  obtain ⟨root, chased, ⟨name, binding⟩, found, holds⟩ := self
  obtain ⟨node, found', notAlias⟩ := chase_ends chased
  cases found.symm.trans found'
  cases binding with
  | free =>
    cases holds
    exact ⟨name, found⟩
  | link z => exact absurd rfl (notAlias z)
  | bound v =>
    simp only [Binding.value?, Option.getD_some] at holds
    subst holds
    exact (wf.bound found rfl).2.elim

theorem WellFormed.deref?_of_isAlias (wf : g.WellFormed) {x y : VarId} (isAlias : g.IsAlias x y) :
    g.deref? (.var x) = g.deref? (.var y) := by
  obtain ⟨w, resolves⟩ := wf.exists_resolves (v := .var y) (wf.link isAlias)
  obtain ⟨root, rfl⟩ := path_var resolves.path
  obtain ⟨node, found, holds⟩ := isAlias
  have step : g.forward? (.var x) = some (.var y) :=
    forward?_var_eq_some.2 ⟨node, y, found, holds, rfl⟩
  have resolves' : g.Resolves (.var x) (.var root) :=
    ⟨.head step resolves.path, resolves.stops, resolves.contains⟩
  rw [deref?_of_resolves resolves, deref?_of_resolves resolves']

theorem acc_of_path {v w : Value} (path : Relation.ReflTransGen g.Forwards v w)
    (stops : g.forward? w = none) : Acc (fun u v => g.Forwards v u) v := by
  induction path using Relation.ReflTransGen.head_induction_on with
  | refl =>
    constructor
    intro u step
    cases stops.symm.trans step
  | head step _ ih =>
    constructor
    intro u step'
    cases step.symm.trans step'
    exact ih

theorem contains_of_forward? {v w : Value} (step : g.forward? v = some w) : g.Contains v := by
  cases v with
  | atom a => trivial
  | struct s =>
    obtain ⟨node, t, found, -⟩ := forward?_struct_eq_some.1 step
    exact contains_of_struct? found
  | var x =>
    obtain ⟨node, y, found, -⟩ := forward?_var_eq_some.1 step
    exact contains_of_var? found

theorem wellFounded_forwards {h : Graph} (closed : h.entirety.Closed g) :
    WellFounded fun w v => g.Forwards v w := by
  refine ⟨fun v => ?_⟩
  cases step : g.forward? v with
  | none => exact acc_of_path .refl step
  | some w =>
    have contains : h.Contains v :=
      (contains_of_forward? step).mono closed.structCount.le closed.varCount.le
    obtain ⟨w, resolves⟩ := closed.grounded (entirety_has.2 contains)
    exact acc_of_path resolves.path resolves.stops

theorem wellFounded_isAlias {h : Graph} (closed : h.entirety.Closed g) :
    WellFounded fun y x => g.IsAlias x y := by
  refine Subrelation.wf ?_ (InvImage.wf Value.var (wellFounded_forwards closed))
  rintro y x ⟨node, found, holds⟩
  exact forward?_var_eq_some.2 ⟨node, y, found, holds, rfl⟩

/-- A closed graph is well-formed once its absorbed structures are forgotten, if none of them is
among the first `start` structures. -/
theorem wellFormed_forgetAbsorbed (closed : g.entirety.Closed g) {start : Nat}
    (unabsorbed : ∀ {s node}, s.index < start → g.struct? s = some node →
      node.absorbedBy = none) : (g.forgetAbsorbed start).WellFormed where
  feature {s node name v} found holds := by
    have found' : g.features? s = some node.features := by
      rw [← features?_forgetAbsorbed g start, features?, found]
      rfl
    have has := closed.feature (entirety_has.2 (contains_of_features? found')) found' holds
    exact (entirety_has.1 has).mono (by simp) (by simp)
  unabsorbed {s node} found := by
    rw [struct?_forgetAbsorbed] at found
    split at found
    · obtain ⟨_, _, rfl⟩ := Option.map_eq_some_iff.1 found
      rfl
    · next old => exact unabsorbed (Nat.lt_of_not_le old) found
  bound {x node v} found holds := by
    obtain ⟨has, informative⟩ := closed.content (v := .var x)
      (entirety_has.2 (contains_of_var? found)) (content?_var_eq_some.2 ⟨node, found, holds⟩)
    exact ⟨(entirety_has.1 has).mono (by simp) (by simp), informative⟩
  link {x y} := by
    rintro ⟨node, found, holds⟩
    exact entirety_has.1 (closed.forward (v := .var x) (w := .var y)
      (entirety_has.2 (contains_of_var? found))
      (forward?_var_eq_some.2 ⟨node, y, found, holds, rfl⟩))
  acyclic := show WellFounded fun y x => g.IsAlias x y from wellFounded_isAlias closed

end FeatureLogic.Graph
