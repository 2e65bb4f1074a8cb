import FeatureLogic.Proofs.Graph.Growth
import FeatureLogic.Proofs.Graph.Nodes

/-!
# The region of a join

A join works on nodes that were added for it. In a closed region no handle leads out of the added
nodes, every added node resolves to one of them, and a bound variable holds a structure or an atom
that says something. Each write of a join keeps the region closed and the nodes before it as they
were.
-/

namespace FeatureLogic

/-- The nodes that were added to a graph, up to a given number of structures and variables. -/
structure Region where
  before : Graph
  endStruct : Nat
  endVar : Nat

namespace Region

variable {r : Region} {g : Graph}

def Has (r : Region) : Value → Prop
  | .atom _ => True
  | .struct s => r.before.structCount ≤ s.index ∧ s.index < r.endStruct
  | .var x => r.before.varCount ≤ x.index ∧ x.index < r.endVar

structure Frames (r : Region) (g : Graph) : Prop where
  struct : ∀ {s : StructId}, s.index < r.before.structCount → g.struct? s = r.before.struct? s
  var : ∀ {x : VarId}, x.index < r.before.varCount → g.var? x = r.before.var? x

structure Closed (r : Region) (g : Graph) : Prop where
  structCount : g.structCount = r.endStruct
  varCount : g.varCount = r.endVar
  frames : r.Frames g
  feature : ∀ {s m name v}, r.Has (.struct s) → g.features? s = some m → m.get? name = some v →
    r.Has v
  forward : ∀ {v w}, r.Has v → g.forward? v = some w → r.Has w
  content : ∀ {v c}, r.Has v → g.content? v = some c → r.Has c ∧ c.Informative
  grounded : ∀ {v}, r.Has v → ∃ w, g.Resolves v w

theorem Closed.contains (closed : r.Closed g) {v : Value} (has : r.Has v) : g.Contains v := by
  cases v with
  | atom a => trivial
  | struct s => exact has.2.trans_le closed.structCount.ge
  | var x => exact has.2.trans_le closed.varCount.ge

theorem Closed.has_of_path (closed : r.Closed g) {v w : Value} (has : r.Has v)
    (path : Relation.ReflTransGen g.Forwards v w) : r.Has w := by
  induction path with
  | refl => exact has
  | tail _ step ih => exact closed.forward ih step

theorem Closed.exists_features (closed : r.Closed g) {s : StructId} (has : r.Has (.struct s)) :
    ∃ m, g.features? s = some m :=
  Graph.exists_features_of_contains (closed.contains has)

theorem Closed.exists_var (closed : r.Closed g) {x : VarId} (has : r.Has (.var x)) :
    ∃ node, g.var? x = some node :=
  Graph.exists_var_of_contains (closed.contains has)

theorem Closed.exists_struct (closed : r.Closed g) {s : StructId} (has : r.Has (.struct s)) :
    ∃ node, g.struct? s = some node :=
  Graph.exists_struct_of_contains (closed.contains has)

/-- Every value keeps a node to resolve to when a single pointer is changed to lead to such a
node. -/
theorem exists_resolves_of_update {g h : Graph} {p : Value}
    (contains : ∀ {v}, g.Contains v → h.Contains v)
    (other : ∀ {u}, u ≠ p → h.forward? u = g.forward? u) (resolved : ∃ w, h.Resolves p w)
    {v w : Value} (before : g.Resolves v w) : ∃ w', h.Resolves v w' := by
  obtain ⟨path, stops, inside⟩ := before
  induction path using Relation.ReflTransGen.head_induction_on with
  | refl =>
    by_cases hp : w = p
    · exact hp ▸ resolved
    · exact ⟨w, .refl, (other hp).trans stops, contains inside⟩
  | @head a c step _ ih =>
    by_cases hp : a = p
    · exact hp ▸ resolved
    · obtain ⟨w', path, stops, inside⟩ := ih
      exact ⟨w', .head ((other hp).trans step) path, stops, inside⟩

theorem Frames.setFeature (frames : r.Frames g) {s : StructId} (has : r.Has (.struct s))
    (name : String) (v : Value) : r.Frames (g.setFeature s name v) where
  struct {t} old := by
    have ne : s ≠ t := by
      rintro rfl
      exact absurd has.1 (Nat.not_le.2 old)
    simpa [Graph.setFeature, Graph.struct?_modifyStruct, ne] using frames.struct old
  var old := frames.var old

theorem Frames.absorb (frames : r.Frames g) (s : StructId) {t : StructId}
    (has : r.Has (.struct t)) : r.Frames (g.absorb s t) where
  struct {u} old := by
    have ne : t ≠ u := by
      rintro rfl
      exact absurd has.1 (Nat.not_le.2 old)
    simpa [Graph.absorb, Graph.struct?_modifyStruct, ne] using frames.struct old
  var old := frames.var old

theorem Frames.setBinding (frames : r.Frames g) {x : VarId} (has : r.Has (.var x))
    (binding : Binding) : r.Frames (g.setBinding x binding) where
  struct old := frames.struct old
  var {y} old := by
    have ne : x ≠ y := by
      rintro rfl
      exact absurd has.1 (Nat.not_le.2 old)
    simpa [Graph.var?_setBinding, ne] using frames.var old

theorem Frames.truncate (frames : r.Frames g) :
    g.truncate r.before.structCount r.before.varCount = r.before := by
  have structs : (g.truncate r.before.structCount r.before.varCount).structs =
      r.before.structs := by
    refine Array.ext_getElem? fun i => ?_
    have taken := g.struct?_truncate r.before.structCount r.before.varCount ⟨i⟩
    split at taken
    · next old => exact taken.trans (frames.struct old)
    · next new =>
      exact taken.trans ((r.before.struct?_eq_none_iff ⟨i⟩).2 (Nat.le_of_not_lt new)).symm
  have vars : (g.truncate r.before.structCount r.before.varCount).vars = r.before.vars := by
    refine Array.ext_getElem? fun i => ?_
    have taken := g.var?_truncate r.before.structCount r.before.varCount ⟨i⟩
    split at taken
    · next old => exact taken.trans (frames.var old)
    · next new =>
      exact taken.trans ((r.before.var?_eq_none_iff ⟨i⟩).2 (Nat.le_of_not_lt new)).symm
  exact congr (congrArg Graph.mk structs) vars

theorem Frames.var?_eq_some (frames : r.Frames g) {x : VarId} {node : Variable}
    (found : r.before.var? x = some node) : g.var? x = some node :=
  (frames.var (Graph.contains_of_var? found)).trans found

theorem Frames.features?_eq_some (frames : r.Frames g) {s : StructId} {m : NameMap Value}
    (found : r.before.features? s = some m) : g.features? s = some m := by
  rw [Graph.features?, frames.struct (Graph.contains_of_features? found), ← Graph.features?, found]

theorem Frames.path_var (frames : r.Frames g) {x : VarId} {w : Value}
    (path : Relation.ReflTransGen r.before.Forwards (.var x) w) :
    Relation.ReflTransGen g.Forwards (.var x) w := by
  induction path with
  | refl => exact .refl
  | tail before step ih =>
    obtain ⟨y, rfl⟩ := Graph.path_var before
    obtain ⟨node, z, found, holds, rfl⟩ := Graph.forward?_var_eq_some.1 step
    exact ih.tail (Graph.forward?_var_eq_some.2 ⟨node, z, frames.var?_eq_some found, holds, rfl⟩)

theorem Frames.deref?_eq_some (frames : r.Frames g) {v w : Value}
    (reads : r.before.deref? v = some w) : g.deref? v = some w := by
  cases v with
  | atom a => exact reads
  | struct s => exact reads
  | var x =>
    simp only [Graph.deref?, Option.bind_eq_bind, Option.bind_eq_some_iff, Option.pure_def,
      Option.some.injEq] at reads ⊢
    obtain ⟨root, chased, node, found, rfl⟩ := reads
    obtain ⟨path, stops, -⟩ := Graph.root?_eq_some_iff.1 chased
    have found' := frames.var?_eq_some found
    have contains : g.Contains (.var root) := Graph.contains_of_var? found'
    refine ⟨root, Graph.root?_eq_some_iff.2 ⟨frames.path_var path, ?_, contains⟩, node, found', rfl⟩
    simp only [Graph.forward?, found, found'] at stops ⊢
    exact stops

theorem Closed.setFeature (closed : r.Closed g) {s : StructId} (has : r.Has (.struct s))
    (name : String) {u : Value} (hasValue : r.Has u) : r.Closed (g.setFeature s name u) where
  structCount := by simp [closed.structCount]
  varCount := by simp [closed.varCount]
  frames := closed.frames.setFeature has name u
  feature {t m key v} hasTarget found holds := by
    rw [Graph.features?_setFeature] at found
    split at found
    · obtain ⟨m', found', rfl⟩ := Option.map_eq_some_iff.1 found
      rw [NameMap.get?_insert] at holds
      split at holds
      · cases holds
        exact hasValue
      · exact closed.feature hasTarget found' holds
    · exact closed.feature hasTarget found holds
  forward hasValue step := closed.forward hasValue (by simpa using step)
  content hasValue held := closed.content hasValue (by simpa using held)
  grounded {v} hasValue := by
    obtain ⟨w, resolves⟩ := closed.grounded hasValue
    exact ⟨w, (Graph.GrowsTo.setFeature g s name u).path resolves.path,
      by simpa using resolves.stops, resolves.contains.mono (by simp) (by simp)⟩

theorem Closed.forward?_absorb (closed : r.Closed g) {t : StructId} (has : r.Has (.struct t))
    (s : StructId) : (g.absorb s t).forward? (.struct t) = some (.struct s) := by
  obtain ⟨node, found⟩ := closed.exists_struct has
  simp [Graph.forward?_absorb, found]

theorem Closed.forward?_link (closed : r.Closed g) {x : VarId} (has : r.Has (.var x))
    (y : VarId) : (g.setBinding x (.link y)).forward? (.var x) = some (.var y) := by
  obtain ⟨node, found⟩ := closed.exists_var has
  simp [Graph.forward?_setBinding, found, Binding.alias?]

theorem Closed.absorb (closed : r.Closed g) {s t : StructId} (hasSurvivor : r.Has (.struct s))
    (has : r.Has (.struct t)) (unabsorbed : g.forward? (.struct s) = none) (ne : s ≠ t) :
    r.Closed (g.absorb s t) where
  structCount := by simp [closed.structCount]
  varCount := by simp [closed.varCount]
  frames := closed.frames.absorb s has
  feature hasTarget found holds :=
    closed.feature hasTarget (by rwa [Graph.features?_absorb] at found) holds
  forward {v w} hasValue step := by
    rw [Graph.forward?_absorb] at step
    split at step
    · obtain ⟨_, _, rfl⟩ := Option.map_eq_some_iff.1 step
      exact hasSurvivor
    · exact closed.forward hasValue step
  content hasValue held := closed.content hasValue (by simpa using held)
  grounded {v} hasValue := by
    obtain ⟨w, resolves⟩ := closed.grounded hasValue
    have contains {u : Value} (inside : g.Contains u) : (g.absorb s t).Contains u :=
      inside.mono (by simp) (by simp)
    refine exists_resolves_of_update contains (p := .struct t) (fun {u} other => ?_) ?_ resolves
    · rw [Graph.forward?_absorb, if_neg other]
    · refine ⟨.struct s, .single (closed.forward?_absorb has s), ?_,
        contains (closed.contains hasSurvivor)⟩
      rw [Graph.forward?_absorb, if_neg (by simpa using ne), unabsorbed]

theorem Closed.link (closed : r.Closed g) {x y : VarId} (has : r.Has (.var x))
    (hasRoot : r.Has (.var y)) (root : g.forward? (.var y) = none) (ne : x ≠ y) :
    r.Closed (g.setBinding x (.link y)) where
  structCount := closed.structCount
  varCount := by simp [closed.varCount]
  frames := closed.frames.setBinding has _
  feature hasTarget found holds := closed.feature hasTarget found holds
  forward {v w} hasValue step := by
    rw [Graph.forward?_setBinding] at step
    split at step
    · simp only [Binding.alias?, Option.map_some, Option.bind_eq_some_iff,
        Option.some.injEq] at step
      obtain ⟨_, _, rfl⟩ := step
      exact hasRoot
    · exact closed.forward hasValue step
  content {v c} hasValue held := by
    rw [Graph.content?_setBinding] at held
    split at held
    · simp [Binding.value?] at held
    · exact closed.content hasValue held
  grounded {v} hasValue := by
    obtain ⟨w, resolves⟩ := closed.grounded hasValue
    have contains {u : Value} (inside : g.Contains u) : (g.setBinding x (.link y)).Contains u :=
      inside.mono (by simp) (by simp)
    refine exists_resolves_of_update contains (p := .var x) (fun {u} other => ?_) ?_ resolves
    · rw [Graph.forward?_setBinding, if_neg other]
    · refine ⟨.var y, .single (closed.forward?_link has y), ?_,
        contains (closed.contains hasRoot)⟩
      rw [Graph.forward?_setBinding, if_neg (by simpa using ne.symm), root]

theorem Closed.bind (closed : r.Closed g) {x : VarId} (has : r.Has (.var x))
    (root : g.forward? (.var x) = none) {u : Value} (hasValue : r.Has u)
    (informative : u.Informative) : r.Closed (g.setBinding x (.bound u)) := by
  have forward := Graph.forward?_bind_of_root root u
  have forwards : (g.setBinding x (.bound u)).Forwards = g.Forwards := by
    funext v w
    rw [Graph.Forwards, forward, Graph.Forwards]
  refine ⟨closed.structCount, by simp [closed.varCount], closed.frames.setBinding has _,
    closed.feature, fun {v w} hasValue step => closed.forward hasValue (forward v ▸ step),
    fun {v c} hasVar held => ?_, fun {v} hasValue => ?_⟩
  · rw [Graph.content?_setBinding] at held
    split at held
    · simp only [Binding.value?, Option.bind_eq_some_iff, Option.some.injEq] at held
      obtain ⟨_, _, rfl⟩ := held
      exact ⟨hasValue, informative⟩
    · exact closed.content hasVar held
  · obtain ⟨w, path, stops, inside⟩ := closed.grounded hasValue
    exact ⟨w, forwards ▸ path, (forward w).trans stops, inside.mono (by simp) (by simp)⟩

end Region

end FeatureLogic
