import FeatureLogic.Proofs.Graph.Nodes
import FeatureLogic.Proofs.Graph.Settlement
import FeatureLogic.Proofs.Join.Congruence
import FeatureLogic.Unification.NormalForm

/-!
# Reshaping a region

Both walks of the normal form only write values that settle to the same node as the values written
over, and what is settled they leave alone. A reshaped graph has the pointers of the original one,
and every value settles in it to what it settled to before.
-/

namespace FeatureLogic

namespace Graph

/-- May `w` take the place of `v`? Both settle to the same node, and what is settled stays. -/
structure Updates (g : Graph) (v w : Value) : Prop where
  same : g.Equates v w
  still : g.Settles v v → w = v

theorem Updates.refl (g : Graph) (v : Value) : g.Updates v v := ⟨.refl g v, fun _ => rfl⟩

theorem Updates.trans {g : Graph} {u v w : Value} (first : g.Updates u v)
    (second : g.Updates v w) : g.Updates u w where
  same := first.same.trans second.same
  still settled := by
    cases first.still settled
    exact second.still settled

end Graph

namespace Region

open FeatureLogic.Graph

/-- Does `h` differ from `g` only in that features and bindings hold equated values? -/
structure Reshapes (r : Region) (g h : Graph) : Prop where
  closed : r.Closed h
  name : ∀ x, h.name? x = g.name? x
  forward : ∀ v, h.forward? v = g.forward? v
  empty : ∀ {v}, r.Has v → g.content? v = none → h.content? v = none
  content : ∀ {v c}, r.Has v → g.content? v = some c →
    ∃ c', h.content? v = some c' ∧ g.Equates c c'
  kept : ∀ {s name v}, r.Has (.struct s) → g.Feature s name v →
    ∃ v', h.Feature s name v' ∧ g.Updates v v'
  origin : ∀ {s name v'}, r.Has (.struct s) → h.Feature s name v' →
    ∃ v, g.Feature s name v ∧ g.Updates v v'

variable {r : Region} {g h : Graph}

theorem Reshapes.refl (closed : r.Closed g) : r.Reshapes g g where
  closed := closed
  name _ := rfl
  forward _ := rfl
  empty _ h := h
  content {_ c} _ held := ⟨c, held, .refl g c⟩
  kept {_ _ v} _ feature := ⟨v, feature, .refl g v⟩
  origin {_ _ v} _ feature := ⟨v, feature, .refl g v⟩

theorem Reshapes.contains (reshapes : r.Reshapes g h) (closed : r.Closed g) {v : Value} :
    h.Contains v ↔ g.Contains v := by
  have structs := reshapes.closed.structCount.trans closed.structCount.symm
  have vars := reshapes.closed.varCount.trans closed.varCount.symm
  cases v with
  | atom a => rfl
  | struct s => simp only [Contains, structs]
  | var x => simp only [Contains, vars]

theorem Reshapes.forwards_eq (reshapes : r.Reshapes g h) : h.Forwards = g.Forwards := by
  funext v w
  rw [Forwards, reshapes.forward, Forwards]

theorem Reshapes.resolves (reshapes : r.Reshapes g h) (closed : r.Closed g) {v w : Value} :
    h.Resolves v w ↔ g.Resolves v w := by
  constructor
  · intro resolves
    exact ⟨reshapes.forwards_eq ▸ resolves.path, reshapes.forward w ▸ resolves.stops,
      (reshapes.contains closed).1 resolves.contains⟩
  · intro resolves
    exact ⟨reshapes.forwards_eq ▸ resolves.path, (reshapes.forward w).trans resolves.stops,
      (reshapes.contains closed).2 resolves.contains⟩

theorem Reshapes.settles (reshapes : r.Reshapes g h) (closed : r.Closed g) {v w : Value}
    (has : r.Has v) : h.Settles v w ↔ g.Settles v w := by
  obtain ⟨z, root⟩ := closed.grounded has
  have root' := (reshapes.resolves closed).2 root
  have hasZ := closed.has_of_path has root.path
  have iff : g.Resolves ((g.content? z).getD z) w ↔ h.Resolves ((h.content? z).getD z) w := by
    cases held : g.content? z with
    | none =>
      rw [reshapes.empty hasZ held]
      exact (reshapes.resolves closed).symm
    | some c =>
      obtain ⟨c', held', same⟩ := reshapes.content hasZ held
      rw [held', Option.getD_some, Option.getD_some, reshapes.resolves closed,
        ← settles_iff_of_informative (closed.content hasZ held).2,
        ← settles_iff_of_informative (reshapes.closed.content hasZ held').2]
      exact same w
  constructor
  · rintro ⟨z', resolves, settled⟩
    cases resolves.unique root'
    exact ⟨z, root, iff.2 settled⟩
  · rintro ⟨z', resolves, settled⟩
    cases resolves.unique root
    exact ⟨z, root', iff.1 settled⟩

theorem Reshapes.features?_eq (reshapes : r.Reshapes g h) {s : StructId} (has : r.Has (.struct s))
    {m : NameMap Value} (found : g.features? s = some m)
    (settled : ∀ {name v}, m.get? name = some v → g.Settles v v) : h.features? s = some m := by
  obtain ⟨n, found'⟩ := reshapes.closed.exists_features has
  rw [found', Option.some.injEq]
  refine NameMap.ext fun name => ?_
  cases held : m.get? name with
  | some v =>
    obtain ⟨v', ⟨n', stored, holds⟩, updates⟩ := reshapes.kept has ⟨m, found, held⟩
    cases found'.symm.trans stored
    rw [holds, updates.still (settled held)]
  | none =>
    cases held' : n.get? name with
    | none => rfl
    | some v' =>
      obtain ⟨v, ⟨m', stored, holds⟩, -⟩ := reshapes.origin has ⟨n, found', held'⟩
      cases found.symm.trans stored
      cases held.symm.trans holds

/-- A feature may be set to a value that may take the place of the one that it had at first. -/
theorem Reshapes.setFeature (reshapes : r.Reshapes g h) {s : StructId} {name : String}
    {v w : Value} (has : r.Has (.struct s)) (hasW : r.Has w) (feature : g.Feature s name v)
    (updates : g.Updates v w) : r.Reshapes g (h.setFeature s name w) where
  closed := reshapes.closed.setFeature has name hasW
  name := reshapes.name
  forward u := (forward?_setFeature h s name w u).trans (reshapes.forward u)
  empty hasU held := by simpa using reshapes.empty hasU held
  content hasU held := by simpa using reshapes.content hasU held
  kept {t key u} hasT feature' := by
    obtain ⟨u', now, same'⟩ := reshapes.kept hasT feature'
    refine ⟨_, now.setFeature s name w, ?_⟩
    split
    · next written =>
      obtain ⟨rfl, rfl⟩ := written
      cases feature.unique feature'
      exact updates
    · exact same'
  origin hasT feature' := by
    rcases feature'.of_setFeature with ⟨⟨rfl, rfl⟩, rfl⟩ | ⟨-, now⟩
    · exact ⟨v, feature, updates⟩
    · exact reshapes.origin hasT now

theorem Reshapes.bind (reshapes : r.Reshapes g h) {x : VarId} {c w : Value} (has : r.Has (.var x))
    (hasW : r.Has w) (informative : w.Informative) (held : g.content? (.var x) = some c)
    (same : g.Equates c w) : r.Reshapes g (h.setBinding x (.bound w)) := by
  have root : h.forward? (.var x) = none :=
    (reshapes.forward _).trans (forward?_of_content? held)
  have content (u : Value) : (h.setBinding x (.bound w)).content? u =
      if u = .var x then some w else h.content? u := by
    obtain ⟨node, found⟩ := reshapes.closed.exists_var has
    rw [content?_setBinding, found]
    rfl
  refine ⟨reshapes.closed.bind has root hasW informative, ?_, ?_, ?_, ?_, reshapes.kept,
    reshapes.origin⟩
  · intro y
    rw [name?_setBinding, reshapes.name]
  · intro u
    rw [forward?_bind_of_root root, reshapes.forward]
  · intro u hasU empty
    rw [content, if_neg]
    · exact reshapes.empty hasU empty
    · rintro rfl
      rw [empty] at held
      cases held
  · intro u c' hasU held'
    rw [content]
    split
    · next eq =>
      cases eq
      cases held.symm.trans held'
      exact ⟨w, rfl, same⟩
    · exact reshapes.content hasU held'

end Region

end FeatureLogic
