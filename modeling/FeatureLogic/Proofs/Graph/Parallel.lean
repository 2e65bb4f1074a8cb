import FeatureLogic.Proofs.Graph.Mirroring

/-!
# Graphs that are parallel

Two graphs with the same nodes and the same pointers are parallel if they hold, in the same places,
values that are identified. What values resolve or settle to is then the same in both, and writes
of identified values in the same places keep them parallel.
-/

namespace FeatureLogic

namespace Graph

def SameMaps (g : Graph) (m n : NameMap Value) : Prop :=
  ∀ name, Option.Rel g.Same (m.get? name) (n.get? name)

/-- Has `h` the pointers of `g`, and values identified by them in the same places? -/
structure Parallels (g h : Graph) : Prop where
  structCount : h.structCount = g.structCount
  varCount : h.varCount = g.varCount
  forward : ∀ v, h.forward? v = g.forward? v
  features : ∀ s, Option.Rel g.SameMaps (g.features? s) (h.features? s)
  content : ∀ v, Option.Rel g.Same (g.content? v) (h.content? v)

theorem SameMaps.getD {g : Graph} {m n : NameMap Value} (maps : g.SameMaps m n) (name : String) :
    g.Same ((m.get? name).getD .unspecified) ((n.get? name).getD .unspecified) := by
  have related := maps name
  generalize m.get? name = v at related
  generalize n.get? name = w at related
  cases related with
  | none => exact .refl g .unspecified
  | some same => exact same

theorem rel_same_refl (g : Graph) (v : Option Value) : Option.Rel g.Same v v := by
  cases v with
  | none => exact .none
  | some v => exact .some (.refl g v)

namespace Parallels

variable {g h : Graph} {v v' w w' u u' : Value}

theorem refl (g : Graph) : g.Parallels g where
  structCount := rfl
  varCount := rfl
  forward _ := rfl
  features s := by
    cases g.features? s with
    | none => exact .none
    | some m => exact .some fun name => rel_same_refl g (m.get? name)
  content v := rel_same_refl g (g.content? v)

variable (parallels : g.Parallels h)

include parallels

theorem contains_iff : h.Contains v ↔ g.Contains v :=
  ⟨.mono parallels.structCount.le parallels.varCount.le,
    .mono parallels.structCount.ge parallels.varCount.ge⟩

theorem forwards_eq : h.Forwards = g.Forwards := by
  funext v w
  rw [Forwards, parallels.forward, Forwards]

theorem resolves_iff : h.Resolves v w ↔ g.Resolves v w := by
  constructor
  · rintro ⟨path, stops, contains⟩
    exact ⟨parallels.forwards_eq ▸ path, parallels.forward w ▸ stops,
      parallels.contains_iff.1 contains⟩
  · rintro ⟨path, stops, contains⟩
    exact ⟨parallels.forwards_eq.symm ▸ path, (parallels.forward w).trans stops,
      parallels.contains_iff.2 contains⟩

/-- Identified values resolve to one node, whichever of the graphs they are read in. -/
theorem resolves_eq (same : g.Same v v') (left : g.Resolves v w) (right : h.Resolves v' w') :
    w' = w :=
  (same.resolves (parallels.resolves_iff.1 right)).unique left

theorem settles_eq (same : g.Same v v') (left : g.Settles v w) (right : h.Settles v' w') :
    w' = w := by
  obtain ⟨z, root, held⟩ := left
  obtain ⟨z', root', held'⟩ := right
  cases parallels.resolves_eq same root root'
  refine parallels.resolves_eq ?_ held held'
  have content := parallels.content z
  generalize g.content? z = c at content
  generalize h.content? z = c' at content
  cases content with
  | none => exact .refl g z
  | some same => exact same

theorem root_eq {x y z : VarId} (left : g.root? x = some y) (right : h.root? x = some z) :
    z = y := by
  have eq := parallels.resolves_eq (.refl g (.var x)) (root?_eq_some_iff.1 left)
    (root?_eq_some_iff.1 right)
  simpa using eq

theorem survivor_eq {s t u : StructId} (left : g.survivor? s = some t)
    (right : h.survivor? s = some u) : u = t := by
  have eq := parallels.resolves_eq (.refl g (.struct s)) (survivor?_eq_some_iff.1 left)
    (survivor?_eq_some_iff.1 right)
  simpa using eq

theorem representative_eq (same : g.Same v v') (left : g.representative? v = some w)
    (right : h.representative? v' = some w') : w' = w :=
  parallels.resolves_eq same (representative?_eq_some_iff.1 left)
    (representative?_eq_some_iff.1 right)

theorem sameMaps {s : StructId} {m n : NameMap Value} (left : g.features? s = some m)
    (right : h.features? s = some n) : g.SameMaps m n := by
  have features := parallels.features s
  rw [left, right] at features
  cases features with
  | some maps => exact maps

theorem rel_value {x : VarId} {node node' : Variable} (left : g.var? x = some node)
    (right : h.var? x = some node') :
    Option.Rel g.Same node.binding.value? node'.binding.value? := by
  rw [← content?_eq_value? left, ← content?_eq_value? right]
  exact parallels.content (.var x)

theorem map_struct {α : Type} (s : StructId) (a : α) :
    (h.struct? s).map (fun _ => a) = (g.struct? s).map fun _ => a := by
  have absent : h.struct? s = none ↔ g.struct? s = none := by
    rw [struct?_eq_none_iff, struct?_eq_none_iff, parallels.structCount]
  cases left : g.struct? s with
  | none => rw [absent.2 left]
  | some node =>
    cases right : h.struct? s with
    | none => cases left.symm.trans (absent.1 right)
    | some node' => rfl

theorem bind_var {α : Type} (x : VarId) (a : Option α) :
    ((h.var? x).bind fun _ => a) = (g.var? x).bind fun _ => a := by
  have absent : h.var? x = none ↔ g.var? x = none := by
    rw [var?_eq_none_iff, var?_eq_none_iff, parallels.varCount]
  cases left : g.var? x with
  | none => rw [absent.2 left]
  | some node =>
    cases right : h.var? x with
    | none => cases left.symm.trans (absent.1 right)
    | some node' => rfl

theorem setFeature (s : StructId) (name : String) (same : g.Same u u') :
    (g.setFeature s name u).Parallels (h.setFeature s name u') where
  structCount := by simp [parallels.structCount]
  varCount := by simp [parallels.varCount]
  forward v := by simp [parallels.forward]
  features t := by
    have grows := GrowsTo.setFeature g s name u
    have features := parallels.features t
    rw [features?_setFeature, features?_setFeature]
    generalize g.features? t = m at features
    generalize h.features? t = n at features
    cases features with
    | none => split <;> exact .none
    | some maps =>
      split
      · refine .some fun key => ?_
        rw [NameMap.get?_insert, NameMap.get?_insert]
        split
        · exact .some (grows.same same)
        · exact Pairing.rel_imp grows.same (maps key)
      · exact .some fun key => Pairing.rel_imp grows.same (maps key)
  content v := by
    have grows := GrowsTo.setFeature g s name u
    simpa using Pairing.rel_imp grows.same (parallels.content v)

theorem absorb (s : StructId) {t : StructId} (live : g.forward? (.struct t) = none) :
    (g.absorb s t).Parallels (h.absorb s t) where
  structCount := by simp [parallels.structCount]
  varCount := by simp [parallels.varCount]
  forward v := by
    rw [forward?_absorb, forward?_absorb, parallels.forward, parallels.map_struct]
  features u := by
    have grows : g.GrowsTo (g.absorb s t) := .absorb live
    rw [features?_absorb, features?_absorb]
    exact Pairing.rel_imp (fun maps name => Pairing.rel_imp grows.same (maps name))
      (parallels.features u)
  content v := by
    have grows : g.GrowsTo (g.absorb s t) := .absorb live
    simpa using Pairing.rel_imp grows.same (parallels.content v)

theorem setBinding {x : VarId} (root : g.forward? (.var x) = none) {binding binding' : Binding}
    (pointers : binding'.alias? = binding.alias?)
    (values : Option.Rel g.Same binding.value? binding'.value?) :
    (g.setBinding x binding).Parallels (h.setBinding x binding') where
  structCount := parallels.structCount
  varCount := by simp [parallels.varCount]
  forward v := by
    rw [forward?_setBinding, forward?_setBinding, parallels.forward, parallels.bind_var, pointers]
  features s := by
    have same {v w : Value} : g.Same v w → (g.setBinding x binding).Same v w :=
      .mono (forward?_setBinding_of_root root binding)
    exact Pairing.rel_imp (fun maps name => Pairing.rel_imp same (maps name))
      (parallels.features s)
  content v := by
    have same {v w : Value} : g.Same v w → (g.setBinding x binding).Same v w :=
      .mono (forward?_setBinding_of_root root binding)
    rw [content?_setBinding, content?_setBinding, parallels.bind_var]
    split
    · cases g.var? x with
      | none => exact .none
      | some node => exact Pairing.rel_imp same values
    · exact Pairing.rel_imp same (parallels.content v)

theorem link {x : VarId} (root : g.forward? (.var x) = none) (y : VarId) :
    (g.setBinding x (.link y)).Parallels (h.setBinding x (.link y)) :=
  parallels.setBinding root rfl .none

theorem bind {x : VarId} (root : g.forward? (.var x) = none) (same : g.Same u u') :
    (g.setBinding x (.bound u)).Parallels (h.setBinding x (.bound u')) :=
  parallels.setBinding root rfl (.some same)

/-- A variable may be bound again, on one side only, to what is identified with its value. -/
theorem rebind {x : VarId} {c : Value} (held : g.content? (.var x) = some c) (same : g.Same c u) :
    g.Parallels (h.setBinding x (.bound u)) where
  structCount := parallels.structCount
  varCount := by simp [parallels.varCount]
  forward v := by
    have root := (parallels.forward (.var x)).trans (forward?_of_content? held)
    rw [forward?_bind_of_root root, parallels.forward]
  features := parallels.features
  content v := by
    rw [content?_setBinding, parallels.bind_var]
    split
    · next eq =>
      obtain ⟨node, found, -⟩ := content?_var_eq_some.1 held
      rw [eq, held, found]
      exact .some same
    · exact parallels.content v

end Parallels

end Graph

end FeatureLogic
