import FeatureLogic.Graph.Correspondence
import FeatureLogic.Graph.Embedding
import FeatureLogic.Proofs.Unification.Stages

/-!
# The copies of two operands

Every value of plain operands has a copy: a structure one with the copies of its features, and a
variable one that the scope lists under its name.
-/

namespace FeatureLogic

open FeatureLogic.Graph

namespace CopiedOperands

variable {g : Graph} {a b : Value} (c : CopiedOperands g a b)

theorem features?_copy {s t : StructId} {features : NameMap Value}
    (hs : g.Operands a b (.struct s)) (copied : c.memory.images.structs.lookup s = some t)
    (found : g.features? s = some features) :
    c.graph.features? t = some (features.map c.image) ∧
      ∀ name v, features.get? name = some v → Imaged c.memory v := by
  obtain ⟨s', features', hs', copied', found', filled, imaged⟩ :=
    c.complete t (c.copies.image copied).1
  cases c.copies.injective hs hs' copied copied'
  cases found.symm.trans found'
  exact ⟨filled, imaged⟩

theorem imaged_of_below {w v : Value} (hw : g.Operands a b w) (known : Imaged c.memory w)
    (below : g.Below w v) : g.Operands a b v ∧ Imaged c.memory v := by
  induction below with
  | refl => exact ⟨hw, known⟩
  | feature _ found holds ih =>
    obtain ⟨hs, t, copied⟩ := ih
    exact ⟨c.source.feature hs found holds, (c.features?_copy hs copied found).2 _ _ holds⟩

theorem imaged {v : Value} (hv : g.Operands a b v) : Imaged c.memory v := by
  rcases hv with below | below
  · exact (c.imaged_of_below (.inl .refl) c.imagedLeft below).2
  · exact (c.imaged_of_below (.inr .refl) c.imagedRight below).2

theorem has_image {v : Value} (hv : g.Operands a b v) : c.region.Has (c.image v) :=
  c.copies.has_apply (c.imaged hv)

theorem image_struct {s t : StructId} (copied : c.memory.images.structs.lookup s = some t) :
    c.image (.struct s) = .struct t := by
  simp [image, Images.apply, copied]

theorem exists_image_var {x : VarId} (hx : g.Operands a b (.var x)) :
    ∃ name y, g.name? x = some name ∧ c.image (.var x) = .var y ∧
      c.memory.scope.get? name = some (.var y) := by
  obtain ⟨name, found⟩ := c.source.free hx
  have called : g.name? x = some name := by simp [name?, found]
  obtain ⟨v, copied⟩ := c.imaged hx
  obtain ⟨y, rfl, -⟩ := c.copies.imageVar copied
  exact ⟨name, y, called, by simp [image, Images.apply, copied],
    c.copies.get?_of_image c.source hx called copied⟩

theorem image_struct_ne {s : StructId} (hs : g.Operands a b (.struct s)) :
    c.image (.struct s) ≠ .unspecified := by
  obtain ⟨t, copied⟩ := c.imaged hs
  rw [c.image_struct copied]
  simp [Value.unspecified]

/-- Only the atom that says nothing has a copy that says nothing, and it goes anywhere. -/
theorem sends_of_image_eq {v : Value} (hv : g.Operands a b v) (silent : c.image v = .unspecified)
    (e : Embedding) (w : Value) : e.Sends g v w := by
  cases v with
  | atom a => exact .inl (Value.atom.inj silent)
  | struct s => exact absurd silent (c.image_struct_ne hv)
  | var x =>
    obtain ⟨_, _, _, image, _⟩ := c.exists_image_var hv
    rw [image] at silent
    cases silent

theorem exists_of_below_image {v u : Value} (hv : g.Operands a b v)
    (below : c.graph.Below (c.image v) u) : ∃ w, g.Below v w ∧ u = c.image w := by
  induction below with
  | refl => exact ⟨v, .refl, rfl⟩
  | @feature t features name u _ found holds ih =>
    obtain ⟨w, below, copy⟩ := ih
    have hw := (c.imaged_of_below hv (c.imaged hv) below).1
    cases w with
    | atom a => cases copy
    | var x =>
      obtain ⟨_, _, _, image, _⟩ := c.exists_image_var hw
      cases copy.trans image
    | struct s =>
      obtain ⟨t', copied⟩ := c.imaged hw
      cases copy.trans (c.image_struct copied)
      obtain ⟨m, found'⟩ := exists_features_of_contains (c.source.contains hw)
      cases found.symm.trans (c.features?_copy hw copied found').1
      rw [NameMap.get?_map, Option.map_eq_some_iff] at holds
      obtain ⟨w, holds, rfl⟩ := holds
      exact ⟨w, .feature below found' holds, rfl⟩

theorem isomorphic_image {v : Value} (hv : g.Operands a b v) :
    g.Isomorphic v c.graph (c.image v) := by
  let copies (s t : StructId) : Prop :=
    g.Operands a b (.struct s) ∧ c.memory.images.structs.lookup s = some t
  have pairs {w : Value} (hw : g.Operands a b w) :
      Pairing.Pairs ⟨copies, SameName g c.graph⟩ g c.graph w (c.image w) := by
    cases w with
    | atom a => exact ⟨_, _, rfl, rfl, rfl⟩
    | struct s =>
      obtain ⟨t, copied⟩ := c.imaged hw
      rw [c.image_struct copied]
      exact ⟨_, _, rfl, rfl, hw, copied⟩
    | var x =>
      obtain ⟨name, y, called, image, listed⟩ := c.exists_image_var hw
      obtain ⟨_, free⟩ := c.source.free hw
      obtain ⟨_, ⟨⟩, -, free'⟩ := c.copies.scope listed
      rw [image]
      exact ⟨_, _, deref?_of_free free, deref?_of_free free', name, called, by simp [name?, free']⟩
  refine ⟨copies, ⟨?_, ?_⟩, ?_, pairs hv⟩
  · rintro s s' t ⟨hs, copied⟩ ⟨hs', copied'⟩
    exact c.copies.injective hs hs' copied copied'
  · rintro s t t' ⟨-, copied⟩ ⟨-, copied'⟩
    exact Option.some.inj (copied.symm.trans copied')
  · rintro s t ⟨hs, copied⟩
    obtain ⟨m, found⟩ := exists_features_of_contains (c.source.contains hs)
    obtain ⟨filled, -⟩ := c.features?_copy hs copied found
    refine ⟨m, _, found, filled, ?_, fun {name w z} holds holds' => ?_⟩
    · simp [NameMap.keys, NameMap.map, Function.comp_def]
    · rw [NameMap.get?_map, holds, Option.map_some] at holds'
      cases holds'
      exact pairs (c.source.feature hs found holds)

end CopiedOperands

end FeatureLogic
