import FeatureLogic.Proofs.Join.Region

/-!
# What a value settles to

In a joined graph a value settles to what its bindings and pointers lead to in the end: an atom, a
structure that was not absorbed, or a free variable. Values that settle to the same node are what
the join has made equal.
-/

namespace FeatureLogic

namespace Graph

/-- Does the end of the pointers from `v`, or what it holds, resolve to `w`? -/
def Settles (g : Graph) (v w : Value) : Prop :=
  ∃ z, g.Resolves v z ∧ g.Resolves ((g.content? z).getD z) w

/-- Do two values settle to the same node? -/
def Equates (g : Graph) (v w : Value) : Prop := ∀ z, g.Settles v z ↔ g.Settles w z

variable {g : Graph}

theorem equates_equivalence (g : Graph) : Equivalence g.Equates where
  refl _ _ := Iff.rfl
  symm h z := (h z).symm
  trans huv hvw z := (huv z).trans (hvw z)

theorem Equates.refl (g : Graph) (v : Value) : g.Equates v v := fun _ => Iff.rfl

theorem Equates.symm {v w : Value} (h : g.Equates v w) : g.Equates w v := fun z => (h z).symm

theorem Equates.trans {u v w : Value} (huv : g.Equates u v) (hvw : g.Equates v w) :
    g.Equates u w := fun z => (huv z).trans (hvw z)

theorem resolves_atom (g : Graph) (a : Atom) : g.Resolves (.atom a) (.atom a) :=
  ⟨.refl, rfl, trivial⟩

theorem Resolves.self {v w : Value} (h : g.Resolves v w) : g.Resolves w w :=
  ⟨.refl, h.stops, h.contains⟩

theorem Settles.unique {v w w' : Value} (h : g.Settles v w) (h' : g.Settles v w') : w = w' := by
  obtain ⟨z, root, held⟩ := h
  obtain ⟨z', root', held'⟩ := h'
  cases root.unique root'
  exact held.unique held'

theorem Same.equates {v w : Value} (h : g.Same v w) : g.Equates v w := by
  intro z
  constructor
  · rintro ⟨root, resolves, held⟩
    exact ⟨root, h.symm.resolves resolves, held⟩
  · rintro ⟨root, resolves, held⟩
    exact ⟨root, h.resolves resolves, held⟩

theorem Resolves.equates {v w : Value} (h : g.Resolves v w) : g.Equates v w := h.same.equates

theorem equates_of_forward? {v w : Value} (h : g.forward? v = some w) : g.Equates v w :=
  (same_of_path (.single h)).equates

theorem settles_iff_of_informative {v w : Value} (informative : v.Informative) :
    g.Settles v w ↔ g.Resolves v w := by
  have empty {z : Value} (resolves : g.Resolves v z) : g.content? z = none := by
    cases v with
    | atom a => rw [path_atom resolves.path]; rfl
    | struct s =>
      obtain ⟨t, rfl⟩ := path_struct resolves.path
      rfl
    | var x => exact informative.elim
  constructor
  · rintro ⟨z, resolves, held⟩
    rw [empty resolves, Option.getD_none] at held
    exact ⟨resolves.path.trans held.path, held.stops, held.contains⟩
  · intro resolves
    refine ⟨w, resolves, ?_⟩
    rw [empty resolves]
    exact resolves.self

theorem equates_of_content? {v c : Value} (held : g.content? v = some c)
    (informative : c.Informative) : g.Equates v c := by
  have stops := forward?_of_content? held
  have contains : g.Contains v := by
    cases v with
    | atom a => trivial
    | struct s => cases held
    | var x =>
      obtain ⟨node, found, -⟩ := content?_var_eq_some.1 held
      exact contains_of_var? found
  intro z
  rw [settles_iff_of_informative informative]
  constructor
  · rintro ⟨root, resolves, settled⟩
    cases resolves.unique ⟨.refl, stops, contains⟩
    rwa [held] at settled
  · intro resolves
    refine ⟨v, ⟨.refl, stops, contains⟩, ?_⟩
    rwa [held]

end Graph

namespace Region

open FeatureLogic.Graph

variable {r : Region} {g : Graph}

/-- What a value settles to is a node that stands for itself. -/
structure Settled (r : Region) (g : Graph) (w : Value) : Prop where
  has : r.Has w
  stops : g.forward? w = none
  empty : g.content? w = none

/-- In a closed region every value settles. -/
theorem Closed.exists_settles (closed : r.Closed g) {v : Value} (has : r.Has v) :
    ∃ w, g.Settles v w := by
  obtain ⟨z, root⟩ := closed.grounded has
  have hasZ := closed.has_of_path has root.path
  cases held : g.content? z with
  | none => exact ⟨z, z, root, by rw [held]; exact root.self⟩
  | some c =>
    obtain ⟨w, resolves⟩ := closed.grounded (closed.content hasZ held).1
    exact ⟨w, z, root, by rw [held]; exact resolves⟩

theorem Closed.settled (closed : r.Closed g) {v w : Value} (has : r.Has v)
    (settles : g.Settles v w) : r.Settled g w := by
  obtain ⟨z, root, held⟩ := settles
  have hasZ := closed.has_of_path has root.path
  cases content : g.content? z with
  | none =>
    rw [content, Option.getD_none] at held
    cases held.unique root.self
    exact ⟨hasZ, root.stops, content⟩
  | some c =>
    obtain ⟨hasC, informative⟩ := closed.content hasZ content
    rw [content, Option.getD_some] at held
    refine ⟨closed.has_of_path hasC held.path, held.stops, ?_⟩
    cases c with
    | atom a => rw [path_atom held.path]; rfl
    | struct s =>
      obtain ⟨t, rfl⟩ := path_struct held.path
      rfl
    | var x => exact informative.elim

theorem Settled.settles {w : Value} (settled : r.Settled g w) (contains : g.Contains w) :
    g.Settles w w := by
  have self : g.Resolves w w := ⟨.refl, settled.stops, contains⟩
  refine ⟨w, self, ?_⟩
  rw [settled.empty]
  exact self

theorem Closed.settles_self (closed : r.Closed g) {v w : Value} (has : r.Has v)
    (settles : g.Settles v w) : g.Settles w w :=
  (closed.settled has settles).settles (closed.contains (closed.settled has settles).has)

theorem Closed.equates_of_settles (closed : r.Closed g) {v w : Value} (has : r.Has v)
    (settles : g.Settles v w) : g.Equates v w := by
  intro z
  have self := closed.settles_self has settles
  constructor
  · intro settles'
    rwa [settles'.unique settles]
  · intro settles'
    rwa [settles'.unique self]

theorem settles_atom (g : Graph) (a : Atom) : g.Settles (.atom a) (.atom a) :=
  ⟨.atom a, resolves_atom g a, resolves_atom g a⟩

theorem Closed.ne_unspecified_of_settles (closed : r.Closed g) {x : VarId} {w : Value}
    (has : r.Has (.var x)) (settles : g.Settles (.var x) w) : w ≠ .unspecified := by
  obtain ⟨z, root, held⟩ := settles
  obtain ⟨y, rfl⟩ := path_var root.path
  cases content : g.content? (.var y) with
  | none =>
    rw [content, Option.getD_none] at held
    cases held.unique root.self
    simp [Value.unspecified]
  | some c =>
    have informative := (closed.content (closed.has_of_path has root.path) content).2
    rw [content, Option.getD_some] at held
    exact (held.informative_iff.2 informative).ne_unspecified

theorem Closed.exists_deref (closed : r.Closed g) {v : Value} (has : r.Has v) :
    ∃ w, g.deref? v = some w ∧ r.Has w ∧ g.Equates v w ∧
      ((∀ s, w ≠ .struct s) → g.Settles v w) := by
  cases v with
  | atom a => exact ⟨.atom a, rfl, has, .refl g _, fun _ => settles_atom g a⟩
  | struct s => exact ⟨.struct s, rfl, has, .refl g _, fun h => absurd rfl (h s)⟩
  | var x =>
    obtain ⟨z, resolves⟩ := closed.grounded has
    obtain ⟨root, rfl⟩ := path_var resolves.path
    have hasRoot := closed.has_of_path has resolves.path
    refine ⟨_, deref?_of_resolves resolves, ?_⟩
    cases held : g.content? (.var root) with
    | none =>
      exact ⟨hasRoot, resolves.equates, fun _ => ⟨_, resolves, by rw [held]; exact resolves.self⟩⟩
    | some c =>
      obtain ⟨hasC, informative⟩ := closed.content hasRoot held
      refine ⟨hasC, resolves.equates.trans (equates_of_content? held informative), fun other => ?_⟩
      cases c with
      | atom a => exact ⟨_, resolves, by rw [held]; exact resolves_atom g a⟩
      | struct s => exact absurd rfl (other s)
      | var y => exact informative.elim

theorem Settled.deref? {w : Value} (settled : r.Settled g w) (contains : g.Contains w) :
    g.deref? w = some w := by
  cases w with
  | atom a => rfl
  | struct s => rfl
  | var x => rw [deref?_of_resolves ⟨.refl, settled.stops, contains⟩, settled.empty]; rfl

theorem Settled.free {x : VarId} (settled : r.Settled g (.var x)) (contains : g.Contains (.var x)) :
    ∃ name, g.var? x = some { name } := by
  obtain ⟨⟨name, binding⟩, found⟩ := exists_var_of_contains contains
  cases binding with
  | free => exact ⟨name, found⟩
  | link y =>
    have pointer := forward?_var_eq_some.2 ⟨_, y, found, rfl, rfl⟩
    cases settled.stops.symm.trans pointer
  | bound v =>
    have held := content?_var_eq_some.2 ⟨_, found, rfl⟩
    cases settled.empty.symm.trans held

end Region

end FeatureLogic
