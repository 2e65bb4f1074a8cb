import FeatureLogic.Graph.Reachability
import Mathlib.Logic.Relator

/-!
# Correspondence of graphs

Two values look alike when the structures below them can be paired so that paired structures have
the same features with values that look alike in turn. If no structure has two partners the values
are isomorphic: they share substructure in the same places.
-/

namespace Relator

variable {α β γ : Type} {r r' : α → β → Prop} {q : β → γ → Prop}

theorem biUnique_eq : BiUnique (Eq (α := α)) :=
  ⟨fun _ _ _ first second => first.trans second.symm,
    fun _ _ _ first second => first.symm.trans second⟩

theorem biUnique_single (a : α) (b : β) : BiUnique fun c d => c = a ∧ d = b :=
  ⟨fun _ _ _ first second => first.1.trans second.1.symm,
    fun _ _ _ first second => first.2.trans second.2.symm⟩

protected theorem BiUnique.flip (h : BiUnique r) : BiUnique (flip r) :=
  ⟨fun _ _ _ first second => h.2 first second, h.1.flip⟩

theorem BiUnique.mono (h : BiUnique r) (imp : ∀ {a b}, r' a b → r a b) : BiUnique r' :=
  ⟨fun _ _ _ first second => h.1 (imp first) (imp second),
    fun _ _ _ first second => h.2 (imp first) (imp second)⟩

theorem BiUnique.comp (h : BiUnique r) (h' : BiUnique q) :
    BiUnique fun a c => ∃ b, r a b ∧ q b c := by
  constructor
  · rintro a a' c ⟨b, first, last⟩ ⟨b', first', last'⟩
    cases h'.1 last last'
    exact h.1 first first'
  · rintro a c c' ⟨b, first, last⟩ ⟨b', first', last'⟩
    cases h.2 first first'
    exact h'.2 last last'

end Relator

namespace FeatureLogic

/-- A pairing of the structures and variables of one graph with those of another. -/
structure Pairing where
  structs : StructId → StructId → Prop
  vars : VarId → VarId → Prop

namespace Pairing

/-- Are two dereferenced values equal atoms or partners? -/
def Relates (r : Pairing) : Value → Value → Prop
  | .atom a, .atom b => a = b
  | .struct s, .struct t => r.structs s t
  | .var x, .var y => r.vars x y
  | _, _ => False

/-- Do two values stand for equal atoms or partners? -/
def Pairs (r : Pairing) (g h : Graph) (v w : Value) : Prop :=
  ∃ v' w', g.deref? v = some v' ∧ h.deref? w = some w' ∧ r.Relates v' w'

/-- Do partners have the same features, with values that stand for equal atoms or partners? -/
def Closed (r : Pairing) (g h : Graph) : Prop :=
  ∀ {s t}, r.structs s t → ∃ m n, g.features? s = some m ∧ h.features? t = some n ∧
    m.keys = n.keys ∧
    ∀ {name v w}, m.get? name = some v → n.get? name = some w → r.Pairs g h v w

end Pairing

namespace Graph

def SameName (g h : Graph) (x y : VarId) : Prop :=
  ∃ name, g.name? x = some name ∧ h.name? y = some name

/-- Variables pair by name, once the names of the first graph are changed. -/
def NamedBy (rename : String → String) (g h : Graph) (x y : VarId) : Prop :=
  ∃ name, g.name? x = some name ∧ h.name? y = some (rename name)

/-- No feature path tells the two values apart. -/
def Alike (g : Graph) (v : Value) (h : Graph) (w : Value) : Prop :=
  ∃ structs, Pairing.Closed ⟨structs, SameName g h⟩ g h ∧
    Pairing.Pairs ⟨structs, SameName g h⟩ g h v w

/-- No feature path tells them apart, but for the names of the variables that it leads to. -/
def AlikeButNames (g : Graph) (v : Value) (h : Graph) (w : Value) : Prop :=
  ∃ structs, Pairing.Closed ⟨structs, fun _ _ => True⟩ g h ∧
    Pairing.Pairs ⟨structs, fun _ _ => True⟩ g h v w

/-- No path tells the two values apart, and they share substructure in the same places. -/
def Isomorphic (g : Graph) (v : Value) (h : Graph) (w : Value) : Prop :=
  ∃ structs, Relator.BiUnique structs ∧ Pairing.Closed ⟨structs, SameName g h⟩ g h ∧
    Pairing.Pairs ⟨structs, SameName g h⟩ g h v w

/-- The same once the names of the first value's variables are changed. -/
def IsomorphicBy (rename : String → String) (g : Graph) (v : Value) (h : Graph) (w : Value) :
    Prop :=
  ∃ structs, Relator.BiUnique structs ∧ Pairing.Closed ⟨structs, NamedBy rename g h⟩ g h ∧
    Pairing.Pairs ⟨structs, NamedBy rename g h⟩ g h v w

/-- The same up to the names of variables, whose sharing has to agree as well. -/
def IsomorphicUpToNames (g : Graph) (v : Value) (h : Graph) (w : Value) : Prop :=
  ∃ r : Pairing, Relator.BiUnique r.structs ∧ Relator.BiUnique r.vars ∧ r.Closed g h ∧
    r.Pairs g h v w

theorem Isomorphic.alike {g h : Graph} {v w : Value} : g.Isomorphic v h w → g.Alike v h w :=
  fun ⟨structs, _, closed, pairs⟩ => ⟨structs, closed, pairs⟩

end Graph

namespace Pairing

def flip (r : Pairing) : Pairing := ⟨fun t s => r.structs s t, fun y x => r.vars x y⟩

theorem Relates.flip {r : Pairing} {v w : Value} (h : r.Relates v w) : r.flip.Relates w v := by
  cases v <;> cases w <;> first | exact h.elim | exact h | exact Eq.symm h

theorem Pairs.flip {r : Pairing} {g h : Graph} {v w : Value} :
    r.Pairs g h v w → r.flip.Pairs h g w v :=
  fun ⟨v', w', hv, hw, related⟩ => ⟨w', v', hw, hv, related.flip⟩

theorem Closed.flip {r : Pairing} {g h : Graph} (closed : r.Closed g h) : r.flip.Closed h g := by
  intro t s partners
  obtain ⟨m, n, hm, hn, keys, pairs⟩ := closed partners
  exact ⟨n, m, hn, hm, keys.symm, fun hw hv => (pairs hv hw).flip⟩

end Pairing

namespace Graph

theorem sameName_comm {g h : Graph} {x y : VarId} : SameName g h x y ↔ SameName h g y x :=
  ⟨fun ⟨name, hx, hy⟩ => ⟨name, hy, hx⟩, fun ⟨name, hy, hx⟩ => ⟨name, hx, hy⟩⟩

theorem flip_sameName (g h : Graph) (structs : StructId → StructId → Prop) :
    Pairing.flip ⟨structs, SameName g h⟩ = ⟨fun t s => structs s t, SameName h g⟩ := by
  simp only [Pairing.flip, sameName_comm (g := g)]

theorem Alike.symm {g h : Graph} {v w : Value} (alike : g.Alike v h w) : h.Alike w g v := by
  obtain ⟨structs, closed, pairs⟩ := alike
  exact ⟨fun t s => structs s t, flip_sameName g h structs ▸ closed.flip,
    flip_sameName g h structs ▸ pairs.flip⟩

theorem Isomorphic.symm {g h : Graph} {v w : Value} (iso : g.Isomorphic v h w) :
    h.Isomorphic w g v := by
  obtain ⟨structs, unique, closed, pairs⟩ := iso
  exact ⟨fun t s => structs s t, unique.flip, flip_sameName g h structs ▸ closed.flip,
    flip_sameName g h structs ▸ pairs.flip⟩

end Graph

end FeatureLogic
