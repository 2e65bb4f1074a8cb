import FeatureLogic.Graph.Correspondence
import FeatureLogic.Scope.Substitution

/-!
# What a substitution makes

A substitution said without a walk. It comes by the features of structures and by what variables
stand for, again inside the structures that it finds there. Every structure that it comes by has one
copy, in which each value has become what its meaning becomes.
-/

namespace FeatureLogic.Scope

/-- The names that are looked up one after the other on the way from a value to another one. -/
inductive Trail (scope : Scope) (g : Graph) : Value → List String → Value → Prop where
  | nil {v : Value} : Trail scope g v [] v
  | cons {x : VarId} {name : String} {names : List String} {v w : Value} :
    g.name? x = some name → scope.get? name = some v → Trail scope g v names w →
      Trail scope g (.var x) (name :: names) w

def Rests (scope : Scope) (g : Graph) (names : List String) (v : Value) : Prop :=
  ∀ x name, v = .var x → g.name? x = some name → name ∉ names → scope.get? name = none

/-- What a substitution comes by. -/
inductive Meets (scope : Scope) (g : Graph) (v : Value) : Value → Prop where
  | refl : Meets scope g v v
  | feature {s : StructId} {features : NameMap Value} {name : String} {w : Value} :
    Meets scope g v (.struct s) → g.features? s = some features → features.get? name = some w →
      Meets scope g v w
  | meaning {u w : Value} : Meets scope g v u → scope.meaning? g u = some w → Meets scope g v w

/-- Does the meaning of a value become the other value, if it is copied where it is a structure? -/
def Makes (scope : Scope) (g : Graph) (copies : StructId → StructId → Prop) (v w : Value) : Prop :=
  ∃ u, scope.meaning? g v = some u ∧ Pairing.Relates ⟨copies, Eq⟩ u w

/-- Is `w` of `h` what a substitution makes of `v`, with these copies of structures? -/
structure Substitutes (scope : Scope) (g : Graph) (v : Value) (h : Graph) (w : Value)
    (copies : StructId → StructId → Prop) : Prop where
  makes : scope.Makes g copies v w
  oneToOne : Relator.BiUnique copies
  new : ∀ {s t}, copies s t → ¬ g.Contains (.struct t)
  met : ∀ {s}, scope.Meets g v (.struct s) ↔ ∃ t, copies s t
  features : ∀ {s t}, copies s t → ∃ m n, g.features? s = some m ∧ h.features? t = some n ∧
    ∀ name, Option.Rel (scope.Makes g copies) (m.get? name) (n.get? name)

end FeatureLogic.Scope
