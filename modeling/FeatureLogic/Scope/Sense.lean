import FeatureLogic.Scope.Alias
import FeatureLogic.Scope.Meaning

/-!
# The sense of a name

Where the entries of a scope are atoms and free variables, every name has a sense: the atom at the
end of its chain of aliases, or else the last name on it. A value is rendered when its structures
are copied and every variable in it has become what it means.
-/

namespace FeatureLogic

/-- What a name comes down to: an atom, or a name that stands for itself. -/
inductive Sense where
  | atom (a : Atom)
  | called (name : String)
deriving DecidableEq

def Sense.Fits (g : Graph) : Sense → Value → Prop
  | .atom a, v => v = .atom a
  | .called name, v => ∃ x, v = .var x ∧ g.var? x = some { name }

namespace Scope

/-- Are all entries atoms or free variables, and does no chain of aliases come back to a name,
unless the name is an alias of itself? -/
structure Chained (scope : Scope) (g : Graph) : Prop where
  entry : ∀ {name v}, scope.get? name = some v →
    (∃ a, v = .atom a) ∨ ∃ x next, v = .var x ∧ g.var? x = some { name := next }
  straight : ∀ {name}, Relation.TransGen (scope.Alias g) name name → scope.Alias g name name

inductive Conveys (scope : Scope) (g : Graph) : String → Sense → Prop where
  | absent {name : String} : scope.get? name = none → Conveys scope g name (.called name)
  | atom {name : String} {a : Atom} :
    scope.get? name = some (.atom a) → Conveys scope g name (.atom a)
  | self {name : String} : scope.Alias g name name → Conveys scope g name (.called name)
  | next {name next : String} {sense : Sense} :
    scope.Alias g name next → next ≠ name → Conveys scope g next sense → Conveys scope g name sense

def Shows (scope : Scope) (g h : Graph) (copies : StructId → StructId → Prop) (v w : Value) :
    Prop :=
  ∃ u, scope.meaning? g v = some u ∧ Pairing.Pairs ⟨copies, Graph.SameName g h⟩ g h u w

/-- Is `w` of `h` a copy of `v` in which every value has become what it means? It shares what the
value and the meanings share. -/
def Renders (scope : Scope) (g : Graph) (v : Value) (h : Graph) (w : Value) : Prop :=
  ∃ copies : StructId → StructId → Prop, Relator.BiUnique copies ∧ scope.Shows g h copies v w ∧
    ∀ {s t}, copies s t → ∃ m n, g.features? s = some m ∧ h.features? t = some n ∧
      ∀ name, Option.Rel (scope.Shows g h copies) (m.get? name) (n.get? name)

end Scope

end FeatureLogic
