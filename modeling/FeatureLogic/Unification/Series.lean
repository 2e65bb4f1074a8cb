import FeatureLogic.Description.Denotation
import FeatureLogic.Graph.Reachability
import FeatureLogic.Unification

/-!
# Series of calls

A scope can be handed to one call after another. What a call finds out about a name is there for
the next call, which may be about structures that were read in between.
-/

namespace FeatureLogic

namespace Scope

def Inner (scope : Scope) (g : Graph) (v : Value) : Prop :=
  ∃ key s, scope.get? key = some (.struct s) ∧ g.Below (.struct s) v

/-- Is there a variable of this name below a structure that the scope has for some name? -/
def Conceals (scope : Scope) (g : Graph) (name : String) : Prop :=
  ∃ x, scope.Inner g (.var x) ∧ g.name? x = some name

end Scope

namespace Graph

/-- Two structures are read and then unified in a scope, with the result `r`. The graph and the
scope are `h` and `after` then. -/
def Call (g : Graph) (scope : Scope) (r : Value) (h : Graph) (after : Scope) : Prop :=
  ∃ text text' a b k k' limit, g.readStruct text = (.ok a, k) ∧
    k.readStruct text' = (.ok b, k') ∧
    k'.unify? limit a b (.common scope) = some (.ok (r, .common after), h)

/-- The graphs and scopes after calls that share one scope, which is empty at first. -/
inductive Series : Graph → Scope → Prop where
  | start {g : Graph} : g.WellFormed → Series g ∅
  | call {g h : Graph} {scope after : Scope} {r : Value} : Series g scope →
    g.Call scope r h after → Series h after

end Graph

end FeatureLogic
