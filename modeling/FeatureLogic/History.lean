import FeatureLogic.Description.Denotation
import FeatureLogic.Graph.Renaming
import FeatureLogic.Scope.Substitution
import FeatureLogic.Unification.Cache
import FeatureLogic.Unification.Subsumption

/-!
# Histories

What can be done to a graph, and the graphs that come of it. An operation may fail; the graph is
then what it leaves behind.
-/

namespace FeatureLogic

/-- An operation on a graph. A unification comes with what its cache holds, which is nothing if it
has none. -/
inductive Operation where
  | readStruct (text : String)
  | readValue (text : String)
  | newStruct (features : List (String × Value))
  | newVar (name? : Option String)
  | copyVar (x : VarId)
  | rename (v : Value) (replaced : NameMap VarId) (used : List String)
  | substitute (scope : Scope) (v : Value)
  | subsumes (general specific : Value)
  | unify (limit : Nat) (v w : Value) (scoping : Scoping) (cache : Cache)

namespace Graph

def perform? (g : Graph) : Operation → Option Graph
  | .readStruct text => some (g.readStruct text).2
  | .readValue text => some (g.readValue text).2
  | .newStruct features => some (g.newStruct features).2
  | .newVar name? => some (g.newVar name?).2
  | .copyVar x => (g.copyVar? x).map Prod.snd
  | .rename v replaced used => (g.rename? v replaced used).map fun (_, _, h) => h
  | .substitute scope v => (scope.substitute? g v).map Prod.snd
  | .subsumes general specific => (g.subsumes? general specific).map Prod.snd
  | .unify limit v w scoping cache =>
    (g.unifyCached? limit v w scoping cache).map fun (_, h, _) => h

end Graph

end FeatureLogic
