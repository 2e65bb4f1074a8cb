import FeatureLogic.Graph.Dereference

/-!
# Free variables of a value
-/

namespace FeatureLogic

/-- The structures entered so far, and the free variables found. -/
structure Census where
  entered : List StructId := []
  free : List VarId := []

namespace Graph

def collectValues (g : Graph) (collectStruct : StructId → Census → Option Census) :
    List Value → Census → Option Census
  | [], c => some c
  | v :: rest, c =>
    match g.deref? v with
    | none => none
    | some (.var x) => g.collectValues collectStruct rest { c with free := x :: c.free }
    | some (.struct s) =>
      match collectStruct s c with
      | none => none
      | some c => g.collectValues collectStruct rest c
    | some (.atom _) => g.collectValues collectStruct rest c

def collectStruct (g : Graph) : Nat → StructId → Census → Option Census
  | 0, _, _ => none
  | fuel + 1, s, c =>
    if s ∈ c.entered then some c
    else
      match g.features? s with
      | none => none
      | some features =>
        g.collectValues (g.collectStruct fuel) features.values { c with entered := s :: c.entered }

/-- The free variables at the end of some feature path from `v`, in ascending order. -/
def variables? (g : Graph) (v : Value) : Option (List VarId) :=
  (g.collectValues (g.collectStruct (g.structCount + 1)) [v] {}).map fun c =>
    ((List.range g.varCount).map VarId.mk).filter (· ∈ c.free)

end Graph

end FeatureLogic
