import FeatureLogic.Graph.Image
import FeatureLogic.Scope

/-!
# Substitution

Replaces every variable that a scope knows about by what it stands for there. Structures on the
way are copied and keep their sharing; nothing is unified and no existing node changes.
-/

namespace FeatureLogic.Scope

/-- Substitutes in a value, given how a structure is copied. The structure that a variable stands
for is subject to the substitution as well. -/
def substituteValue (scope : Scope)
    (copyStruct : StructId → Graph × Images → Option (StructId × Graph × Images)) :
    Value → Graph × Images → Option (Value × Graph × Images)
  | .atom a, walk => some (.atom a, walk)
  | .struct s, walk => (copyStruct s walk).map fun r => (.struct r.1, r.2)
  | .var x, (g, images) =>
    match images.vars.lookup x with
    | some w => some (w, g, images)
    | none =>
      match scope.meaning? g (.var x) with
      | none => none
      | some (.struct s) =>
        (copyStruct s (g, images)).map fun (t, g, images) =>
          (.struct t, g, images.addVar x (.struct t))
      | some w => some (w, g, images.addVar x w)

def substituteStruct (scope : Scope) :
    Nat → StructId → Graph × Images → Option (StructId × Graph × Images)
  | 0, _, _ => none
  | fuel + 1, s, (g, images) =>
    match images.structs.lookup s with
    | some t => some (t, g, images)
    | none =>
      Graph.imageStruct (fun s t images => images.addStruct s t)
        (scope.substituteValue (scope.substituteStruct fuel)) s (g, images)

/-- A copy of `v` with the variables known to the scope replaced. The depth of the walk is bounded
as for a renaming. -/
def substitute? (scope : Scope) (g : Graph) (v : Value) : Option (Value × Graph) :=
  (scope.substituteValue (scope.substituteStruct (2 * (g.structCount + 1))) v (g, {})).map
    fun r => (r.1, r.2.1)

end FeatureLogic.Scope
