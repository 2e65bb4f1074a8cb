import FeatureLogic.Graph.Absorption
import FeatureLogic.Graph.Image
import FeatureLogic.Scope

/-!
# Normal form of a joined graph

After a join, features still lead to absorbed structures and to bound variables. A first walk
replaces every absorbed structure by its survivor, also inside bound variables; a second one
replaces bound variables by their values and aliases by the end of their chain. Each walk goes
through the result and then through the scopes, and enters a node once.
-/

namespace FeatureLogic

namespace Graph

/-- Replaces absorbed structures below a value by their survivors. Each level of the walk enters a
node not visited before. -/
def redirect : Nat → Value → Graph × List Value → Option (Value × Graph × List Value)
  | 0, _, _ => none
  | _ + 1, .atom a, walk => some (.atom a, walk)
  | fuel + 1, .struct s, (g, visited) =>
    match g.survivor? s with
    | none => none
    | some u =>
      if .struct u ∈ visited then some (.struct u, g, visited)
      else
        match g.features? u with
        | none => none
        | some features =>
          (fill (redirect fuel) u features.entries (g, .struct u :: visited)).map (.struct u, ·)
  | fuel + 1, .var x, (g, visited) =>
    match g.root? x with
    | none => none
    | some root =>
      if .var root ∈ visited then some (.var x, g, visited)
      else
        match (g.var? root).map Variable.binding with
        | none => none
        | some (.bound v) =>
          (redirect fuel v (g, .var root :: visited)).map fun (w, g, visited) =>
            (.var x, g.setBinding root (.bound w), visited)
        | some _ => some (.var x, g, .var root :: visited)

def settle : Nat → Value → Graph × List StructId → Option (Value × Graph × List StructId)
  | 0, _, _ => none
  | fuel + 1, v, (g, visited) =>
    match g.deref? v with
    | none => none
    | some (.struct s) =>
      match g.survivor? s with
      | none => none
      | some u =>
        if u ∈ visited then some (.struct u, g, visited)
        else
          match g.features? u with
          | none => none
          | some features =>
            (fill (settle fuel) u features.entries (g, u :: visited)).map (.struct u, ·)
    | some w => some (w, g, visited)

def redirectValue (v : Value) (walk : Graph × List Value) :
    Option (Value × Graph × List Value) :=
  redirect (walk.1.structCount + walk.1.varCount + 1) v walk

def settleValue (v : Value) (walk : Graph × List StructId) :
    Option (Value × Graph × List StructId) :=
  settle (walk.1.structCount + 1) v walk

end Graph

namespace Scope

def redirect : List (String × Value) → Scope → Graph × List Value →
    Option (Scope × Graph × List Value)
  | [], scope, walk => some (scope, walk)
  | (name, v) :: rest, scope, walk => do
    let (w, walk) ← Graph.redirectValue v walk
    redirect rest (scope.insert name w) walk

/-- Settles the listed entries of a scope. A name that stands for a free variable of that name
says nothing, and its entry is dropped. -/
def settle : List (String × Value) → Scope → Graph × List StructId →
    Option (Scope × Graph × List StructId)
  | [], scope, walk => some (scope, walk)
  | (name, v) :: rest, scope, walk => do
    let (w, walk) ← Graph.settleValue v walk
    match w with
    | .var x =>
      let called ← walk.1.name? x
      if called = name then settle rest (scope.erase name) walk
      else settle rest (scope.insert name w) walk
    | _ => settle rest (scope.insert name w) walk

end Scope

end FeatureLogic
