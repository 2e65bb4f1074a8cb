import FeatureLogic.Description
import FeatureLogic.Graph.Sharing

/-!
# The text of a value

A value is described as a tree first and the tree is then written. A shared structure carries a
tag where it comes first and is referred to by that tag later on, so that a cyclic graph has a
finite text. Tags are numbered from 1 in the order in which they are written.
-/

namespace FeatureLogic.Graph

/-- The features of a structure, given how a structure is described. `tagged` lists the structures
that have a tag by now, in the order of their tags. -/
def describeFeatures (g : Graph)
    (describeStruct : StructId → List StructId → Option (Description Nat × List StructId)) :
    List (String × Value) → List StructId → Option (Features Nat × List StructId)
  | [], tagged => some (.nil, tagged)
  | (name, v) :: rest, tagged => do
    match ← g.deref? v with
    | .atom a =>
      let (features, tagged) ← g.describeFeatures describeStruct rest tagged
      return (.assign name none (.atom a) features, tagged)
    | .var x =>
      let called ← g.name? x
      let (features, tagged) ← g.describeFeatures describeStruct rest tagged
      return (.assign name none (.var called) features, tagged)
    | .struct s =>
      if s ∈ tagged then
        let (features, tagged') ← g.describeFeatures describeStruct rest tagged
        return (.refer name (tagged.idxOf s + 1) features, tagged')
      else
        let (child, tagged) ← describeStruct s tagged
        let (features, tagged) ← g.describeFeatures describeStruct rest tagged
        return (.assign name none child features, tagged)

def describeStruct (g : Graph) (shared : List StructId) :
    Nat → StructId → List StructId → Option (Description Nat × List StructId)
  | 0, _, _ => none
  | fuel + 1, s, tagged => do
    let features ← g.features? s
    if s ∈ shared then
      let (described, tagged') ←
        g.describeFeatures (g.describeStruct shared fuel) features.entries (tagged ++ [s])
      return (.struct (some (tagged.length + 1)) described, tagged')
    else
      let (described, tagged) ←
        g.describeFeatures (g.describeStruct shared fuel) features.entries tagged
      return (.struct none described, tagged)

def describe? (g : Graph) (v : Value) : Option (Description Nat) := do
  match ← g.deref? v with
  | .atom a => return .atom a
  | .var x => return .var (← g.name? x)
  | .struct s =>
    let shared ← g.shared? s
    let (described, _) ← g.describeStruct shared (g.structCount + 1) s []
    return described

def text? (g : Graph) (v : Value) : Option String :=
  (g.describe? v).map fun described => String.ofList described.written

end FeatureLogic.Graph
