import FeatureLogic.Graph.Dereference

/-!
# Absorbed structures

While two graphs are joined, a structure that was merged into another one points to it. Its
survivor is the structure at the end of these pointers.
-/

namespace FeatureLogic.Graph

/-- Goes from `s` to the structures that absorbed it, over fewer than `fuel` of them. -/
def ascend (g : Graph) : Nat → StructId → Option StructId
  | 0, _ => none
  | fuel + 1, s =>
    match g.struct? s with
    | none => none
    | some node =>
      match node.absorbedBy with
      | some t => g.ascend fuel t
      | none => some s

def survivor? (g : Graph) (s : StructId) : Option StructId := g.ascend (g.structCount + 1) s

/-- The node that a value stands for at the moment: the survivor of a structure, the end of a
variable's chain of aliases. -/
def representative? (g : Graph) : Value → Option Value
  | .atom a => some (.atom a)
  | .struct s => (g.survivor? s).map .struct
  | .var x => (g.root? x).map .var

def absorb (g : Graph) (s t : StructId) : Graph :=
  g.modifyStruct t fun node => { node with absorbedBy := some s }

def forgetAbsorbed (g : Graph) (start : Nat) : Graph :=
  { g with structs := g.structs.mapIdx fun i node =>
      if start ≤ i then { node with absorbedBy := none } else node }

@[simp] theorem structCount_absorb (g : Graph) (s t : StructId) :
    (g.absorb s t).structCount = g.structCount := by simp [absorb, modifyStruct, structCount]

theorem struct?_forgetAbsorbed (g : Graph) (start : Nat) (s : StructId) :
    (g.forgetAbsorbed start).struct? s =
      if start ≤ s.index then (g.struct? s).map (fun node => { node with absorbedBy := none })
      else g.struct? s := by
  simp only [forgetAbsorbed, struct?, Array.getElem?_mapIdx]
  by_cases h : start ≤ s.index <;> simp [h]

end FeatureLogic.Graph
