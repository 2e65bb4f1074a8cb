import FeatureLogic.Description.Reading
import FeatureLogic.Graph

/-!
# What a description denotes

Builds the nodes of a description in the order of the text. A tag is introduced once, where its node
is written, and may be referred to from there on, also inside the node that it marks. Equal variable
names make separate variables; it is a scope that ties them.
-/

namespace FeatureLogic

/-- The values of the tags introduced so far, by number. -/
abbrev Introduced := List (Nat × Value)

structure BuildState where
  graph : Graph
  introduced : Introduced := []

/-- A step that allocates nodes and introduces tags. After an error both remain. -/
abbrev Build (α : Type) := EStateM SyntaxError BuildState α

namespace Build

def newStruct : Build StructId :=
  modifyGet fun st => (st.graph.nextStruct, { st with graph := st.graph.addStruct ∅ })

def newVar (name : String) : Build VarId :=
  modifyGet fun st => (st.graph.nextVar, { st with graph := st.graph.addVar { name } })

def setFeature (s : StructId) (name : String) (v : Value) : Build Unit :=
  modify fun st => { st with graph := st.graph.setFeature s name v }

def introduce (tag : Tag) (v : Value) : Build Unit := do
  match (← get).introduced.lookup tag.id with
  | some _ => throw ⟨.newIdentifier tag.id, tag.start⟩
  | none => modify fun st => { st with introduced := (tag.id, v) :: st.introduced }

def introduce? (tag : Option Tag) (v : Value) : Build Unit :=
  match tag with
  | none => return
  | some tag => introduce tag v

def refer (tag : Tag) : Build Value := do
  match (← get).introduced.lookup tag.id with
  | some v => return v
  | none => throw ⟨.boundIdentifier tag.id, tag.start⟩

end Build

open Build

mutual

/-- The value of a description. `outer` is a tag written before it, ahead of the equals sign. -/
def Description.build (outer : Option Tag) : Description Tag → Build Value
  | .atom a => do
    introduce? outer (.atom a)
    return .atom a
  | .var name => do
    let x ← newVar name
    introduce? outer (.var x)
    return .var x
  | .struct tag features => do
    let s ← newStruct
    introduce? outer (.struct s)
    introduce? tag (.struct s)
    features.build s
    return .struct s

/-- Sets the features of `s` from left to right, so that of several under one name the last
counts. -/
def Features.build (s : StructId) : Features Tag → Build Unit
  | .nil => return
  | .assign name tag value rest => do
    let v ← value.build tag
    setFeature s name v
    rest.build s
  | .refer name tag rest => do
    let v ← refer tag
    setFeature s name v
    rest.build s

end

namespace Graph

/-- Builds a description, with tags introduced before. After an error the new nodes are given up;
the tags introduced on the way stay introduced. -/
def build (g : Graph) (introduced : Introduced) (d : Description Tag) :
    Except SyntaxError Value × Introduced × Graph :=
  match d.build none { graph := g, introduced } with
  | .ok v st => (.ok v, st.introduced, st.graph)
  | .error e st => (.error e, st.introduced, st.graph.truncate g.structCount g.varCount)

def readValue (g : Graph) (text : String) : Except SyntaxError Value × Graph :=
  match Description.read text with
  | .error e => (.error e, g)
  | .ok d =>
    let (result, _, g) := g.build [] d
    (result, g)

/-- Builds the structure that a text denotes. The error for a text that denotes something else
points behind the blank characters at its front and counts their bytes in UTF-8. -/
def readStruct (g : Graph) (text : String) : Except SyntaxError Value × Graph :=
  match Description.read text with
  | .error e => (.error e, g)
  | .ok (.struct tag features) =>
    let (result, _, g) := g.build [] (.struct tag features)
    (result, g)
  | .ok _ =>
    let blanks := text.toList.takeWhile Text.isBlank
    (.error ⟨.bracketed, (String.ofList blanks).utf8ByteSize⟩, g)

end Graph

end FeatureLogic
