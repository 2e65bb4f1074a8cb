import FeatureLogic.NameMap
import FeatureLogic.Value

/-!
# Feature graphs

Structures and variables live in two arrays, and handles are places in them. Nothing stops a
handle from leading out of its graph; a look-up there gives `none`, and every operation that has
to follow such a handle gives `none` as well.
-/

namespace FeatureLogic

/-- A structure node. `absorbedBy` is set only while two structures are being joined. -/
structure Structure where
  features : NameMap Value := ∅
  absorbedBy : Option StructId := none
deriving DecidableEq

/-- What a variable stands for: nothing yet, a value, or whatever another variable stands for. -/
inductive Binding where
  | free
  | bound (v : Value)
  | link (x : VarId)
deriving DecidableEq

structure Variable where
  name : String
  binding : Binding := .free
deriving DecidableEq

instance : Inhabited Structure := ⟨{}⟩

instance : Inhabited Variable := ⟨⟨"", .free⟩⟩

structure Graph where
  structs : Array Structure := #[]
  vars : Array Variable := #[]
deriving DecidableEq

namespace Graph

instance : EmptyCollection Graph := ⟨{}⟩

instance : Inhabited Graph := ⟨∅⟩

def structCount (g : Graph) : Nat := g.structs.size

def varCount (g : Graph) : Nat := g.vars.size

def struct? (g : Graph) (s : StructId) : Option Structure := g.structs[s.index]?

def var? (g : Graph) (x : VarId) : Option Variable := g.vars[x.index]?

def features? (g : Graph) (s : StructId) : Option (NameMap Value) :=
  (g.struct? s).map Structure.features

def name? (g : Graph) (x : VarId) : Option String := (g.var? x).map Variable.name

def nextStruct (g : Graph) : StructId := ⟨g.structCount⟩

def nextVar (g : Graph) : VarId := ⟨g.varCount⟩

def addStruct (g : Graph) (features : NameMap Value) : Graph :=
  { g with structs := g.structs.push { features } }

def addVar (g : Graph) (node : Variable) : Graph :=
  { g with vars := g.vars.push node }

def newStruct (g : Graph) (features : List (String × Value)) : StructId × Graph :=
  (g.nextStruct, g.addStruct (NameMap.ofList features))

/-- A new free variable, called after its place when no name is given. -/
def newVar (g : Graph) (name? : Option String) : VarId × Graph :=
  (g.nextVar, g.addVar { name := name?.getD g.nextVar.text })

def modifyStruct (g : Graph) (s : StructId) (f : Structure → Structure) : Graph :=
  { g with structs := g.structs.modify s.index f }

def setFeature (g : Graph) (s : StructId) (name : String) (v : Value) : Graph :=
  g.modifyStruct s fun node => { node with features := node.features.insert name v }

def setBinding (g : Graph) (x : VarId) (binding : Binding) : Graph :=
  { g with vars := g.vars.modify x.index fun node => { node with binding } }

def truncate (g : Graph) (structs vars : Nat) : Graph :=
  ⟨g.structs.take structs, g.vars.take vars⟩

@[simp] theorem structCount_addStruct (g : Graph) (m : NameMap Value) :
    (g.addStruct m).structCount = g.structCount + 1 := by simp [addStruct, structCount]

@[simp] theorem varCount_addStruct (g : Graph) (m : NameMap Value) :
    (g.addStruct m).varCount = g.varCount := rfl

@[simp] theorem structCount_addVar (g : Graph) (node : Variable) :
    (g.addVar node).structCount = g.structCount := rfl

@[simp] theorem varCount_addVar (g : Graph) (node : Variable) :
    (g.addVar node).varCount = g.varCount + 1 := by simp [addVar, varCount]

@[simp] theorem structCount_setFeature (g : Graph) (s : StructId) (name : String) (v : Value) :
    (g.setFeature s name v).structCount = g.structCount := by
  simp [setFeature, modifyStruct, structCount]

@[simp] theorem varCount_setBinding (g : Graph) (x : VarId) (binding : Binding) :
    (g.setBinding x binding).varCount = g.varCount := by simp [setBinding, varCount]

theorem struct?_eq_none_iff (g : Graph) (s : StructId) :
    g.struct? s = none ↔ g.structCount ≤ s.index := by simp [struct?, structCount]

theorem var?_eq_none_iff (g : Graph) (x : VarId) :
    g.var? x = none ↔ g.varCount ≤ x.index := by simp [var?, varCount]

theorem struct?_addStruct (g : Graph) (m : NameMap Value) (s : StructId) :
    (g.addStruct m).struct? s =
      if s = g.nextStruct then some { features := m } else g.struct? s := by
  obtain ⟨i⟩ := s
  simp [addStruct, struct?, nextStruct, structCount, Array.getElem?_push]

theorem var?_addVar (g : Graph) (node : Variable) (x : VarId) :
    (g.addVar node).var? x = if x = g.nextVar then some node else g.var? x := by
  obtain ⟨i⟩ := x
  simp [addVar, var?, nextVar, varCount, Array.getElem?_push]

theorem struct?_modifyStruct (g : Graph) (s t : StructId) (f : Structure → Structure) :
    (g.modifyStruct s f).struct? t = if s = t then (g.struct? t).map f else g.struct? t := by
  obtain ⟨i⟩ := s
  obtain ⟨j⟩ := t
  simp [modifyStruct, struct?, Array.getElem?_modify]

theorem var?_setBinding (g : Graph) (x y : VarId) (binding : Binding) :
    (g.setBinding x binding).var? y =
      if x = y then (g.var? y).map (fun node => { node with binding }) else g.var? y := by
  obtain ⟨i⟩ := x
  obtain ⟨j⟩ := y
  simp [setBinding, var?, Array.getElem?_modify]

@[simp] theorem structCount_setBinding (g : Graph) (x : VarId) (binding : Binding) :
    (g.setBinding x binding).structCount = g.structCount := rfl

@[simp] theorem varCount_setFeature (g : Graph) (s : StructId) (name : String) (v : Value) :
    (g.setFeature s name v).varCount = g.varCount := rfl

@[simp] theorem var?_addStruct (g : Graph) (m : NameMap Value) (x : VarId) :
    (g.addStruct m).var? x = g.var? x := rfl

@[simp] theorem struct?_addVar (g : Graph) (node : Variable) (s : StructId) :
    (g.addVar node).struct? s = g.struct? s := rfl

@[simp] theorem var?_setFeature (g : Graph) (s : StructId) (name : String) (v : Value)
    (x : VarId) : (g.setFeature s name v).var? x = g.var? x := rfl

@[simp] theorem struct?_setBinding (g : Graph) (x : VarId) (binding : Binding) (s : StructId) :
    (g.setBinding x binding).struct? s = g.struct? s := rfl

theorem features?_addStruct (g : Graph) (m : NameMap Value) (s : StructId) :
    (g.addStruct m).features? s = if s = g.nextStruct then some m else g.features? s := by
  by_cases h : s = g.nextStruct <;> simp [features?, struct?_addStruct, h]

theorem features?_setFeature (g : Graph) (s t : StructId) (name : String) (v : Value) :
    (g.setFeature s name v).features? t =
      if s = t then (g.features? t).map (·.insert name v) else g.features? t := by
  by_cases h : s = t
  · simp [features?, setFeature, struct?_modifyStruct, h, Function.comp_def]
  · simp [features?, setFeature, struct?_modifyStruct, h]

theorem features?_setFeature_self {g : Graph} {s : StructId} {features : NameMap Value}
    (found : g.features? s = some features) (name : String) (v : Value) :
    (g.setFeature s name v).features? s = some (features.insert name v) := by
  rw [features?_setFeature, if_pos rfl, found, Option.map_some]

theorem name?_addVar (g : Graph) (node : Variable) (x : VarId) :
    (g.addVar node).name? x = if x = g.nextVar then some node.name else g.name? x := by
  by_cases h : x = g.nextVar <;> simp [name?, var?_addVar, h]

@[simp] theorem name?_setBinding (g : Graph) (x y : VarId) (binding : Binding) :
    (g.setBinding x binding).name? y = g.name? y := by
  by_cases h : x = y
  · simp [name?, var?_setBinding, h, Function.comp_def]
  · simp [name?, var?_setBinding, h]

theorem struct?_truncate (g : Graph) (structs vars : Nat) (s : StructId) :
    (g.truncate structs vars).struct? s = if s.index < structs then g.struct? s else none := by
  simp only [truncate, struct?, Array.take_eq_extract, Array.getElem?_extract]
  grind

theorem var?_truncate (g : Graph) (structs vars : Nat) (x : VarId) :
    (g.truncate structs vars).var? x = if x.index < vars then g.var? x else none := by
  simp only [truncate, var?, Array.take_eq_extract, Array.getElem?_extract]
  grind

end Graph

end FeatureLogic
