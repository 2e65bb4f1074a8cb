import FeatureLogic.Graph.Image
import FeatureLogic.Scope

/-!
# Operands

Before two values are joined they are copied, so that joining can change the copies and leave the
operands alone. Both operands are copied by one walk with one memory, which keeps substructure
shared within an operand and between the two. On the way every variable is looked up by name in the
scope of its operand, and the scope records what the names stand for now.
-/

namespace FeatureLogic

/-- What the copying of operands remembers: the copy of every node visited, the copies standing for
themselves, and the scope in force. -/
structure Copying where
  images : Images := {}
  scope : Scope := ∅

namespace Copying

def addStruct (m : Copying) (s t : StructId) : Copying :=
  { m with images := (m.images.addStruct s t).addStruct t t }

def addVar (m : Copying) (x : VarId) (v : Value) : Copying :=
  { m with images := m.images.addVar x v }

abbrev Walk := Graph × Copying

def copyValue (copyStruct : StructId → Walk → Option (StructId × Walk))
    (copyVar : VarId → Walk → Option (Value × Walk)) : Value → Walk → Option (Value × Walk)
  | .atom a, walk => some (.atom a, walk)
  | .struct s, walk => (copyStruct s walk).map fun r => (.struct r.1, r.2)
  | .var x, walk =>
    match walk.2.images.vars.lookup x with
    | some v => some (v, walk)
    | none => (copyVar x walk).map fun (v, g, m) => (v, g, m.addVar x v)

def copyNode (image : Value → Walk → Option (Value × Walk)) (s : StructId) :
    Walk → Option (StructId × Walk)
  | (g, m) =>
    match m.images.structs.lookup s with
    | some t => some (t, g, m)
    | none => Graph.imageStruct (fun s t m => m.addStruct s t) image s (g, m)

/-- Copies a variable outside of any scope: a bound one as its value, a free one as a new variable
for the end of its chain of aliases. -/
def copyVarPlain (copyStruct : StructId → Walk → Option (StructId × Walk)) (x : VarId) :
    Walk → Option (Value × Walk)
  | (g, m) =>
    match g.deref? (.var x) with
    | none => none
    | some (.var root) =>
      match m.images.vars.lookup root with
      | some v => some (v, g, m)
      | none =>
        (g.copyVar? root).map fun (y, g) => (.var y, g, (m.addVar root (.var y)).addVar y (.var y))
    | some (.struct s) => (copyStruct s (g, m)).map fun r => (.struct r.1, r.2)
    | some (.atom a) => some (.atom a, g, m)

def copyStructPlain : Nat → StructId → Walk → Option (StructId × Walk)
  | 0, _, _ => none
  | fuel + 1, s, walk =>
    copyNode (copyValue (copyStructPlain fuel) (copyVarPlain (copyStructPlain fuel))) s walk

/-- A copy outside of any scope. Each level of the walk enters a structure that has no copy yet. -/
def copyPlain (v : Value) (walk : Walk) : Option (Value × Walk) :=
  let copyStruct := copyStructPlain (walk.1.structCount + 1)
  copyValue copyStruct (copyVarPlain copyStruct) v walk

/-- Follows the entry of `name` while it is a free variable of a name not met yet. Gives the names
met and what the last of them stands for, which is `v` if it has no entry. Every name met but the
last has an entry. -/
def aliases (g : Graph) (scope : Scope) :
    Nat → String → List String → Value → Option (List String × Value)
  | 0, _, _, _ => none
  | fuel + 1, name, names, v =>
    match scope.get? name with
    | none => some (names, v)
    | some entry =>
      match g.deref? entry with
      | none => none
      | some (.var y) =>
        match g.name? y with
        | none => none
        | some next =>
          if next ∈ names then some (names, entry)
          else aliases g scope fuel next (next :: names) entry
      | some _ => some (names, entry)

/-- Copies a variable in its scope. All names tied to its name come to stand for the one copy. -/
def copyVarScoped (x : VarId) : Walk → Option (Value × Walk)
  | (g, m) => do
    let name ← g.name? x
    let (names, v) ← aliases g m.scope (m.scope.size + 1) name [name] (.var x)
    let (w, g, m) ← copyPlain v (g, m)
    return (w, g, { m with scope := names.foldl (fun scope name => scope.insert name w) m.scope })

def copyStructScoped : Nat → StructId → Walk → Option (StructId × Walk)
  | 0, _, _ => none
  | fuel + 1, s, walk => copyNode (copyValue (copyStructScoped fuel) copyVarScoped) s walk

def copyScoped (v : Value) (walk : Walk) : Option (Value × Walk) :=
  copyValue (copyStructScoped (walk.1.structCount + 1)) copyVarScoped v walk

end Copying

end FeatureLogic
