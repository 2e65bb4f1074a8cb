import FeatureLogic.Graph.Dereference
import FeatureLogic.Graph.Image

/-!
# Renaming variables apart

A value is copied so that none of its free variables has a name that is in use already. The
replacements made so far are passed from one call to the next, so that several values are renamed
consistently.
-/

namespace FeatureLogic

namespace Renaming

def stem (name : String) : String :=
  String.ofList (name.toList.reverse.dropWhile Char.isDigit).reverse

/-- The stem of `name` followed by the least number from 2 up that makes a name not in `taken`. Of
`taken.length + 1` different candidates at least one is free. The numbers have no bound here; where
they are counted in 32 bits with a sign, they run out only once 2³¹ - 2 such names are taken. -/
def unusedName (taken : List String) (name : String) : String :=
  let candidates := (List.range (taken.length + 1)).map fun k => stem name ++ toString (k + 2)
  (candidates.find? (· ∉ taken)).getD name

/-- What a renaming remembers: the replacement of each old name, the names in use, and the copies
of structures. -/
structure Memory where
  replaced : NameMap VarId
  taken : List String
  copies : List (StructId × StructId) := []

abbrev Walk := Graph × Memory

end Renaming

namespace Graph

def renameVar (x : VarId) :
    Renaming.Walk → Option (Value × Renaming.Walk)
  | (g, m) =>
    match g.name? x with
    | none => none
    | some name =>
      match m.replaced.get? name with
      | some y => some (.var y, g, m)
      | none =>
        if name ∈ m.taken then
          let fresh := Renaming.unusedName m.taken name
          let (y, g) := g.newVar (some fresh)
          some (.var y, g,
            { m with replaced := m.replaced.insert name y, taken := fresh :: m.taken })
        else some (.var x, g, m)

def renameValue
    (renameStruct : StructId → Renaming.Walk → Option (StructId × Renaming.Walk))
    (v : Value) (walk : Renaming.Walk) : Option (Value × Renaming.Walk) :=
  match walk.1.deref? v with
  | none => none
  | some (.atom a) => some (.atom a, walk)
  | some (.var x) => renameVar x walk
  | some (.struct s) => (renameStruct s walk).map fun r => (.struct r.1, r.2)

def renameStruct :
    Nat → StructId → Renaming.Walk → Option (StructId × Renaming.Walk)
  | 0, _, _ => none
  | fuel + 1, s, (g, m) =>
    match m.copies.lookup s with
    | some t => some (t, g, m)
    | none =>
      imageStruct (fun s t m => { m with copies := (s, t) :: m.copies })
        (renameValue (renameStruct fuel)) s (g, m)

/-- A copy of `v` in which every free variable whose name is in `replaced` or in `used` gives way
to its replacement. Gives the replacements made up to now as well. Every level of the walk enters
a structure for the first time; a handle one past the end names the copy just made, so copies may
be entered too. -/
def rename? (g : Graph) (v : Value) (replaced : NameMap VarId) (used : List String) :
    Option (Value × NameMap VarId × Graph) := do
  let names ← replaced.values.mapM g.name?
  let (w, g, m) ←
    renameValue (renameStruct (2 * (g.structCount + 1))) v (g, { replaced, taken := names ++ used })
  return (w, m.replaced, g)

end Graph

end FeatureLogic
