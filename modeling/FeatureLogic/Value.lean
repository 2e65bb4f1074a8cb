/-!
# Values

What a feature can hold: an opaque atom, or a handle of a node in a graph. Atoms compare by
content; handles compare by identity, whatever their nodes contain.
-/

namespace FeatureLogic

/-- An opaque scalar. `unspecified` carries no information and unifies with everything. -/
inductive Atom where
  | unspecified
  | bool (b : Bool)
  | int (i : Int64)
  | str (s : String)
deriving DecidableEq

/-- Handle of a structure node: its place in the order of allocation. -/
structure StructId where
  index : Nat
deriving DecidableEq

structure VarId where
  index : Nat
deriving DecidableEq

inductive Value where
  | atom (a : Atom)
  | struct (s : StructId)
  | var (x : VarId)
deriving DecidableEq

instance : Inhabited Atom := ⟨.unspecified⟩

instance : Inhabited Value := ⟨.atom .unspecified⟩

namespace Atom

def escape (c : Char) : List Char :=
  if c = '"' then ['\\', '"']
  else if c = '\\' then ['\\', '\\']
  else if c = '\n' then ['\\', 'n']
  else if c = '\t' then ['\\', 't']
  else [c]

def quote (cs : List Char) : List Char := '"' :: cs.flatMap escape ++ ['"']

def decimal (i : Int) : List Char :=
  if i < 0 then '-' :: Nat.toDigits 10 i.natAbs else Nat.toDigits 10 i.natAbs

def written : Atom → List Char
  | .unspecified => "None".toList
  | .bool true => "True".toList
  | .bool false => "False".toList
  | .int i => decimal i.toInt
  | .str s => quote s.toList

def text (a : Atom) : String := String.ofList a.written

end Atom

def StructId.text (s : StructId) : String := "#" ++ toString s.index

def VarId.text (x : VarId) : String := "_" ++ toString x.index

namespace Value

/-- The value that says nothing, the identity of unification. -/
def unspecified : Value := .atom .unspecified

def struct? : Value → Option StructId
  | .struct s => some s
  | _ => none

def var? : Value → Option VarId
  | .var x => some x
  | _ => none

def atom? : Value → Option Atom
  | .atom a => some a
  | _ => none

/-- Does the value have an identity? -/
def isNode : Value → Bool
  | .atom _ => false
  | _ => true

end Value

end FeatureLogic
