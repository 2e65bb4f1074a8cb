import FeatureLogic.NameMap
import FeatureLogic.Text.Rejection

/-!
# Syntax errors

Why a text is not a description that can be built, and where.
-/

namespace FeatureLogic

open Text

inductive Expectation where
  | fault (fault : WordFault)
  | kind (l : Label)
  /-- One of these characters, or the end of the text for `none`. -/
  | oneOf (items : List (Option Char))
  | boundIdentifier (id : Nat)
  | newIdentifier (id : Nat)
  /-- A structure, tagged or not. -/
  | bracketed
deriving DecidableEq

/-- What was expected and where: a number of characters from the beginning, or of bytes in UTF-8
where a structure was expected. -/
structure SyntaxError where
  expected : Expectation
  position : Nat
deriving DecidableEq

namespace Expectation

def itemText : Option Char → String
  | some c => String.ofList ['\x60', c, '\x60']
  | none => "end of input"

def itemTexts (items : List (Option Char)) : List String :=
  (NameMap.ofList (items.map fun item => (itemText item, ()))).keys

def text : Expectation → String
  | .fault f => f.text
  | .kind l => l.text
  | .oneOf [] => "valid input"
  | .oneOf items => String.intercalate " or " (itemTexts items)
  | .boundIdentifier id => "a bound identifier (\x60(" ++ toString id ++ ")\x60 is not yet defined)"
  | .newIdentifier id => "a new identifier (\x60(" ++ toString id ++ ")\x60 is already defined)"
  | .bracketed => "open bracket or identifier"

end Expectation

namespace SyntaxError

/-- A fault says more than a label, and a single label more than characters. -/
def ofRejection (r : Rejection) : SyntaxError where
  expected :=
    match r.fault, r.labelling with
    | some fault, _ => .fault fault
    | none, .single l => .kind l
    | none, _ => .oneOf r.expected
  position := r.position

def message (e : SyntaxError) : String :=
  "Parse error: Syntax error at offset " ++ toString e.position ++ ": expected "
    ++ e.expected.text ++ "."

end SyntaxError

end FeatureLogic
