import FeatureLogic.Description
import FeatureLogic.Description.SyntaxError
import FeatureLogic.Text.Characters
import FeatureLogic.Text.Reader

/-!
# Reading descriptions

The grammar of descriptions. A structure is written in brackets, with features between commas; a
feature is a name with a value or with a reference to a tag. A word is an integer, one of three
reserved words or a symbol.
-/

namespace FeatureLogic

open Text

/-- What follows the name of a feature: a value, whose node may be tagged before the equals sign,
or a reference. -/
inductive FeatureBody (τ : Type) where
  | assign (tag : Option τ) (value : Description τ)
  | refer (tag : τ)

def Features.ofList {τ : Type} : List (String × FeatureBody τ) → Features τ
  | [] => .nil
  | (name, .assign tag value) :: rest => .assign name tag value (ofList rest)
  | (name, .refer tag) :: rest => .refer name tag (ofList rest)

/-- The integer that a word denotes, if it consists of decimal digits after an optional minus. -/
def integer? (word : List Char) : Option Int :=
  let digits (cs : List Char) : Option Nat :=
    if cs ≠ [] ∧ cs.all Char.isDigit then some (Nat.ofDigitChars 10 cs 0) else none
  match word with
  | '-' :: cs => (digits cs).map fun n => -(n : Int)
  | cs => (digits cs).map Int.ofNat

/-- The atom that a word denotes. Integers have to fit 64 bits. -/
def Atom.ofWord (word : List Char) : Except WordFault Atom :=
  if word = "None".toList then .ok .unspecified
  else if word = "True".toList then .ok (.bool true)
  else if word = "False".toList then .ok (.bool false)
  else
    match integer? word with
    | some i =>
      if Int64.minValue.toInt ≤ i ∧ i ≤ Int64.maxValue.toInt then .ok (.int (.ofInt i))
      else .error .outOfRange
    | none => if '-' ∈ word then .error .hyphenated else .ok (.str (String.ofList word))

namespace Grammar

open Reader

def isNameChar (c : Char) : Bool := !isBlank c && !"()[]\"'=-,".toList.contains c

def isWordChar (c : Char) : Bool := isAlphanumeric c || c == '_' || c == '-'

def isIdentifierStart (c : Char) : Bool := c.isAlpha || c == '_'

def isIdentifierChar (c : Char) : Bool := c.isAlphanum || c == '_'

def number : Reader (List Char) :=
  (((satisfy fun c => c.isDigit && c != '0').andThen (many (satisfy Char.isDigit))).map
    fun r => r.1 :: r.2).orElse ((expect '0').map fun c => [c])

def tag : Reader Tag :=
  (((expect '(').padded.before (number.labelled .identifier)).followedBy
    (expect ')').padded).located.map fun r => ⟨Nat.ofDigitChars 10 r.1 0, r.2.1, r.2.2⟩

def name : Reader String :=
  ((many1 (satisfy isNameChar)).map String.ofList).padded.labelled .name

def escaped : Reader Char :=
  (expect '\\').before <|
    (expect '\\').orElse <| (expect '"').orElse <| (expect '\'').orElse <|
      ((expect 'n').map fun _ => '\n').orElse ((expect 't').map fun _ => '\t')

def quoted (quote : Char) : Reader (List Char) :=
  ((expect quote).before
    (many ((satisfy fun c => c != '\\' && c != quote).orElse escaped))).followedBy (expect quote)

def string : Reader (Description Tag) :=
  (((quoted '"').orElse (quoted '\'')).map fun cs =>
    .atom (.str (String.ofList cs))).labelled .string

def var : Reader (Description Tag) :=
  (((expect '?').before
    ((satisfy isIdentifierStart).andThen (many (satisfy isIdentifierChar)))).map fun r =>
      .var (String.ofList (r.1 :: r.2))).labelled .variable

def word : Reader (Description Tag) :=
  (((many1 (satisfy isWordChar)).check Atom.ofWord).map .atom).labelled .value

def feature (value : Reader (Description Tag)) : Reader (String × FeatureBody Tag) :=
  name.andThen <|
    (((((expect '-').before (expect '>')).padded).before tag).map .refer).orElse
      ((((optional tag).followedBy (expect '=').padded).andThen value).map fun r =>
        .assign r.1 r.2)

def struct (value : Reader (Description Tag)) : Reader (Description Tag) :=
  ((optional tag).andThen
    ((((expect '[').padded).before ((feature value).separatedBy (expect ',').padded)).followedBy
      (expect ']').padded)).map fun r => .struct r.1 (.ofList r.2)

/-- A value with structures nested at most `depth` deep. -/
def value : Nat → Reader (Description Tag)
  | 0 => fun c => .reject c.here
  | depth + 1 => (((struct (value depth)).orElse string).orElse var).orElse word

end Grammar

namespace Description

/-- The description that a whole text denotes. Each level of nesting takes a bracket, which bounds
the depth by the length of the text. -/
def read (text : String) : Except SyntaxError (Description Tag) :=
  match (Reader.followedBy (Grammar.value (text.length + 1)).padded Reader.endOfText)
      { rest := text.toList } with
  | .accept d _ _ => .ok d
  | .reject r => .error (.ofRejection r)

def readFront? (text : String) : Option (Description Tag) :=
  match (Grammar.value (text.length + 1)).padded { rest := text.toList } with
  | .accept d _ _ => some d
  | .reject _ => none

end Description

end FeatureLogic
