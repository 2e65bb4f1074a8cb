import FeatureLogic.Proofs.Text.Reading
import FeatureLogic.Settings.Reading
import Mathlib.Data.Nat.Digits.Defs

/-!
# A grammar of settings

What the notation of settings means, apart from how it is read: white space and comments, names,
unsigned integers, and the depths that the fields of a text give. Each relation takes a text and
what is left of it. The values of unknown fields and the attributes at the front of a text are left
to their readers.
-/

namespace FeatureLogic.Settings

open Text (Avoids)

/-! ## White space -/

/-- What may stand in a block comment. Comments in it are closed in it. -/
inductive Comment : List Char → Prop where
  | nil : Comment []
  | char {c : Char} {cs : List Char} : c ≠ '/' → c ≠ '*' → Comment cs → Comment (c :: cs)
  | slash {c : Char} {cs : List Char} : c ≠ '*' → Comment (c :: cs) → Comment ('/' :: c :: cs)
  | star {cs : List Char} : cs.head? ≠ some '/' → Comment cs → Comment ('*' :: cs)
  | nested {inner cs : List Char} : Comment inner → Comment cs →
      Comment ('/' :: '*' :: (inner ++ '*' :: '/' :: cs))

/-- Is there nothing but white space and comments in front of `rest`? The comment on the last line
of a text needs no line break. -/
inductive Space : Rest → Rest → Prop where
  | done {rest : Rest} : Space rest rest
  | space {c : Char} {cs rest : Rest} : isSpace c → Space cs rest → Space (c :: cs) rest
  | line {text : List Char} {cs rest : Rest} : '\n' ∉ text → Space cs rest →
      Space ('/' :: '/' :: (text ++ '\n' :: cs)) rest
  | lastLine {text : List Char} : '\n' ∉ text → Space ('/' :: '/' :: text) []
  | block {text : List Char} {cs rest : Rest} : Comment text → Space cs rest →
      Space ('/' :: '*' :: (text ++ '*' :: '/' :: cs)) rest

def Solid : Rest → Prop := Avoids fun c => isSpace c || c == '/'

/-! ## Names and numbers -/

/-- Is there a name in front of `rest`? After an `r`, a quote or a hash mark makes it no plain
name. -/
inductive Named : Rest → List Char → Rest → Prop where
  | plain {c : Char} {word : List Char} {rest : Rest} : isNameStart c → word.all isNameChar →
      Avoids isRawNameChar rest →
      (c :: word = ['r'] → Avoids (fun d => d == '"' || d == '#') rest) →
      Named (c :: (word ++ rest)) (c :: word) rest
  | raw {name : List Char} {rest : Rest} : name ≠ [] → name.all isRawNameChar →
      Avoids isRawNameChar rest → Named ('r' :: '#' :: (name ++ rest)) name rest

/-- The number that digits denote in a base, with underscores left out. -/
def Numeral (base : Nat) (digits : List Char) (n : Nat) : Prop :=
  (∀ c ∈ digits.filter (· != '_'), hexDigit c < base) ∧
    n = Nat.ofDigits base ((digits.filter (· != '_')).map hexDigit).reverse

def marks : List (List Char × Nat) := [(['0', 'x'], 16), (['0', 'b'], 2), (['0', 'o'], 8)]

/-- Is there a mark in front of `rest`, or none and so the base is ten? -/
inductive Marked : Rest → Nat → Rest → Prop where
  | mark {mark : List Char} {base : Nat} {rest : Rest} : (mark, base) ∈ marks →
      Marked (mark ++ rest) base rest
  | none {rest : Rest} : (∀ e ∈ marks, ¬ e.1 <+: rest) → Marked rest 10 rest

def isNumeralChar (c : Char) : Bool := isHexDigit c || c == '_'

def Integer (bound : Nat) (cs : Rest) (n : Nat) (rest : Rest) : Prop :=
  ∃ base digits, Marked cs base (digits ++ rest) ∧ digits ≠ [] ∧ digits.head? ≠ some '_' ∧
    digits.all isNumeralChar ∧ Avoids isNumeralChar rest ∧ Numeral base digits n ∧ n < bound

/-! ## Fields -/

/-- Is there a field in front of `rest`, and which depth does it give, if it is that field? How the
value of another field is skipped is given. -/
inductive Field (unknown : Rest → Option Rest) : Rest → Option Nat → Rest → Prop where
  | depth {cs after behind value rest : Rest} {n : Nat} : Named cs maxDepthField.toList after →
      Space after (':' :: behind) → Space behind value → Integer UInt64.size value n rest →
      Field unknown cs (some n) rest
  | other {cs after behind value rest : Rest} {name : List Char} : Named cs name after →
      name ≠ maxDepthField.toList → Space after (':' :: behind) → Space behind value →
      Solid value → unknown value = some rest → Field unknown cs none rest

/-- The depths that the fields up to a closing parenthesis give, one after the other. There is a
comma between fields and perhaps one after them. -/
inductive Fields (unknown : Rest → Option Rest) : Rest → List Nat → Rest → Prop where
  | none {rest : Rest} : Fields unknown (')' :: rest) [] rest
  | last {cs after rest : Rest} {depth : Option Nat} : Field unknown cs depth after →
      Space after (')' :: rest) → Fields unknown cs depth.toList rest
  | next {cs after behind more rest : Rest} {depth : Option Nat} {depths : List Nat} :
      Field unknown cs depth after → Space after (',' :: behind) → Space behind more →
      Fields unknown more depths rest → Fields unknown cs (depth.toList ++ depths) rest

/-- Is there an opening parenthesis in front of `rest`, perhaps after the name of settings? -/
inductive Opened : Rest → Rest → Prop where
  | bare {rest : Rest} : Opened ('(' :: rest) rest
  | titled {cs after rest : Rest} : Named cs typeName.toList after → Space after ('(' :: rest) →
      Opened cs rest

def skipUnknown (enabled : List String) (inside : Rest) : Rest → Option Rest :=
  skipValue (enabled.contains bareOptions) (inside.length + 1) (nestingLimit - 1)

/-- The depths that the fields of a whole text give. -/
def Lists (text : List Char) (depths : List Nat) : Prop :=
  ∃ front enabled opening behind inside rest, Space text front ∧ Solid front ∧
    attributes? (front.length + 1) front = some (enabled, opening) ∧ Opened opening behind ∧
    Space behind inside ∧ Fields (skipUnknown enabled inside) inside depths rest ∧ Space rest []

end FeatureLogic.Settings
