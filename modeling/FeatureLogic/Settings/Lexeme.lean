import FeatureLogic.Settings

/-!
# Lexemes of the settings notation

The notation of settings is that of a general data format. Here are its smallest parts: white space
and comments, names, integers and other numbers, strings and characters. Each function takes what
is left of a text and gives what is left after the part, or `none` if the part is not there.
-/

namespace FeatureLogic.Settings

/-- What is left of a text after something was read from its front. -/
abbrev Rest := List Char

/-! ## White space -/

def isSpace (c : Char) : Bool := c == ' ' || c == '\t' || c == '\n' || c == '\r'

inductive Gap where
  | space
  | lineComment
  | blockComment (enclosing : Nat)

/-- The rest after the gap. The end of the text must not be in a block comment. -/
def Gap.skip : Gap → Rest → Option Rest
  | .space, '/' :: '/' :: cs => lineComment.skip cs
  | .space, '/' :: '*' :: cs => (blockComment 0).skip cs
  | .space, '/' :: _ => none
  | .space, c :: cs => if isSpace c then space.skip cs else some (c :: cs)
  | .lineComment, c :: cs => if c = '\n' then space.skip cs else lineComment.skip cs
  | .blockComment n, '/' :: '*' :: cs => (blockComment (n + 1)).skip cs
  | .blockComment 0, '*' :: '/' :: cs => space.skip cs
  | .blockComment (n + 1), '*' :: '/' :: cs => (blockComment n).skip cs
  | .blockComment n, _ :: cs => (blockComment n).skip cs
  | .blockComment _, [] => none
  | _, [] => some []

def skipSpace : Rest → Option Rest := Gap.space.skip

def skipText : List Char → Rest → Option Rest
  | [], cs => some cs
  | c :: text, d :: cs => if c = d then skipText text cs else none
  | _ :: _, [] => none

def token (c : Char) : Rest → Option Rest
  | d :: cs => if d = c then skipSpace cs else none
  | [] => none

/-! ## Names -/

def isNameStart (c : Char) : Bool := c.isAlpha || c == '_'

def isNameChar (c : Char) : Bool := c.isAlphanum || c == '_'

def isRawNameChar (c : Char) : Bool := isNameChar c || c == '.' || c == '+' || c == '-'

/-- A name at the front. A name with characters that need marking has to be marked by `r#`. -/
def name? : Rest → Option (List Char × Rest)
  | 'r' :: '"' :: _ => none
  | 'r' :: '#' :: cs =>
    let raw := cs.takeWhile isRawNameChar
    if raw.isEmpty then none else some (raw, cs.dropWhile isRawNameChar)
  | c :: cs =>
    let plain := (c :: cs).takeWhile isNameChar
    if isNameStart c && plain.length == ((c :: cs).takeWhile isRawNameChar).length then
      some (plain, (c :: cs).dropWhile isNameChar)
    else none
  | [] => none

/-- A given word at the front, with no name character after it. A raw name is never such a word. -/
def keyword (word : String) (cs : Rest) : Option Rest :=
  match skipText word.toList cs with
  | some (c :: cs) => if isNameChar c then none else some (c :: cs)
  | rest => rest

/-! ## Numbers -/

def isHexDigit (c : Char) : Bool := c.isDigit || ('a' ≤ c && c ≤ 'f') || ('A' ≤ c && c ≤ 'F')

def hexDigit (c : Char) : Nat :=
  if c.isDigit then c.toNat - '0'.toNat
  else if 'a' ≤ c then c.toNat - 'a'.toNat + 10
  else c.toNat - 'A'.toNat + 10

def numeral (base : Nat) (cs : List Char) : Option Nat :=
  (cs.filter (· != '_')).foldlM (fun n c =>
    if hexDigit c < base then some (n * base + hexDigit c) else none) 0

/-- An integer without a sign and below a bound, in base 10 or after a mark of its base. -/
def integer? (bound : Nat) (cs : Rest) : Option (Nat × Rest) :=
  let (base, cs) : Nat × Rest :=
    match cs with
    | '0' :: 'x' :: cs => (16, cs)
    | '0' :: 'b' :: cs => (2, cs)
    | '0' :: 'o' :: cs => (8, cs)
    | cs => (10, cs)
  let isDigit (c : Char) := isHexDigit c || c == '_'
  let digits := cs.takeWhile isDigit
  if digits.isEmpty || digits.head? == some '_' then none
  else
    match numeral base digits with
    | some n => if n < bound then some (n, cs.dropWhile isDigit) else none
    | none => none

def unsigned? (cs : Rest) : Option (Nat × Rest) := integer? UInt64.size cs

def afterSign : Rest → Rest
  | '+' :: cs => cs
  | '-' :: cs => cs
  | cs => cs

/-- An integer of at most 64 bits with an optional sign. Signed integers give one bit to the
sign. -/
def skipInteger : Rest → Option Rest
  | '+' :: cs => (integer? (UInt64.size / 2) cs).map Prod.snd
  | '-' :: cs => (integer? (UInt64.size / 2 + 1) cs).map Prod.snd
  | cs => (unsigned? cs).map Prod.snd

def isFloatChar (c : Char) : Bool := c.isDigit || "eE.+-_".toList.contains c

def isDecimal (cs : List Char) : Bool :=
  let isMark (c : Char) := c == 'e' || c == 'E'
  let mantissa := (afterSign cs).takeWhile fun c => !isMark c
  let exponent := (afterSign cs).dropWhile fun c => !isMark c
  let digits := mantissa.filter (· != '.')
  let exponentDigits := afterSign exponent.tail
  !digits.isEmpty && digits.all Char.isDigit && mantissa.count '.' ≤ 1
    && (exponent.isEmpty || (!exponentDigits.isEmpty && exponentDigits.all Char.isDigit))

def skipFloat (cs : Rest) : Option Rest :=
  match ["inf", "NaN"].findSome? (keyword · (afterSign cs)) with
  | some cs => some cs
  | none => if isDecimal (cs.takeWhile isFloatChar) then some (cs.dropWhile isFloatChar) else none

/-- A number of any kind. It is a fraction if the characters of a fraction go further than those of
an integer, or else if it is no integer that fits. -/
def skipNumber (cs : Rest) : Option Rest :=
  let isIntChar (c : Char) := isHexDigit c || c == '_'
  let unsigned := afterSign cs
  if (unsigned.takeWhile isIntChar).length < (unsigned.takeWhile isFloatChar).length then
    skipFloat cs
  else
    match skipInteger cs with
    | some cs => some cs
    | none => skipFloat cs

/-! ## Strings -/

def skipEscape : Rest → Option Rest
  | 'x' :: c :: d :: cs => if isHexDigit c && isHexDigit d then some cs else none
  | 'u' :: '\x7b' :: cs =>
    let digits := (cs.take 6).takeWhile isHexDigit
    let n := digits.foldl (fun n c => n * 16 + hexDigit c) 0
    match cs.drop digits.length with
    | '\x7d' :: cs => if !digits.isEmpty && decide n.isValidChar then some cs else none
    | _ => none
  | c :: cs => if "'\"\\nrt0".toList.contains c then some cs else none
  | [] => none

def skipString : Nat → Rest → Option Rest
  | 0, _ => none
  | fuel + 1, '\\' :: cs =>
    match skipEscape cs with
    | none => none
    | some cs => skipString fuel cs
  | _ + 1, '"' :: cs => some cs
  | fuel + 1, _ :: cs => skipString fuel cs
  | _ + 1, [] => none

def skipThrough (ending : List Char) : Rest → Option Rest
  | [] => none
  | c :: cs =>
    match skipText ending (c :: cs) with
    | some cs => some cs
    | none => skipThrough ending cs

/-- The rest after a raw string, which ends at a quote with as many hash marks as it began with. -/
def skipRawString (cs : Rest) : Option Rest :=
  match cs.dropWhile (· == '#') with
  | '"' :: inside => skipThrough ('"' :: cs.takeWhile (· == '#')) inside
  | _ => none

def skipCharacter : Rest → Option Rest
  | '\\' :: cs =>
    match skipEscape cs with
    | some ('\'' :: cs) => some cs
    | _ => none
  | c :: '\'' :: cs => if c == '\'' then none else some cs
  | _ => none

end FeatureLogic.Settings
