import FeatureLogic.Settings.Lexeme

/-!
# Values that settings ignore

A field that settings do not know may hold any value of the notation: a number, string or
character, a list or map, an option, or a structure with an optional name. Such a value is checked
and skipped. How far values may be nested is limited.
-/

namespace FeatureLogic.Settings

/-- Items up to a closing character, with commas between them and perhaps after them, given how an
item is skipped. The fuel bounds their number. -/
def skipItems (item : Rest → Option Rest) (close : Char) : Nat → Rest → Option Rest
  | 0, _ => none
  | fuel + 1, cs =>
    match cs with
    | [] => none
    | c :: after =>
      if c = close then some after
      else
        match (item cs).bind skipSpace with
        | some (',' :: cs) => (skipSpace cs).bind (skipItems item close fuel)
        | some (d :: cs) => if d = close then some cs else none
        | _ => none

def skipBracketed (fuel : Nat) (item : Rest → Option Rest) (close : Char) (cs : Rest) :
    Option Rest :=
  (skipSpace cs).bind (skipItems item close fuel)

def skipPair (key value : Rest → Option Rest) (cs : Rest) : Option Rest :=
  (((key cs).bind skipSpace).bind (token ':')).bind value

def skipName (cs : Rest) : Option Rest := (name? cs).map Prod.snd

/-- What stands inside a parenthesis: named fields if it begins with a name and a colon, else
items. -/
def skipStructure (fuel : Nat) (value : Rest → Option Rest) (cs : Rest) : Option Rest := do
  let cs ← skipSpace cs
  match skipPair skipName some cs with
  | some _ => skipBracketed fuel (skipPair skipName value) ')' cs
  | none => skipBracketed fuel value ')' cs

/-- What follows the word of an option: one value in parentheses, or a bare value if the text allows
that. -/
def skipOption (bare : Bool) (value : Rest → Option Rest) : Rest → Option Rest
  | '(' :: cs => do
    let cs ← ((skipSpace cs).bind value).bind skipSpace
    match (token ',' cs).getD cs with
    | ')' :: cs => some cs
    | _ => none
  | cs => if bare then value cs else none

def valueWords : List String := ["true", "false", "None", "inf", "NaN"]

/-- The rest after a value of any kind. A value takes one level, and brackets around items or fields
take one more; `bare` tells whether an option may go without parentheses. The fuel is at least the
length of the text. -/
def skipValue (bare : Bool) (fuel : Nat) : Nat → Rest → Option Rest
  | 0, _ => none
  | levels + 1, cs =>
    let within (skip : (Rest → Option Rest) → Option Rest) : Option Rest :=
      match levels with
      | 0 => none
      | levels + 1 => skip (skipValue bare fuel levels)
    match valueWords.findSome? (keyword · cs), keyword "Some" cs, name? cs with
    | some cs, _, _ => some cs
    | none, some cs, _ => (skipSpace cs).bind (skipOption bare (skipValue bare fuel levels))
    | none, none, some (_, cs) =>
      match skipSpace cs with
      | some ('(' :: cs) => within fun value => skipStructure fuel value cs
      | rest => rest
    | none, none, none =>
      match cs with
      | '(' :: ')' :: cs => some cs
      | '(' :: cs => within fun value => skipStructure fuel value cs
      | '[' :: cs => within fun value => skipBracketed fuel value ']' cs
      | '\x7b' :: cs => within fun value => skipBracketed fuel (skipPair value value) '\x7d' cs
      | '"' :: cs => skipString fuel cs
      | 'r' :: cs => skipRawString cs
      | '\'' :: cs => skipCharacter cs
      | _ => skipNumber cs

end FeatureLogic.Settings
