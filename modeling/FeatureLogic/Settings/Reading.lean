import FeatureLogic.Settings.Ignored

/-!
# Reading settings

Settings are a structure of the notation, with its name or without it. Attributes at the front of
the text may switch on variants of the notation. A field given twice is an error, and so is any text
after the settings.
-/

namespace FeatureLogic.Settings

/-- How many levels of values may be nested, the settings themselves included. -/
def nestingLimit : Nat := 128

def bareOptions : String := "implicit_some"

def variants : List String := [bareOptions, "unwrap_newtypes", "unwrap_variant_newtypes"]

/-- Names of variants up to the closing parenthesis, at least one, with commas between them and
perhaps after them. -/
def variants? : Nat → Rest → Option (List String × Rest)
  | 0, _ => none
  | fuel + 1, cs => do
    let (name, cs) ← name? cs
    let name := String.ofList name
    guard (variants.contains name)
    let cs ← skipSpace cs
    match token ')' cs, token ',' cs with
    | some cs, _ => return ([name], cs)
    | none, some (')' :: cs) => return ([name], ← skipSpace cs)
    | none, some cs =>
      let (names, cs) ← variants? fuel cs
      return (name :: names, cs)
    | none, none => none

def attributes? : Nat → Rest → Option (List String × Rest)
  | 0, _ => none
  | fuel + 1, '#' :: cs => do
    let cs ← (skipSpace cs).bind (token '!')
    let cs ← token '[' cs
    let cs ← (keyword "enable" cs).bind skipSpace
    let cs ← token '(' cs
    let (names, cs) ← variants? fuel cs
    let (more, cs) ← attributes? fuel (← token ']' cs)
    return (names ++ more, cs)
  | _ + 1, cs => some ([], cs)

/-- The fields up to the closing parenthesis, given how the value of an unknown field is skipped and
what `max_depth` was given before. -/
def fields? (unknown : Rest → Option Rest) : Nat → Option Nat → Rest → Option (Option Nat × Rest)
  | 0, _, _ => none
  | _ + 1, maxDepth, ')' :: cs => some (maxDepth, cs)
  | fuel + 1, maxDepth, cs => do
    let (name, cs) ← name? cs
    let cs ← (skipSpace cs).bind (token ':')
    let (maxDepth, cs) ←
      if name = maxDepthField.toList then
        match maxDepth, unsigned? cs with
        | none, some (n, cs) => some (some n, cs)
        | _, _ => none
      else (unknown cs).map fun cs => (maxDepth, cs)
    match ← skipSpace cs with
    | ',' :: cs => fields? unknown fuel maxDepth (← skipSpace cs)
    | ')' :: cs => some (maxDepth, cs)
    | _ => none

def read? (text : String) : Option Settings := do
  let cs ← skipSpace text.toList
  let (enabled, cs) ← attributes? (cs.length + 1) cs
  let cs ←
    match name? cs with
    | some (name, cs) => if name = typeName.toList then skipSpace cs else none
    | none => some cs
  let cs ← token '(' cs
  let fuel := cs.length + 1
  let unknown := skipValue (enabled.contains bareOptions) fuel (nestingLimit - 1)
  let (maxDepth, cs) ← fields? unknown fuel none cs
  match ← skipSpace cs with
  | [] => return { maxDepth := maxDepth.getD Graph.defaultLimit }
  | _ => none

end FeatureLogic.Settings
