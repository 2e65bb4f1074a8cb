/-!
# Rejections

What a reader reports about a place where it could not go on. A text is rejected for what was
found furthest into it; rejections at one place are merged.
-/

namespace FeatureLogic.Text

inductive Label where
  | identifier
  | name
  | string
  | variable
  | value
deriving DecidableEq

def Label.text : Label → String
  | .identifier => "reentrance identifier"
  | .name => "feature name"
  | .string => "string"
  | .variable => "variable"
  | .value => "value"

/-- Which kinds of text would have been accepted: `several` when they were of different kinds. -/
inductive Labelling where
  | unlabelled
  | single (l : Label)
  | several
deriving DecidableEq

def Labelling.merge : Labelling → Labelling → Labelling
  | .unlabelled, b => b
  | a, .unlabelled => a
  | .single a, .single b => if a = b then .single a else .several
  | _, _ => .several

inductive WordFault where
  | outOfRange
  | hyphenated
deriving DecidableEq

def WordFault.text : WordFault → String
  | .outOfRange => "integer out of range"
  | .hyphenated => "an integer, symbol or structure"

/-- A rejection ranks by `reach`, the number of characters accepted before it, and is reported at
`position`. The two differ for a word that is rejected as a whole. In `expected`, `none` is the end
of the text. -/
structure Rejection where
  reach : Nat
  position : Nat
  expected : List (Option Char) := []
  labelling : Labelling := .unlabelled
  fault : Option WordFault := none
deriving DecidableEq

namespace Rejection

/-- The one that reaches further; of two that reach equally far the first, with what the second
expected added. -/
def furthest (a b : Rejection) : Rejection :=
  if b.reach < a.reach then a
  else if a.reach < b.reach then b
  else
    { a with
      expected := a.expected ++ b.expected
      labelling := a.labelling.merge b.labelling }

def keep : Option Rejection → Option Rejection → Option Rejection
  | none, new => new
  | old, none => old
  | some old, some new => some (new.furthest old)

/-- A label says more than single characters, but not more than another label. -/
def label (l : Label) (r : Rejection) : Rejection :=
  match r.labelling with
  | .single _ => r
  | _ => { r with labelling := .single l }

end Rejection

end FeatureLogic.Text
