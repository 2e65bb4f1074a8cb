/-!
# Failed unifications
-/

namespace FeatureLogic

/-- Why a unification has no result. The path names the features that lead from the operands to
the place of the failure. -/
inductive Failure where
  /-- Two atoms differ, or a structure meets an atom. The sides are kept as text, because the nodes
  they were read from are given up. -/
  | mismatch (path : List String) (left right : String)
  /-- Structures were nested deeper than the limit. -/
  | tooDeep (limit : Nat) (path : List String)
deriving DecidableEq

namespace Failure

/-- A failure that says nothing about whether the operands are compatible. -/
def isFatal : Failure → Bool
  | .mismatch .. => false
  | .tooDeep .. => true

def path : Failure → List String
  | .mismatch path _ _ => path
  | .tooDeep _ path => path

def pathText (path : List String) : String :=
  if path.isEmpty then "<root>" else String.intercalate "." path

def text : Failure → String
  | .mismatch path left right =>
    "Structure mismatch at \x60" ++ pathText path ++ "\x60: \x60" ++ left
      ++ "\x60 does not unify with \x60" ++ right ++ "\x60."
  | .tooDeep limit path =>
    "Unification nested deeper than " ++ toString limit ++ " levels (at \x60" ++ pathText path
      ++ "\x60); the operands do not form a well-founded problem."

def message (f : Failure) : String := "Unification failed: " ++ f.text

end Failure

end FeatureLogic
