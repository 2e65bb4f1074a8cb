import FeatureLogic.Unification

/-!
# Settings

What a caller may tune. Settings are written as named fields in parentheses, such as
`(max_depth: 200)`.
-/

namespace FeatureLogic

structure Settings where
  /-- How deep joins may be nested. -/
  maxDepth : Nat := Graph.defaultLimit
deriving DecidableEq

namespace Settings

def typeName : String := "UnifyConfig"

def maxDepthField : String := "max_depth"

def errorMessage (reason : String) : String := "Error while reading config: " ++ reason

end Settings

end FeatureLogic
