import FeatureLogic.Graph.Text

/-!
# Scopes

A scope says what each variable name stands for: a variable, which may be of another name, or the
value that the name was resolved to.
-/

namespace FeatureLogic

abbrev Scope := NameMap Value

namespace Scope

def text? (g : Graph) (scope : Scope) : Option String := do
  let parts ← scope.entries.mapM fun (name, v) => do return name ++ ": " ++ (← g.text? v)
  return "\x7b" ++ String.intercalate ", " parts ++ "\x7d"

/-- Follows `v` through the scope by name and through the graph's own aliases, until neither knows
more about it. A name is looked up in the scope once only. Between two such look-ups the graph is
asked at most once, which bounds the number of steps. -/
def follow (scope : Scope) (g : Graph) : Nat → List String → Value → Option Value
  | 0, _, _ => none
  | fuel + 1, seen, .var x =>
    match g.name? x with
    | none => none
    | some name =>
      match if name ∈ seen then none else scope.get? name with
      | some v => scope.follow g fuel (name :: seen) v
      | none =>
        match g.deref? (.var x) with
        | none => none
        | some w => if w = .var x then some w else scope.follow g fuel seen w
  | _ + 1, _, v => some v

def meaning? (scope : Scope) (g : Graph) (v : Value) : Option Value :=
  scope.follow g (2 * scope.size + 3) [] v

end Scope

end FeatureLogic
