import FeatureLogic.Scope.Scoping
import FeatureLogic.Unification.Join
import FeatureLogic.Unification.NormalForm
import FeatureLogic.Unification.Operand

/-!
# Unification

Unifying two values gives a value that has the information of both: the operands are copied, the
copies are joined, and the joined graph is brought into normal form. The operands stay as they are.
If the operands are incompatible, the graph and the scopes are what they were before.
-/

namespace FeatureLogic.Graph

/-- Copies both operands with one memory, each in its scope, and lets the scopes name the copies. -/
def copyOperands (g : Graph) (v w : Value) :
    Scoping → Option (Value × Value × Scoping × Graph)
  | .common scope => do
    let (v, g, m) ← Copying.copyScoped v (g, { scope })
    let (w, g, m) ← Copying.copyScoped w (g, m)
    return (v, w, .common (m.scope.map m.images.apply), g)
  | .separate left right => do
    let (v, g, m) ← Copying.copyScoped v (g, { scope := left })
    let left := m.scope
    let (w, g, m) ← Copying.copyScoped w (g, { m with scope := right })
    return (v, w, .separate (left.map m.images.apply) (m.scope.map m.images.apply), g)

def normalize (g : Graph) (v : Value) (scoping : Scoping) : Option (Value × Scoping × Graph) := do
  let (v, walk) ← redirectValue v (g, [])
  let (scoping, g, _) ← scoping.update (fun scope => Scope.redirect scope.entries scope) walk
  let (v, walk) ← settleValue v (g, [])
  let (scoping, g, _) ← scoping.update (fun scope => Scope.settle scope.entries scope) walk
  return (v, scoping, g)

/-- Unifies two values, given how their copies are joined. Gives the result with the scopes that go
with it, or else a failure, and the graph afterwards. After a failure the new nodes are given up. -/
def unifyWith? (join : Value → Value → Join Value) (g : Graph) (v w : Value) (scoping : Scoping) :
    Option (Except Failure (Value × Scoping) × Graph) := do
  let (v, w, copied, start) ← g.copyOperands v w scoping
  match join v w { graph := start } with
  | .ok u st =>
    let (u, settled, final) ← st.graph.normalize u copied
    return (.ok (u, settled), final.forgetAbsorbed g.structCount)
  | .error (.failure f) st => return (.error f, st.graph.truncate g.structCount g.varCount)
  | .error .dangling _ => none

def unify? (g : Graph) (limit : Nat) (v w : Value) (scoping : Scoping) :
    Option (Except Failure (Value × Scoping) × Graph) :=
  g.unifyWith? (Join.joinWithin limit limit []) v w scoping

/-- Unifies two values as `unify?` does, with every pair of values joined afresh. -/
def unifyAfresh? (g : Graph) (limit : Nat) (v w : Value) (scoping : Scoping) :
    Option (Except Failure (Value × Scoping) × Graph) :=
  g.unifyWith? (Join.joinAfresh limit limit []) v w scoping

def defaultLimit : Nat := 50

end FeatureLogic.Graph
