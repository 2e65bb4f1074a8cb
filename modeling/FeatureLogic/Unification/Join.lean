import FeatureLogic.Failure
import FeatureLogic.Graph.Absorption
import FeatureLogic.Graph.Text

/-!
# Joining two values

Two copied values are joined in place. When two structures meet, the second is absorbed by the
first, which takes over its features one by one; a variable that meets a value is bound to it, and
two variables become aliases. What a pair of values was joined to is remembered, so that a pair met
again, as happens on a cycle, is not joined twice.
-/

namespace FeatureLogic

/-- The graph as joined so far, and the outcomes for the pairs joined before. -/
structure JoinState where
  graph : Graph
  joined : List ((Value × Value) × Value) := []

inductive Halt where
  | failure (f : Failure)
  | dangling

/-- A step that may change the graph. When it halts, the graph stays as the step left it. -/
abbrev Join (α : Type) := EStateM Halt JoinState α

namespace Join

def look {α : Type} (read : Graph → Option α) : Join α := do
  match read (← get).graph with
  | some a => return a
  | none => throw .dangling

def update (write : Graph → Graph) : Join Unit :=
  modify fun st => { st with graph := write st.graph }

/-- The outcome for a pair joined before, or else what `join` gives. -/
def reuse (v w : Value) (join : Join Value) : Join Value := do
  match (← get).joined.lookup (v, w) with
  | some u => return u
  | none => join

/-- Keeps the outcome for a pair, unless both are atoms. -/
def record (v w u : Value) : Join Unit :=
  if v.isNode || w.isNode then
    modify fun st => { st with joined := ((v, w), u) :: st.joined }
  else return

def mismatch {α : Type} (path : List String) (v w : Value) : Join α := do
  let left ← look (·.text? v)
  let right ← look (·.text? w)
  throw (.failure (.mismatch path left right))

abbrev Joiner := List String → Value → Value → Join Value

/-- Binds a variable to `v`, joined with the value that it has already. -/
def bindVar (join : Joiner) (path : List String) (x : VarId) (v : Value) : Join Unit := do
  let root ← look (·.root? x)
  let node ← look (·.var? root)
  let bound ←
    match node.binding with
    | .bound old => join path old v
    | _ => pure v
  let root ← look (·.root? root)
  update (·.setBinding root (.bound bound))

/-- Makes `x` an alias of `y`. What `x` was bound to moves over to `y`, after `x` has come to stand
for `y` everywhere. -/
def aliasVar (join : Joiner) (path : List String) (x y : VarId) : Join Value := do
  let node ← look (·.var? x)
  update (·.setBinding x (.link y))
  match node.binding with
  | .bound v => bindVar join path y v
  | _ => pure ()
  return .var y

/-- Joins the listed features into the survivor of `s`, which may change on the way. -/
def takeOver (join : Joiner) (path : List String) (s : StructId) :
    List (String × Value) → Join Unit
  | [] => return
  | (name, theirs) :: rest => do
    let target ← look (·.survivor? s)
    let features ← look (·.features? target)
    let ours := (features.get? name).getD .unspecified
    let v ← join (path ++ [name]) ours theirs
    let target ← look (·.survivor? s)
    update (·.setFeature target name v)
    takeOver join path s rest

/-- Makes `s` absorb `t` with the features that `t` has now. -/
def absorbStruct (join : Joiner) (path : List String) (s t : StructId) : Join Value := do
  let features ← look (·.features? t)
  update (·.absorb s t)
  takeOver join path s features.entries
  return .struct (← look (·.survivor? s))

/-- Joins two values of which each stands for itself. -/
def joinNodes (join : Joiner) (path : List String) : Value → Value → Join Value
  | .var x, .var y => aliasVar join path x y
  | .var x, v => do
    bindVar join path x v
    return .var x
  | v, .var y => do
    bindVar join path y v
    return .var y
  | .struct s, .struct t => absorbStruct join path s t
  | v, w => mismatch path v w

def joinValues (join : Joiner) (path : List String) (v w : Value) : Join Value := do
  if v = .unspecified then return w
  else if w = .unspecified then return v
  else
    let v ← look (·.representative? v)
    let w ← look (·.representative? w)
    if v = w then return v else joinNodes join path v w

def joinWithin (limit : Nat) : Nat → Joiner
  | 0, path, v, w => reuse v w (throw (.failure (.tooDeep limit path)))
  | budget + 1, path, v, w =>
    reuse v w do
      let u ← joinValues (joinWithin limit budget) path v w
      record v w u
      return u

/-- The join with every pair of values joined afresh: no outcome is looked up, although outcomes are
still kept. -/
def joinAfresh (limit : Nat) : Nat → Joiner
  | 0, path, _, _ => throw (.failure (.tooDeep limit path))
  | budget + 1, path, v, w => do
    let u ← joinValues (joinAfresh limit budget) path v w
    record v w u
    return u

end Join

end FeatureLogic
