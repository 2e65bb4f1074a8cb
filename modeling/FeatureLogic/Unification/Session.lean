import FeatureLogic.Unification

/-!
# Sessions

A session unifies values of one graph again and again. Its caller keeps scopes under names, hands
them to the calls and may change them in between. What a join remembers, how deeply it is nested
and along which path belongs to one call; the next call starts without any of it.
-/

namespace FeatureLogic

/-- The scopes that a call reads variables in: an empty one for each operand, a scope of the caller
for both, or two different ones. -/
inductive ScopeChoice where
  | fresh
  | common (name : String)
  | separate (left right : String) (different : left ≠ right)
deriving DecidableEq

structure Session where
  graph : Graph := ∅
  scopes : NameMap Scope := ∅
  limit : Nat := Graph.defaultLimit
deriving DecidableEq

inductive SessionStep where
  | call (v w : Value) (choice : ScopeChoice)
  | assign (name : String) (scope : Scope)
deriving DecidableEq

structure SessionEvent where
  step : SessionStep
  result : Option (Except Failure Value)
  after : Session

namespace SessionEvent

def failed (e : SessionEvent) : Bool :=
  match e.result with
  | some (.error _) => true
  | _ => false

end SessionEvent

namespace Session

def scope (s : Session) (name : String) : Scope := (s.scopes.get? name).getD ∅

def assign (s : Session) (name : String) (scope : Scope) : Session :=
  { s with scopes := s.scopes.insert name scope }

def scoping (s : Session) : ScopeChoice → Scoping
  | .fresh => .fresh
  | .common name => .common (s.scope name)
  | .separate left right _ => .separate (s.scope left) (s.scope right)

def giveBack (s : Session) (after : Scoping) : ScopeChoice → Session
  | .fresh => s
  | .common name => s.assign name after.left
  | .separate left right _ => (s.assign left after.left).assign right after.right

def call? (s : Session) (v w : Value) (choice : ScopeChoice) :
    Option (Except Failure Value × Session) :=
  match s.graph.unify? s.limit v w (s.scoping choice) with
  | none => none
  | some (.ok (u, after), graph) => some (.ok u, { s with graph }.giveBack after choice)
  | some (.error f, graph) => some (.error f, { s with graph })

def step? (s : Session) : SessionStep → Option (Option (Except Failure Value) × Session)
  | .call v w choice => (s.call? v w choice).map fun (result, after) => (some result, after)
  | .assign name scope => some (none, s.assign name scope)

def run? (s : Session) : List SessionStep → Option (List SessionEvent)
  | [] => some []
  | step :: rest =>
    match s.step? step with
    | none => none
    | some (result, after) => (after.run? rest).map ({ step, result, after } :: ·)

end Session

end FeatureLogic
