import FeatureLogic.Graph.Reachability
import FeatureLogic.Graph.Renaming
import Mathlib.Logic.Relation

/-!
# Replacing variables one after another

What a renaming has to do, said without a walk. It meets the variables below a value in some order.
A name that has a replacement gives way to it, a name that is in use gets one, and a variable of any
other name stays. A new replacement counts for all variables that are met after it, in this call and
in later ones that go on with the same map.
-/

namespace FeatureLogic.Renaming

/-- Variables with what they have become, in the order in which they were met. -/
abbrev Visits := List (VarId × VarId)

structure Call where
  before : Graph
  after : Graph
  replaced : NameMap VarId
  used : List String

namespace Call

/-- Is `y` the replacement of the old name after these visits? The call has started with it, or a
variable of this name has given way to it. -/
def Replaces (c : Call) (visits : Visits) (old : String) (y : VarId) : Prop :=
  c.replaced.get? old = some y ∨ ∃ x, (x, y) ∈ visits ∧ x ≠ y ∧ c.before.name? x = some old

/-- Is a name in use after these visits, to the caller or for a replacement? -/
def InUse (c : Call) (visits : Visits) (name : String) : Prop :=
  name ∈ c.used ∨ ∃ old y, c.Replaces visits old y ∧ c.after.name? y = some name

/-- Is `y` made as the replacement of an old name after these visits? It is a new variable, and its
name is the stem of the old one with the least number from 2 up that makes a name not in use. -/
structure Creates (c : Call) (visits : Visits) (old : String) (y : VarId) : Prop where
  unmapped : ∀ z, ¬ c.Replaces visits old z
  inUse : c.InUse visits old
  new : ¬ c.before.Contains (.var y)
  unassigned : ∀ name, ¬ c.Replaces visits name y
  named : ∃ k, 2 ≤ k ∧ c.after.name? y = some (stem old ++ toString k) ∧
    ¬ c.InUse visits (stem old ++ toString k) ∧
    ∀ j, 2 ≤ j → j < k → c.InUse visits (stem old ++ toString j)

inductive Meets (c : Call) (visits : Visits) (x : VarId) : VarId → Prop where
  | mapped {name : String} {y : VarId} : c.before.name? x = some name →
    c.Replaces visits name y → Meets c visits x y
  | kept {name : String} : c.before.name? x = some name → (∀ y, ¬ c.Replaces visits name y) →
    ¬ c.InUse visits name → Meets c visits x x
  | created {name : String} {y : VarId} : c.before.name? x = some name →
    c.Creates visits name y → Meets c visits x y

/-- Has every variable become what it had to after the visits before it? -/
inductive Follows (c : Call) : Visits → Prop where
  | start : Follows c []
  | visit {visits : Visits} {x y : VarId} : Follows c visits → c.Meets visits x y →
    Follows c (visits ++ [(x, y)])

/-- Is the name of `x`, which a visit has left as it is, later made for the replacement `y`? -/
def Captures (c : Call) (visits : Visits) (x y : VarId) : Prop :=
  ∃ earlier u later old, visits = earlier ++ (u, y) :: later ∧ (x, x) ∈ earlier ∧
    c.Creates earlier old y ∧ c.after.name? y = c.before.name? x

end Call

/-- A step of a run that goes on with one map: a renaming of a plain value, or anything else that
happens to the graph and leaves the variables their names. -/
inductive Step : Graph × NameMap VarId → Graph × NameMap VarId → Prop where
  | call {g h : Graph} {v w : Value} {replaced replaced' : NameMap VarId} {used : List String} :
    g.Plain v → g.rename? v replaced used = some (w, replaced', h) →
      Step (g, replaced) (h, replaced')
  | other {g h : Graph} {replaced : NameMap VarId} :
    (∀ {x name}, g.name? x = some name → h.name? x = some name) → Step (g, replaced) (h, replaced)

abbrev Run := Relation.ReflTransGen Step

end FeatureLogic.Renaming
