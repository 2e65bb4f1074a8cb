import FeatureLogic.Graph.Dereference

/-!
# Comparing values

Two values are equal when no feature path tells them apart, and isomorphic when moreover they
share substructure in the same places. Both are decided by walking two graphs side by side. A pair
of structures that is met again is taken to correspond, so that cycles are gone around once.
-/

namespace FeatureLogic

abbrev Assumptions := List (StructId × StructId)

inductive Discrepancy where
  | different
  | dangling
deriving DecidableEq

/-- May `s` correspond to `t`, if no structure may have two partners? -/
def Assumptions.admits (pairs : Assumptions) (s t : StructId) : Bool :=
  pairs.all fun p => decide (p.1 = s ↔ p.2 = t)

namespace Graph

/-- Compares two values, given how structures are compared. Free variables compare by name. -/
def compareValues (g : Graph)
    (compareStructs : StructId → StructId → Assumptions → Except Discrepancy Assumptions)
    (v w : Value) (pairs : Assumptions) : Except Discrepancy Assumptions :=
  match g.deref? v, g.deref? w with
  | some (.atom a), some (.atom b) => if a = b then .ok pairs else .error .different
  | some (.var x), some (.var y) =>
    if x = y then .ok pairs
    else
      match g.name? x, g.name? y with
      | some m, some n => if m = n then .ok pairs else .error .different
      | _, _ => .error .dangling
  | some (.struct s), some (.struct t) => compareStructs s t pairs
  | some _, some _ => .error .different
  | _, _ => .error .dangling

def compareFeatures (g : Graph)
    (compareStructs : StructId → StructId → Assumptions → Except Discrepancy Assumptions)
    (theirs : NameMap Value) :
    List (String × Value) → Assumptions → Except Discrepancy Assumptions
  | [], pairs => .ok pairs
  | (name, v) :: rest, pairs =>
    match theirs.get? name with
    | none => .error .different
    | some w =>
      match g.compareValues compareStructs v w pairs with
      | .error e => .error e
      | .ok pairs => g.compareFeatures compareStructs theirs rest pairs

/-- With `oneToOne`, a structure may correspond to one structure only. -/
def compareStructs (g : Graph) (oneToOne : Bool) :
    Nat → StructId → StructId → Assumptions → Except Discrepancy Assumptions
  | 0, _, _, _ => .error .dangling
  | fuel + 1, s, t, pairs =>
    if oneToOne && !pairs.admits s t then .error .different
    else if (s, t) ∈ pairs then .ok pairs
    else
      match g.features? s, g.features? t with
      | some ours, some theirs =>
        if ours.size = theirs.size then
          g.compareFeatures (g.compareStructs oneToOne fuel) theirs ours.entries ((s, t) :: pairs)
        else .error .different
      | _, _ => .error .dangling

/-- Each level of the walk assumes a pair of structures not assumed before, which bounds its depth
by the number of pairs. -/
def correspond? (g : Graph) (oneToOne : Bool) (v w : Value) : Option Bool :=
  match g.compareValues (g.compareStructs oneToOne (g.structCount * g.structCount + 1)) v w [] with
  | .ok _ => some true
  | .error .different => some false
  | .error .dangling => none

def equal? (g : Graph) (v w : Value) : Option Bool := g.correspond? false v w

def isomorphic? (g : Graph) (v w : Value) : Option Bool := g.correspond? true v w

end Graph

end FeatureLogic
