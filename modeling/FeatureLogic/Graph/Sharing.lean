import FeatureLogic.Graph.Dereference

/-!
# Shared structures

A structure is shared when more than one feature path leads to it. One walk that enters each
structure once finds them: a structure is shared exactly when the walk meets it a second time.
-/

namespace FeatureLogic

/-- The structures met so far, and those met again. -/
structure Tally where
  met : List StructId := []
  shared : List StructId := []

namespace Graph

def tallyValues (g : Graph) (tallyStruct : StructId → Tally → Option Tally) :
    List Value → Tally → Option Tally
  | [], t => some t
  | v :: rest, t =>
    match g.deref? v with
    | none => none
    | some (.struct s) =>
      match tallyStruct s t with
      | none => none
      | some t => g.tallyValues tallyStruct rest t
    | some _ => g.tallyValues tallyStruct rest t

def tallyStruct (g : Graph) : Nat → StructId → Tally → Option Tally
  | 0, _, _ => none
  | fuel + 1, s, t =>
    if s ∈ t.met then some { t with shared := s :: t.shared }
    else
      match g.features? s with
      | none => none
      | some features =>
        g.tallyValues (g.tallyStruct fuel) features.values { t with met := s :: t.met }

/-- The structures at or below `s` to which several paths lead. Each level of the walk enters a
structure not met before, which bounds its depth by the number of structures. -/
def shared? (g : Graph) (s : StructId) : Option (List StructId) :=
  (g.tallyStruct (g.structCount + 1) s {}).map Tally.shared

def reentrances? (g : Graph) (s : StructId) : Option (List StructId) :=
  (g.shared? s).map fun shared =>
    ((List.range g.structCount).map StructId.mk).filter (· ∈ shared)

end Graph

end FeatureLogic
