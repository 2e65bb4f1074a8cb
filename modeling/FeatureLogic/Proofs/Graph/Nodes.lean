import FeatureLogic.Graph.WellFormed
import Mathlib.Data.Finset.Card

/-!
# Counting nodes

A list of different nodes of a graph is no longer than the graph is large. Every walk that enters a
node once is bounded in this way.
-/

namespace FeatureLogic.Graph

theorem length_le_structCount {g : Graph} {l : List StructId} (nodup : l.Nodup)
    (found : ∀ s ∈ l, ∃ m, g.features? s = some m) : l.length ≤ g.structCount := by
  have indices : (l.map StructId.index).Nodup :=
    nodup.map fun s t h => by cases s; cases t; exact congrArg StructId.mk h
  have below : (l.map StructId.index).toFinset ⊆ Finset.range g.structCount := by
    intro i mem
    obtain ⟨s, hs, rfl⟩ := List.mem_map.1 (List.mem_toFinset.1 mem)
    obtain ⟨m, found⟩ := found s hs
    exact Finset.mem_range.2 (contains_of_features? found)
  have card := Finset.card_le_card below
  rwa [List.toFinset_card_of_nodup indices, List.length_map, Finset.card_range] at card

def place (g : Graph) : Value → Nat
  | .atom _ => 0
  | .struct s => s.index
  | .var x => g.structCount + x.index

variable {g : Graph} {v w : Value}

theorem place_lt (contains : g.Contains v) (node : v.isNode) :
    g.place v < g.structCount + g.varCount := by
  cases v with
  | atom a => cases node
  | struct s => exact Nat.lt_of_lt_of_le contains (Nat.le_add_right _ _)
  | var x => exact Nat.add_lt_add_left contains _

theorem eq_of_place (contains : g.Contains v) (node : v.isNode) (contains' : g.Contains w)
    (node' : w.isNode) (eq : g.place v = g.place w) : v = w := by
  cases v with
  | atom a => cases node
  | struct s =>
    obtain ⟨i⟩ := s
    cases w with
    | atom b => cases node'
    | struct t =>
      obtain ⟨j⟩ := t
      exact congrArg (fun k => Value.struct ⟨k⟩) eq
    | var y =>
      have below : i < g.structCount := contains
      have eq : i = g.structCount + y.index := eq
      omega
  | var x =>
    obtain ⟨i⟩ := x
    cases w with
    | atom b => cases node'
    | struct t =>
      have below : t.index < g.structCount := contains'
      have eq : g.structCount + i = t.index := eq
      omega
    | var y =>
      obtain ⟨j⟩ := y
      exact congrArg (fun k => Value.var ⟨k⟩) (Nat.add_left_cancel eq)

theorem length_le_nodeCount {nodes : List Value} (nodup : nodes.Nodup)
    (inside : ∀ v ∈ nodes, g.Contains v ∧ v.isNode) :
    nodes.length ≤ g.structCount + g.varCount := by
  have places : (nodes.map g.place).Nodup :=
    (List.nodup_map_iff_inj_on nodup).2 fun v mem w mem' eq =>
      eq_of_place (inside v mem).1 (inside v mem).2 (inside w mem').1 (inside w mem').2 eq
  have bounded : (nodes.map g.place).toFinset ⊆ Finset.range (g.structCount + g.varCount) := by
    intro i mem
    obtain ⟨v, hv, rfl⟩ := List.mem_map.1 (List.mem_toFinset.1 mem)
    exact Finset.mem_range.2 (place_lt (inside v hv).1 (inside v hv).2)
  have card := Finset.card_le_card bounded
  rwa [List.toFinset_card_of_nodup places, List.length_map, Finset.card_range] at card

end FeatureLogic.Graph
