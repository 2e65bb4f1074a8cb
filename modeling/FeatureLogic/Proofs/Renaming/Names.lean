import FeatureLogic.Graph.Renaming
import Mathlib.Data.List.Nodup
import Mathlib.Data.List.Perm.Subperm

/-!
# Unused names

The search for an unused name looks at one candidate more than there are names taken, so that it
finds one. The candidate that it finds first has the least number.
-/

namespace FeatureLogic.Renaming

theorem numbered_injective (name : String) :
    Function.Injective fun k : Nat => stem name ++ toString (k + 2) := by
  intro j k same
  have texts := congrArg String.toList same
  dsimp only at texts
  rw [String.toList_append, String.toList_append] at texts
  have digits : (toString (j + 2)).toList = (toString (k + 2)).toList :=
    List.append_cancel_left texts
  rw [Nat.toString_eq_repr, Nat.toString_eq_repr, Nat.toList_repr, Nat.toList_repr] at digits
  have numbers := congrArg (Nat.ofDigitChars 10 · 0) digits
  simpa using numbers

/-- Of more candidates than there are names taken, one is free. -/
theorem exists_unused (taken : List String) (name : String) :
    ∃ k < taken.length + 1, stem name ++ toString (k + 2) ∉ taken := by
  by_contra none
  have all {k : Nat} (small : k < taken.length + 1) : stem name ++ toString (k + 2) ∈ taken := by
    by_contra free
    exact none ⟨k, small, free⟩
  let candidates := (List.range (taken.length + 1)).map fun k => stem name ++ toString (k + 2)
  have nodup : candidates.Nodup := List.Nodup.map (numbered_injective name) List.nodup_range
  have subset : candidates ⊆ taken := by
    intro candidate listed
    obtain ⟨k, small, rfl⟩ := List.mem_map.1 listed
    exact all (List.mem_range.1 small)
  have length := (List.subperm_of_subset nodup subset).length_le
  rw [List.length_map, List.length_range] at length
  exact Nat.lt_irrefl _ length

/-- An unused name is the stem with the least number that makes a name not taken. -/
theorem unusedName_spec (taken : List String) (name : String) :
    ∃ k, 2 ≤ k ∧ unusedName taken name = stem name ++ toString k ∧
      stem name ++ toString k ∉ taken ∧
      ∀ j, 2 ≤ j → j < k → stem name ++ toString j ∈ taken := by
  obtain ⟨k, small, free⟩ := exists_unused taken name
  let p (k : Nat) : Bool := decide (stem name ++ toString (k + 2) ∉ taken)
  have found : ((List.range (taken.length + 1)).find? p).isSome :=
    List.find?_isSome.2 ⟨k, List.mem_range.2 small, decide_eq_true free⟩
  obtain ⟨least, first⟩ := Option.isSome_iff_exists.1 found
  obtain ⟨unused, -, before⟩ := List.find?_range_eq_some.1 first
  refine ⟨least + 2, Nat.le_add_left .., ?_, of_decide_eq_true unused, fun j two less => ?_⟩
  · have search : unusedName taken name = (((List.range (taken.length + 1)).find? p).map fun k =>
        stem name ++ toString (k + 2)).getD name := congrArg (·.getD name) List.find?_map
    rw [search, first]
    rfl
  · obtain ⟨i, rfl⟩ := Nat.exists_eq_add_of_le' two
    simpa [p] using before i (Nat.lt_of_add_lt_add_right less)

end FeatureLogic.Renaming
