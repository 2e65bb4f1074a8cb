import FeatureLogic.Proofs.NormalForm.Reshaping

/-!
# Settling values

The second walk of the normal form ends and puts what it settles to in the place of every value.
Below the nodes that it has visited, everything is settled and visited as well.
-/

namespace FeatureLogic

namespace Region

open FeatureLogic.Graph

structure Settling (r : Region) (g h : Graph) (visited : List StructId) : Prop where
  reshapes : r.Reshapes g h
  nodup : visited.Nodup
  inside : ∀ s ∈ visited, r.Has (.struct s) ∧ g.forward? (.struct s) = none

def Tidy (g h : Graph) (visited : List StructId) (s : StructId) : Prop :=
  ∀ name v, h.Feature s name v → g.Settles v v ∧ ∀ t, v = .struct t → t ∈ visited

theorem Tidy.mono {g h h' : Graph} {visited visited' : List StructId} {s : StructId}
    (tidy : Tidy g h visited s) (unchanged : h'.features? s = h.features? s)
    (more : visited ⊆ visited') : Tidy g h' visited' s := by
  rintro name v ⟨m, found, holds⟩
  obtain ⟨settled, reached⟩ := tidy name v ⟨m, unchanged ▸ found, holds⟩
  exact ⟨settled, fun t eq => more (reached t eq)⟩

variable {r : Region} {g h : Graph} {visited : List StructId}

structure Progress (r : Region) (g h : Graph) (visited : List StructId) (h' : Graph)
    (visited' : List StructId) : Prop where
  settling : r.Settling g h' visited'
  more : visited ⊆ visited'
  longer : visited.length ≤ visited'.length
  tidy : ∀ s ∈ visited', s ∉ visited → Tidy g h' visited' s

theorem Settling.length_le (settling : r.Settling g h visited) : visited.length ≤ r.endStruct := by
  have found : ∀ s ∈ visited, ∃ m, h.features? s = some m := fun s mem =>
    settling.reshapes.closed.exists_features (settling.inside s mem).1
  have bound := length_le_structCount settling.nodup found
  rwa [settling.reshapes.closed.structCount] at bound

def SettleEnds (r : Region) (g : Graph) (fuel : Nat)
    (settle : Value → Graph × List StructId → Option (Value × Graph × List StructId)) : Prop :=
  ∀ v h visited, r.Has v → r.Settling g h visited → r.endStruct + 1 ≤ fuel + visited.length →
    ∃ w h' visited', settle v (h, visited) = some (w, h', visited') ∧
      g.Settles v w ∧ (∀ t, w = .struct t → t ∈ visited') ∧
      r.Progress g h visited h' visited' ∧ ∀ s ∈ visited, h'.features? s = h.features? s

/-- What has become of the graph when `entries`, features of `s`, have been settled: of the
structures entered before only `s` has changed, and what is not settled there was not among the
entries. -/
structure Refilled (r : Region) (g : Graph) (s : StructId) (entries : List (String × Value))
    (h : Graph) (visited : List StructId) (h' : Graph) (visited' : List StructId) : Prop where
  progress : r.Progress g h visited h' visited'
  others : ∀ t ∈ visited, t ≠ s → h'.features? t = h.features? t
  own : ∀ name v, h'.Feature s name v →
    (g.Settles v v ∧ ∀ t, v = .struct t → t ∈ visited') ∨
      h.Feature s name v ∧ ∀ e ∈ entries, e.1 ≠ name

theorem Settling.idle (settling : r.Settling g h visited) : r.Progress g h visited h visited :=
  ⟨settling, List.Subset.refl _, Nat.le_refl _, fun _ mem fresh => absurd mem fresh⟩

theorem Refilled.nil (settling : r.Settling g h visited) (s : StructId) :
    r.Refilled g s [] h visited h visited where
  progress := settling.idle
  others _ _ _ := rfl
  own _ _ feature := .inr ⟨feature, by simp⟩

theorem Refilled.cons {s : StructId} {key : String} {v w : Value} {rest : List (String × Value)}
    {h₁ h' : Graph} {visited₁ visited' : List StructId} (entered : s ∈ visited)
    (settled : g.Settles w w) (reached : ∀ t, w = .struct t → t ∈ visited₁)
    (progress : r.Progress g h visited h₁ visited₁)
    (unchanged : ∀ t ∈ visited, h₁.features? t = h.features? t)
    (refilled : r.Refilled g s rest (h₁.setFeature s key w) visited₁ h' visited') :
    r.Refilled g s ((key, v) :: rest) h visited h' visited' := by
  have kept {t : StructId} (mem : t ∈ visited₁) (ne : t ≠ s) :
      h'.features? t = h₁.features? t := by
    rw [refilled.others t mem ne, features?_setFeature, if_neg ne.symm]
  refine ⟨⟨refilled.progress.settling, List.Subset.trans progress.more refilled.progress.more,
    progress.longer.trans refilled.progress.longer, ?_⟩, ?_, ?_⟩
  · intro t mem fresh
    by_cases first : t ∈ visited₁
    · have ne : t ≠ s := by
        rintro rfl
        exact fresh entered
      exact (progress.tidy t first fresh).mono (kept first ne) refilled.progress.more
    · exact refilled.progress.tidy t mem first
  · intro t mem ne
    rw [kept (progress.more mem) ne, unchanged t mem]
  · intro name u feature
    rcases refilled.own name u feature with done | ⟨feature₁, others⟩
    · exact .inl done
    · rcases feature₁.of_setFeature with ⟨-, rfl⟩ | ⟨ne, m, found, holds⟩
      · -- the value written for this entry
        exact .inl ⟨settled, fun t eq => refilled.progress.more (reached t eq)⟩
      · refine .inr ⟨⟨m, by rw [← unchanged s entered, found], holds⟩, fun e mem => ?_⟩
        rcases List.mem_cons.1 mem with rfl | mem
        · exact fun eq => ne ⟨rfl, eq⟩
        · exact others e mem

theorem fill_settles (closed : r.Closed g) {fuel : Nat}
    {settle : Value → Graph × List StructId → Option (Value × Graph × List StructId)}
    (ends : r.SettleEnds g fuel settle) {s : StructId} (entered : s ∈ visited)
    {entries : List (String × Value)} (inside : ∀ e ∈ entries, r.Has e.2)
    (features : ∀ e ∈ entries, ∃ v, g.Feature s e.1 v ∧ g.Updates v e.2)
    (settling : r.Settling g h visited) (enough : r.endStruct + 1 ≤ fuel + visited.length) :
    ∃ h' visited', fill settle s entries (h, visited) = some (h', visited') ∧
      r.Refilled g s entries h visited h' visited' := by
  induction entries generalizing h visited with
  | nil => exact ⟨h, visited, rfl, .nil settling s⟩
  | cons e rest ih =>
    obtain ⟨key, v⟩ := e
    have hasV : r.Has v := inside _ List.mem_cons_self
    obtain ⟨w, h₁, visited₁, walked, settles, reached, progress, unchanged⟩ :=
      ends v h visited hasV settling enough
    obtain ⟨v₀, feature, updates⟩ := features _ List.mem_cons_self
    have hasS := (settling.inside s entered).1
    have reshapes : r.Reshapes g (h₁.setFeature s key w) :=
      progress.settling.reshapes.setFeature hasS (closed.settled hasV settles).has feature
        (updates.trans ⟨closed.equates_of_settles hasV settles, settles.unique⟩)
    have longer := progress.longer
    obtain ⟨h', visited', filled, refilled⟩ := ih (progress.more entered)
      (fun e mem => inside e (List.mem_cons_of_mem _ mem))
      (fun e mem => features e (List.mem_cons_of_mem _ mem))
      ⟨reshapes, progress.settling.nodup, progress.settling.inside⟩ (by omega)
    exact ⟨h', visited', fill_cons_eq_some_iff.2 ⟨w, h₁, visited₁, walked, filled⟩,
      .cons entered (closed.settles_self hasV settles) reached progress unchanged refilled⟩

theorem settleStruct_ends (closed : r.Closed g) {fuel : Nat}
    (ends : r.SettleEnds g fuel (settle fuel)) {u : StructId} (has : r.Has (.struct u))
    (live : g.forward? (.struct u) = none) (fresh : u ∉ visited)
    (settling : r.Settling g h visited) (enough : r.endStruct + 1 ≤ fuel + 1 + visited.length) :
    ∃ m h' visited', h.features? u = some m ∧
      fill (settle fuel) u m.entries (h, u :: visited) = some (h', visited') ∧ u ∈ visited' ∧
      r.Progress g h visited h' visited' ∧ ∀ s ∈ visited, h'.features? s = h.features? s := by
  obtain ⟨m, found⟩ := settling.reshapes.closed.exists_features has
  have inside : ∀ e ∈ m.entries, r.Has e.2 := fun e mem =>
    settling.reshapes.closed.feature has found (m.get?_eq_some_iff.2 mem)
  have entered : r.Settling g h (u :: visited) := by
    refine ⟨settling.reshapes, List.nodup_cons.2 ⟨fresh, settling.nodup⟩, fun s mem => ?_⟩
    rcases List.mem_cons.1 mem with rfl | mem
    · exact ⟨has, live⟩
    · exact settling.inside s mem
  obtain ⟨h', visited', filled, progress, others, own⟩ :=
    fill_settles closed ends List.mem_cons_self inside
      (fun e mem => settling.reshapes.origin has ⟨m, found, m.get?_eq_some_iff.2 mem⟩) entered
      (by rw [List.length_cons]; omega)
  have longer := progress.longer
  rw [List.length_cons] at longer
  refine ⟨m, h', visited', found, filled, progress.more List.mem_cons_self,
    ⟨progress.settling, List.Subset.trans (List.subset_cons_self _ _) progress.more, by omega,
      ?_⟩, ?_⟩
  · intro t mem new
    by_cases eq : t = u
    · subst eq
      intro name v feature
      rcases own name v feature with done | ⟨⟨m', found', holds⟩, others⟩
      · exact done
      · cases found.symm.trans found'
        exact absurd rfl (others _ (m.get?_eq_some_iff.1 holds))
    · exact progress.tidy t mem (by simp [eq, new])
  · intro s mem
    have ne : s ≠ u := by
      rintro rfl
      exact fresh mem
    exact others s (List.mem_cons_of_mem _ mem) ne

theorem settle_ends (closed : r.Closed g) (fuel : Nat) : r.SettleEnds g fuel (settle fuel) := by
  induction fuel with
  | zero =>
    intro v h visited _ settling enough
    have := settling.length_le
    omega
  | succ fuel ih =>
    intro v h visited has settling enough
    obtain ⟨w, reads, hasW, same, settled⟩ := settling.reshapes.closed.exists_deref has
    have settles {w : Value} (h : h.Settles v w) : g.Settles v w :=
      (settling.reshapes.settles closed has).1 h
    cases w with
    | atom a =>
      exact ⟨.atom a, h, visited, by simp [settle, reads], settles (settled (by simp)), by simp,
        settling.idle, fun _ _ => rfl⟩
    | var x =>
      exact ⟨.var x, h, visited, by simp [settle, reads], settles (settled (by simp)), by simp,
        settling.idle, fun _ _ => rfl⟩
    | struct s =>
      obtain ⟨u, resolves⟩ := settling.reshapes.closed.grounded hasW
      obtain ⟨u, rfl⟩ := path_struct resolves.path
      have survives := survivor?_eq_some_iff.2 resolves
      have settles : g.Settles v (.struct u) :=
        settles ((same _).2 ((settles_iff_of_informative (v := .struct s) trivial).2 resolves))
      by_cases known : u ∈ visited
      · exact ⟨.struct u, h, visited, by simp [settle, reads, survives, known], settles,
          by rintro t ⟨⟩; exact known, settling.idle, fun _ _ => rfl⟩
      · obtain ⟨m, h', visited', found, filled, entered, progress, unchanged⟩ :=
          settleStruct_ends closed ih (settling.reshapes.closed.has_of_path hasW resolves.path)
            (settling.reshapes.forward _ ▸ resolves.stops) known settling enough
        exact ⟨.struct u, h', visited', by simp [settle, reads, survives, known, found, filled],
          settles, by rintro t ⟨⟩; exact entered, progress, unchanged⟩

end Region

end FeatureLogic
