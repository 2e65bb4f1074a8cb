import FeatureLogic.Proofs.Join.Limit
import FeatureLogic.Proofs.Join.Nesting
import FeatureLogic.Proofs.Unification.Invisibility
import FeatureLogic.Unification.Cache

/-!
# Unifications and their limit

The limit is only a guard. Raising it changes nothing about an answer: what a call gives without
meeting its limit, it gives under every higher limit, and it leaves the same behind. And a limit of
twice the number of structures is never met, since there are no more copies of structures than
structures.
-/

namespace FeatureLogic

namespace Graph

variable {g : Graph} {v w : Value} {scoping : Scoping} {d e : Nat}

theorem unifyWith?_of_stopsShort {join join' : Value → Value → Join Value}
    (short : ∀ v w, (join v w).StopsShort (join' v w)) :
    (∃ out h, g.unifyWith? join v w scoping = some (out, h) ∧ MeetsLimit out) ∨
      g.unifyWith? join v w scoping = g.unifyWith? join' v w scoping := by
  unfold unifyWith?
  cases g.copyOperands v w scoping with
  | none => exact .inr rfl
  | some copies =>
    obtain ⟨v', w', copied, start⟩ := copies
    simp only [Option.bind_eq_bind, Option.bind_some]
    cases short v' w' { graph := start } with
    | inl met =>
      obtain ⟨limit, path, st, ends⟩ := met
      rw [ends]
      exact .inl ⟨_, _, rfl, meetsLimit_tooDeep limit path⟩
    | inr same =>
      rw [same]
      exact .inr rfl

/-- A limit of twice the number of structures is never met. -/
theorem WellFormed.not_meetsLimit (wf : g.WellFormed) (hv : g.Contains v) (hw : g.Contains w)
    (within : scoping.All (Scope.Within · g)) {limit : Nat}
    (deep : max 1 (2 * g.structCount) ≤ limit) {out : Except Failure (Value × Scoping)} {k : Graph}
    (ends : g.unify? limit v w scoping = some (out, k)) : ¬ MeetsLimit out := by
  obtain ⟨v', w', copied, h, m, walked, copies, confines⟩ := wf.exists_confines hv hw within
  have fits : Join.Fits (Join.joinWithin limit limit [] v' w' { graph := h }) := by
    have few := (Region.card_live_le (g.added h) h).trans
      (Nat.sub_le_sub_right confines.structCount_le _)
    by_cases none : g.structCount = 0
    · have bound := confines.structCount_le
      have positive : limit = (limit - 1) + 1 := by omega
      rw [positive]
      refine Join.fits_joinWithin_of_bare copies.closed (fun s has => ?_) (fun {x} has => ?_)
        copies.left copies.right _ _ _
      · have inside : s.index < h.structCount := has.2
        omega
      · obtain ⟨name, found⟩ := confines.free has
        simp [content?, found, Binding.value?]
    · refine Join.shallow_joinWithin limit [] (.inl ?_) _ copies.invariant copies.ready few
      show 2 * max 1 (2 * g.structCount - g.structCount) ≤ limit
      omega
  obtain ⟨result, st, joined, run⟩ := Join.executes_joinWithin limit limit [] v' w' { graph := h }
    copies.invariant copies.ready
  cases result with
  | error f =>
    cases ends.symm.trans (copies.unify?_of_error walked joined run)
    rintro ⟨limit', path, ⟨⟩⟩
    exact fits limit' path st joined
  | ok u =>
    obtain ⟨result, after, final, visited, done, -⟩ :=
      copies.exists_unify?_of_ok walked joined run
    cases ends.symm.trans done
    exact not_meetsLimit_ok _

/-- Under the lower limit a unification meets it or does the same. -/
theorem unify?_of_le (le : d ≤ e) (g : Graph) (v w : Value) (scoping : Scoping) :
    (∃ out h, g.unify? d v w scoping = some (out, h) ∧ MeetsLimit out) ∨
      g.unify? d v w scoping = g.unify? e v w scoping :=
  unifyWith?_of_stopsShort fun v w => Join.stopsShort_joinWithin d e le [] v w

/-- A cache is filled under the lower limit with the limit met or with the same outcome. -/
theorem unifyCached?_of_le (le : d ≤ e) (g : Graph) (v w : Value) (scoping : Scoping)
    (cache : Cache) :
    (∃ out h cache', g.unifyCached? d v w scoping cache = some (out, h, cache') ∧
      MeetsLimit out) ∨
      g.unifyCached? d v w scoping cache = g.unifyCached? e v w scoping cache := by
  cases known : cache.get? v w with
  | some entry =>
    right
    rw [unifyCached?, unifyCached?, known]
  | none =>
    cases unify?_of_le le g v w scoping with
    | inl met =>
      obtain ⟨out, h, ends, met⟩ := met
      exact .inl ⟨out, h, _, unifyCached?_of_none known ends, met⟩
    | inr same =>
      right
      rw [unifyCached?, unifyCached?, known, same]

end Graph

namespace Session

open FeatureLogic.Graph

variable {d e : Nat} {s : Session} {v w : Value} {choice : ScopeChoice}

def under (s : Session) (limit : Nat) : Session := { s with limit }

def conclude (s : Session) (choice : ScopeChoice) :
    Except Failure (Value × Scoping) × Graph → Except Failure Value × Session
  | (.ok (u, after), graph) => (.ok u, { s with graph }.giveBack after choice)
  | (.error f, graph) => (.error f, { s with graph })

theorem call?_eq (s : Session) (v w : Value) (choice : ScopeChoice) :
    s.call? v w choice =
      (s.graph.unify? s.limit v w (s.scoping choice)).map (s.conclude choice) := by
  rw [call?]
  split <;> rename_i ends <;> rw [ends] <;> rfl

@[simp] theorem scoping_under (s : Session) (limit : Nat) (choice : ScopeChoice) :
    (s.under limit).scoping choice = s.scoping choice := by
  cases choice <;> rfl

theorem conclude_under (s : Session) (limit : Nat) (choice : ScopeChoice)
    (outcome : Except Failure (Value × Scoping) × Graph) :
    (s.under limit).conclude choice outcome =
      ((s.conclude choice outcome).1, (s.conclude choice outcome).2.under limit) := by
  obtain ⟨out, graph⟩ := outcome
  cases out with
  | error f => rfl
  | ok result => cases choice <;> rfl

theorem call?_under (s : Session) (limit : Nat) (v w : Value) (choice : ScopeChoice) :
    (s.under limit).call? v w choice =
      (s.graph.unify? limit v w (s.scoping choice)).map ((s.under limit).conclude choice) := by
  rw [call?_eq, scoping_under]
  rfl

theorem meetsLimit_conclude {outcome : Except Failure (Value × Scoping) × Graph} :
    MeetsLimit (s.conclude choice outcome).1 ↔ MeetsLimit outcome.1 := by
  obtain ⟨out, graph⟩ := outcome
  cases out with
  | error f => simp [conclude, MeetsLimit]
  | ok result => simp [conclude]

theorem call?_under_of_le (le : d ≤ e) (s : Session) (v w : Value) (choice : ScopeChoice) :
    (∃ out after, (s.under d).call? v w choice = some (out, after) ∧ MeetsLimit out) ∨
      (s.under e).call? v w choice =
        ((s.under d).call? v w choice).map fun (out, after) => (out, after.under e) := by
  rw [call?_under, call?_under]
  cases Graph.unify?_of_le le s.graph v w (s.scoping choice) with
  | inl met =>
    obtain ⟨out, h, ends, met⟩ := met
    rw [ends]
    exact .inl ⟨_, _, rfl, meetsLimit_conclude.2 met⟩
  | inr same =>
    right
    rw [same, Option.map_map]
    refine congrArg (fun f => Option.map f _) (funext fun outcome => ?_)
    simp only [Function.comp, conclude_under]
    rfl

/-- Raising the limit changes no answer, with a cache or without one. An answer that was found
without meeting the lower limit is found under the higher one, with the same graph, scopes and
cache afterwards, and a call that meets the higher limit meets the lower one. -/
theorem answers_of_limit_le (le : d ≤ e) (s : Session) (v w : Value) (choice : ScopeChoice)
    (scoping : Scoping) (cache : Cache) :
    (∀ {out after}, (s.under d).call? v w choice = some (out, after) → ¬ MeetsLimit out →
      (s.under e).call? v w choice = some (out, after.under e)) ∧
    (∀ {out after}, (s.under e).call? v w choice = some (out, after) → MeetsLimit out →
      ∃ out after, (s.under d).call? v w choice = some (out, after) ∧ MeetsLimit out) ∧
    (∀ {out h cache'}, s.graph.unifyCached? d v w scoping cache = some (out, h, cache') →
      ¬ MeetsLimit out → s.graph.unifyCached? e v w scoping cache = some (out, h, cache')) ∧
    (∀ {out h cache'}, s.graph.unifyCached? e v w scoping cache = some (out, h, cache') →
      MeetsLimit out →
      ∃ out h cache', s.graph.unifyCached? d v w scoping cache = some (out, h, cache') ∧
        MeetsLimit out) := by
  refine ⟨fun {out after} ends unmet => ?_, fun {out after} ends met => ?_,
    fun {out h cache'} ends unmet => ?_, fun {out h cache'} ends met => ?_⟩
  · cases call?_under_of_le le s v w choice with
    | inl short =>
      obtain ⟨out', after', ends', met⟩ := short
      cases ends.symm.trans ends'
      exact absurd met unmet
    | inr same => rw [same, ends]; rfl
  · cases call?_under_of_le le s v w choice with
    | inl short => exact short
    | inr same =>
      obtain ⟨⟨out', after'⟩, ends', ⟨⟩⟩ := Option.map_eq_some_iff.1 (same.symm.trans ends)
      exact ⟨_, after', ends', met⟩
  · cases Graph.unifyCached?_of_le le s.graph v w scoping cache with
    | inl short =>
      obtain ⟨out', h', cache'', ends', met⟩ := short
      cases ends.symm.trans ends'
      exact absurd met unmet
    | inr same => rw [← same, ends]
  · cases Graph.unifyCached?_of_le le s.graph v w scoping cache with
    | inl short => exact short
    | inr same => exact ⟨out, h, cache', same.trans ends, met⟩

/-- On the sample graph two levels are enough for an answer, so that fifty give the same. -/
theorem records_answers : ∃ after,
    ({ graph := records : Session }.under 2).call? (.struct ⟨0⟩) (.struct ⟨1⟩) .fresh =
        some (.ok (.struct ⟨3⟩), after) ∧
      ({ graph := records : Session }.under 50).call? (.struct ⟨0⟩) (.struct ⟨1⟩) .fresh =
        some (.ok (.struct ⟨3⟩), after.under 50) := by
  have answers := answers_of_limit_le (show 2 ≤ 50 by decide) { graph := records }
    (.struct ⟨0⟩) (.struct ⟨1⟩) .fresh .fresh ∅
  have reached : (({ graph := records : Session }.under 2).call? (.struct ⟨0⟩) (.struct ⟨1⟩)
      .fresh).map Prod.fst = some (.ok (.struct ⟨3⟩)) := by decide +kernel
  obtain ⟨⟨out, after⟩, ends, rfl⟩ := Option.map_eq_some_iff.1 reached
  exact ⟨after, ends, answers.1 ends (not_meetsLimit_ok _)⟩

/-- A call always ends, and if its limit is at least twice the number of structures (and not zero),
it does not meet it: its joins are nested at most that deep, since under exactly this limit it does
the same. A cache can only repeat that a limit was met before. -/
theorem Sound.not_meetsLimit_of_structCount (sound : s.Sound) (hv : s.graph.Contains v)
    (hw : s.graph.Contains w) (choice : ScopeChoice)
    (deep : max 1 (2 * s.graph.structCount) ≤ s.limit) :
    (∃ out after, s.call? v w choice = some (out, after) ∧ ¬ MeetsLimit out ∧
      (s.under (max 1 (2 * s.graph.structCount))).call? v w choice =
        some (out, after.under (max 1 (2 * s.graph.structCount)))) ∧
    ∀ cache : Cache, (∀ entry, cache.get? v w = some entry → ¬ MeetsLimit entry.result) →
      ∃ out h cache', s.graph.unifyCached? s.limit v w (s.scoping choice) cache =
        some (out, h, cache') ∧ ¬ MeetsLimit out := by
  have within := sound.within_scoping choice
  obtain ⟨out, k, unified, -⟩ :=
    sound.wellFormed.exists_unify (max 1 (2 * s.graph.structCount)) hv hw within
  have unmet := sound.wellFormed.not_meetsLimit hv hw within le_rfl unified
  have same : s.graph.unify? s.limit v w (s.scoping choice) = some (out, k) := by
    cases Graph.unify?_of_le deep s.graph v w (s.scoping choice) with
    | inl short =>
      obtain ⟨_, _, ends, met⟩ := short
      cases unified.symm.trans ends
      exact absurd met unmet
    | inr same => rw [← same, unified]
  constructor
  · let outcome := s.conclude choice (out, k)
    refine ⟨outcome.1, outcome.2, ?_, mt meetsLimit_conclude.1 unmet, ?_⟩
    · rw [call?_eq, same]
      rfl
    · rw [call?_under, unified, Option.map_some, conclude_under]
  · intro cache fair
    cases known : cache.get? v w with
    | none => exact ⟨out, k, _, Graph.unifyCached?_of_none known same, unmet⟩
    | some entry =>
      have unmet := fair entry known
      obtain ⟨result, left, right⟩ := entry
      cases result with
      | ok u => exact ⟨_, _, _, by rw [Graph.unifyCached?, known], not_meetsLimit_ok _⟩
      | error f =>
        refine ⟨.error f, _, _, by rw [Graph.unifyCached?, known], ?_⟩
        rintro ⟨limit, path, ⟨⟩⟩
        exact unmet (meetsLimit_tooDeep limit path)

/-- On the sample graph, which has three structures, six levels are enough. -/
theorem records_not_meetsLimit : ∃ out after,
    { graph := records, limit := 6 : Session }.call? (.struct ⟨0⟩) (.struct ⟨1⟩) .fresh =
        some (out, after) ∧
      ¬ MeetsLimit out := by
  have sound : { graph := records, limit := 6 : Session }.Sound :=
    ⟨wellFormed_records, fun _ _ found => by cases found⟩
  obtain ⟨⟨out, after, ends, unmet, -⟩, -⟩ := sound.not_meetsLimit_of_structCount
    (v := .struct ⟨0⟩) (w := .struct ⟨1⟩) (by decide) (by decide) .fresh (by decide)
  exact ⟨out, after, ends, unmet⟩

end Session

end FeatureLogic
