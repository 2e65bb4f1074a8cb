import FeatureLogic.Proofs.Graph.Plainness
import FeatureLogic.Proofs.Unification.MostGeneral

/-!
# Completeness of unification

Operands with a common specialization unify, up to the limit on nested joins, and their result is
the most general one.
-/

namespace FeatureLogic

open FeatureLogic.Graph

namespace Stages

variable {g : Graph} {a b : Value}

theorem frames (stages : Stages g a b) : stages.region.Frames stages.final :=
  stages.normal.settling.reshapes.closed.frames

theorem embeds_after (stages : Stages g a b) {e : Embedding} {h : Graph} {v c : Value}
    (embeds : e.Embeds h v g c) : e.Embeds h v stages.after c where
  root := by
    obtain ⟨w, reads, sends⟩ := embeds.root
    exact ⟨w, by rw [after, deref?_forgetAbsorbed, stages.frames.deref?_eq_some reads], sends⟩
  feature {s m} below found := by
    obtain ⟨n, found', values⟩ := embeds.feature below found
    refine ⟨n, by rw [after, features?_forgetAbsorbed, stages.frames.features?_eq_some found'],
      fun holds => ?_⟩
    obtain ⟨c', w, holds', reads, sends⟩ := values holds
    exact ⟨c', w, holds', by rw [after, deref?_forgetAbsorbed, stages.frames.deref?_eq_some reads],
      sends⟩

end Stages

namespace Graph

/-- The unification of two operands with a common specialization `c` does not find them
incompatible, and if it has a result then `c` is a specialization of this result. -/
theorem unify?_mostGeneral {g : Graph} {a b c : Value} {e : Embedding} (ha : g.Plain a)
    (hb : g.Plain b) (left : e.Embeds g a g c) (right : e.Embeds g b g c) (limit : Nat) :
    ∃ out g', g.unify? limit a b (.common ∅) = some (out, g') ∧
      (∀ path l r, out ≠ .error (.mismatch path l r)) ∧
      ∀ r scoping, out = .ok (r, scoping) → ∃ e' : Embedding, e'.Embeds g' r g' c := by
  obtain ⟨⟨out, g'⟩, ends, how⟩ := ha.exists_ends hb limit
  refine ⟨out, g', ends, ?_⟩
  cases how with
  | fails copied run =>
    have fatal := CopiedOperands.isFatal_of_fails left right run
    refine ⟨?_, by rintro _ _ ⟨⟩⟩
    rintro path l r ⟨⟩
    cases fatal
  | succeeds stages =>
    refine ⟨by rintro _ _ _ ⟨⟩, ?_⟩
    rintro _ _ ⟨⟩
    obtain ⟨e₀, canonical⟩ := stages.exists_canonical
    obtain ⟨e', embeds, -⟩ :=
      canonical.factors (stages.embeds_after left) (stages.embeds_after right)
    exact ⟨e', embeds⟩

theorem embeds_records {s : StructId} (h : s = ⟨0⟩ ∨ s = ⟨1⟩) :
    (⟨fun _ => ⟨2⟩, fun _ => .atom (.int 1)⟩ : Embedding).Embeds records (.struct s) records
      (.struct ⟨2⟩) where
  root := ⟨_, rfl, rfl⟩
  feature {t m} below found := by
    refine ⟨_, rfl, fun {name u} holds => ?_⟩
    have entry := NameMap.mem_of_find? holds
    have listed := mem_of_below plainOn_records
      (show Value.struct s ∈ _ by rcases h with rfl | rfl <;> simp) below
    simp only [List.mem_cons, Value.struct.injEq, reduceCtorEq, List.not_mem_nil,
      or_false] at listed
    rcases listed with rfl | rfl | rfl
    · cases Option.some.inj found
      have entry : (name, u) ∈ [("left", Value.var ⟨0⟩), ("right", .var ⟨0⟩)] := entry
      simp only [List.mem_cons, Prod.mk.injEq, List.not_mem_nil, or_false] at entry
      rcases entry with ⟨rfl, rfl⟩ | ⟨rfl, rfl⟩
      · exact ⟨_, _, rfl, rfl, "n", rfl, rfl⟩
      · exact ⟨_, _, rfl, rfl, "n", rfl, rfl⟩
    · cases Option.some.inj found
      have entry : (name, u) ∈ [("right", Value.atom (.int 1))] := entry
      simp only [List.mem_cons, Prod.mk.injEq, List.not_mem_nil, or_false] at entry
      obtain ⟨rfl, rfl⟩ := entry
      exact ⟨_, _, rfl, rfl, .inr rfl⟩
    · cases Option.some.inj found
      have entry : (name, u) ∈ [("left", Value.atom (.int 1)), ("right", .atom (.int 1))] := entry
      simp only [List.mem_cons, Prod.mk.injEq, List.not_mem_nil, or_false] at entry
      rcases entry with ⟨rfl, rfl⟩ | ⟨rfl, rfl⟩
      · exact ⟨_, _, rfl, rfl, .inr rfl⟩
      · exact ⟨_, _, rfl, rfl, .inr rfl⟩

theorem records_mostGeneral : ∃ (e : Embedding) (out : Except Failure (Value × Scoping))
    (g' : Graph), e.Embeds records (.struct ⟨0⟩) records (.struct ⟨2⟩) ∧
      e.Embeds records (.struct ⟨1⟩) records (.struct ⟨2⟩) ∧
      records.unify? 50 (.struct ⟨0⟩) (.struct ⟨1⟩) (.common ∅) = some (out, g') ∧
      (∀ path l r, out ≠ .error (.mismatch path l r)) ∧
      ∀ r scoping, out = .ok (r, scoping) → ∃ e' : Embedding, e'.Embeds g' r g' (.struct ⟨2⟩) := by
  have left := embeds_records (s := ⟨0⟩) (.inl rfl)
  have right := embeds_records (s := ⟨1⟩) (.inr rfl)
  obtain ⟨out, g', result⟩ := unify?_mostGeneral (plain_records (.inl rfl))
    (plain_records (.inr rfl)) left right 50
  exact ⟨_, out, g', left, right, result⟩

end Graph

end FeatureLogic
