import Mathlib.Data.List.Forall2
import FeatureLogic.Graph.Correspondence

/-!
# Partial results that concur

Two partial programs run side by side. If both give a result, the results are related; where one of
them gives none, nothing is said. There is one rule for each way to put programs together.
-/

namespace FeatureLogic

variable {α β α' β' : Type} {R : α → β → Prop} {S : α' → β' → Prop}

/-- Are two results related, if both are there? -/
def Concur (R : α → β → Prop) (x : Option α) (y : Option β) : Prop :=
  ∀ a b, x = some a → y = some b → R a b

theorem concur_some {a : α} {b : β} (h : R a b) : Concur R (some a) (some b) := by
  rintro _ _ ⟨⟩ ⟨⟩
  exact h

theorem concur_none_left {y : Option β} : Concur R none y := by
  rintro _ _ ⟨⟩

theorem concur_none_right {x : Option α} : Concur R x none := by
  rintro _ _ - ⟨⟩

theorem Concur.bind {x : Option α} {y : Option β} {f : α → Option α'} {f' : β → Option β'}
    (first : Concur R x y) (rest : ∀ {a b}, R a b → Concur S (f a) (f' b)) :
    Concur S (x >>= f) (y >>= f') := by
  cases x with
  | none => exact concur_none_left
  | some a =>
    cases y with
    | none => exact concur_none_right
    | some b => exact rest (first a b rfl rfl)

theorem Concur.map {x : Option α} {y : Option β} {f : α → α'} {f' : β → β'}
    (first : Concur R x y) (rest : ∀ {a b}, R a b → S (f a) (f' b)) :
    Concur S (x.map f) (y.map f') := by
  cases x with
  | none => exact concur_none_left
  | some a =>
    cases y with
    | none => exact concur_none_right
    | some b => exact concur_some (rest (first a b rfl rfl))

theorem Concur.imp {R' : α → β → Prop} {x : Option α} {y : Option β} (concur : Concur R x y)
    (imp : ∀ {a b}, R a b → R' a b) : Concur R' x y :=
  fun a b left right => imp (concur a b left right)

theorem idxOf_eq_of_forall₂ [DecidableEq α] [DecidableEq β] (unique : Relator.BiUnique R)
    {l : List α} {l' : List β} (all : List.Forall₂ R l l') {a : α} {b : β} (partners : R a b) :
    l.idxOf a = l'.idxOf b := by
  induction all with
  | nil => rfl
  | @cons c d _ _ head _ ih =>
    have same := Relator.rel_eq unique head partners
    by_cases eq : c = a
    · rw [List.idxOf_cons_eq _ eq, List.idxOf_cons_eq _ (same.1 eq)]
    · rw [List.idxOf_cons_ne _ eq, List.idxOf_cons_ne _ (mt same.2 eq), ih]

theorem lookup_of_forall₂ [BEq α] [LawfulBEq α] [BEq β] [LawfulBEq β] (unique : Relator.BiUnique R)
    {l : List (α × α')} {l' : List (β × β')}
    (all : List.Forall₂ (fun e e' => R e.1 e'.1 ∧ S e.2 e'.2) l l') {a : α} {b : β}
    (partners : R a b) : Option.Rel S (l.lookup a) (l'.lookup b) := by
  induction all with
  | nil => exact .none
  | @cons e e' _ _ head _ ih =>
    obtain ⟨c, u⟩ := e
    obtain ⟨d, u'⟩ := e'
    have same := Relator.rel_eq unique partners head.1
    by_cases eq : a = c
    · simp only [List.lookup_cons, eq, same.1 eq, beq_self_eq_true]
      exact .some head.2
    · simp only [List.lookup_cons, beq_eq_false_iff_ne.2 eq, beq_eq_false_iff_ne.2 (mt same.2 eq)]
      exact ih

end FeatureLogic
