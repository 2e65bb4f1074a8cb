import FeatureLogic.Proofs.Copy.Tracing
import Mathlib.Data.Finset.Card

/-!
# Copying ends

Every level of a renaming or a substitution enters a structure that has no copy yet. There are not
more of these than structures, so a walk through plain values ends, whatever else the graph holds.
-/

namespace FeatureLogic.Ledger

open FeatureLogic.Graph

variable {μ : Type} (l : Ledger μ)

def pending (g : Graph) (m : μ) : Finset Nat :=
  {i ∈ Finset.range g.structCount | (l.copies m).lookup ⟨i⟩ = none}

def Finishes {α β : Type} (g : Graph) (D : Value → Prop) (fuel : Nat) (original : α → Value)
    (copy : α → Graph × μ → Option (β × Graph × μ)) : Prop :=
  ∀ a W, D (original a) → l.Charts g D W → (l.pending g W.2).card < fuel →
    ∃ b W', copy a W = some (b, W')

variable {l} {g : Graph} {D : Value → Prop} {image : μ → Value → Value → Prop} {W : Graph × μ}
  {m m' : μ} {fuel : Nat}

theorem mem_pending {s : StructId} : s.index ∈ l.pending g m ↔
    g.Contains (.struct s) ∧ (l.copies m).lookup s = none := by
  simp [pending, Contains]

theorem pending_subset (lists : ∀ {s t}, l.Lists m s t → l.Lists m' s t) :
    l.pending g m' ⊆ l.pending g m := by
  intro i pending
  have ⟨inside, absent⟩ := mem_pending (s := ⟨i⟩).1 pending
  refine mem_pending (s := ⟨i⟩).2 ⟨inside, ?_⟩
  cases known : (l.copies m).lookup ⟨i⟩ with
  | none => rfl
  | some t => cases absent.symm.trans (lists known)

theorem card_pending_le (g : Graph) (m : μ) : (l.pending g m).card ≤ g.structCount :=
  (Finset.card_filter_le _ _).trans_eq (Finset.card_range _)

theorem card_pending_remember {s t : StructId} (inside : g.Contains (.struct s))
    (fresh : (l.copies m).lookup s = none) :
    (l.pending g (l.remember s t m)).card < (l.pending g m).card := by
  have lookup (u : StructId) : (l.copies (l.remember s t m)).lookup u =
      if u = s then some t else (l.copies m).lookup u := by
    rw [l.copies_remember, Copying.lookup_cons_eq]
  have subset : l.pending g (l.remember s t m) ⊆ l.pending g m := by
    refine pending_subset fun {u v} listed => ?_
    rw [Lists, lookup, if_neg]
    · exact listed
    · rintro rfl
      cases fresh.symm.trans listed
  refine Finset.card_lt_card ((Finset.ssubset_iff_of_subset subset).2
    ⟨s.index, mem_pending.2 ⟨inside, fresh⟩, fun pending => ?_⟩)
  have absent := (mem_pending.1 pending).2
  rw [lookup, if_pos rfl] at absent
  cases absent

theorem fill_finishes {step : Value → Graph × μ → Option (Value × Graph × μ)}
    (finishes : l.Finishes g D fuel id step)
    (traces : ∀ {v W w W'}, D v → l.Charts g D W → step v W = some (w, W') →
      l.Traces g D image W W' ∧ image W'.2 v w) {target : StructId}
    {entries : List (String × Value)} (inside : ∀ e ∈ entries, D e.2) (charts : l.Charts g D W)
    (has : (g.added W.1).Has (.struct target)) (few : (l.pending g W.2).card < fuel) :
    ∃ W', fill step target entries W = some W' := by
  induction entries generalizing W with
  | nil => exact ⟨W, rfl⟩
  | cons e rest ih =>
    obtain ⟨name, v⟩ := e
    have hv : D v := inside _ List.mem_cons_self
    obtain ⟨w, ⟨h, m⟩, copied⟩ := finishes v W hv charts few
    have first := (traces hv charts copied).1
    have has' : (g.added h).Has (.struct target) := ⟨has.1, has.2.trans_le first.structs⟩
    obtain ⟨W', filled⟩ := ih (W := (h.setFeature target name w, m))
      (fun e mem => inside e (List.mem_cons_of_mem _ mem)) (first.charts.setFeature has' name w)
      (by simpa [added] using has')
      ((Finset.card_le_card (pending_subset first.lists)).trans_lt few)
    exact ⟨W', fill_cons_eq_some_iff.2 ⟨w, h, m, copied, filled⟩⟩

theorem imageStruct_finishes (source : g.Source D)
    {step : Value → Graph × μ → Option (Value × Graph × μ)} (finishes : l.Finishes g D fuel id step)
    (traces : ∀ {v W w W'}, D v → l.Charts g D W → step v W = some (w, W') →
      l.Traces g D image W W' ∧ image W'.2 v w) :
    l.Finishes g D (fuel + 1) Value.struct fun s W =>
      match (l.copies W.2).lookup s with
      | some t => some (t, W)
      | none => imageStruct l.remember step s W := by
  rintro s ⟨h, m⟩ hs charts few
  cases known : (l.copies m).lookup s with
  | some t => exact ⟨t, (h, m), by simp [known]⟩
  | none =>
    have contains := source.contains hs
    obtain ⟨features, found⟩ := exists_features_of_contains contains
    have read : (h.addStruct ∅).features? s = some features :=
      (features?_enter charts.structs charts.frames contains).trans found
    have fewer : (l.pending g (l.remember s h.nextStruct m)).card < fuel :=
      Nat.lt_of_lt_of_le (card_pending_remember contains known) (Nat.le_of_lt_succ few)
    obtain ⟨W', filled⟩ := fill_finishes (W := (h.addStruct ∅, l.remember s h.nextStruct m))
      finishes traces
      (fun e mem => source.feature hs found (features.get?_eq_some_iff.2 mem))
      (charts.enter hs known) ((added_addStruct charts.structs).2 (.inr rfl)) fewer
    exact ⟨h.nextStruct, W', by simp [known, imageStruct, read, filled]⟩

end FeatureLogic.Ledger
