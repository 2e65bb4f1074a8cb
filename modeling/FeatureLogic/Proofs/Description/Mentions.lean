import FeatureLogic.Description.Layout
import FeatureLogic.Proofs.Description.Order

/-!
# Mentions of tags in their order

A mention is misplaced if it introduces a number again or refers to one that is not yet introduced.
The mentions of a description can be gone through to find the first such one. Where there is none,
the description marks each number once.
-/

namespace FeatureLogic

namespace Mention

variable {earlier ms ms' : List Mention} {m : Mention}

def firstMisplaced? (earlier : List Mention) : List Mention → Option Mention
  | [] => none
  | m :: ms => if m.Misplaced earlier then some m else firstMisplaced? (earlier ++ [m]) ms

theorem firstMisplaced?_append (earlier ms ms' : List Mention) :
    firstMisplaced? earlier (ms ++ ms') =
      (firstMisplaced? earlier ms).or (firstMisplaced? (earlier ++ ms) ms') := by
  induction ms generalizing earlier with
  | nil => rw [List.append_nil]; rfl
  | cons m ms ih =>
    rw [List.cons_append, firstMisplaced?, firstMisplaced?]
    split
    · rfl
    · rw [ih, List.append_assoc]
      rfl

theorem firstMisplaced?_eq_none (none : firstMisplaced? earlier ms = none)
    {ms₁ ms₂ : List Mention} (split : ms = ms₁ ++ m :: ms₂) : ¬ m.Misplaced (earlier ++ ms₁) := by
  intro misplaced
  rw [split, firstMisplaced?_append, Option.or_eq_none_iff, firstMisplaced?,
    if_pos misplaced] at none
  cases none.2

theorem firstMisplaced?_eq_some (some : firstMisplaced? earlier ms = some m) :
    ∃ ms₁ ms₂, ms = ms₁ ++ m :: ms₂ ∧ m.Misplaced (earlier ++ ms₁) ∧
      firstMisplaced? earlier ms₁ = none := by
  induction ms generalizing earlier with
  | nil => cases some
  | cons m' ms ih =>
    rw [firstMisplaced?] at some
    split at some
    · next misplaced =>
      cases some
      exact ⟨[], ms, rfl, by rwa [List.append_nil], rfl⟩
    · next placed =>
      obtain ⟨ms₁, ms₂, rfl, misplaced, none⟩ := ih some
      refine ⟨m' :: ms₁, ms₂, rfl, by simpa using misplaced, ?_⟩
      rw [firstMisplaced?, if_neg placed, none]

/-- Mentions are in place exactly if none of them is misplaced behind those before it. -/
theorem firstMisplaced?_eq_none_iff : firstMisplaced? [] ms = none ↔ ¬ SomeMisplaced ms := by
  constructor
  · rintro none ⟨earlier, m, later, split, misplaced⟩
    exact firstMisplaced?_eq_none none split misplaced
  · intro placed
    rw [Option.eq_none_iff_forall_ne_some]
    intro m some
    obtain ⟨earlier, later, split, misplaced, -⟩ := firstMisplaced?_eq_some some
    exact placed ⟨earlier, m, later, split, misplaced⟩

theorem firstMisplaced?_eq_some_iff :
    firstMisplaced? [] ms = some m ↔ IsFirstMisplaced ms m := by
  constructor
  · intro some
    obtain ⟨earlier, later, split, misplaced, none⟩ := firstMisplaced?_eq_some some
    exact ⟨earlier, later, split, misplaced, firstMisplaced?_eq_none_iff.1 none⟩
  · rintro ⟨earlier, later, rfl, misplaced, placed⟩
    rw [firstMisplaced?_append, firstMisplaced?_eq_none_iff.2 placed, Option.none_or,
      firstMisplaced?, List.nil_append, if_pos misplaced]

theorem SomeMisplaced.exists_first (misplaced : SomeMisplaced ms) : ∃ m, IsFirstMisplaced ms m := by
  cases first : firstMisplaced? [] ms with
  | none => exact absurd misplaced (firstMisplaced?_eq_none_iff.1 first)
  | some m => exact ⟨m, firstMisplaced?_eq_some_iff.1 first⟩

end Mention

@[simp] theorem introducedIds_nil : introducedIds [] = [] := rfl

@[simp] theorem introducedIds_append (ms ms' : List Mention) :
    introducedIds (ms ++ ms') = introducedIds ms ++ introducedIds ms' := List.filterMap_append

@[simp] theorem introducedIds_introduction (tag : Tag) (ms : List Mention) :
    introducedIds (.introduction tag :: ms) = tag.id :: introducedIds ms := rfl

@[simp] theorem introducedIds_reference (tag : Tag) (ms : List Mention) :
    introducedIds (.reference tag :: ms) = introducedIds ms := rfl

theorem nodup_introducedIds {earlier ms : List Mention}
    (none : Mention.firstMisplaced? earlier ms = none) (nodup : (introducedIds earlier).Nodup) :
    (introducedIds (earlier ++ ms)).Nodup := by
  induction ms generalizing earlier with
  | nil => rwa [List.append_nil]
  | cons m ms ih =>
    rw [Mention.firstMisplaced?] at none
    split at none
    · cases none
    · next placed =>
      have step : (introducedIds (earlier ++ [m])).Nodup := by
        cases m with
        | introduction tag =>
          rw [introducedIds_append]
          exact List.nodup_append.2 ⟨nodup, List.nodup_singleton _, by
            rintro a mem b single rfl
            cases List.mem_singleton.1 single
            exact placed mem⟩
        | reference tag => simpa using nodup
      simpa using ih none step

mutual

theorem Description.fst_marks (p : Place) (d : Description Tag) :
    (d.marks p).map Prod.fst = introducedIds d.mentions := by
  match d with
  | .atom _ => rfl
  | .var _ => rfl
  | .struct tag features =>
    have rest := features.fst_marks p.inside
    cases tag <;> simp [Description.marks, Description.mentions, rest]

theorem Features.fst_marks (p : Place) (features : Features Tag) :
    (features.marks p).map Prod.fst = introducedIds features.mentions := by
  match features with
  | .nil => rfl
  | .assign name tag value rest =>
    have first := value.fst_marks p
    have last := rest.fst_marks (p.behind value)
    cases tag <;> simp [Features.marks, Features.mentions, first, last]
  | .refer name tag rest => exact rest.fst_marks p

end

mutual

theorem Description.tag_mentions (d : Description Tag) : d.mentions.map Mention.tag = d.tags := by
  match d with
  | .atom _ => rfl
  | .var _ => rfl
  | .struct tag features =>
    have rest := features.tag_mentions
    cases tag <;> simp [Description.mentions, Description.tags, Mention.tag, rest]

theorem Features.tag_mentions (features : Features Tag) :
    features.mentions.map Mention.tag = features.tags := by
  match features with
  | .nil => rfl
  | .assign name tag value rest =>
    have first := value.tag_mentions
    have last := rest.tag_mentions
    cases tag <;> simp [Features.mentions, Features.tags, Mention.tag, first, last]
  | .refer name tag rest => exact congrArg (tag :: ·) rest.tag_mentions

end

mutual

theorem Description.length_contents (known : Nat → Value) (p : Place) (d : Description Tag) :
    (d.contents known p).length = d.brackets := by
  match d with
  | .atom _ => rfl
  | .var _ => rfl
  | .struct tag features => exact congrArg (· + 1) (features.length_contents known p.inside)

theorem Features.length_contents (known : Nat → Value) (p : Place) (features : Features Tag) :
    (features.contents known p).length = features.brackets := by
  match features with
  | .nil => rfl
  | .assign name tag value rest =>
    simp [Features.contents, Features.brackets, value.length_contents known p,
      rest.length_contents known (p.behind value)]
  | .refer name tag rest => exact rest.length_contents known p

end

end FeatureLogic
