import FeatureLogic.Text.Reader

/-!
# What replies come from

For each combinator, what its parts have replied when the combined reader has accepted or rejected
a text.
-/

namespace FeatureLogic.Text.Reader

variable {α β : Type} {p p' : Reader α} {q : Reader β} {a : α} {b : β} {c c' : Cursor}
  {kept : Option Rejection} {r : Rejection}

theorem satisfy_replies (p : Char → Bool) (c : Cursor) :
    (∃ x rest, c.rest = x :: rest ∧ p x ∧ satisfy p c = .accept x none c.advance) ∨
      satisfy p c = .reject c.here := by
  obtain ⟨i, rest⟩ := c
  cases rest with
  | nil => exact .inr rfl
  | cons x rest =>
    cases holds : p x with
    | true => exact .inl ⟨x, rest, rfl, holds, by simp [satisfy, holds]⟩
    | false => exact .inr (by simp [satisfy, holds])

theorem expect_replies (x : Char) (c : Cursor) :
    (∃ rest, c.rest = x :: rest ∧ expect x c = .accept x none c.advance) ∨
      expect x c = .reject { c.here with expected := [some x] } := by
  obtain ⟨i, rest⟩ := c
  cases rest with
  | nil => exact .inr rfl
  | cons y rest =>
    by_cases same : y = x
    · exact .inl ⟨rest, by rw [same], by simp [expect, same]⟩
    · exact .inr (by simp [expect, same])

theorem endOfText_replies (c : Cursor) :
    (c.rest = [] ∧ endOfText c = .accept () none c) ∨
      endOfText c = .reject { c.here with expected := [none] } := by
  obtain ⟨i, rest⟩ := c
  cases rest with
  | nil => exact .inl ⟨rfl, rfl⟩
  | cons x rest => exact .inr rfl

theorem accept_of_map {f : α → β} (accepted : p.map f c = .accept b kept c') :
    ∃ a, p c = .accept a kept c' ∧ b = f a := by
  unfold Reader.map at accepted
  split at accepted
  · next read =>
    cases accepted
    exact ⟨_, read, rfl⟩
  · cases accepted

theorem reject_of_map {f : α → β} (stopped : p.map f c = .reject r) : p c = .reject r := by
  unfold Reader.map at stopped
  split at stopped
  · cases stopped
  · next read =>
    cases stopped
    exact read

theorem accept_of_andThen {s : α × β} (accepted : p.andThen q c = .accept s kept c') :
    ∃ kept₁ c₁ kept₂, p c = .accept s.1 kept₁ c₁ ∧ q c₁ = .accept s.2 kept₂ c' ∧
      kept = Rejection.keep kept₁ kept₂ := by
  unfold Reader.andThen at accepted
  split at accepted
  · cases accepted
  · next first =>
    split at accepted
    · cases accepted
    · next second =>
      cases accepted
      exact ⟨_, _, _, first, second, rfl⟩

theorem reject_of_andThen (stopped : p.andThen q c = .reject r) : p c = .reject r ∨
    ∃ a kept c₁ r', p c = .accept a kept c₁ ∧ q c₁ = .reject r' ∧
      r = kept.elim r' r'.furthest := by
  unfold Reader.andThen at stopped
  split at stopped
  · next first =>
    cases stopped
    exact .inl first
  · next first =>
    split at stopped
    · next second =>
      cases stopped
      exact .inr ⟨_, _, _, _, first, second, rfl⟩
    · cases stopped

theorem accept_of_orElse (accepted : p.orElse p' c = .accept a kept c') :
    p c = .accept a kept c' ∨ p' c = .accept a kept c' := by
  unfold Reader.orElse at accepted
  split at accepted
  · next first =>
    cases accepted
    exact .inl first
  · split at accepted
    · next second =>
      cases accepted
      exact .inr second
    · cases accepted

theorem reject_of_orElse (stopped : p.orElse p' c = .reject r) :
    ∃ r₁ r₂, p c = .reject r₁ ∧ p' c = .reject r₂ ∧ r = r₁.furthest r₂ := by
  unfold Reader.orElse at stopped
  split at stopped
  · cases stopped
  · next first =>
    split at stopped
    · cases stopped
    · next second =>
      cases stopped
      exact ⟨_, _, first, second, rfl⟩

theorem accept_of_optional {o : Option α} (accepted : p.optional c = .accept o kept c') :
    (∃ a, p c = .accept a kept c' ∧ o = some a) ∨
      ∃ r, p c = .reject r ∧ o = none ∧ kept = some r ∧ c' = c := by
  unfold Reader.optional at accepted
  split at accepted
  · next read =>
    cases accepted
    exact .inl ⟨_, read, rfl⟩
  · next read =>
    cases accepted
    exact .inr ⟨_, read, rfl, rfl, rfl⟩

theorem optional_ne_reject : p.optional c ≠ .reject r := by
  intro stopped
  unfold Reader.optional at stopped
  split at stopped <;> cases stopped

theorem accept_of_labelled {l : Label} (accepted : p.labelled l c = .accept a kept c') :
    ∃ kept', p c = .accept a kept' c' ∧ kept = kept'.map (·.label l) := by
  unfold Reader.labelled at accepted
  split at accepted
  · next read =>
    cases accepted
    exact ⟨_, read, rfl⟩
  · cases accepted

theorem reject_of_labelled {l : Label} (stopped : p.labelled l c = .reject r) :
    ∃ r', p c = .reject r' ∧ r = r'.label l := by
  unfold Reader.labelled at stopped
  split at stopped
  · cases stopped
  · next read =>
    cases stopped
    exact ⟨_, read, rfl⟩

theorem accept_of_located {s : α × Nat × Nat} (accepted : p.located c = .accept s kept c') :
    ∃ a, p c = .accept a kept c' ∧ s = (a, c.index, c'.index) := by
  unfold Reader.located at accepted
  split at accepted
  · next read =>
    cases accepted
    exact ⟨_, read, rfl⟩
  · cases accepted

theorem reject_of_located (stopped : p.located c = .reject r) : p c = .reject r := by
  unfold Reader.located at stopped
  split at stopped
  · cases stopped
  · next read =>
    cases stopped
    exact read

theorem accept_of_padded (accepted : p.padded c = .accept a kept c') :
    ∃ c₁, p c.skipBlanks = .accept a kept c₁ ∧ c' = c₁.skipBlanks := by
  unfold Reader.padded at accepted
  split at accepted
  · next read =>
    cases accepted
    exact ⟨_, read, rfl⟩
  · cases accepted

theorem reject_of_padded (stopped : p.padded c = .reject r) : p c.skipBlanks = .reject r := by
  unfold Reader.padded at stopped
  split at stopped
  · cases stopped
  · next read =>
    cases stopped
    exact read

theorem accept_of_check {f : α → Except WordFault β} (accepted : p.check f c = .accept b kept c') :
    ∃ a, p c = .accept a kept c' ∧ f a = .ok b := by
  unfold Reader.check at accepted
  split at accepted
  · cases accepted
  · next read =>
    split at accepted
    · next passes =>
      cases accepted
      exact ⟨_, read, passes⟩
    · cases accepted

theorem reject_of_check {f : α → Except WordFault β} (stopped : p.check f c = .reject r) :
    p c = .reject r ∨ r.position = c.index := by
  unfold Reader.check at stopped
  split at stopped
  · next read =>
    cases stopped
    exact .inl read
  · split at stopped
    · cases stopped
    · cases stopped
      exact .inr rfl

theorem accept_of_many {as : List α} (accepted : p.many c = .accept as kept c') :
    manyFrom p (c.rest.length + 1) none c = (as, kept, c') := by
  unfold Reader.many at accepted
  generalize manyFrom p (c.rest.length + 1) none c = result at accepted
  cases accepted
  rfl

theorem accept_of_many1 {as : List α} (accepted : p.many1 c = .accept as kept c') :
    (∃ a kept₁ c₁, p c = .accept a kept₁ c₁) ∧ p.many c = .accept as kept c' := by
  unfold Reader.many1 at accepted
  split at accepted
  · cases accepted
  · next first => exact ⟨⟨_, _, _, first⟩, accepted⟩

theorem reject_of_many1 (stopped : p.many1 c = .reject r) : p c = .reject r := by
  unfold Reader.many1 at stopped
  split at stopped
  · next read =>
    cases stopped
    exact read
  · cases stopped

theorem accept_of_separatedBy {as : List α} (accepted : p.separatedBy q c = .accept as kept c') :
    (∃ r, p c = .reject r ∧ as = [] ∧ kept = some r ∧ c' = c) ∨
      ∃ a kept₁ c₁ bs, p c = .accept a kept₁ c₁ ∧ as = a :: bs ∧
        separatedFrom p q (c₁.rest.length + 1) kept₁ c₁ = (bs, kept, c') := by
  unfold Reader.separatedBy at accepted
  split at accepted
  · next read =>
    cases accepted
    exact .inl ⟨_, read, rfl, rfl, rfl⟩
  · next a kept₁ c₁ read =>
    generalize others : separatedFrom p q (c₁.rest.length + 1) kept₁ c₁ = result at accepted
    cases accepted
    exact .inr ⟨a, kept₁, c₁, _, read, rfl, others⟩

theorem separatedBy_ne_reject : p.separatedBy q c ≠ .reject r := by
  intro stopped
  unfold Reader.separatedBy at stopped
  split at stopped <;> cases stopped

end FeatureLogic.Text.Reader
