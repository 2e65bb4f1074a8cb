import FeatureLogic.Proofs.Text.Replies
import Mathlib.Data.List.TakeWhile

/-!
# What readers take

A law for each combinator that says, of whatever the combined reader accepts, what piece of the text
it took for it. Nothing is said about texts that are rejected.
-/

namespace FeatureLogic.Text

namespace Cursor

/-- Is the second cursor behind the piece of text that starts at the first one? -/
structure Passes (c : Cursor) (cs : List Char) (c' : Cursor) : Prop where
  rest : c.rest = cs ++ c'.rest
  index : c'.index = c.index + cs.length

theorem Passes.refl (c : Cursor) : c.Passes [] c := ⟨rfl, rfl⟩

theorem Passes.append {c c₁ c' : Cursor} {cs ds : List Char} (first : c.Passes cs c₁)
    (second : c₁.Passes ds c') : c.Passes (cs ++ ds) c' where
  rest := by rw [first.rest, second.rest, List.append_assoc]
  index := by rw [second.index, first.index, List.length_append, Nat.add_assoc]

theorem passes_advance {c : Cursor} {x : Char} {rest : List Char} (eq : c.rest = x :: rest) :
    c.Passes [x] c.advance :=
  ⟨by rw [eq, advance, eq]; rfl, rfl⟩

theorem passes_skipBlanks (c : Cursor) :
    ∃ blanks, c.Passes blanks c.skipBlanks ∧ ∀ x ∈ blanks, isBlank x :=
  ⟨c.rest.takeWhile isBlank, ⟨List.takeWhile_append_dropWhile.symm, rfl⟩,
    fun _ mem => List.mem_takeWhile_imp mem⟩

end Cursor

inductive Pieces {α : Type} (P : List Char → α → Prop) : List Char → List α → Prop where
  | nil : Pieces P [] []
  | cons {cs ds : List Char} {a : α} {as : List α} : P cs a → Pieces P ds as →
    Pieces P (cs ++ ds) (a :: as)

theorem Pieces.single {α : Type} {P : List Char → α → Prop} {cs : List Char} {a : α}
    (piece : P cs a) : Pieces P cs [a] := by
  have pieces := Pieces.cons piece .nil
  rwa [List.append_nil] at pieces

theorem Pieces.append_singleton {α : Type} {P : List Char → α → Prop} {cs ds : List Char} {a : α}
    {as : List α} (pieces : Pieces P cs as) (piece : P ds a) :
    Pieces P (cs ++ ds) (as ++ [a]) := by
  induction pieces with
  | nil => exact .single piece
  | cons first _ ih =>
    rw [List.append_assoc]
    exact .cons first ih

theorem Pieces.of_chars {p : Char → Bool} {cs ds : List Char}
    (pieces : Pieces (fun cs c => p c ∧ cs = [c]) cs ds) : cs = ds ∧ ∀ c ∈ ds, p c := by
  induction pieces with
  | nil => exact ⟨rfl, fun _ mem => nomatch mem⟩
  | cons piece _ ih =>
    obtain ⟨holds, rfl⟩ := piece
    exact ⟨congrArg _ ih.1, List.forall_mem_cons.2 ⟨holds, ih.2⟩⟩

section Languages

variable {α β : Type} (P : List Char → α → Prop) (Q : List Char → β → Prop)

abbrev Joined (cs : List Char) (r : α × β) : Prop := ∃ as bs, cs = as ++ bs ∧ P as r.1 ∧ Q bs r.2

abbrev Perhaps (cs : List Char) (o : Option α) : Prop :=
  o = none ∧ cs = [] ∨ ∃ a, o = some a ∧ P cs a

abbrev Padded (cs : List Char) (a : α) : Prop :=
  ∃ front ds back, cs = front ++ ds ++ back ∧ (∀ x ∈ front, isBlank x) ∧ P ds a ∧
    ∀ x ∈ back, isBlank x

abbrev Separated (cs : List Char) (a : α) : Prop := ∃ ds es b, cs = ds ++ es ∧ Q ds b ∧ P es a

abbrev Listed (cs : List Char) (as : List α) : Prop :=
  cs = [] ∧ as = [] ∨ ∃ ds es a bs, cs = ds ++ es ∧ as = a :: bs ∧ P ds a ∧
    Pieces (Separated P Q) es bs

end Languages

namespace Reader

variable {α β : Type} {p p' : Reader α} {q : Reader β} {P P' : List Char → α → Prop}
  {Q : List Char → β → Prop}

/-- Has every piece of text that the reader accepts the property, with its value? -/
def Takes (p : Reader α) (P : List Char → α → Prop) : Prop :=
  ∀ c a kept c', p c = .accept a kept c' → ∃ cs, c.Passes cs c' ∧ P cs a

theorem Takes.imp (takes : Takes p P) (imp : ∀ cs a, P cs a → P' cs a) : Takes p P' := by
  intro c a kept c' accepted
  obtain ⟨cs, passes, holds⟩ := takes _ _ _ _ accepted
  exact ⟨cs, passes, imp cs a holds⟩

theorem takes_satisfy (p : Char → Bool) : Takes (satisfy p) fun cs c => p c ∧ cs = [c] := by
  intro c a kept c' accepted
  rcases satisfy_replies p c with ⟨x, rest, eq, holds, read⟩ | read <;>
    cases read.symm.trans accepted
  exact ⟨[_], Cursor.passes_advance eq, holds, rfl⟩

theorem takes_expect (x : Char) : Takes (expect x) fun cs y => cs = [x] ∧ y = x := by
  intro c a kept c' accepted
  rcases expect_replies x c with ⟨rest, eq, read⟩ | read <;> cases read.symm.trans accepted
  exact ⟨[x], Cursor.passes_advance eq, rfl, rfl⟩

theorem takes_endOfText : Takes endOfText fun cs _ => cs = [] := by
  intro c a kept c' accepted
  rcases endOfText_replies c with ⟨nothing, read⟩ | read <;> cases read.symm.trans accepted
  exact ⟨[], .refl c, rfl⟩

theorem Takes.map {f : α → β} (takes : Takes p P) (imp : ∀ cs a, P cs a → Q cs (f a)) :
    Takes (p.map f) Q := by
  intro c b kept c' accepted
  obtain ⟨a, read, rfl⟩ := accept_of_map accepted
  obtain ⟨cs, passes, holds⟩ := takes _ _ _ _ read
  exact ⟨cs, passes, imp _ _ holds⟩

theorem Takes.andThen (first : Takes p P) (second : Takes q Q) :
    Takes (p.andThen q) (Joined P Q) := by
  intro c r kept c' accepted
  obtain ⟨_, c₁, _, read, read', -⟩ := accept_of_andThen accepted
  obtain ⟨as, passes, holds⟩ := first _ _ _ _ read
  obtain ⟨bs, passes', holds'⟩ := second _ _ _ _ read'
  exact ⟨as ++ bs, passes.append passes', as, bs, rfl, holds, holds'⟩

theorem Takes.whole (takes : Takes p P) {c c' : Cursor} {a : α} {kept : Option Rejection}
    (accepted : p.followedBy endOfText c = .accept a kept c') : P c.rest a := by
  obtain ⟨r, both, rfl⟩ := accept_of_map accepted
  obtain ⟨_, c₁, _, read, ends, -⟩ := accept_of_andThen both
  obtain ⟨cs, passes, holds⟩ := takes _ _ _ _ read
  rcases endOfText_replies c₁ with ⟨nothing, -⟩ | stopped
  · rwa [passes.rest, nothing, List.append_nil]
  · cases stopped.symm.trans ends

theorem Takes.orElse (first : Takes p P) (second : Takes p' P) : Takes (p.orElse p') P := by
  intro c a kept c' accepted
  rcases accept_of_orElse accepted with read | read
  · exact first _ _ _ _ read
  · exact second _ _ _ _ read

theorem Takes.optional (takes : Takes p P) : Takes p.optional (Perhaps P) := by
  intro c o kept c' accepted
  rcases accept_of_optional accepted with ⟨a, read, rfl⟩ | ⟨r, -, rfl, -, rfl⟩
  · obtain ⟨cs, passes, holds⟩ := takes _ _ _ _ read
    exact ⟨cs, passes, .inr ⟨a, rfl, holds⟩⟩
  · exact ⟨[], .refl _, .inl ⟨rfl, rfl⟩⟩

theorem Takes.labelled (takes : Takes p P) (l : Label) : Takes (p.labelled l) P := by
  intro c a kept c' accepted
  obtain ⟨kept', read, -⟩ := accept_of_labelled accepted
  exact takes _ _ _ _ read

theorem Takes.located (takes : Takes p P) : Takes p.located fun cs r => P cs r.1 := by
  intro c s kept c' accepted
  obtain ⟨a, read, rfl⟩ := accept_of_located accepted
  exact takes _ _ _ _ read

theorem Takes.check {f : α → Except WordFault β} (takes : Takes p P) :
    Takes (p.check f) fun cs b => ∃ a, P cs a ∧ f a = .ok b := by
  intro c b kept c' accepted
  obtain ⟨a, read, checked⟩ := accept_of_check accepted
  obtain ⟨cs, passes, holds⟩ := takes _ _ _ _ read
  exact ⟨cs, passes, a, holds, checked⟩

theorem Takes.padded (takes : Takes p P) : Takes p.padded (Padded P) := by
  intro c a kept c' accepted
  obtain ⟨c₁, read, rfl⟩ := accept_of_padded accepted
  obtain ⟨front, before, blank⟩ := c.passes_skipBlanks
  obtain ⟨ds, passes, holds⟩ := takes _ _ _ _ read
  obtain ⟨back, after, blank'⟩ := c₁.passes_skipBlanks
  exact ⟨front ++ ds ++ back, (before.append passes).append after, front, ds, back, rfl, blank,
    holds, blank'⟩

theorem takes_manyFrom (takes : Takes p P) (fuel : Nat) (kept : Option Rejection) (c : Cursor) :
    ∃ cs, c.Passes cs (manyFrom p fuel kept c).2.2 ∧ Pieces P cs (manyFrom p fuel kept c).1 := by
  induction fuel generalizing kept c with
  | zero => exact ⟨[], .refl c, .nil⟩
  | succ fuel ih =>
    rw [manyFrom]
    split
    · exact ⟨[], .refl c, .nil⟩
    · next a kept' c₁ first =>
      obtain ⟨cs, passes, holds⟩ := takes _ _ _ _ first
      obtain ⟨ds, passes', pieces⟩ := ih (Rejection.keep kept kept') c₁
      exact ⟨cs ++ ds, passes.append passes', .cons holds pieces⟩

theorem Takes.many (takes : Takes p P) : Takes p.many (Pieces P) := by
  intro c as kept c' accepted
  have taken := takes_manyFrom takes (c.rest.length + 1) none c
  rwa [accept_of_many accepted] at taken

theorem Takes.many1 (takes : Takes p P) :
    Takes p.many1 fun cs as => as ≠ [] ∧ Pieces P cs as := by
  intro c as kept c' accepted
  obtain ⟨⟨a, kept₁, c₁, first⟩, read⟩ := accept_of_many1 accepted
  obtain ⟨cs, passes, pieces⟩ := takes.many _ _ _ _ read
  refine ⟨cs, passes, ?_, pieces⟩
  rintro rfl
  have none := accept_of_many read
  rw [manyFrom, first] at none
  cases none

theorem takes_separatedFrom (item : Takes p P) (separator : Takes q Q) (fuel : Nat)
    (kept : Option Rejection) (c : Cursor) :
    ∃ cs, c.Passes cs (separatedFrom p q fuel kept c).2.2 ∧
      Pieces (Separated P Q) cs (separatedFrom p q fuel kept c).1 := by
  induction fuel generalizing kept c with
  | zero => exact ⟨[], .refl c, .nil⟩
  | succ fuel ih =>
    rw [separatedFrom]
    split
    · exact ⟨[], .refl c, .nil⟩
    · next b kept₁ c₁ first =>
      dsimp only
      split
      · exact ⟨[], .refl c, .nil⟩
      · next a kept₂ c₂ second =>
        obtain ⟨ds, passes, holds⟩ := separator _ _ _ _ first
        obtain ⟨es, passes', holds'⟩ := item _ _ _ _ second
        obtain ⟨fs, passes'', pieces⟩ :=
          ih (Rejection.keep (Rejection.keep kept kept₁) kept₂) c₂
        exact ⟨ds ++ es ++ fs, (passes.append passes').append passes'',
          .cons ⟨ds, es, b, rfl, holds, holds'⟩ pieces⟩

theorem Takes.separatedBy (item : Takes p P) (separator : Takes q Q) :
    Takes (p.separatedBy q) (Listed P Q) := by
  intro c as kept c' accepted
  rcases accept_of_separatedBy accepted with ⟨r, -, rfl, -, rfl⟩ |
    ⟨a, kept₁, c₁, bs, read, rfl, more⟩
  · exact ⟨[], .refl _, .inl ⟨rfl, rfl⟩⟩
  · obtain ⟨ds, passes, holds⟩ := item _ _ _ _ read
    obtain ⟨es, passes', pieces⟩ :=
      takes_separatedFrom item separator (c₁.rest.length + 1) kept₁ c₁
    rw [more] at passes' pieces
    exact ⟨ds ++ es, passes.append passes', .inr ⟨ds, es, a, bs, rfl, rfl, holds, pieces⟩⟩

end Reader

end FeatureLogic.Text
