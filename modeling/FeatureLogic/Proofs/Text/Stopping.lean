import FeatureLogic.Proofs.Text.Taking

/-!
# Where readers stop

A reader follows a language of pieces if it takes pieces of it only and stops at no place that is
too far: what it has read up to a rejection, reported or kept for later, begins a piece. There is a
law for each combinator. What a combinator reports is a rejection of one of its parts, and what was
read before that part can be completed because there is a piece for every part behind it.
-/

namespace FeatureLogic.Text

namespace Rejection

variable {V : Nat → Prop}

theorem position_furthest {r r' : Rejection} (first : V r.position) (second : V r'.position) :
    V (r.furthest r').position := by
  unfold furthest
  split
  · exact first
  · split
    · exact second
    · exact first

theorem position_keep {old new : Option Rejection} (before : ∀ r ∈ old, V r.position)
    (after : ∀ r ∈ new, V r.position) : ∀ r ∈ keep old new, V r.position := by
  cases old with
  | none => exact after
  | some old =>
    cases new with
    | none => exact before
    | some new =>
      rintro _ ⟨⟩
      exact position_furthest (after new rfl) (before old rfl)

@[simp] theorem position_label (l : Label) (r : Rejection) :
    (r.label l).position = r.position := by
  unfold label
  split <;> rfl

end Rejection

/-- Does what stands between the cursor and the position begin a piece? -/
def Viable {α : Type} (P : List Char → α → Prop) (c : Cursor) (position : Nat) : Prop :=
  ∃ cs c' es a, c.Passes cs c' ∧ position = c'.index ∧ P (cs ++ es) a

namespace Viable

variable {α β : Type} {P : List Char → α → Prop} {Q : List Char → β → Prop} {c c' : Cursor}
  {position : Nat}

theorem here (c : Cursor) (inhabited : ∃ cs a, P cs a) : Viable P c c.index := by
  obtain ⟨cs, a, holds⟩ := inhabited
  exact ⟨[], c, cs, a, .refl c, rfl, holds⟩

theorem extend (viable : Viable P c position)
    (more : ∀ cs a, P cs a → ∃ ds b, Q (cs ++ ds) b) : Viable Q c position := by
  obtain ⟨cs, c', es, a, passes, rfl, holds⟩ := viable
  obtain ⟨ds, b, holds'⟩ := more _ a holds
  exact ⟨cs, c', es ++ ds, b, passes, rfl, by rwa [← List.append_assoc]⟩

theorem imp (viable : Viable P c position) (imp : ∀ cs a, P cs a → ∃ b, Q cs b) :
    Viable Q c position := by
  refine viable.extend fun cs a holds => ?_
  obtain ⟨b, holds'⟩ := imp cs a holds
  exact ⟨[], b, by rwa [List.append_nil]⟩

theorem behind {as : List Char} (viable : Viable Q c' position) (passes : c.Passes as c')
    (join : ∀ cs b, Q cs b → ∃ a, P (as ++ cs) a) : Viable P c position := by
  obtain ⟨cs, c₁, es, b, passes', rfl, holds⟩ := viable
  obtain ⟨a, holds'⟩ := join _ b holds
  exact ⟨as ++ cs, c₁, es, a, passes.append passes', rfl, by rwa [List.append_assoc]⟩

theorem piece (viable : Viable P c position) : Viable (Pieces P) c position :=
  viable.imp fun _ a holds => ⟨[a], .single holds⟩

end Viable

namespace Reader

variable {α β : Type} {p p' : Reader α} {q : Reader β} {P P' : List Char → α → Prop}
  {Q : List Char → β → Prop}

/-- Does the reader take pieces of the language, and stop only behind what begins one? -/
structure Follows (p : Reader α) (P : List Char → α → Prop) : Prop where
  takes : Takes p P
  inhabited : ∃ cs a, P cs a
  kept : ∀ {c a kept c'}, p c = .accept a kept c' → ∀ r ∈ kept, Viable P c r.position
  rejected : ∀ {c r}, p c = .reject r → Viable P c r.position

theorem Follows.imp (follows : Follows p P) (imp : ∀ cs a, P cs a → P' cs a) : Follows p P' where
  takes := follows.takes.imp imp
  inhabited := by
    obtain ⟨cs, a, holds⟩ := follows.inhabited
    exact ⟨cs, a, imp cs a holds⟩
  kept accepted r mem := (follows.kept accepted r mem).imp fun cs a holds => ⟨a, imp cs a holds⟩
  rejected stopped := (follows.rejected stopped).imp fun cs a holds => ⟨a, imp cs a holds⟩

theorem follows_satisfy (p : Char → Bool) (inhabited : ∃ x, p x) :
    Follows (satisfy p) fun cs c => p c ∧ cs = [c] := by
  obtain ⟨x, holds⟩ := inhabited
  refine ⟨takes_satisfy p, ⟨[x], x, holds, rfl⟩, ?kept, ?rejected⟩
  case kept =>
    intro c a kept c' accepted r mem
    rcases satisfy_replies p c with ⟨x, rest, -, -, read⟩ | read <;>
      cases read.symm.trans accepted
    cases mem
  case rejected =>
    intro c r stopped
    rcases satisfy_replies p c with ⟨x, rest, -, -, read⟩ | read <;>
      cases read.symm.trans stopped
    exact .here c ⟨[x], x, holds, rfl⟩

theorem follows_expect (x : Char) : Follows (expect x) fun cs y => cs = [x] ∧ y = x := by
  refine ⟨takes_expect x, ⟨[x], x, rfl, rfl⟩, ?kept, ?rejected⟩
  case kept =>
    intro c a kept c' accepted r mem
    rcases expect_replies x c with ⟨rest, -, read⟩ | read <;> cases read.symm.trans accepted
    cases mem
  case rejected =>
    intro c r stopped
    rcases expect_replies x c with ⟨rest, -, read⟩ | read <;> cases read.symm.trans stopped
    exact .here c ⟨[x], x, rfl, rfl⟩

theorem follows_endOfText : Follows endOfText fun cs _ => cs = [] := by
  refine ⟨takes_endOfText, ⟨[], (), rfl⟩, ?kept, ?rejected⟩
  case kept =>
    intro c a kept c' accepted r mem
    rcases endOfText_replies c with ⟨-, read⟩ | read <;> cases read.symm.trans accepted
    cases mem
  case rejected =>
    intro c r stopped
    rcases endOfText_replies c with ⟨-, read⟩ | read <;> cases read.symm.trans stopped
    exact .here c ⟨[], (), rfl⟩

theorem Follows.map {f : α → β} (follows : Follows p P) (imp : ∀ cs a, P cs a → Q cs (f a)) :
    Follows (p.map f) Q where
  takes := follows.takes.map imp
  inhabited := by
    obtain ⟨cs, a, holds⟩ := follows.inhabited
    exact ⟨cs, f a, imp cs a holds⟩
  kept {c b kept c'} accepted r mem := by
    obtain ⟨a, read, rfl⟩ := accept_of_map accepted
    exact (follows.kept read r mem).imp fun cs a holds => ⟨f a, imp cs a holds⟩
  rejected stopped :=
    (follows.rejected (reject_of_map stopped)).imp fun cs a holds => ⟨f a, imp cs a holds⟩

theorem Follows.andThen (first : Follows p P) (second : Follows q Q) :
    Follows (p.andThen q) (Joined P Q) := by
  obtain ⟨ds, b, last⟩ := second.inhabited
  -- pieces of the first reader go on with this one, and those of the second with what they are
  have front {c : Cursor} {position : Nat} (viable : Viable P c position) :
      Viable (Joined P Q) c position :=
    viable.extend fun cs a holds => ⟨ds, (a, b), cs, ds, rfl, holds, last⟩
  have back {c c' : Cursor} {a : α} {kept : Option Rejection} {position : Nat}
      (read : p c = .accept a kept c') (viable : Viable Q c' position) :
      Viable (Joined P Q) c position := by
    obtain ⟨as, passes, holds⟩ := first.takes _ _ _ _ read
    exact viable.behind passes fun bs b holds' => ⟨(a, b), as, bs, rfl, holds, holds'⟩
  refine ⟨first.takes.andThen second.takes, ?inhabited, ?kept, ?rejected⟩
  case inhabited =>
    obtain ⟨cs, a, holds⟩ := first.inhabited
    exact ⟨cs ++ ds, (a, b), cs, ds, rfl, holds, last⟩
  case kept =>
    intro c s kept c' accepted
    obtain ⟨kept₁, c₁, kept₂, read, read', rfl⟩ := accept_of_andThen accepted
    exact Rejection.position_keep (fun r mem => front (first.kept read r mem))
      fun r mem => back read (second.kept read' r mem)
  case rejected =>
    intro c r stopped
    rcases reject_of_andThen stopped with read | ⟨a, kept, c₁, r', read, read', rfl⟩
    · exact front (first.rejected read)
    · have here := back read (second.rejected read')
      cases kept with
      | none => exact here
      | some r => exact Rejection.position_furthest here (front (first.kept read r rfl))

theorem Follows.before (first : Follows p P) (second : Follows q Q) :
    Follows (p.before q) fun cs b => ∃ as bs a, cs = as ++ bs ∧ P as a ∧ Q bs b := by
  refine (first.andThen second).map ?_
  rintro _ ⟨a, b⟩ ⟨as, bs, eq, holds, holds'⟩
  exact ⟨as, bs, a, eq, holds, holds'⟩

theorem Follows.followedBy (first : Follows p P) (second : Follows q Q) :
    Follows (p.followedBy q) fun cs a => ∃ as bs b, cs = as ++ bs ∧ P as a ∧ Q bs b := by
  refine (first.andThen second).map ?_
  rintro _ ⟨a, b⟩ ⟨as, bs, eq, holds, holds'⟩
  exact ⟨as, bs, b, eq, holds, holds'⟩

theorem Follows.orElse (first : Follows p P) (second : Follows p' P) :
    Follows (p.orElse p') P where
  takes := first.takes.orElse second.takes
  inhabited := first.inhabited
  kept {c a kept c'} accepted r mem := by
    rcases accept_of_orElse accepted with read | read
    · exact first.kept read r mem
    · exact second.kept read r mem
  rejected {c r} stopped := by
    obtain ⟨r₁, r₂, read, read', rfl⟩ := reject_of_orElse stopped
    exact Rejection.position_furthest (first.rejected read) (second.rejected read')

theorem Follows.optional (follows : Follows p P) : Follows p.optional (Perhaps P) where
  takes := follows.takes.optional
  inhabited := ⟨[], none, .inl ⟨rfl, rfl⟩⟩
  kept {c o kept c'} accepted r mem := by
    have given {position : Nat} (viable : Viable P c position) : Viable (Perhaps P) c position :=
      viable.imp fun cs a holds => ⟨some a, .inr ⟨a, rfl, holds⟩⟩
    rcases accept_of_optional accepted with ⟨a, read, rfl⟩ | ⟨r', read, rfl, rfl, rfl⟩
    · exact given (follows.kept read r mem)
    · cases mem
      exact given (follows.rejected read)
  rejected stopped := absurd stopped optional_ne_reject

theorem Follows.labelled (follows : Follows p P) (l : Label) : Follows (p.labelled l) P where
  takes := follows.takes.labelled l
  inhabited := follows.inhabited
  kept {c a kept c'} accepted r mem := by
    obtain ⟨kept', read, rfl⟩ := accept_of_labelled accepted
    obtain ⟨r, same, rfl⟩ := Option.map_eq_some_iff.1 mem
    rw [Rejection.position_label]
    exact follows.kept read r same
  rejected {c r} stopped := by
    obtain ⟨r, read, rfl⟩ := reject_of_labelled stopped
    rw [Rejection.position_label]
    exact follows.rejected read

theorem Follows.located (follows : Follows p P) : Follows p.located fun cs r => P cs r.1 where
  takes := follows.takes.located
  inhabited := by
    obtain ⟨cs, a, holds⟩ := follows.inhabited
    exact ⟨cs, (a, 0, 0), holds⟩
  kept {c s kept c'} accepted r mem := by
    obtain ⟨a, read, rfl⟩ := accept_of_located accepted
    exact (follows.kept read r mem).imp fun cs a holds => ⟨(a, 0, 0), holds⟩
  rejected stopped :=
    (follows.rejected (reject_of_located stopped)).imp fun cs a holds => ⟨(a, 0, 0), holds⟩

theorem Follows.padded (follows : Follows p P) : Follows p.padded (Padded P) := by
  have blanks {c : Cursor} {position : Nat} (viable : Viable P c.skipBlanks position) :
      Viable (Padded P) c position := by
    obtain ⟨front, passes, blank⟩ := c.passes_skipBlanks
    exact viable.behind passes fun cs a holds =>
      ⟨a, front, cs, [], (List.append_nil _).symm, blank, holds, nofun⟩
  refine ⟨follows.takes.padded, ?inhabited, ?kept, ?rejected⟩
  case inhabited =>
    obtain ⟨cs, a, holds⟩ := follows.inhabited
    exact ⟨cs, a, [], cs, [], (List.append_nil _).symm, nofun, holds, nofun⟩
  case kept =>
    intro c a kept c' accepted r mem
    obtain ⟨c₁, read, rfl⟩ := accept_of_padded accepted
    exact blanks (follows.kept read r mem)
  case rejected =>
    intro c r stopped
    exact blanks (follows.rejected (reject_of_padded stopped))

/-- What is kept while values are read on was kept before, or stands behind what begins pieces. -/
theorem Follows.kept_manyFrom (follows : Follows p P) {V : Nat → Prop} {fuel : Nat}
    {kept : Option Rejection} {c : Cursor} (old : ∀ r ∈ kept, V r.position)
    (new : ∀ position, Viable (Pieces P) c position → V position) :
    ∀ r ∈ (manyFrom p fuel kept c).2.1, V r.position := by
  induction fuel generalizing kept c with
  | zero => exact old
  | succ fuel ih =>
    rw [manyFrom]
    split
    · next r read =>
      refine Rejection.position_keep old ?_
      rintro _ ⟨⟩
      exact new _ (follows.rejected read).piece
    · next a kept' c₁ read =>
      obtain ⟨cs, passes, holds⟩ := follows.takes _ _ _ _ read
      refine ih (Rejection.position_keep old fun r mem => new _ (follows.kept read r mem).piece)
        fun position viable => new position ?_
      exact viable.behind passes fun ds as pieces => ⟨a :: as, .cons holds pieces⟩

theorem Follows.many (follows : Follows p P) : Follows p.many (Pieces P) where
  takes := follows.takes.many
  inhabited := ⟨[], [], .nil⟩
  kept {c as kept c'} accepted := by
    have viable : ∀ r ∈ (manyFrom p (c.rest.length + 1) none c).2.1,
        Viable (Pieces P) c r.position :=
      follows.kept_manyFrom (fun r mem => nomatch mem) fun position viable => viable
    rwa [accept_of_many accepted] at viable
  rejected stopped := nomatch stopped

theorem Follows.many1 (follows : Follows p P) :
    Follows p.many1 fun cs as => as ≠ [] ∧ Pieces P cs as := by
  obtain ⟨ds, b, first⟩ := follows.inhabited
  have nonempty {c : Cursor} {position : Nat} (viable : Viable (Pieces P) c position) :
      Viable (fun cs as => as ≠ [] ∧ Pieces P cs as) c position :=
    viable.extend fun cs as pieces => ⟨ds, as ++ [b], by simp, pieces.append_singleton first⟩
  refine ⟨follows.takes.many1, ⟨ds, [b], by simp, .single first⟩, ?kept, ?rejected⟩
  case kept =>
    intro c as kept c' accepted r mem
    obtain ⟨-, read⟩ := accept_of_many1 accepted
    exact nonempty (follows.many.kept read r mem)
  case rejected =>
    intro c r stopped
    exact nonempty (follows.rejected (reject_of_many1 stopped)).piece

/-- What is kept while items are read with their separators was kept before, or stands behind what
begins such pieces. -/
theorem Follows.kept_separatedFrom (item : Follows p P) (separator : Follows q Q) {V : Nat → Prop}
    {fuel : Nat} {kept : Option Rejection} {c : Cursor} (old : ∀ r ∈ kept, V r.position)
    (new : ∀ position, Viable (Pieces (Separated P Q)) c position → V position) :
    ∀ r ∈ (separatedFrom p q fuel kept c).2.1, V r.position := by
  obtain ⟨as, a, piece⟩ := item.inhabited
  induction fuel generalizing kept c with
  | zero => exact old
  | succ fuel ih =>
    have separates {position : Nat} (viable : Viable Q c position) : V position :=
      new position (Viable.piece (viable.extend fun ds b holds =>
        ⟨as, a, ds, as, b, rfl, holds, piece⟩))
    rw [separatedFrom]
    split
    · next r read =>
      refine Rejection.position_keep old ?_
      rintro _ ⟨⟩
      exact separates (separator.rejected read)
    · next b kept₁ c₁ read =>
      obtain ⟨ds, passes, holds⟩ := separator.takes _ _ _ _ read
      have before : ∀ r ∈ Rejection.keep kept kept₁, V r.position :=
        Rejection.position_keep old fun r mem => separates (separator.kept read r mem)
      have follows {position : Nat} (viable : Viable P c₁ position) : V position :=
        new position (Viable.piece (viable.behind passes fun es a holds' =>
          ⟨a, ds, es, b, rfl, holds, holds'⟩))
      dsimp only
      split
      · next r read' =>
        refine Rejection.position_keep before ?_
        rintro _ ⟨⟩
        exact follows (item.rejected read')
      · next a kept₂ c₂ read' =>
        obtain ⟨es, passes', holds'⟩ := item.takes _ _ _ _ read'
        refine ih (Rejection.position_keep before fun r mem => follows (item.kept read' r mem))
          fun position viable => new position ?_
        exact viable.behind (passes.append passes') fun fs as pieces =>
          ⟨a :: as, .cons ⟨ds, es, b, rfl, holds, holds'⟩ pieces⟩

theorem Follows.separatedBy (item : Follows p P) (separator : Follows q Q) :
    Follows (p.separatedBy q) (Listed P Q) where
  takes := item.takes.separatedBy separator.takes
  inhabited := ⟨[], [], .inl ⟨rfl, rfl⟩⟩
  kept {c as kept c'} accepted := by
    have first {position : Nat} (viable : Viable P c position) :
        Viable (Listed P Q) c position :=
      viable.imp fun cs a holds =>
        ⟨[a], .inr ⟨cs, [], a, [], (List.append_nil cs).symm, rfl, holds, .nil⟩⟩
    rcases accept_of_separatedBy accepted with ⟨r, read, rfl, rfl, rfl⟩ |
      ⟨a, kept₁, c₁, bs, read, rfl, more⟩
    · rintro _ ⟨⟩
      exact first (item.rejected read)
    · obtain ⟨ds, passes, holds⟩ := item.takes _ _ _ _ read
      have others {position : Nat} (viable : Viable (Pieces (Separated P Q)) c₁ position) :
          Viable (Listed P Q) c position :=
        viable.behind passes fun es bs pieces =>
          ⟨a :: bs, .inr ⟨ds, es, a, bs, rfl, rfl, holds, pieces⟩⟩
      have viable : ∀ r ∈ (separatedFrom p q (c₁.rest.length + 1) kept₁ c₁).2.1,
          Viable (Listed P Q) c r.position :=
        item.kept_separatedFrom separator (fun r mem => first (item.kept read r mem))
          fun position viable => others viable
      rwa [more] at viable
  rejected stopped := absurd stopped separatedBy_ne_reject

structure Undivided (p : Reader α) : Prop where
  kept : ∀ {c a kept c'}, p c = .accept a kept c' → ∀ r ∈ kept, r.position = c'.index
  rejected : ∀ {c r}, p c = .reject r → r.position = c.index

theorem kept_manyFrom_satisfy (p : Char → Bool) (fuel : Nat) (c : Cursor) :
    ∀ r ∈ (manyFrom (satisfy p) fuel none c).2.1,
      r.position = (manyFrom (satisfy p) fuel none c).2.2.index := by
  induction fuel generalizing c with
  | zero => exact fun r mem => nomatch mem
  | succ fuel ih =>
    rw [manyFrom]
    rcases satisfy_replies p c with ⟨x, rest, -, -, read⟩ | read
    · rw [read]
      exact ih c.advance
    · rw [read]
      rintro _ ⟨⟩
      rfl

theorem undivided_many1_satisfy (p : Char → Bool) : Undivided (satisfy p).many1 where
  kept {c as kept c'} accepted := by
    obtain ⟨-, read⟩ := accept_of_many1 accepted
    have last := kept_manyFrom_satisfy p (c.rest.length + 1) c
    rwa [accept_of_many read] at last
  rejected {c r} stopped := by
    have first := reject_of_many1 stopped
    rcases satisfy_replies p c with ⟨x, rest, -, -, read⟩ | read <;> cases read.symm.trans first
    rfl

/-- A check is reported where the reader starts, so that any piece that passes goes on from there.
What the reader keeps has to stand behind pieces that pass. -/
theorem Follows.check {f : α → Except WordFault β} (follows : Follows p P)
    (undivided : Undivided p) (passing : ∃ cs a b, P cs a ∧ f a = .ok b) :
    Follows (p.check f) fun cs b => ∃ a, P cs a ∧ f a = .ok b := by
  obtain ⟨cs, a, b, holds, passes⟩ := passing
  have start (c : Cursor) : Viable (fun cs b => ∃ a, P cs a ∧ f a = .ok b) c c.index :=
    .here c ⟨cs, b, a, holds, passes⟩
  refine ⟨follows.takes.check, ⟨cs, b, a, holds, passes⟩, ?kept, ?rejected⟩
  case kept =>
    intro c b kept c' accepted r mem
    obtain ⟨a, read, passes⟩ := accept_of_check accepted
    obtain ⟨cs, behind, holds⟩ := follows.takes _ _ _ _ read
    refine ⟨cs, c', [], b, behind, undivided.kept read r mem, a, ?_, passes⟩
    rwa [List.append_nil]
  case rejected =>
    intro c r stopped
    rcases reject_of_check stopped with read | position
    · exact undivided.rejected read ▸ start c
    · exact position ▸ start c

end Reader

end FeatureLogic.Text
