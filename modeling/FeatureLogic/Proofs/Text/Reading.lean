import FeatureLogic.Text.Reader

/-!
# What readers read

A reader reads a piece of text if it accepts just that piece in front of what follows, wherever in
a text it stands. How far a reader goes may depend on what follows, so that the laws of the
combinators say in front of which text each part has to be read.
-/

namespace FeatureLogic.Text

/-- Is the first character, if there is one, not of the class? -/
def Avoids (p : Char → Bool) (cs : List Char) : Prop := ∀ c ∈ cs.head?, p c = false

theorem avoids_nil (p : Char → Bool) : Avoids p [] := by simp [Avoids]

theorem avoids_cons {p : Char → Bool} {c : Char} {cs : List Char} :
    Avoids p (c :: cs) ↔ p c = false := by simp [Avoids]

theorem Avoids.append {p : Char → Bool} {cs rest : List Char} (avoids : Avoids p cs)
    (nonempty : cs ≠ []) : Avoids p (cs ++ rest) := by
  cases cs with
  | nil => exact absurd rfl nonempty
  | cons c cs => exact avoids_cons.2 (avoids_cons.1 avoids)

namespace Reader

variable {α β : Type} {p p' : Reader α} {q : Reader β} {Q Q' : α → Prop} {R : β → Prop}
  {cs ds rest : List Char}

/-- Does the reader accept `cs` in front of `rest`, with a value that has the property? -/
def Reads (p : Reader α) (Q : α → Prop) (cs rest : List Char) : Prop :=
  ∀ i, ∃ a kept, p ⟨i, cs ++ rest⟩ = .accept a kept ⟨i + cs.length, rest⟩ ∧ Q a

def Rejects (p : Reader α) (cs : List Char) : Prop := ∀ i, ∃ r, p ⟨i, cs⟩ = .reject r

theorem Reads.imp (reads : Reads p Q cs rest) (imp : ∀ a, Q a → Q' a) : Reads p Q' cs rest := by
  intro i
  obtain ⟨a, kept, accepted, ha⟩ := reads i
  exact ⟨a, kept, accepted, imp a ha⟩

/-- What a reader takes from the front of a text, and what it leaves, are determined. -/
theorem Reads.unique {rest' : List Char} {a b : α} (reads : Reads p (· = a) cs rest)
    (reads' : Reads p (· = b) ds rest') (same : cs ++ rest = ds ++ rest') :
    a = b ∧ rest = rest' := by
  obtain ⟨_, _, accepted, rfl⟩ := reads 0
  obtain ⟨_, _, accepted', rfl⟩ := reads' 0
  rw [same] at accepted
  obtain ⟨eq, -, left⟩ := Reply.accept.inj (accepted.symm.trans accepted')
  exact ⟨eq, congrArg Cursor.rest left⟩

theorem reads_satisfy {p : Char → Bool} {c : Char} (holds : p c) :
    Reads (satisfy p) (· = c) [c] rest := by
  intro i
  exact ⟨c, none, by simp [satisfy, holds, Cursor.advance], rfl⟩

theorem rejects_satisfy {p : Char → Bool} (avoids : Avoids p cs) : Rejects (satisfy p) cs := by
  intro i
  cases cs with
  | nil => exact ⟨_, rfl⟩
  | cons c cs =>
    exact ⟨Cursor.here ⟨i, c :: cs⟩, by simp only [satisfy, avoids_cons.1 avoids]; rfl⟩

theorem reads_expect (c : Char) : Reads (expect c) (· = c) [c] rest := by
  intro i
  exact ⟨c, none, by simp [expect, Cursor.advance], rfl⟩

theorem rejects_expect {x : Char} (avoids : Avoids (· = x) cs) : Rejects (expect x) cs := by
  intro i
  cases cs with
  | nil => exact ⟨_, rfl⟩
  | cons c cs =>
    have ne : c ≠ x := of_decide_eq_false (avoids_cons.1 avoids)
    exact ⟨{ Cursor.here ⟨i, c :: cs⟩ with expected := [some x] }, by simp only [expect, if_neg ne]⟩

theorem reads_endOfText : Reads endOfText (fun _ => True) [] [] := fun _ => ⟨(), none, rfl, trivial⟩

theorem Reads.map {f : α → β} (reads : Reads p Q cs rest) (imp : ∀ a, Q a → R (f a)) :
    Reads (p.map f) R cs rest := by
  intro i
  obtain ⟨a, kept, accepted, ha⟩ := reads i
  exact ⟨f a, kept, by rw [Reader.map, accepted], imp a ha⟩

theorem Rejects.map {f : α → β} (rejects : Rejects p cs) : Rejects (p.map f) cs := by
  intro i
  obtain ⟨r, rejected⟩ := rejects i
  exact ⟨r, by rw [Reader.map, rejected]⟩

theorem Reads.andThen (first : Reads p Q cs (ds ++ rest)) (second : Reads q R ds rest) :
    Reads (p.andThen q) (fun r => Q r.1 ∧ R r.2) (cs ++ ds) rest := by
  intro i
  obtain ⟨a, kept, accepted, ha⟩ := first i
  obtain ⟨b, kept', accepted', hb⟩ := second (i + cs.length)
  refine ⟨(a, b), Rejection.keep kept kept', ?_, ha, hb⟩
  rw [List.append_assoc, Reader.andThen, accepted]
  dsimp only
  rw [accepted', List.length_append, Nat.add_assoc]

theorem Rejects.andThen (rejects : Rejects p cs) : Rejects (p.andThen q) cs := by
  intro i
  obtain ⟨r, rejected⟩ := rejects i
  exact ⟨r, by rw [Reader.andThen, rejected]⟩

theorem Reads.andThen_rejects (first : Reads p Q cs rest) (second : Rejects q rest) :
    Rejects (p.andThen q) (cs ++ rest) := by
  intro i
  obtain ⟨a, kept, accepted, -⟩ := first i
  obtain ⟨r, rejected⟩ := second (i + cs.length)
  refine ⟨kept.elim r r.furthest, ?_⟩
  rw [Reader.andThen, accepted]
  dsimp only
  rw [rejected]

theorem Reads.before (first : Reads p Q cs (ds ++ rest)) (second : Reads q R ds rest) :
    Reads (p.before q) R (cs ++ ds) rest :=
  (first.andThen second).map fun _ h => h.2

theorem Reads.followedBy (first : Reads p Q cs (ds ++ rest)) (second : Reads q R ds rest) :
    Reads (p.followedBy q) Q (cs ++ ds) rest :=
  (first.andThen second).map fun _ h => h.1

theorem Rejects.before (rejects : Rejects p cs) : Rejects (p.before q) cs := rejects.andThen.map

theorem Rejects.followedBy (rejects : Rejects p cs) : Rejects (p.followedBy q) cs :=
  rejects.andThen.map

theorem Reads.orElse (reads : Reads p Q cs rest) : Reads (p.orElse p') Q cs rest := by
  intro i
  obtain ⟨a, kept, accepted, ha⟩ := reads i
  exact ⟨a, kept, by rw [Reader.orElse, accepted], ha⟩

theorem Reads.orElse_of_rejects (reads : Reads p' Q cs rest) (rejects : Rejects p (cs ++ rest)) :
    Reads (p.orElse p') Q cs rest := by
  intro i
  obtain ⟨r, rejected⟩ := rejects i
  obtain ⟨a, kept, accepted, ha⟩ := reads i
  refine ⟨a, kept, ?_, ha⟩
  rw [Reader.orElse, rejected]
  dsimp only
  rw [accepted]

theorem Rejects.orElse (rejects : Rejects p cs) (rejects' : Rejects p' cs) :
    Rejects (p.orElse p') cs := by
  intro i
  obtain ⟨r, rejected⟩ := rejects i
  obtain ⟨r', rejected'⟩ := rejects' i
  refine ⟨r.furthest r', ?_⟩
  rw [Reader.orElse, rejected]
  dsimp only
  rw [rejected']

theorem Reads.optional (reads : Reads p Q cs rest) :
    Reads p.optional (fun o => ∃ a, o = some a ∧ Q a) cs rest := by
  intro i
  obtain ⟨a, kept, accepted, ha⟩ := reads i
  exact ⟨some a, kept, by rw [Reader.optional, accepted], a, rfl, ha⟩

theorem Rejects.optional (rejects : Rejects p rest) : Reads p.optional (· = none) [] rest := by
  intro i
  obtain ⟨r, rejected⟩ := rejects i
  exact ⟨none, some r, by rw [Reader.optional, List.nil_append, rejected]; rfl, rfl⟩

theorem Reads.labelled (reads : Reads p Q cs rest) (l : Label) :
    Reads (p.labelled l) Q cs rest := by
  intro i
  obtain ⟨a, kept, accepted, ha⟩ := reads i
  exact ⟨a, kept.map (·.label l), by rw [Reader.labelled, accepted], ha⟩

theorem Rejects.labelled (rejects : Rejects p cs) (l : Label) : Rejects (p.labelled l) cs := by
  intro i
  obtain ⟨r, rejected⟩ := rejects i
  exact ⟨r.label l, by rw [Reader.labelled, rejected]⟩

theorem Reads.located (reads : Reads p Q cs rest) :
    Reads p.located (fun r => Q r.1) cs rest := by
  intro i
  obtain ⟨a, kept, accepted, ha⟩ := reads i
  exact ⟨_, kept, by rw [Reader.located, accepted], ha⟩

theorem Rejects.located (rejects : Rejects p cs) : Rejects p.located cs := by
  intro i
  obtain ⟨r, rejected⟩ := rejects i
  exact ⟨r, by rw [Reader.located, rejected]⟩

theorem Reads.check {f : α → Except WordFault β} (reads : Reads p Q cs rest)
    (passes : ∀ a, Q a → ∃ b, f a = .ok b ∧ R b) : Reads (p.check f) R cs rest := by
  intro i
  obtain ⟨a, kept, accepted, ha⟩ := reads i
  obtain ⟨b, checked, hb⟩ := passes a ha
  refine ⟨b, kept, ?_, hb⟩
  rw [Reader.check, accepted]
  dsimp only
  rw [checked]

def ReadsMany (p : Reader α) (Q : List α → Prop) (cs rest : List Char) : Prop :=
  ∀ fuel, cs.length < fuel → ∀ kept i, ∃ as kept',
    manyFrom p fuel kept ⟨i, cs ++ rest⟩ = (as, kept', ⟨i + cs.length, rest⟩) ∧ Q as

theorem ReadsMany.imp {Q Q' : List α → Prop} (reads : ReadsMany p Q cs rest)
    (imp : ∀ as, Q as → Q' as) : ReadsMany p Q' cs rest := by
  intro fuel enough kept i
  obtain ⟨as, kept', read, has⟩ := reads fuel enough kept i
  exact ⟨as, kept', read, imp as has⟩

theorem readsMany_nil (stops : Rejects p rest) : ReadsMany p (· = []) [] rest := by
  intro fuel enough kept i
  obtain ⟨fuel, rfl⟩ := Nat.exists_eq_succ_of_ne_zero (Nat.ne_of_gt enough)
  obtain ⟨r, rejected⟩ := stops i
  exact ⟨[], Rejection.keep kept (some r), by rw [List.nil_append, manyFrom, rejected]; rfl, rfl⟩

theorem ReadsMany.cons {Q' : List α → Prop} (item : Reads p Q cs (ds ++ rest))
    (nonempty : cs ≠ []) (more : ReadsMany p Q' ds rest) :
    ReadsMany p (fun as => ∃ a as', as = a :: as' ∧ Q a ∧ Q' as') (cs ++ ds) rest := by
  intro fuel enough kept i
  have positive := List.length_pos_iff.2 nonempty
  rw [List.length_append] at enough
  obtain ⟨fuel, rfl⟩ := Nat.exists_eq_succ_of_ne_zero (n := fuel) (by omega)
  obtain ⟨a, kept₁, accepted, ha⟩ := item i
  obtain ⟨as, kept', read, has⟩ := more fuel (by omega) (Rejection.keep kept kept₁) (i + cs.length)
  refine ⟨a :: as, kept', ?_, a, as, rfl, ha, has⟩
  rw [List.append_assoc, manyFrom, accepted]
  dsimp only
  rw [read, List.length_append, Nat.add_assoc]

theorem ReadsMany.reads {Q : List α → Prop} (all : ReadsMany p Q cs rest) :
    Reads p.many Q cs rest := by
  intro i
  obtain ⟨as, kept, read, has⟩ :=
    all ((cs ++ rest).length + 1) (by rw [List.length_append]; omega) none i
  exact ⟨as, kept, by rw [many, read], has⟩

theorem reads_many_satisfy {p : Char → Bool} (all : ∀ c ∈ cs, p c) (stops : Avoids p rest) :
    Reads (satisfy p).many (· = cs) cs rest := by
  have each : ReadsMany (satisfy p) (· = cs) cs rest := by
    induction cs with
    | nil => exact readsMany_nil (rejects_satisfy stops)
    | cons c cs ih =>
      have first : Reads (satisfy p) (· = c) [c] (cs ++ rest) :=
        reads_satisfy (all c List.mem_cons_self)
      have others := ih fun d mem => all d (List.mem_cons_of_mem _ mem)
      refine (ReadsMany.cons first (by simp) others).imp ?_
      rintro _ ⟨_, _, rfl, rfl, rfl⟩
      rfl
  exact each.reads

theorem reads_many1_satisfy {p : Char → Bool} (all : ∀ c ∈ cs, p c) (nonempty : cs ≠ [])
    (stops : Avoids p rest) : Reads (satisfy p).many1 (· = cs) cs rest := by
  intro i
  obtain ⟨a, kept, accepted, rfl⟩ := reads_many_satisfy all stops i
  refine ⟨a, kept, ?_, rfl⟩
  cases a with
  | nil => exact absurd rfl nonempty
  | cons c a =>
    have first : Reads (satisfy p) (· = c) [c] (a ++ rest) :=
      reads_satisfy (all c List.mem_cons_self)
    obtain ⟨b, kept', accepted', -⟩ := first i
    rw [many1, List.cons_append, show c :: (a ++ rest) = [c] ++ (a ++ rest) from rfl, accepted']
    exact accepted

theorem rejects_many1 (rejects : Rejects p cs) : Rejects p.many1 cs := by
  intro i
  obtain ⟨r, rejected⟩ := rejects i
  exact ⟨r, by rw [many1, rejected]⟩

def ReadsMore (p : Reader α) (separator : Reader β) (Q : List α → Prop) (cs rest : List Char) :
    Prop :=
  ∀ fuel, cs.length < fuel → ∀ kept i, ∃ as kept',
    separatedFrom p separator fuel kept ⟨i, cs ++ rest⟩ =
      (as, kept', ⟨i + cs.length, rest⟩) ∧ Q as

theorem ReadsMore.imp {Q Q' : List α → Prop} (reads : ReadsMore p q Q cs rest)
    (imp : ∀ as, Q as → Q' as) : ReadsMore p q Q' cs rest := by
  intro fuel enough kept i
  obtain ⟨as, kept', read, has⟩ := reads fuel enough kept i
  exact ⟨as, kept', read, imp as has⟩

theorem readsMore_nil (stops : Rejects q rest) : ReadsMore p q (· = []) [] rest := by
  intro fuel enough kept i
  obtain ⟨fuel, rfl⟩ := Nat.exists_eq_succ_of_ne_zero (Nat.ne_of_gt enough)
  obtain ⟨r, rejected⟩ := stops i
  exact ⟨[], Rejection.keep kept (some r), by rw [List.nil_append, separatedFrom, rejected]; rfl,
    rfl⟩

theorem ReadsMore.cons {es : List Char} {Q' : List α → Prop}
    (separates : Reads q R ds (cs ++ (es ++ rest))) (nonempty : ds ≠ [])
    (item : Reads p Q cs (es ++ rest)) (more : ReadsMore p q Q' es rest) :
    ReadsMore p q (fun as => ∃ a as', as = a :: as' ∧ Q a ∧ Q' as') (ds ++ cs ++ es) rest := by
  intro fuel enough kept i
  have positive := List.length_pos_iff.2 nonempty
  simp only [List.length_append] at enough
  obtain ⟨fuel, rfl⟩ := Nat.exists_eq_succ_of_ne_zero (n := fuel) (by omega)
  obtain ⟨b, kept₁, accepted, -⟩ := separates i
  obtain ⟨a, kept₂, accepted', ha⟩ := item (i + ds.length)
  obtain ⟨as, kept', read, has⟩ := more fuel (by omega)
    (Rejection.keep (Rejection.keep kept kept₁) kept₂) (i + ds.length + cs.length)
  refine ⟨a :: as, kept', ?_, a, as, rfl, ha, has⟩
  rw [List.append_assoc, List.append_assoc, separatedFrom, accepted]
  dsimp only
  rw [accepted']
  dsimp only
  rw [read]
  simp only [List.length_append, Nat.add_assoc]

theorem Reads.separatedBy {Q' : List α → Prop} (item : Reads p Q cs (ds ++ rest))
    (more : ReadsMore p q Q' ds rest) : Reads (p.separatedBy q)
      (fun as => ∃ a as', as = a :: as' ∧ Q a ∧ Q' as') (cs ++ ds) rest := by
  intro i
  obtain ⟨a, kept, accepted, ha⟩ := item i
  obtain ⟨as, kept', read, has⟩ :=
    more ((ds ++ rest).length + 1) (by rw [List.length_append]; omega) kept (i + cs.length)
  refine ⟨a :: as, kept', ?_, a, as, rfl, ha, has⟩
  rw [List.append_assoc, Reader.separatedBy, accepted]
  dsimp only
  rw [read, List.length_append, Nat.add_assoc]

theorem Rejects.separatedBy (rejects : Rejects p rest) :
    Reads (p.separatedBy q) (· = []) [] rest := by
  intro i
  obtain ⟨r, rejected⟩ := rejects i
  exact ⟨[], some r, by rw [List.nil_append, Reader.separatedBy, rejected]; rfl, rfl⟩

end Reader

end FeatureLogic.Text
