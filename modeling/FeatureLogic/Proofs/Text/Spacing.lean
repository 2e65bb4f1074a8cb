import FeatureLogic.Proofs.Text.Reading

/-!
# Reading with blanks in between

A padded reader leaves the text without blanks at its front, and does not care how many there were
before. So what is read can be said up to blanks at the front of a text, whichever of two readers
next to each other has skipped them.
-/

namespace FeatureLogic.Text

def trimmed (cs : List Char) : List Char := cs.dropWhile isBlank

variable {cs ds s t u : List Char} {c : Char}

theorem Cursor.skipBlanks_eq (i : Nat) (s : List Char) :
    skipBlanks ⟨i, s⟩ = ⟨i + (s.takeWhile isBlank).length, trimmed s⟩ := rfl

theorem trimmed_append (blank : ∀ c ∈ cs, isBlank c) : trimmed (cs ++ ds) = trimmed ds :=
  List.dropWhile_append_of_pos blank

theorem trimmed_cons (visible : isBlank c = false) : trimmed (c :: cs) = c :: cs := by
  simp [trimmed, visible]

theorem trimmed_of_avoids (avoids : Avoids isBlank cs) : trimmed cs = cs := by
  cases cs with
  | nil => rfl
  | cons c cs => exact trimmed_cons (avoids_cons.1 avoids)

theorem avoids_trimmed (cs : List Char) : Avoids isBlank (trimmed cs) := by
  induction cs with
  | nil => exact avoids_nil _
  | cons c cs ih =>
    cases blank : isBlank c with
    | true => simpa [trimmed, blank] using ih
    | false => simpa [trimmed, blank] using avoids_cons.2 blank

theorem trimmed_trimmed (cs : List Char) : trimmed (trimmed cs) = trimmed cs :=
  trimmed_of_avoids (avoids_trimmed cs)

theorem avoids_of_trimmed {p : Char → Bool} (visible : ∀ c, p c → isBlank c = false)
    (avoids : Avoids p (trimmed cs)) : Avoids p cs := by
  cases cs with
  | nil => exact avoids_nil p
  | cons c cs =>
    cases blank : isBlank c with
    | true =>
      refine avoids_cons.2 (Bool.eq_false_iff.2 fun holds => ?_)
      cases (visible c holds).symm.trans blank
    | false => rwa [trimmed_cons blank] at avoids

theorem length_trimmed_le (cs : List Char) : (trimmed cs).length ≤ cs.length :=
  (List.dropWhile_sublist isBlank).length_le

namespace Reader

variable {α β : Type} {p p' : Reader α} {q : Reader β} {Q Q' : α → Prop} {R : β → Prop}

def Consumes (p : Reader α) (Q : α → Prop) (s t : List Char) : Prop :=
  ∃ cs, s = cs ++ t ∧ Reads p Q cs t

theorem Reads.consumes {rest : List Char} (reads : Reads p Q cs rest) :
    Consumes p Q (cs ++ rest) rest := ⟨cs, rfl, reads⟩

theorem Consumes.imp (consumes : Consumes p Q s t) (imp : ∀ a, Q a → Q' a) :
    Consumes p Q' s t := by
  obtain ⟨cs, rfl, reads⟩ := consumes
  exact (reads.imp imp).consumes

theorem Consumes.map {f : α → β} (consumes : Consumes p Q s t) (imp : ∀ a, Q a → R (f a)) :
    Consumes (p.map f) R s t := by
  obtain ⟨cs, rfl, reads⟩ := consumes
  exact (reads.map imp).consumes

theorem Consumes.andThen (first : Consumes p Q s t) (second : Consumes q R t u) :
    Consumes (p.andThen q) (fun r => Q r.1 ∧ R r.2) s u := by
  obtain ⟨cs, rfl, reads⟩ := first
  obtain ⟨ds, rfl, reads'⟩ := second
  exact ⟨cs ++ ds, (List.append_assoc ..).symm, reads.andThen reads'⟩

theorem Consumes.before (first : Consumes p Q s t) (second : Consumes q R t u) :
    Consumes (p.before q) R s u := (first.andThen second).map fun _ h => h.2

theorem Consumes.followedBy (first : Consumes p Q s t) (second : Consumes q R t u) :
    Consumes (p.followedBy q) Q s u := (first.andThen second).map fun _ h => h.1

theorem Consumes.orElse (consumes : Consumes p Q s t) : Consumes (p.orElse p') Q s t := by
  obtain ⟨cs, rfl, reads⟩ := consumes
  exact reads.orElse.consumes

theorem Consumes.orElse_of_rejects (consumes : Consumes p' Q s t) (rejects : Rejects p s) :
    Consumes (p.orElse p') Q s t := by
  obtain ⟨cs, rfl, reads⟩ := consumes
  exact (reads.orElse_of_rejects rejects).consumes

theorem Consumes.optional (consumes : Consumes p Q s t) :
    Consumes p.optional (fun o => ∃ a, o = some a ∧ Q a) s t := by
  obtain ⟨cs, rfl, reads⟩ := consumes
  exact reads.optional.consumes

theorem Rejects.consumes_optional (rejects : Rejects p s) : Consumes p.optional (· = none) s s :=
  rejects.optional.consumes

theorem Consumes.labelled (consumes : Consumes p Q s t) (l : Label) :
    Consumes (p.labelled l) Q s t := by
  obtain ⟨cs, rfl, reads⟩ := consumes
  exact (reads.labelled l).consumes

theorem Consumes.located (consumes : Consumes p Q s t) :
    Consumes p.located (fun r => Q r.1) s t := by
  obtain ⟨cs, rfl, reads⟩ := consumes
  exact reads.located.consumes

/-- A padded reader starts behind the blanks, and goes on over the blanks that follow. -/
theorem Consumes.padded (consumes : Consumes p Q (trimmed s) t) :
    Consumes p.padded Q s (trimmed t) := by
  obtain ⟨cs, eq, reads⟩ := consumes
  have front : s.takeWhile isBlank ++ (cs ++ t) = s := by
    rw [← eq]
    exact List.takeWhile_append_dropWhile
  have back : t.takeWhile isBlank ++ trimmed t = t := List.takeWhile_append_dropWhile
  refine ⟨s.takeWhile isBlank ++ cs ++ t.takeWhile isBlank, ?_, fun i => ?_⟩
  · rw [List.append_assoc, back, List.append_assoc, front]
  · obtain ⟨a, kept, accepted, ha⟩ := reads (i + (s.takeWhile isBlank).length)
    refine ⟨a, kept, ?_, ha⟩
    have text : s.takeWhile isBlank ++ cs ++ t.takeWhile isBlank ++ trimmed t = s := by
      rw [List.append_assoc, back, List.append_assoc, front]
    rw [text, Reader.padded, Cursor.skipBlanks_eq, eq, accepted]
    simp only [Cursor.skipBlanks_eq, List.length_append, Nat.add_assoc]

theorem Rejects.padded_of_trimmed (rejects : Rejects p (trimmed s)) : Rejects p.padded s := by
  intro i
  obtain ⟨r, rejected⟩ := rejects (i + (s.takeWhile isBlank).length)
  exact ⟨r, by rw [Reader.padded, Cursor.skipBlanks_eq, rejected]⟩

theorem consumes_token (starts : trimmed s = c :: t) :
    Consumes (expect c).padded (· = c) s (trimmed t) :=
  Consumes.padded (starts ▸ (reads_expect c).consumes)

theorem rejects_token (avoids : Avoids (· = c) (trimmed s)) : Rejects (expect c).padded s :=
  Rejects.padded_of_trimmed (rejects_expect avoids)

def ConsumesMore (p : Reader α) (separator : Reader β) (Q : List α → Prop) (s t : List Char) :
    Prop :=
  ∃ cs, s = cs ++ t ∧ ReadsMore p separator Q cs t

theorem ConsumesMore.imp {Q Q' : List α → Prop} (consumes : ConsumesMore p q Q s t)
    (imp : ∀ as, Q as → Q' as) : ConsumesMore p q Q' s t := by
  obtain ⟨cs, rfl, more⟩ := consumes
  exact ⟨cs, rfl, more.imp imp⟩

theorem consumesMore_nil (stops : Rejects q s) : ConsumesMore p q (· = []) s s :=
  ⟨[], rfl, readsMore_nil stops⟩

theorem ConsumesMore.cons {v : List Char} {Q' : List α → Prop} (separates : Consumes q R s t)
    (shorter : t.length < s.length) (item : Consumes p Q t u) (more : ConsumesMore p q Q' u v) :
    ConsumesMore p q (fun as => ∃ a as', as = a :: as' ∧ Q a ∧ Q' as') s v := by
  obtain ⟨ds, rfl, separates⟩ := separates
  obtain ⟨cs, rfl, item⟩ := item
  obtain ⟨es, rfl, more⟩ := more
  have nonempty : ds ≠ [] := by
    rintro rfl
    exact Nat.lt_irrefl _ shorter
  exact ⟨ds ++ cs ++ es, by simp, more.cons separates nonempty item⟩

theorem Consumes.separatedBy {Q' : List α → Prop} (item : Consumes p Q s t)
    (more : ConsumesMore p q Q' t u) :
    Consumes (p.separatedBy q) (fun as => ∃ a as', as = a :: as' ∧ Q a ∧ Q' as') s u := by
  obtain ⟨cs, rfl, item⟩ := item
  obtain ⟨ds, rfl, more⟩ := more
  exact ⟨cs ++ ds, (List.append_assoc ..).symm, item.separatedBy more⟩

end Reader

end FeatureLogic.Text
