import FeatureLogic.Proofs.Description.Words
import FeatureLogic.Proofs.Settings.Grammar

/-!
# Lexemes of settings are read by their grammar

White space, names and integers are read exactly where the grammar has them, and so far as it has
them. The decimal digits of a number are read as the number.
-/

namespace FeatureLogic.Settings

open Text (Avoids avoids_cons avoids_nil)

variable {cs rest text name digits : List Char} {n bound base : Nat} {c : Char}
  {p : Char → Bool}

/-! ## White space -/

/-- Where the end of a block comment inside of `n` others leads to. -/
def Gap.enclosing : Nat → Gap
  | 0 => .space
  | n + 1 => .blockComment n

theorem skip_closing :
    (Gap.blockComment n).skip ('*' :: '/' :: cs) = (Gap.enclosing n).skip cs := by
  cases n <;> rfl

theorem skip_opening :
    (Gap.blockComment n).skip ('/' :: '*' :: cs) = (Gap.blockComment (n + 1)).skip cs := by
  cases n <;> rfl

theorem skip_inside (opens : c = '/' → cs.head? ≠ some '*')
    (closes : c = '*' → cs.head? ≠ some '/') :
    (Gap.blockComment n).skip (c :: cs) = (Gap.blockComment n).skip cs := by
  rw [Gap.skip]
  · rintro more rfl rfl
    exact opens rfl rfl
  · rintro more rfl rfl rfl
    exact closes rfl rfl
  · rintro m more rfl rfl rfl
    exact closes rfl rfl

theorem skip_lineComment : Gap.lineComment.skip (c :: cs) =
    if c = '\n' then Gap.space.skip cs else Gap.lineComment.skip cs := rfl

theorem skip_space : Gap.space.skip (c :: cs) =
    if c = '/' then
      match cs with
      | '/' :: cs => Gap.lineComment.skip cs
      | '*' :: cs => (Gap.blockComment 0).skip cs
      | _ => none
    else if isSpace c then Gap.space.skip cs else some (c :: cs) := by
  split
  next slash =>
    subst slash
    split
    · rfl
    · rfl
    next line block =>
      rw [Gap.skip]
      · exact line
      · exact block
  next other =>
    rw [Gap.skip]
    · exact fun _ eq _ => other eq
    · exact fun _ eq _ => other eq
    · exact other

/-- A block comment is left at its own end, and not at that of one inside of it. -/
theorem Comment.skip (comment : Comment text) :
    (Gap.blockComment n).skip (text ++ '*' :: '/' :: cs) = (Gap.enclosing n).skip cs := by
  induction comment generalizing n cs with
  | nil => exact skip_closing
  | char slash star _ ih =>
    rw [List.cons_append, skip_inside (absurd · slash) (absurd · star), ih]
  | slash ne _ ih =>
    rw [List.cons_append, skip_inside (by simpa using ne) (by simp), ih]
  | @star text ne _ ih =>
    have apart : (text ++ '*' :: '/' :: cs).head? ≠ some '/' := by
      cases text with
      | nil => simp
      | cons c text => simpa using ne
    rw [List.cons_append, skip_inside (by simp) fun _ => apart, ih]
  | nested _ _ ih ih' =>
    rw [List.cons_append, List.cons_append, List.append_assoc, List.cons_append, List.cons_append,
      skip_opening, ih]
    exact ih'

theorem exists_comment (skipped : (Gap.blockComment n).skip cs = some rest) :
    ∃ text more, cs = text ++ '*' :: '/' :: more ∧ Comment text ∧
      (Gap.enclosing n).skip more = some rest := by
  induction len : cs.length using Nat.strongRecOn generalizing n cs with
  | ind len ih =>
    subst len
    match cs with
    | [] => cases skipped
    | c :: cs =>
      by_cases opens : c = '/' ∧ cs.head? = some '*'
      · obtain ⟨rfl, head⟩ := opens
        obtain ⟨cs, rfl⟩ := List.head?_eq_some_iff.1 head
        rw [skip_opening] at skipped
        obtain ⟨inner, more, rfl, comment, between⟩ :=
          ih _ (by simp only [List.length_cons]; omega) skipped rfl
        obtain ⟨text, more, rfl, comment', after⟩ :=
          ih _ (by simp only [List.length_cons, List.length_append]; omega) between rfl
        exact ⟨_, more, by simp, .nested comment comment', after⟩
      by_cases closes : c = '*' ∧ cs.head? = some '/'
      · obtain ⟨rfl, head⟩ := closes
        obtain ⟨cs, rfl⟩ := List.head?_eq_some_iff.1 head
        exact ⟨[], cs, rfl, .nil, skip_closing.symm.trans skipped⟩
      rw [skip_inside (fun slash star => opens ⟨slash, star⟩)
        fun star slash => closes ⟨star, slash⟩] at skipped
      obtain ⟨text, more, rfl, comment, after⟩ := ih _ (by simp) skipped rfl
      refine ⟨c :: text, more, rfl, ?_, after⟩
      -- a slash or a star stands for itself unless the next character makes it a mark
      by_cases slash : c = '/'
      · subst slash
        cases text with
        | nil => simp at opens
        | cons d text => exact .slash (by simpa using opens) comment
      by_cases star : c = '*'
      · subst star
        refine .star ?_ comment
        cases text with
        | nil => simp
        | cons d text => simpa using closes
      · exact .char slash star comment

theorem skip_line (single : '\n' ∉ text) :
    Gap.lineComment.skip (text ++ '\n' :: cs) = Gap.space.skip cs := by
  induction text with
  | nil => rfl
  | cons c text ih =>
    have ne := List.ne_of_not_mem_cons single
    rw [List.cons_append, skip_lineComment, if_neg ne.symm,
      ih (List.not_mem_of_not_mem_cons single)]

theorem skip_lastLine (single : '\n' ∉ text) : Gap.lineComment.skip text = some [] := by
  induction text with
  | nil => rfl
  | cons c text ih =>
    have ne := List.ne_of_not_mem_cons single
    rw [skip_lineComment, if_neg ne.symm, ih (List.not_mem_of_not_mem_cons single)]

theorem lineComment_cases (skipped : Gap.lineComment.skip cs = some rest) :
    (∃ text more, cs = text ++ '\n' :: more ∧ '\n' ∉ text ∧ Gap.space.skip more = some rest) ∨
      ('\n' ∉ cs ∧ rest = []) := by
  induction cs with
  | nil => exact .inr ⟨by simp, (Option.some.inj skipped).symm⟩
  | cons c cs ih =>
    rw [skip_lineComment] at skipped
    split at skipped
    next newline =>
      subst newline
      exact .inl ⟨[], cs, rfl, by simp, skipped⟩
    next other =>
      rcases ih skipped with ⟨text, more, rfl, single, after⟩ | ⟨single, ends⟩
      · exact .inl ⟨c :: text, more, rfl, by simp [single, Ne.symm other], after⟩
      · exact .inr ⟨by simp [single, Ne.symm other], ends⟩

theorem Space.skipSpace_eq (space : Space cs rest) : skipSpace cs = skipSpace rest := by
  induction space with
  | done => rfl
  | @space c _ _ space _ ih =>
    have slash : c ≠ '/' := by
      rintro rfl
      cases space
    rw [skipSpace, skip_space, if_neg slash, if_pos space]
    exact ih
  | line single _ ih => exact (skip_line single).trans ih
  | lastLine single => exact skip_lastLine single
  | block comment _ ih => exact comment.skip.trans ih

theorem solid_cons : Solid (c :: cs) ↔ c ≠ '/' ∧ ¬ isSpace c := by
  simp only [Solid, avoids_cons, Bool.or_eq_false_iff, beq_eq_false_iff_ne, Bool.not_eq_true]
  exact and_comm

theorem Solid.skipSpace_eq (solid : Solid cs) : skipSpace cs = some cs := by
  cases cs with
  | nil => rfl
  | cons c cs =>
    obtain ⟨slash, space⟩ := solid_cons.1 solid
    rw [skipSpace, skip_space, if_neg slash, if_neg space]

/-- White space and comments are skipped, up to where neither begins. -/
theorem skipSpace_eq_some_iff : skipSpace cs = some rest ↔ Space cs rest ∧ Solid rest := by
  refine ⟨fun skipped => ?_, fun ⟨space, solid⟩ => space.skipSpace_eq.trans solid.skipSpace_eq⟩
  induction len : cs.length using Nat.strongRecOn generalizing cs with
  | ind len ih =>
    subst len
    cases cs with
    | nil =>
      cases skipped
      exact ⟨.done, avoids_nil _⟩
    | cons c cs =>
      rw [skipSpace, skip_space] at skipped
      split at skipped
      next slash =>
        subst slash
        split at skipped
        next cs =>
          obtain ⟨text, more, rfl, single, after⟩ | ⟨single, rfl⟩ := lineComment_cases skipped
          · obtain ⟨space, solid⟩ :=
              ih _ (by simp only [List.length_cons, List.length_append]; omega) after rfl
            exact ⟨.line single space, solid⟩
          · exact ⟨.lastLine single, avoids_nil _⟩
        next cs =>
          obtain ⟨text, more, rfl, comment, after⟩ := exists_comment skipped
          obtain ⟨space, solid⟩ :=
            ih _ (by simp only [List.length_cons, List.length_append]; omega) after rfl
          exact ⟨.block comment space, solid⟩
        next => cases skipped
      next slash =>
        split at skipped
        next blank =>
          obtain ⟨space, solid⟩ := ih _ (by simp) skipped rfl
          exact ⟨.space blank space, solid⟩
        next visible =>
          cases skipped
          exact ⟨.done, solid_cons.2 ⟨slash, visible⟩⟩

theorem token_eq_some_iff : token c cs = some rest ↔
    ∃ more, cs = c :: more ∧ Space more rest ∧ Solid rest := by
  cases cs with
  | nil => simp [token]
  | cons d cs =>
    rw [token, Option.ite_none_right_eq_some, skipSpace_eq_some_iff]
    constructor
    · rintro ⟨rfl, found⟩
      exact ⟨cs, rfl, found⟩
    · rintro ⟨more, ⟨⟩, found⟩
      exact ⟨rfl, found⟩

/-! ## Names -/

theorem avoids_dropWhile : Avoids p (cs.dropWhile p) := by
  intro c head
  have stops := List.head?_dropWhile_not p cs
  rw [Option.mem_def.1 head] at stops
  exact stops

theorem takeWhile_eq_nil_iff : cs.takeWhile p = [] ↔ Avoids p cs := by
  cases cs with
  | nil => simp [avoids_nil]
  | cons c cs => simp [avoids_cons, List.takeWhile_cons]

theorem span_append (all : text.all p) (ends : Avoids p rest) :
    (text ++ rest).takeWhile p = text ∧ (text ++ rest).dropWhile p = rest := by
  have all := List.all_eq_true.1 all
  rw [List.takeWhile_append_of_pos all, List.dropWhile_append_of_pos all,
    takeWhile_eq_nil_iff.2 ends, List.append_nil]
  refine ⟨rfl, ?_⟩
  cases rest with
  | nil => rfl
  | cons c rest => exact List.dropWhile_cons_of_neg (by simp [avoids_cons.1 ends])

theorem isNameChar_of_isNameStart (start : isNameStart c) : isNameChar c := by
  simp only [isNameStart, Bool.or_eq_true] at start
  simp only [isNameChar, Char.isAlphanum, Bool.or_eq_true]
  exact start.imp_left .inl

theorem isRawNameChar_of_isNameChar (char : isNameChar c) : isRawNameChar c := by
  simp [isRawNameChar, char]

theorem avoids_of_imp {q : Char → Bool} (within : ∀ c, q c → p c) (avoids : Avoids p cs) :
    Avoids q cs := by
  intro c head
  refine Bool.eq_false_iff.2 fun holds => ?_
  cases (avoids c head).symm.trans (within c holds)

theorem named_of_name? (read : name? cs = some (name, rest)) : Named cs name rest := by
  unfold name? at read
  split at read
  next => cases read
  next cs =>
    obtain ⟨nonempty, eq⟩ := Option.ite_none_left_eq_some.1 read
    cases eq
    have named : Named ('r' :: '#' :: (cs.takeWhile isRawNameChar ++ cs.dropWhile isRawNameChar))
        (cs.takeWhile isRawNameChar) (cs.dropWhile isRawNameChar) :=
      .raw (mt List.isEmpty_iff.2 nonempty) List.all_takeWhile avoids_dropWhile
    rwa [List.takeWhile_append_dropWhile] at named
  next c cs quote hash =>
    obtain ⟨check, eq⟩ := Option.ite_none_right_eq_some.1 read
    simp only [Bool.and_eq_true, beq_iff_eq] at check
    obtain ⟨start, same⟩ := check
    have char := isNameChar_of_isNameStart start
    rw [List.takeWhile_cons_of_pos char] at same eq
    rw [List.dropWhile_cons_of_pos char] at eq
    rw [List.takeWhile_cons_of_pos (isRawNameChar_of_isNameChar char)] at same
    cases eq
    have split : cs.takeWhile isNameChar ++ cs.dropWhile isNameChar = cs :=
      List.takeWhile_append_dropWhile
    -- raw name characters go no further than those of a plain name, which are among them
    have ends : Avoids isRawNameChar (cs.dropWhile isNameChar) := by
      have longer : cs.takeWhile isRawNameChar =
          cs.takeWhile isNameChar ++ (cs.dropWhile isNameChar).takeWhile isRawNameChar := by
        conv_lhs => rw [← split]
        exact List.takeWhile_append_of_pos fun d mem =>
          isRawNameChar_of_isNameChar (List.all_eq_true.1 List.all_takeWhile d mem)
      rw [longer] at same
      exact takeWhile_eq_nil_iff.1 (by simpa using same)
    have unmarked (alone : c :: cs.takeWhile isNameChar = ['r']) :
        Avoids (fun d => d == '"' || d == '#') (cs.dropWhile isNameChar) := by
      obtain ⟨rfl, nothing⟩ := List.cons.inj alone
      rw [nothing, List.nil_append] at split
      intro d head
      rw [split] at head
      obtain ⟨more, rfl⟩ := List.head?_eq_some_iff.1 head
      refine Bool.eq_false_iff.2 fun mark => ?_
      simp only [Bool.or_eq_true, beq_iff_eq] at mark
      rcases mark with rfl | rfl
      · exact quote more rfl rfl
      · exact hash more rfl rfl
    have named := Named.plain start List.all_takeWhile ends unmarked
    rwa [split] at named
  next => cases read

theorem Named.name?_eq (named : Named cs name rest) : name? cs = some (name, rest) := by
  cases named with
  | @plain c word rest start all ends unmarked =>
    have char := isNameChar_of_isNameStart start
    have all' : word.all isRawNameChar := List.all_eq_true.2 fun d mem =>
      isRawNameChar_of_isNameChar (List.all_eq_true.1 all d mem)
    obtain ⟨taken, left⟩ :=
      span_append all (avoids_of_imp (fun _ => isRawNameChar_of_isNameChar) ends)
    obtain ⟨taken', left'⟩ := span_append all' ends
    -- what marks an `r` as no name is neither in the word nor behind it
    have plain {d : Char} {more : Rest} (mark : d = '"' ∨ d = '#') (ne : c = 'r') :
        word ++ rest ≠ d :: more := by
      intro eq
      cases word with
      | nil =>
        cases eq
        have none : (d == '"' || d == '#') = false := unmarked (by rw [ne]) d rfl
        rcases mark with rfl | rfl <;> cases none
      | cons e word =>
        cases eq
        rcases mark with rfl | rfl <;> cases List.all_eq_true.1 all _ List.mem_cons_self
    unfold name?
    split
    next tail =>
      obtain ⟨rfl, eq⟩ := List.cons.inj tail
      exact absurd eq (plain (.inl rfl) rfl)
    next tail =>
      obtain ⟨rfl, eq⟩ := List.cons.inj tail
      exact absurd eq (plain (.inr rfl) rfl)
    next eq =>
      cases eq
      simp [List.takeWhile_cons_of_pos char, List.dropWhile_cons_of_pos char,
        List.takeWhile_cons_of_pos (isRawNameChar_of_isNameChar char), taken, taken', left, start]
    next eq => cases eq
  | raw nonempty all ends =>
    obtain ⟨taken, left⟩ := span_append all ends
    simp [name?, taken, left, nonempty]

/-- A name is read exactly where one stands. -/
theorem name?_eq_some_iff : name? cs = some (name, rest) ↔ Named cs name rest :=
  ⟨named_of_name?, Named.name?_eq⟩

/-! ## Integers -/

def digits? (bound base : Nat) (cs : Rest) : Option (Nat × Rest) :=
  let digits := cs.takeWhile isNumeralChar
  if digits.isEmpty || digits.head? == some '_' then none
  else
    match numeral base digits with
    | some n => if n < bound then some (n, cs.dropWhile isNumeralChar) else none
    | none => none

theorem Marked.integer?_eq (marked : Marked cs base rest) :
    integer? bound cs = digits? bound base rest := by
  cases marked with
  | mark mem =>
    simp only [marks, List.mem_cons, List.not_mem_nil, or_false, Prod.mk.injEq] at mem
    obtain ⟨rfl, rfl⟩ | ⟨rfl, rfl⟩ | ⟨rfl, rfl⟩ := mem <;> rfl
  | none unmarked =>
    unfold integer?
    split
    next base tail eq =>
      split at eq
      · exact (unmarked (['0', 'x'], 16) (by simp [marks]) ⟨_, rfl⟩).elim
      · exact (unmarked (['0', 'b'], 2) (by simp [marks]) ⟨_, rfl⟩).elim
      · exact (unmarked (['0', 'o'], 8) (by simp [marks]) ⟨_, rfl⟩).elim
      · cases eq
        rfl

theorem exists_marked (cs : Rest) : ∃ base rest, Marked cs base rest := by
  by_cases marked : ∃ e ∈ marks, e.1 <+: cs
  · obtain ⟨⟨mark, base⟩, mem, rest, rfl⟩ := marked
    exact ⟨base, rest, .mark mem⟩
  · exact ⟨10, cs, .none fun e mem front => marked ⟨e, mem, front⟩⟩

/-- Digits are folded from the front to the number that they denote by their positions. -/
theorem numeral_eq_some_iff : numeral base digits = some n ↔ Numeral base digits n := by
  have fold (cs : List Char) (m : Nat) : cs.foldlM (fun n c =>
      if hexDigit c < base then some (n * base + hexDigit c) else none) m = some n ↔
      (∀ c ∈ cs, hexDigit c < base) ∧ n = cs.foldl (fun n c => n * base + hexDigit c) m := by
    induction cs generalizing m with
    | nil => simp [eq_comm]
    | cons c cs ih =>
      by_cases small : hexDigit c < base
      · simp [List.foldlM_cons, small, ih]
      · simp [List.foldlM_cons, small]
  rw [numeral, fold, Numeral, Nat.ofDigits_eq_foldr, List.foldr_reverse, List.foldl_map]
  simp only [Nat.cast_id, Nat.add_comm, Nat.mul_comm]

theorem digits?_eq_some_iff : digits? bound base cs = some (n, rest) ↔
    ∃ digits, cs = digits ++ rest ∧ digits ≠ [] ∧ digits.head? ≠ some '_' ∧
      digits.all isNumeralChar ∧ Avoids isNumeralChar rest ∧ Numeral base digits n ∧
      n < bound := by
  unfold digits?
  constructor
  · intro read
    simp only [Option.ite_none_left_eq_some] at read
    obtain ⟨starts, read⟩ := read
    split at read
    next m valued =>
      obtain ⟨small, eq⟩ := Option.ite_none_right_eq_some.1 read
      cases eq
      simp only [Bool.or_eq_true, List.isEmpty_iff, beq_iff_eq, not_or] at starts
      exact ⟨_, List.takeWhile_append_dropWhile.symm, starts.1, starts.2, List.all_takeWhile,
        avoids_dropWhile, numeral_eq_some_iff.1 valued, small⟩
    next => cases read
  · rintro ⟨digits, rfl, nonempty, starts, all, ends, valued, small⟩
    obtain ⟨taken, left⟩ := span_append all ends
    simp only [taken, left, numeral_eq_some_iff.2 valued, if_pos small]
    simp [nonempty, starts]

/-- An integer is read exactly where one stands. -/
theorem integer?_eq_some_iff : integer? bound cs = some (n, rest) ↔ Integer bound cs n rest := by
  constructor
  · intro read
    obtain ⟨base, after, marked⟩ := exists_marked cs
    rw [marked.integer?_eq] at read
    obtain ⟨digits, rfl, found⟩ := digits?_eq_some_iff.1 read
    exact ⟨base, digits, marked, found⟩
  · rintro ⟨base, digits, marked, found⟩
    rw [marked.integer?_eq]
    exact digits?_eq_some_iff.2 ⟨digits, rfl, found⟩

theorem isNumeralChar_of_isDigit (digit : c.isDigit) : isNumeralChar c := by
  simp [isNumeralChar, isHexDigit, digit]

theorem isNameChar_of_isNumeralChar (char : isNumeralChar c) : isNameChar c := by
  simp only [isNumeralChar, isHexDigit, Bool.or_eq_true, Bool.and_eq_true, decide_eq_true_eq,
    beq_iff_eq] at char
  simp only [isNameChar, Bool.or_eq_true, beq_iff_eq, Grammar.isAlphanum_iff]
  rcases char with ((digit | ⟨lower, upper⟩) | ⟨lower, upper⟩) | rfl
  · simp only [Char.isDigit, ge_iff_le, Bool.and_eq_true, decide_eq_true_eq] at digit
    exact .inl (.inr digit)
  · have lower : 97 ≤ c.toNat := lower
    have upper : c.toNat ≤ 102 := upper
    exact .inl (.inl (.inr ⟨lower, by omega⟩))
  · have lower : 65 ≤ c.toNat := lower
    have upper : c.toNat ≤ 70 := upper
    exact .inl (.inl (.inl ⟨lower, by omega⟩))
  · exact .inr rfl

theorem marked_of_digits (digits : ∀ c ∈ text, c.isDigit) (nonempty : text ≠ [])
    (ends : Avoids isNameChar rest) : Marked (text ++ rest) 10 (text ++ rest) := by
  refine .none fun e mem ⟨tail, eq⟩ => ?_
  obtain ⟨m, mark, letter, other⟩ : ∃ m, e.1 = ['0', m] ∧ isNameChar m ∧ ¬ m.isDigit := by
    simp only [marks, List.mem_cons, List.not_mem_nil, or_false] at mem
    rcases mem with rfl | rfl | rfl <;> exact ⟨_, rfl, by decide, by decide⟩
  rw [mark] at eq
  match text with
  | [] => exact nonempty rfl
  | [c] =>
    cases eq
    cases (ends m rfl).symm.trans letter
  | c :: d :: text =>
    cases eq
    exact other (digits m (by simp))

/-- The decimal digits of a number are an integer, which is the number. -/
theorem integer_toDigits (small : n < bound) (ends : Avoids isNameChar rest) :
    Integer bound (Nat.toDigits 10 n ++ rest) n rest := by
  have digit : ∀ c ∈ Nat.toDigits 10 n, c.isDigit := fun _ mem => Grammar.isDigit_toDigits mem
  have plain : ∀ c ∈ Nat.toDigits 10 n, c ≠ '_' := by
    rintro c mem rfl
    cases digit _ mem
  have all : (Nat.toDigits 10 n).filter (· != '_') = Nat.toDigits 10 n :=
    List.filter_eq_self.2 fun c mem => bne_iff_ne.2 (plain c mem)
  have value : ∀ c ∈ Nat.toDigits 10 n, hexDigit c = c.toNat - '0'.toNat :=
    fun c mem => by rw [hexDigit, if_pos (digit c mem)]
  refine ⟨10, Nat.toDigits 10 n, marked_of_digits digit Nat.toDigits_ne_nil ends,
    Nat.toDigits_ne_nil, fun head => plain _ (List.mem_of_head? head) rfl,
    List.all_eq_true.2 fun c mem => isNumeralChar_of_isDigit (digit c mem),
    avoids_of_imp (fun _ => isNameChar_of_isNumeralChar) ends, ?_, small⟩
  rw [Numeral, all]
  refine ⟨fun c mem => ?small, ?value⟩
  case small =>
    rw [value c mem]
    exact (Grammar.digitChar_of_isDigit (digit c mem)).1
  case value =>
    rw [List.map_congr_left value, Nat.ofDigits_eq_foldr, List.foldr_reverse, List.foldl_map]
    have back : Nat.ofDigitChars 10 (Nat.toDigits 10 n) 0 = n :=
      Nat.ofDigitChars_toDigits (by decide) (by decide)
    simpa only [Nat.ofDigitChars, Nat.cast_id, Nat.add_comm] using back.symm

end FeatureLogic.Settings
