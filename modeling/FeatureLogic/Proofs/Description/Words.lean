import FeatureLogic.Description.Derivation
import Mathlib.Tactic.IntervalCases

/-!
# Characters, numbers and words

Which classes of characters exclude each other, what digits a number is written with, and which atom
a word denotes. A quoted text is made of characters that stand for themselves and of pairs of a
backslash and a character.
-/

namespace FeatureLogic.Grammar

open Text

theorem isDigit_toDigits {n : Nat} {c : Char} (mem : c ∈ Nat.toDigits 10 n) : c.isDigit :=
  Nat.isDigit_of_mem_toDigits (by decide) (by decide) mem

theorem isBlank_of_isDigit {c : Char} (digit : c.isDigit) : isBlank c = false := by
  simp only [Char.isDigit, ge_iff_le, Bool.and_eq_true, decide_eq_true_eq] at digit
  have lower : 48 ≤ c.toNat := digit.1
  have upper : c.toNat ≤ 57 := digit.2
  simp only [isBlank, Bool.or_eq_false_iff, decide_eq_false_iff_not]
  omega

theorem isWordChar_of_isDigit {c : Char} (digit : c.isDigit) : isWordChar c := by
  simp [isWordChar, isAlphanumeric_of_isDigit digit]

theorem isAlphanum_iff {c : Char} : c.isAlphanum ↔
    (65 ≤ c.toNat ∧ c.toNat ≤ 90 ∨ 97 ≤ c.toNat ∧ c.toNat ≤ 122) ∨
      48 ≤ c.toNat ∧ c.toNat ≤ 57 := by
  change ((decide (65 ≤ c.val ∧ c.val ≤ 90) || (decide (97 ≤ c.val) && decide (c.val ≤ 122))) ||
    (decide (48 ≤ c.val) && decide (c.val ≤ 57))) = true ↔ _
  simp only [Bool.or_eq_true, Bool.and_eq_true, decide_eq_true_eq, UInt32.le_iff_toNat_le,
    UInt32.reduceToNat, Char.toNat_val]

theorem not_isAlphanum_of_isBlank {c : Char} (blank : isBlank c) : ¬ c.isAlphanum := by
  intro alphanum
  have ranges := isAlphanum_iff.1 alphanum
  simp only [isBlank, Bool.or_eq_true, decide_eq_true_eq] at blank
  omega

theorem isAlphanumeric_of_isBlank {c : Char} (blank : isBlank c) : isAlphanumeric c = false := by
  have beyond : ∀ n ∈ [0x85, 0xa0, 0x1680, 0x2000, 0x2001, 0x2002, 0x2003, 0x2004, 0x2005, 0x2006,
      0x2007, 0x2008, 0x2009, 0x200a, 0x2028, 0x2029, 0x202f, 0x205f, 0x3000],
      alphanumericRanges.any (fun r => decide (r.1 ≤ n ∧ n ≤ r.2)) = false := by decide +kernel
  unfold isAlphanumeric
  split
  · exact Bool.eq_false_iff.2 (not_isAlphanum_of_isBlank blank)
  · next large =>
    refine beyond c.toNat ?_
    simp only [isBlank, Bool.or_eq_true, decide_eq_true_eq] at blank
    simp only [List.mem_cons, List.not_mem_nil, or_false]
    omega

theorem isBlank_of_isWordChar {c : Char} (char : isWordChar c) : isBlank c = false := by
  refine Bool.eq_false_iff.2 fun blank => ?_
  simp only [isWordChar, isAlphanumeric_of_isBlank blank, Bool.false_or, Bool.or_eq_true,
    beq_iff_eq] at char
  rcases char with rfl | rfl <;> cases blank

theorem isBlank_of_isNameChar {c : Char} (char : isNameChar c) : isBlank c = false := by
  simp only [isNameChar, Bool.and_eq_true, Bool.not_eq_true'] at char
  exact char.1

theorem isBlank_of_isIdentifierChar {c : Char} (char : isIdentifierChar c) :
    isBlank c = false := by
  refine Bool.eq_false_iff.2 fun blank => ?_
  simp only [isIdentifierChar, Bool.or_eq_true, beq_iff_eq] at char
  rcases char with alphanum | rfl
  · exact not_isAlphanum_of_isBlank blank alphanum
  · cases blank

theorem digitChar_of_isDigit {c : Char} (digit : c.isDigit) :
    c.toNat - '0'.toNat < 10 ∧ Nat.digitChar (c.toNat - '0'.toNat) = c := by
  simp only [Char.isDigit, ge_iff_le, Bool.and_eq_true, decide_eq_true_eq] at digit
  have lower : 48 ≤ c.toNat := digit.1
  have upper : c.toNat ≤ 57 := digit.2
  have zero : '0'.toNat = 48 := rfl
  refine ⟨by omega, ?_⟩
  rw [← Char.ofNat_toNat c]
  generalize c.toNat = n at lower upper
  interval_cases n <;> rfl

theorem exists_toDigits_cons {n : Nat} (positive : 0 < n) :
    ∃ c cs, Nat.toDigits 10 n = c :: cs ∧ c ≠ '0' := by
  induction n using Nat.strongRecOn with
  | ind n ih =>
    by_cases small : n < 10
    · refine ⟨n.digitChar, [], Nat.toDigits_of_lt_base small, ?_⟩
      interval_cases n <;> decide
    · obtain ⟨c, cs, digits, nonzero⟩ := ih (n / 10) (by omega) (by omega)
      refine ⟨c, cs ++ [(n % 10).digitChar], ?_, nonzero⟩
      rw [Nat.toDigits_of_base_le (by decide) (Nat.le_of_not_lt small), digits, List.cons_append]

/-- Digits behind those of a positive number are the digits of the number that they lead to. -/
theorem toDigits_append {n : Nat} {cs : List Char} (positive : 0 < n)
    (digits : ∀ c ∈ cs, c.isDigit) :
    Nat.toDigits 10 n ++ cs = Nat.toDigits 10 (Nat.ofDigitChars 10 cs n) := by
  induction cs generalizing n with
  | nil => simp
  | cons c cs ih =>
    obtain ⟨small, char⟩ := digitChar_of_isDigit (digits c List.mem_cons_self)
    have more := ih (n := 10 * n + (c.toNat - '0'.toNat)) (by omega)
      fun d mem => digits d (List.mem_cons_of_mem _ mem)
    rw [Nat.ofDigitChars_cons, ← more, ← Nat.toDigits_append_toDigits (by decide) positive small,
      Nat.toDigits_of_lt_base small, char, List.append_assoc, List.singleton_append]

theorem toDigits_ofDigitChars {c : Char} {cs : List Char} (digits : ∀ d ∈ c :: cs, d.isDigit)
    (nonzero : c ≠ '0') : Nat.toDigits 10 (Nat.ofDigitChars 10 (c :: cs) 0) = c :: cs := by
  obtain ⟨small, char⟩ := digitChar_of_isDigit (digits c List.mem_cons_self)
  have positive : 0 < c.toNat - '0'.toNat := by
    refine Nat.pos_of_ne_zero fun zero => nonzero ?_
    rw [zero] at char
    exact char.symm
  rw [Nat.ofDigitChars_cons, Nat.mul_zero, Nat.zero_add,
    ← toDigits_append positive fun d mem => digits d (List.mem_cons_of_mem _ mem),
    Nat.toDigits_of_lt_base small, char, List.singleton_append]

theorem Digits.not_minus {cs : List Char} {n : Nat} (digits : Digits cs n) : '-' ∉ cs :=
  fun mem => by cases digits.2.1 '-' mem

theorem digits_iff {cs : List Char} {n : Nat} :
    (if cs ≠ [] ∧ cs.all Char.isDigit then some (Nat.ofDigitChars 10 cs 0) else none) = some n ↔
      Digits cs n := by
  rw [Option.ite_none_right_eq_some, List.all_eq_true, Option.some.injEq, and_assoc, eq_comm]
  rfl

theorem integer?_eq_some_iff {cs : List Char} {i : Int} : integer? cs = some i ↔
    (∃ n : Nat, Digits cs n ∧ i = n) ∨ ∃ (ds : List Char) (n : Nat), cs = '-' :: ds ∧
      Digits ds n ∧ i = -n := by
  constructor
  · intro found
    unfold integer? at found
    split at found
    · obtain ⟨n, digits, rfl⟩ := Option.map_eq_some_iff.1 found
      obtain ⟨m, valued, ⟨⟩⟩ := Option.bind_eq_some_iff.1 digits
      exact .inr ⟨_, m, rfl, digits_iff.1 valued, rfl⟩
    · obtain ⟨n, digits, rfl⟩ := Option.map_eq_some_iff.1 found
      exact .inl ⟨n, digits_iff.1 digits, rfl⟩
  · rintro (⟨n, digits, rfl⟩ | ⟨ds, n, rfl, digits, rfl⟩)
    · unfold integer?
      split
      · exact absurd List.mem_cons_self digits.not_minus
      · exact Option.map_eq_some_iff.2 ⟨n, digits_iff.2 digits, rfl⟩
    · exact Option.map_eq_some_iff.2
        ⟨n, Option.bind_eq_some_iff.2 ⟨n, digits_iff.2 digits, rfl⟩, rfl⟩

theorem toInt_ofInt {i : Int} (lower : Int64.minValue.toInt ≤ i)
    (upper : i ≤ Int64.maxValue.toInt) :
    (Int64.ofInt i).toInt = i :=
  Int64.toInt_ofInt_of_le lower (Int.lt_add_one_of_le upper)

theorem WordText.chars {cs : List Char} {a : Atom} (text : WordText cs a) :
    cs ≠ [] ∧ ∀ c ∈ cs, isWordChar c := by
  cases text with
  | unspecified => exact ⟨by decide, List.all_eq_true.1 (by decide)⟩
  | true => exact ⟨by decide, List.all_eq_true.1 (by decide)⟩
  | false => exact ⟨by decide, List.all_eq_true.1 (by decide)⟩
  | natural digits => exact ⟨digits.1, fun c mem => isWordChar_of_isDigit (digits.2.1 c mem)⟩
  | negative digits =>
    refine ⟨by simp, List.forall_mem_cons.2 ⟨by decide, fun c mem => ?_⟩⟩
    exact isWordChar_of_isDigit (digits.2.1 c mem)
  | symbol nonempty all => exact ⟨nonempty, all⟩

theorem ofWord_of_integer {cs : List Char} {i : Int} (found : integer? cs = some i)
    (lower : Int64.minValue.toInt ≤ i) (upper : i ≤ Int64.maxValue.toInt) :
    Atom.ofWord cs = .ok (.int (.ofInt i)) := by
  have none : cs ≠ "None".toList := by
    rintro rfl
    cases found
  have true : cs ≠ "True".toList := by
    rintro rfl
    cases found
  have false : cs ≠ "False".toList := by
    rintro rfl
    cases found
  rw [Atom.ofWord, if_neg none, if_neg true, if_neg false, found]
  simp only [lower, upper, and_self, if_true]

theorem integer?_of_symbol {cs : List Char} (noMinus : '-' ∉ cs)
    (other : ¬ ∀ c ∈ cs, c.isDigit) : integer? cs = none := by
  rw [Option.eq_none_iff_forall_ne_some]
  intro i found
  rcases integer?_eq_some_iff.1 found with ⟨n, digits, -⟩ | ⟨ds, n, rfl, -⟩
  · exact other digits.2.1
  · exact noMinus List.mem_cons_self

theorem WordText.ofWord {cs : List Char} {a : Atom} (text : WordText cs a) :
    Atom.ofWord cs = .ok a := by
  have integer {cs : List Char} {i : Int64} (found : integer? cs = some i.toInt) :
      Atom.ofWord cs = .ok (.int i) := by
    rw [ofWord_of_integer found i.minValue_le_toInt i.toInt_le, Int64.ofInt_toInt]
  cases text with
  | unspecified => rfl
  | true => rfl
  | false => rfl
  | natural digits same => exact integer (integer?_eq_some_iff.2 (.inl ⟨_, digits, same⟩))
  | negative digits same =>
    exact integer (integer?_eq_some_iff.2 (.inr ⟨_, _, rfl, digits, same⟩))
  | symbol nonempty all noMinus other none true false =>
    rw [Atom.ofWord, if_neg none, if_neg true, if_neg false, integer?_of_symbol noMinus other]
    simp only [noMinus, if_false]

theorem ofWord_eq_ok_iff {cs : List Char} {a : Atom} (nonempty : cs ≠ [])
    (all : ∀ c ∈ cs, isWordChar c) : Atom.ofWord cs = .ok a ↔ WordText cs a := by
  refine ⟨fun means => ?_, WordText.ofWord⟩
  unfold Atom.ofWord at means
  split at means
  · next reserved =>
    cases means
    exact reserved ▸ .unspecified
  next none =>
  split at means
  · next reserved =>
    cases means
    exact reserved ▸ .true
  next true =>
  split at means
  · next reserved =>
    cases means
    exact reserved ▸ .false
  next false =>
  split at means
  · next i found =>
    split at means
    · next fits =>
      cases means
      have same := toInt_ofInt fits.1 fits.2
      rcases integer?_eq_some_iff.1 found with ⟨n, digits, eq⟩ | ⟨ds, n, rfl, digits, eq⟩
      · exact .natural digits (same.trans eq)
      · exact .negative digits (same.trans eq)
    · cases means
  · next absent =>
    split at means
    · cases means
    · next noMinus =>
      cases means
      refine .symbol nonempty all noMinus (fun digits => ?_) none true false
      have found := integer?_eq_some_iff.2 (.inl ⟨_, ⟨nonempty, digits, rfl⟩, rfl⟩)
      cases absent.symm.trans found

def Escapes (c d : Char) : Prop :=
  (c, d) ∈ [('\\', '\\'), ('"', '"'), ('\'', '\''), ('n', '\n'), ('t', '\t')]

inductive CharText (quote : Char) : List Char → Char → Prop where
  | plain {c : Char} : c ≠ '\\' → c ≠ quote → CharText quote [c] c
  | escaped {c d : Char} : Escapes c d → CharText quote ['\\', c] d

end FeatureLogic.Grammar
