import FeatureLogic.Proofs.Description.Written

/-!
# Descriptions are told apart by their texts

No two descriptions have the same text, also when names of features hold commas, so that the text
is not read as what it was written for. Every part shows where it ends: a name is followed by one
of the characters that it does not hold, and a value by a comma or a bracket.
-/

namespace FeatureLogic

open Text Text.Reader

namespace Grammar

/-- Blanks, brackets, quotes and the characters that follow a name are not clear. -/
def isClearChar (c : Char) : Bool := !isBlank c && !"()[]\"'=-".toList.contains c

/-- Can a name be told from what is written behind it? -/
def IsClear (name : String) : Prop := name.toList ≠ [] ∧ ∀ c ∈ name.toList, isClearChar c

instance (name : String) : Decidable (IsClear name) :=
  decidable_of_iff (name.toList ≠ [] ∧ name.toList.all isClearChar) (by simp [IsClear])

variable {cs rest rest' : List Char}

theorem IsClear.unique {name name' : String} (clear : IsClear name) (clear' : IsClear name')
    (stops : Avoids isClearChar rest) (stops' : Avoids isClearChar rest')
    (same : name.toList ++ rest = name'.toList ++ rest') : name = name' ∧ rest = rest' := by
  obtain ⟨chars, left⟩ :=
    (reads_many_satisfy clear.2 stops).unique (reads_many_satisfy clear'.2 stops') same
  exact ⟨String.toList_injective chars, left⟩

theorem tagWritten_unique {id id' : Nat} (same : tagWritten id ++ rest = tagWritten id' ++ rest') :
    id = id' ∧ rest = rest' := by
  have digits (n : Nat) (rest : List Char) :
      Reads number (· = Nat.toDigits 10 n) (Nat.toDigits 10 n) (')' :: rest) :=
    reads_number n (avoids_cons.2 (by decide))
  obtain ⟨eq, left⟩ := (digits id rest).unique (digits id' rest') (by
    simpa [tagWritten] using same)
  have value (n : Nat) : Nat.ofDigitChars 10 (Nat.toDigits 10 n) 0 = n :=
    Nat.ofDigitChars_toDigits (by decide) (by decide)
  exact ⟨by rw [← value id, eq, value id'], (List.cons.inj left).2⟩

theorem tagWritten?_unique {tag tag' : Option Nat} (untagged : Avoids (· = '(') rest)
    (untagged' : Avoids (· = '(') rest')
    (same : tagWritten? tag ++ rest = tagWritten? tag' ++ rest') : tag = tag' ∧ rest = rest' := by
  cases tag with
  | none =>
    cases tag' with
    | none => exact ⟨rfl, same⟩
    | some id' =>
      rw [show rest = '(' :: _ from same] at untagged
      cases avoids_cons.1 untagged
  | some id =>
    cases tag' with
    | none =>
      rw [show rest' = '(' :: _ from same.symm] at untagged'
      cases avoids_cons.1 untagged'
    | some id' =>
      obtain ⟨rfl, left⟩ := tagWritten_unique same
      exact ⟨rfl, left⟩

/-- What is no structure is read as it stands, and does not start as a structure does. -/
theorem ValueText.reads {d : Description Nat} (text : ValueText cs d)
    (leaf : ∀ tag features, d ≠ .struct tag features) :
    (∃ c cs', cs = c :: cs' ∧ c ≠ '(' ∧ c ≠ '[') ∧ ∃ d' : Description Tag, d'.map Tag.id = d ∧
      ∀ {rest}, Ends (trimmed rest) → Reads (value 1) (· = d') cs rest := by
  cases text with
  | struct => exact absurd rfl (leaf _ _)
  | @string quote es ds isQuote quoted =>
    refine ⟨⟨quote, es ++ [quote], rfl, ?_⟩, .atom (.str (String.ofList ds)), rfl,
      fun ends => reads_value_string 0 isQuote quoted⟩
    rcases isQuote with rfl | rfl <;> decide
  | @var es identifier =>
    exact ⟨⟨'?', es, rfl, by decide⟩, .var (String.ofList es), rfl,
      fun ends => reads_value_identifier 0 identifier ends⟩
  | @word _ a word =>
    refine ⟨?_, .atom a, rfl, fun ends => reads_value_word 0 word ends⟩
    obtain ⟨nonempty, chars⟩ := word.chars
    obtain ⟨c, cs', rfl⟩ := List.exists_cons_of_ne_nil nonempty
    have char := chars c List.mem_cons_self
    refine ⟨c, cs', rfl, ?_, ?_⟩ <;> rintro rfl <;> cases char

theorem Ends.trimmed (ends : Ends rest) : Ends (trimmed rest) := by
  rwa [trimmed_of_avoids (ends.avoids (by decide) (by decide))]

theorem IsClear.ne_closing {name : String} (clear : IsClear name) (first : Bool) :
    separatorWritten first ++ (name.toList ++ rest) ≠ ']' :: rest' := by
  obtain ⟨nonempty, chars⟩ := clear
  obtain ⟨c, cs, eq⟩ := List.exists_cons_of_ne_nil nonempty
  rw [eq] at chars ⊢
  intro same
  cases first with
  | true =>
    cases same
    cases chars _ List.mem_cons_self
  | false => cases same

theorem avoids_tagWritten? {p : Char → Bool} (tag : Option Nat) (bracket : p '(' = false)
    (avoids : Avoids p rest) : Avoids p (tagWritten? tag ++ rest) := by
  cases tag with
  | none => exact avoids
  | some id => exact avoids_cons.2 bracket

end Grammar

open Grammar

section Names

variable {rest rest' : List Char}

theorem Features.ends_written (features : Features Nat) (rest : List Char) :
    Ends (features.written (separatorWritten false) ++ ']' :: rest) := by
  cases features <;> exact avoids_cons.2 (by decide)

theorem Description.written_struct (tag : Option Nat) (features : Features Nat) :
    (Description.struct tag features).written ++ rest =
      tagWritten? tag ++ '[' :: (features.written (separatorWritten true) ++ ']' :: rest) := by
  simp [Description.written, separatorWritten]

theorem Features.written_assign (first : Bool) (name : String) (tag : Option Nat)
    (d : Description Nat) (others : Features Nat) :
    (Features.assign name tag d others).written (separatorWritten first) ++ rest =
      separatorWritten first ++ (name.toList ++ (tagWritten? tag ++ '=' ::
        (d.written ++ (others.written (separatorWritten false) ++ rest)))) := by
  simp [Features.written, separatorWritten]

theorem Features.written_refer (first : Bool) (name : String) (id : Nat) (others : Features Nat) :
    (Features.refer name id others).written (separatorWritten first) ++ rest =
      separatorWritten first ++ (name.toList ++ '-' :: '>' ::
        (tagWritten id ++ (others.written (separatorWritten false) ++ rest))) := by
  simp [Features.written, separatorWritten]

theorem Description.unique_of_leaf {d d' : Description Nat}
    (clear : d.Spelled IsClear IsIdentifier) (clear' : d'.Spelled IsClear IsIdentifier)
    (leaf : ∀ tag features, d ≠ .struct tag features) (ends : Ends rest) (ends' : Ends rest')
    (same : d.written ++ rest = d'.written ++ rest') : d = d' ∧ rest = rest' := by
  have text {d : Description Nat} (clear : d.Spelled IsClear IsIdentifier)
      (leaf : ∀ tag features, d ≠ .struct tag features) : ValueText d.written d := by
    cases d with
    | atom a => exact valueText_atom a
    | var name => exact valueText_var clear
    | struct tag features => exact absurd rfl (leaf tag features)
  obtain ⟨starts, e, rfl, reads⟩ := (text clear leaf).reads leaf
  cases shape : d' with
  | struct tag features =>
    obtain ⟨c, cs, eq, unopened, unopened'⟩ := starts
    rw [shape, eq] at same
    cases tag with
    | none => exact absurd (List.cons.inj same).1 unopened'
    | some id => exact absurd (List.cons.inj same).1 unopened
  | _ =>
    have leaf' : ∀ tag features, d' ≠ .struct tag features := by simp [shape]
    obtain ⟨-, e', eq, reads'⟩ := (text clear' leaf').reads leaf'
    obtain ⟨rfl, left⟩ := (reads ends.trimmed).unique (reads' ends'.trimmed) same
    exact ⟨shape ▸ eq, left⟩

mutual

theorem Description.unique {d d' : Description Nat} {rest rest' : List Char}
    (clear : d.Spelled IsClear IsIdentifier) (clear' : d'.Spelled IsClear IsIdentifier)
    (ends : Ends rest) (ends' : Ends rest')
    (same : d.written ++ rest = d'.written ++ rest') : d = d' ∧ rest = rest' := by
  match d, d' with
  | .struct tag features, .struct tag' features' =>
    have unopened (cs : List Char) : Avoids (· = '(') ('[' :: cs) := avoids_cons.2 (by decide)
    rw [Description.written_struct, Description.written_struct] at same
    obtain ⟨rfl, inner⟩ := tagWritten?_unique (unopened _) (unopened _) same
    obtain ⟨rfl, left⟩ := features.unique clear clear' (List.cons.inj inner).2
    exact ⟨rfl, left⟩
  | .atom a, d' => exact Description.unique_of_leaf clear clear' nofun ends ends' same
  | .var name, d' => exact Description.unique_of_leaf clear clear' nofun ends ends' same
  | .struct tag features, .atom a =>
    obtain ⟨eq, left⟩ := Description.unique_of_leaf clear' clear nofun ends' ends same.symm
    exact ⟨eq.symm, left.symm⟩
  | .struct tag features, .var name =>
    obtain ⟨eq, left⟩ := Description.unique_of_leaf clear' clear nofun ends' ends same.symm
    exact ⟨eq.symm, left.symm⟩

theorem Features.unique {features features' : Features Nat} {first : Bool}
    {rest rest' : List Char} (clear : features.Spelled IsClear IsIdentifier)
    (clear' : features'.Spelled IsClear IsIdentifier)
    (same : features.written (separatorWritten first) ++ ']' :: rest =
      features'.written (separatorWritten first) ++ ']' :: rest') :
    features = features' ∧ rest = rest' := by
  have stops (tag : Option Nat) (cs : List Char) :
      Avoids isClearChar (tagWritten? tag ++ '=' :: cs) :=
    avoids_tagWritten? tag (by decide) (avoids_cons.2 (by decide))
  have stops' (cs : List Char) : Avoids isClearChar ('-' :: cs) := avoids_cons.2 (by decide)
  match features, features' with
  | .nil, .nil => exact ⟨rfl, (List.cons.inj same).2⟩
  | .nil, .assign name tag d others =>
    rw [Features.written_assign] at same
    exact absurd same.symm (clear'.1.ne_closing first)
  | .nil, .refer name id others =>
    rw [Features.written_refer] at same
    exact absurd same.symm (clear'.1.ne_closing first)
  | .assign name tag d others, .nil =>
    rw [Features.written_assign] at same
    exact absurd same (clear.1.ne_closing first)
  | .refer name id others, .nil =>
    rw [Features.written_refer] at same
    exact absurd same (clear.1.ne_closing first)
  | .assign name tag d others, .assign name' tag' d' others' =>
    obtain ⟨named, described, more⟩ := clear
    obtain ⟨named', described', more'⟩ := clear'
    have untagged (cs : List Char) : Avoids (· = '(') ('=' :: cs) := avoids_cons.2 (by decide)
    rw [Features.written_assign, Features.written_assign] at same
    obtain ⟨rfl, behind⟩ := named.unique named' (stops tag _) (stops tag' _)
      (List.append_cancel_left same)
    obtain ⟨rfl, value⟩ := tagWritten?_unique (untagged _) (untagged _) behind
    obtain ⟨rfl, next⟩ := d.unique described described' (others.ends_written _)
      (others'.ends_written _) (List.cons.inj value).2
    obtain ⟨rfl, left⟩ := others.unique more more' next
    exact ⟨rfl, left⟩
  | .refer name id others, .refer name' id' others' =>
    obtain ⟨named, more⟩ := clear
    obtain ⟨named', more'⟩ := clear'
    rw [Features.written_refer, Features.written_refer] at same
    obtain ⟨rfl, behind⟩ := named.unique named' (stops' _) (stops' _)
      (List.append_cancel_left same)
    obtain ⟨rfl, next⟩ := tagWritten_unique (List.cons.inj (List.cons.inj behind).2).2
    obtain ⟨rfl, left⟩ := others.unique more more' next
    exact ⟨rfl, left⟩
  | .assign name tag d others, .refer name' id' others' =>
    rw [Features.written_assign, Features.written_refer] at same
    obtain ⟨-, behind⟩ := clear.1.unique clear'.1 (stops tag _) (stops' _)
      (List.append_cancel_left same)
    cases tag <;> cases behind
  | .refer name id others, .assign name' tag' d' others' =>
    rw [Features.written_refer, Features.written_assign] at same
    obtain ⟨-, behind⟩ := clear.1.unique clear'.1 (stops' _) (stops tag' _)
      (List.append_cancel_left same)
    cases tag' <;> cases behind

end

end Names

end FeatureLogic
