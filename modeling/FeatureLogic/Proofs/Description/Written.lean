import FeatureLogic.Proofs.Description.Completeness

/-!
# Descriptions are read as they were written

The text of a description whose names can be written denotes that description, with the numbers of
its tags, so that it is read back.
-/

namespace FeatureLogic

open Text

namespace Grammar

def IsName (name : String) : Prop := name.toList ≠ [] ∧ ∀ c ∈ name.toList, isNameChar c

def IsIdentifier (name : String) : Prop := IdentifierText name.toList

instance (name : String) : Decidable (IsName name) :=
  decidable_of_iff (name.toList ≠ [] ∧ name.toList.all isNameChar) (by simp [IsName])

theorem identifierText_iff {cs : List Char} :
    IdentifierText cs ↔ cs.head?.any isIdentifierStart ∧ cs.tail.all isIdentifierChar := by
  constructor
  · rintro ⟨start, all⟩
    exact ⟨start, List.all_eq_true.2 all⟩
  · rintro ⟨start, all⟩
    cases cs with
    | nil => cases start
    | cons c cs => exact .mk start (List.all_eq_true.1 all)

instance (name : String) : Decidable (IsIdentifier name) :=
  decidable_of_iff' _ identifierText_iff

end Grammar

open Grammar

mutual

def Description.Spelled (P Q : String → Prop) : Description Nat → Prop
  | .atom _ => True
  | .var name => Q name
  | .struct _ features => features.Spelled P Q

def Features.Spelled (P Q : String → Prop) : Features Nat → Prop
  | .nil => True
  | .assign name _ value rest => P name ∧ value.Spelled P Q ∧ rest.Spelled P Q
  | .refer name _ rest => P name ∧ rest.Spelled P Q

end

namespace Grammar

def separatorWritten : Bool → List Char
  | true => []
  | false => [',', ' ']

theorem separatorText (first : Bool) : SeparatorText first (separatorWritten first) := by
  cases first with
  | true => exact .first
  | false =>
    have space : Blank [' '] := List.forall_mem_singleton.2 (by decide)
    exact SeparatorText.later blank_nil space

theorem tagText (id : Nat) : TagText (tagWritten id) id := by
  have text := TagText.mk id blank_nil blank_nil blank_nil blank_nil
  rwa [List.nil_append, List.nil_append, List.append_nil] at text

theorem optionalTagText (tag : Option Nat) : OptionalTagText (tagWritten? tag) tag := by
  cases tag with
  | none => exact .none
  | some id => exact .some (tagText id)

theorem nameText {name : String} (good : IsName name) : NameText name.toList name := by
  have text := NameText.mk blank_nil blank_nil good.1 good.2
  rwa [List.nil_append, List.append_nil, String.ofList_toList] at text

theorem QuotedText.escape {cs ds : List Char} (c : Char) (text : QuotedText '"' cs ds) :
    QuotedText '"' (Atom.escape c ++ cs) (c :: ds) := by
  unfold Atom.escape
  split_ifs with quote backslash newline tab
  · exact .escaped (by simp [quote]) text
  · exact .escaped (by simp [backslash]) text
  · exact .escaped (by simp [newline]) text
  · exact .escaped (by simp [tab]) text
  · exact .plain backslash quote text

theorem quotedText (cs : List Char) : QuotedText '"' (cs.flatMap Atom.escape) cs := by
  induction cs with
  | nil => exact .nil
  | cons c cs ih => exact ih.escape c

theorem digits_toDigits (n : Nat) : Digits (Nat.toDigits 10 n) n :=
  ⟨Nat.toDigits_ne_nil, fun _ => isDigit_toDigits,
    (Nat.ofDigitChars_toDigits (by decide) (by decide)).symm⟩

theorem wordText_decimal (i : Int64) : WordText (Atom.decimal i.toInt) (.int i) := by
  unfold Atom.decimal
  split
  · exact .negative (digits_toDigits i.toInt.natAbs) (by omega)
  · exact .natural (digits_toDigits i.toInt.natAbs) (by omega)

theorem valueText_atom (a : Atom) : ValueText a.written (.atom a) := by
  cases a with
  | unspecified => exact .word .unspecified
  | bool b =>
    cases b with
    | true => exact .word .true
    | false => exact .word .false
  | int i => exact .word (wordText_decimal i)
  | str s =>
    have text := ValueText.string (.inl rfl) (quotedText s.toList)
    rwa [String.ofList_toList] at text

theorem valueText_var {name : String} (good : IsIdentifier name) :
    ValueText ('?' :: name.toList) (.var name) := by
  have text := ValueText.var good
  rwa [String.ofList_toList] at text

end Grammar

mutual

/-- The text of a description denotes it. -/
theorem Description.valueText {d : Description Nat} (good : d.Spelled IsName IsIdentifier) :
    ValueText d.written d := by
  match d with
  | .atom a => exact valueText_atom a
  | .var name => exact valueText_var good
  | .struct tag features =>
    have text := ValueText.struct (optionalTagText tag) blank_nil blank_nil
      (features.featuresText good true) blank_nil blank_nil
    simpa [Description.written, separatorWritten] using text

theorem Features.featuresText {features : Features Nat}
    (good : features.Spelled IsName IsIdentifier) (first : Bool) :
    FeaturesText first (features.written (separatorWritten first)) features := by
  match features with
  | .nil => exact .nil
  | .assign name tag d others =>
    obtain ⟨named, described, writable⟩ := good
    have text := FeaturesText.assign (separatorText first) (nameText named) (optionalTagText tag)
      blank_nil blank_nil (Description.valueText described) (others.featuresText writable false)
    simpa [Features.written, separatorWritten] using text
  | .refer name id others =>
    obtain ⟨named, writable⟩ := good
    have text := FeaturesText.refer (separatorText first) (nameText named) blank_nil (tagText id)
      (others.featuresText writable false)
    simpa [Features.written, separatorWritten] using text

end

namespace Description

/-- A description is read from its text. -/
theorem read_written {d : Description Nat} (good : d.Spelled IsName IsIdentifier) :
    ∃ d', read (String.ofList d.written) = .ok d' ∧ d'.map Tag.id = d := by
  refine exists_read_of_denotes ⟨[], d.written, [], ?_, blank_nil, valueText good, blank_nil⟩
  rw [String.toList_ofList, List.nil_append, List.append_nil]

end Description

end FeatureLogic
