import FeatureLogic.Description.Reading

/-!
# The grammar as a relation

Which descriptions a text denotes, said without a reader. Blank characters may stand around names,
values, brackets and separators; tags are told apart by number, wherever they were written.
-/

namespace FeatureLogic.Grammar

open Text

def Blank (cs : List Char) : Prop := ∀ c ∈ cs, isBlank c

inductive TagText : List Char → Nat → Prop where
  | mk {a b c d : List Char} (id : Nat) : Blank a → Blank b → Blank c → Blank d →
    TagText (a ++ '(' :: (b ++ Nat.toDigits 10 id ++ c ++ ')' :: d)) id

inductive OptionalTagText : List Char → Option Nat → Prop where
  | none : OptionalTagText [] none
  | some {cs : List Char} {id : Nat} : TagText cs id → OptionalTagText cs (some id)

/-- What stands between quotes, and the characters that it denotes. -/
inductive QuotedText (quote : Char) : List Char → List Char → Prop where
  | nil : QuotedText quote [] []
  | plain {c : Char} {cs ds : List Char} : c ≠ '\\' → c ≠ quote → QuotedText quote cs ds →
    QuotedText quote (c :: cs) (c :: ds)
  | escaped {c d : Char} {cs ds : List Char} :
    (c, d) ∈ [('\\', '\\'), ('"', '"'), ('\'', '\''), ('n', '\n'), ('t', '\t')] →
    QuotedText quote cs ds → QuotedText quote ('\\' :: c :: cs) (d :: ds)

def Digits (cs : List Char) (n : Nat) : Prop :=
  cs ≠ [] ∧ (∀ c ∈ cs, c.isDigit) ∧ n = Nat.ofDigitChars 10 cs 0

inductive WordText : List Char → Atom → Prop where
  | unspecified : WordText "None".toList .unspecified
  | true : WordText "True".toList (.bool true)
  | false : WordText "False".toList (.bool false)
  | natural {cs : List Char} {i : Int64} {n : Nat} : Digits cs n → i.toInt = n →
    WordText cs (.int i)
  | negative {cs : List Char} {i : Int64} {n : Nat} : Digits cs n → i.toInt = -n →
    WordText ('-' :: cs) (.int i)
  | symbol {cs : List Char} : cs ≠ [] → (∀ c ∈ cs, isWordChar c) → '-' ∉ cs →
    (¬ ∀ c ∈ cs, c.isDigit) → cs ≠ "None".toList → cs ≠ "True".toList → cs ≠ "False".toList →
    WordText cs (.str (String.ofList cs))

inductive IdentifierText : List Char → Prop where
  | mk {c : Char} {cs : List Char} : isIdentifierStart c → (∀ c ∈ cs, isIdentifierChar c) →
    IdentifierText (c :: cs)

inductive SeparatorText : Bool → List Char → Prop where
  | first : SeparatorText true []
  | later {a b : List Char} : Blank a → Blank b → SeparatorText false (a ++ ',' :: b)

inductive NameText : List Char → String → Prop where
  | mk {a b cs : List Char} : Blank a → Blank b → cs ≠ [] → (∀ c ∈ cs, isNameChar c) →
    NameText (a ++ cs ++ b) (String.ofList cs)

mutual

inductive ValueText : List Char → Description Nat → Prop where
  | struct {t a b fs c d : List Char} {tag : Option Nat} {features : Features Nat} :
    OptionalTagText t tag → Blank a → Blank b → FeaturesText true fs features → Blank c → Blank d →
    ValueText (t ++ a ++ '[' :: (b ++ fs ++ c ++ ']' :: d)) (.struct tag features)
  | string {quote : Char} {cs ds : List Char} : quote = '"' ∨ quote = '\'' →
    QuotedText quote cs ds →
    ValueText (quote :: (cs ++ [quote])) (.atom (.str (String.ofList ds)))
  | var {cs : List Char} : IdentifierText cs → ValueText ('?' :: cs) (.var (String.ofList cs))
  | word {cs : List Char} {a : Atom} : WordText cs a → ValueText cs (.atom a)

/-- Features with separators between them. The flag tells whether the first one stands first. -/
inductive FeaturesText : Bool → List Char → Features Nat → Prop where
  | nil {first : Bool} : FeaturesText first [] .nil
  | assign {first : Bool} {s n t a b cs rest : List Char} {name : String} {tag : Option Nat}
      {value : Description Nat} {features : Features Nat} :
    SeparatorText first s → NameText n name → OptionalTagText t tag → Blank a → Blank b →
    ValueText cs value → FeaturesText false rest features →
    FeaturesText first (s ++ n ++ t ++ a ++ '=' :: (b ++ cs ++ rest))
      (.assign name tag value features)
  | refer {first : Bool} {s n a t rest : List Char} {name : String} {id : Nat}
      {features : Features Nat} :
    SeparatorText first s → NameText n name → Blank a → TagText t id →
    FeaturesText false rest features →
    FeaturesText first (s ++ n ++ '-' :: '>' :: (a ++ t ++ rest)) (.refer name id features)

end

def Denotes (text : List Char) (d : Description Nat) : Prop :=
  ∃ a cs b, text = a ++ cs ++ b ∧ Blank a ∧ ValueText cs d ∧ Blank b

theorem blank_nil : Blank [] := fun _ h => nomatch h

theorem Denotes.padded {text before after : List Char} {d : Description Nat}
    (h : Denotes text d) (hb : Blank before) (ha : Blank after) :
    Denotes (before ++ text ++ after) d := by
  obtain ⟨a, cs, b, rfl, blankA, value, blankB⟩ := h
  refine ⟨before ++ a, cs, b ++ after, by simp, ?_, value, ?_⟩
  · exact fun c hc => (List.mem_append.1 hc).elim (hb c) (blankA c)
  · exact fun c hc => (List.mem_append.1 hc).elim (blankB c) (ha c)

end FeatureLogic.Grammar
