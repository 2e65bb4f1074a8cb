import FeatureLogic.Proofs.Description.Words
import FeatureLogic.Proofs.Text.Stopping

/-!
# What is read is denoted

Whatever description is read from a text, the text denotes it by the rules of the grammar. Every
reader follows the language of its part of the grammar, which says as well that it stops only behind
what begins a text of that language.
-/

namespace FeatureLogic

open Text Text.Reader Grammar

namespace Grammar

variable {v : Reader (Description Tag)}

theorem follows_number : Follows number fun cs ds =>
    ds = cs ∧ Nat.toDigits 10 (Nat.ofDigitChars 10 ds 0) = cs := by
  refine Follows.orElse ?_ ?_
  · have digits := (follows_satisfy (fun c => c.isDigit && c != '0') ⟨'1', by decide⟩).andThen
      (follows_satisfy Char.isDigit ⟨'0', by decide⟩).many
    refine digits.map ?_
    rintro _ ⟨d, ds⟩ ⟨_, es, rfl, ⟨first, rfl⟩, pieces⟩
    obtain ⟨rfl, others⟩ := pieces.of_chars
    simp only [Bool.and_eq_true, bne_iff_ne, ne_eq] at first
    exact ⟨rfl, toDigits_ofDigitChars (List.forall_mem_cons.2 ⟨first.1, others⟩) first.2⟩
  · refine (follows_expect '0').map ?_
    rintro _ c ⟨rfl, rfl⟩
    exact ⟨rfl, rfl⟩

theorem follows_token (x : Char) : Follows (expect x).padded fun cs _ =>
    ∃ a b, cs = a ++ x :: b ∧ Blank a ∧ Blank b := by
  refine (follows_expect x).padded.imp ?_
  rintro _ _ ⟨a, _, b, rfl, front, ⟨rfl, -⟩, back⟩
  exact ⟨a, b, by simp, front, back⟩

theorem follows_tag : Follows tag fun cs t => TagText cs t.id := by
  have body := ((follows_token '(').before (follows_number.labelled .identifier)).followedBy
    (follows_token ')')
  refine body.located.map ?_
  rintro _ ⟨ds, i, j⟩ ⟨_, _, _, rfl, ⟨_, _, _, rfl, ⟨a, b, rfl, ha, hb⟩, rfl, digits⟩, c, d, rfl,
    hc, hd⟩
  have text := TagText.mk (Nat.ofDigitChars 10 ds 0) ha hb hc hd
  rw [digits] at text
  simpa using text

theorem follows_optionalTag :
    Follows tag.optional fun cs t => OptionalTagText cs (t.map Tag.id) := by
  refine follows_tag.optional.imp ?_
  rintro cs t (⟨rfl, rfl⟩ | ⟨tag, rfl, text⟩)
  · exact .none
  · exact .some text

theorem follows_name : Follows name NameText := by
  have chars : Follows ((many1 (satisfy isNameChar)).map String.ofList) fun cs s =>
      cs ≠ [] ∧ (∀ c ∈ cs, isNameChar c) ∧ s = String.ofList cs := by
    refine (follows_satisfy isNameChar ⟨'a', by decide⟩).many1.map ?_
    rintro cs ds ⟨nonempty, pieces⟩
    obtain ⟨rfl, all⟩ := pieces.of_chars
    exact ⟨nonempty, all, rfl⟩
  refine (chars.padded.imp ?_).labelled .name
  rintro _ _ ⟨a, cs, b, rfl, ha, ⟨nonempty, all, rfl⟩, hb⟩
  exact .mk ha hb nonempty all

theorem follows_escaped : Follows escaped fun cs d => ∃ c, cs = ['\\', c] ∧ Escapes c d := by
  have itself {x : Char} (listed : Escapes x x) :
      Follows (expect x) fun cs d => ∃ c, cs = [c] ∧ Escapes c d := by
    refine (follows_expect x).imp ?_
    rintro _ d ⟨rfl, rfl⟩
    exact ⟨d, rfl, listed⟩
  have other {x d : Char} (listed : Escapes x d) :
      Follows ((expect x).map fun _ => d) fun cs d => ∃ c, cs = [c] ∧ Escapes c d := by
    refine (follows_expect x).map ?_
    rintro _ c ⟨rfl, -⟩
    exact ⟨x, rfl, listed⟩
  have named := (itself (x := '\\') (by simp [Escapes])).orElse <|
    (itself (x := '"') (by simp [Escapes])).orElse <|
      (itself (x := '\'') (by simp [Escapes])).orElse <|
        (other (x := 'n') (d := '\n') (by simp [Escapes])).orElse
          (other (x := 't') (d := '\t') (by simp [Escapes]))
  refine ((follows_expect '\\').before named).imp ?_
  rintro _ d ⟨_, _, _, rfl, ⟨rfl, -⟩, c, rfl, listed⟩
  exact ⟨c, rfl, listed⟩

theorem quotedText_of_pieces {quote : Char} {cs ds : List Char}
    (pieces : Pieces (CharText quote) cs ds) : QuotedText quote cs ds := by
  induction pieces with
  | nil => exact .nil
  | cons piece _ ih =>
    cases piece with
    | plain notSlash notQuote => exact .plain notSlash notQuote ih
    | escaped listed => exact .escaped listed ih

theorem follows_quoted (quote : Char) : Follows (quoted quote) fun cs ds =>
    ∃ es, cs = quote :: (es ++ [quote]) ∧ QuotedText quote es ds := by
  have char : Follows ((satisfy fun c => c != '\\' && c != quote).orElse escaped)
      (CharText quote) := by
    refine Follows.orElse ((follows_satisfy _ ?inhabited).imp ?plain) (follows_escaped.imp ?escaped)
    case inhabited =>
      rcases eq_or_ne quote 'a' with rfl | other
      · exact ⟨'b', by decide⟩
      · exact ⟨'a', by simp [other.symm]⟩
    case plain =>
      rintro cs d ⟨plain, rfl⟩
      simp only [Bool.and_eq_true, bne_iff_ne, ne_eq] at plain
      exact .plain plain.1 plain.2
    case escaped =>
      rintro _ d ⟨c, rfl, listed⟩
      exact .escaped listed
  refine (((follows_expect quote).before char.many).followedBy (follows_expect quote)).imp ?_
  rintro _ ds ⟨_, _, _, rfl, ⟨_, es, _, rfl, ⟨rfl, -⟩, pieces⟩, rfl, -⟩
  exact ⟨es, by simp, quotedText_of_pieces pieces⟩

theorem follows_string : Follows string fun cs d => ValueText cs (d.map Tag.id) := by
  have either : Follows ((quoted '"').orElse (quoted '\'')) fun cs ds => ∃ quote es,
      (quote = '"' ∨ quote = '\'') ∧ cs = quote :: (es ++ [quote]) ∧ QuotedText quote es ds :=
    ((follows_quoted '"').imp fun cs ds ⟨es, eq, text⟩ => ⟨'"', es, .inl rfl, eq, text⟩).orElse
      ((follows_quoted '\'').imp fun cs ds ⟨es, eq, text⟩ => ⟨'\'', es, .inr rfl, eq, text⟩)
  refine (either.map ?_).labelled .string
  rintro _ ds ⟨quote, es, isQuote, rfl, text⟩
  exact .string isQuote text

theorem follows_var : Follows var fun cs d => ValueText cs (d.map Tag.id) := by
  have identifier := (follows_satisfy isIdentifierStart ⟨'a', by decide⟩).andThen
    (follows_satisfy isIdentifierChar ⟨'a', by decide⟩).many
  refine (((follows_expect '?').before identifier).map ?_).labelled .variable
  rintro _ ⟨c, ds⟩ ⟨_, _, _, rfl, ⟨rfl, -⟩, _, es, rfl, ⟨start, rfl⟩, pieces⟩
  obtain ⟨rfl, all⟩ := pieces.of_chars
  exact .var (.mk start all)

theorem follows_word : Follows word fun cs d => ValueText cs (d.map Tag.id) := by
  have chars := (follows_satisfy isWordChar ⟨'a', by decide⟩).many1
  refine ((chars.check (undivided_many1_satisfy isWordChar) ?passing).map ?denotes).labelled .value
  case passing =>
    have piece : Pieces (fun cs c => isWordChar c ∧ cs = [c]) ['a'] ['a'] :=
      .single ⟨by decide, rfl⟩
    exact ⟨['a'], ['a'], .str "a", ⟨by decide, piece⟩, rfl⟩
  case denotes =>
    rintro cs a ⟨ds, ⟨nonempty, pieces⟩, means⟩
    obtain ⟨rfl, all⟩ := pieces.of_chars
    exact .word ((ofWord_eq_ok_iff nonempty all).1 means)

inductive BodyText : List Char → FeatureBody Tag → Prop where
  | assign {t a b cs : List Char} {tag : Option Tag} {d : Description Tag} :
    OptionalTagText t (tag.map Tag.id) → Blank a → Blank b → ValueText cs (d.map Tag.id) →
    BodyText (t ++ a ++ '=' :: (b ++ cs)) (.assign tag d)
  | refer {a b t : List Char} {tag : Tag} : Blank a → Blank b → TagText t tag.id →
    BodyText (a ++ '-' :: '>' :: (b ++ t)) (.refer tag)

def FeatureText (cs : List Char) (r : String × FeatureBody Tag) : Prop :=
  ∀ {first s rest as}, SeparatorText first s →
    FeaturesText false rest ((Features.ofList as).map Tag.id) →
    FeaturesText first (s ++ cs ++ rest) ((Features.ofList (r :: as)).map Tag.id)

theorem NameText.append {n a : List Char} {name : String} (named : NameText n name)
    (blank : Blank a) : NameText (n ++ a) name := by
  obtain ⟨front, back, nonempty, all⟩ := named
  rw [List.append_assoc]
  exact .mk front (fun c mem => (List.mem_append.1 mem).elim (back c) (blank c)) nonempty all

theorem featureText_of_body {n cs : List Char} {r : String × FeatureBody Tag}
    (named : NameText n r.1) (body : BodyText cs r.2) : FeatureText (n ++ cs) r := by
  obtain ⟨name, body'⟩ := r
  intro first s rest as separator others
  cases body with
  | assign tagged front back text =>
    have whole := FeaturesText.assign separator named tagged front back text others
    simpa [Features.ofList, Features.map] using whole
  | refer front back text =>
    have whole := FeaturesText.refer separator (named.append front) back text others
    simpa [Features.ofList, Features.map] using whole

theorem follows_feature (values : Follows v fun cs d => ValueText cs (d.map Tag.id)) :
    Follows (feature v) FeatureText := by
  have arrow : Follows ((expect '-').before (expect '>')).padded fun cs _ =>
      ∃ a b, cs = a ++ '-' :: '>' :: b ∧ Blank a ∧ Blank b := by
    refine ((follows_expect '-').before (follows_expect '>')).padded.imp ?_
    rintro _ _ ⟨a, _, b, rfl, front, ⟨_, _, _, rfl, ⟨rfl, -⟩, rfl, -⟩, back⟩
    exact ⟨a, b, by simp, front, back⟩
  have refer : Follows ((((expect '-').before (expect '>')).padded.before tag).map .refer)
      BodyText := by
    refine (arrow.before follows_tag).map ?_
    rintro _ tag ⟨_, t, _, rfl, ⟨a, b, rfl, front, back⟩, text⟩
    simpa using BodyText.refer front back text
  have assign : Follows ((((optional tag).followedBy (expect '=').padded).andThen v).map fun r =>
      .assign r.1 r.2) BodyText := by
    refine ((follows_optionalTag.followedBy (follows_token '=')).andThen values).map ?_
    rintro _ ⟨tag, d⟩ ⟨_, cs, rfl, ⟨t, _, _, rfl, tagged, a, b, rfl, front, back⟩, text⟩
    simpa using BodyText.assign tagged front back text
  refine (follows_name.andThen (refer.orElse assign)).imp ?_
  rintro _ r ⟨n, cs, rfl, named, body⟩
  exact featureText_of_body named body

theorem featuresText_of_pieces {cs : List Char} {as : List (String × FeatureBody Tag)}
    (pieces : Pieces (Separated FeatureText fun s (_ : Char) =>
      ∃ a b, s = a ++ ',' :: b ∧ Blank a ∧ Blank b) cs as) :
    FeaturesText false cs ((Features.ofList as).map Tag.id) := by
  induction pieces with
  | nil => exact .nil
  | cons piece _ ih =>
    obtain ⟨_, t, _, rfl, ⟨a, b, rfl, front, back⟩, text⟩ := piece
    exact text (.later front back) ih

theorem follows_features (values : Follows v fun cs d => ValueText cs (d.map Tag.id)) :
    Follows ((feature v).separatedBy (expect ',').padded) fun cs as =>
      FeaturesText true cs ((Features.ofList as).map Tag.id) := by
  refine ((follows_feature values).separatedBy (follows_token ',')).imp ?_
  rintro _ _ (⟨rfl, rfl⟩ | ⟨cs, rest, r, as, rfl, rfl, text, pieces⟩)
  · exact .nil
  · exact text .first (featuresText_of_pieces pieces)

theorem follows_struct (values : Follows v fun cs d => ValueText cs (d.map Tag.id)) :
    Follows (struct v) fun cs d => ValueText cs (d.map Tag.id) := by
  have body := ((follows_token '[').before (follows_features values)).followedBy (follows_token ']')
  refine (follows_optionalTag.andThen body).map ?_
  rintro _ ⟨tag, as⟩ ⟨t, _, rfl, tagged, _, _, _, rfl, ⟨_, fs, _, rfl, ⟨a, b, rfl, ha, hb⟩, text⟩,
    c, d, rfl, hc, hd⟩
  simpa [Description.map] using ValueText.struct tagged ha hb text hc hd

theorem follows_value (depth : Nat) :
    Follows (value depth) fun cs d => ValueText cs (d.map Tag.id) := by
  induction depth with
  | zero =>
    have inhabited : ∃ (cs : List Char) (d : Description Tag), ValueText cs (d.map Tag.id) :=
      ⟨_, .atom .unspecified, .word .unspecified⟩
    refine ⟨?takes, inhabited, nofun, ?rejected⟩
    case takes =>
      intro c a kept c' accepted
      cases accepted
    case rejected =>
      rintro c _ ⟨⟩
      exact .here c inhabited
  | succ depth ih =>
    exact (((follows_struct ih).orElse follows_string).orElse follows_var).orElse follows_word

end Grammar

/-- A text denotes whatever description is read from it. -/
theorem Description.denotes_of_read {text : String} {d : Description Tag}
    (accepted : read text = .ok d) : Grammar.Denotes text.toList (d.map Tag.id) := by
  unfold read at accepted
  split at accepted
  · next kept c' whole =>
    cases accepted
    obtain ⟨a, cs, b, eq, front, text, back⟩ := (follows_value _).padded.takes.whole whole
    exact ⟨a, cs, b, eq, front, text, back⟩
  · cases accepted

end FeatureLogic
