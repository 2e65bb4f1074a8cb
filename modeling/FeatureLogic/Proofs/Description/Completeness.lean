import FeatureLogic.Proofs.Description.Lexemes
import FeatureLogic.Proofs.Description.Soundness

/-!
# What is denoted is read

A text that denotes a description by the rules of the grammar is read as that description, with the
numbers of its tags. The rules leave open to which side blanks between two parts belong; a reader
takes all that it comes to. So every part is read up to the blanks around it.
-/

namespace FeatureLogic

open Text Text.Reader

namespace Grammar

variable {v : Reader (Description Tag)} {Q : Description Tag → Prop}
  {s t u rest tail : List Char}

def Ends (rest : List Char) : Prop := Avoids (fun c => c != ',' && c != ']') rest

theorem Ends.avoids {p : Char → Bool} (ends : Ends rest) (comma : p ',' = false)
    (bracket : p ']' = false) : Avoids p rest := by
  intro c mem
  have cases : c = ',' ∨ c = ']' := by
    have := ends c mem
    simpa [Classical.or_iff_not_imp_left] using this
  rcases cases with rfl | rfl
  · exact comma
  · exact bracket

theorem Ends.avoids_of_trimmed {p : Char → Bool} (ends : Ends (trimmed rest))
    (comma : p ',' = false) (bracket : p ']' = false) (visible : ∀ c, p c → isBlank c = false) :
    Avoids p rest :=
  Text.avoids_of_trimmed visible (ends.avoids comma bracket)

theorem rejects_struct (starts : Avoids isBlank s) (untagged : Avoids (· = '(') s)
    (unbracketed : Avoids (· = '[') s) : Rejects (struct v) s := by
  rw [← trimmed_of_avoids starts] at untagged unbracketed
  have tags := (rejects_tag_of_trimmed untagged).optional
  have body : Rejects ((((expect '[').padded).before
      ((feature v).separatedBy (expect ',').padded)).followedBy (expect ']').padded) s :=
    (rejects_token unbracketed).before.followedBy
  exact (tags.andThen_rejects body).map

theorem rejects_string (double : Avoids (· = '"') s) (single : Avoids (· = '\'') s) :
    Rejects string s :=
  (((rejects_expect double).before.followedBy.orElse
    (rejects_expect single).before.followedBy).map).labelled .string

theorem rejects_var (unmarked : Avoids (· = '?') s) : Rejects var s :=
  ((rejects_expect unmarked).before.map).labelled .variable

theorem consumes_assign {n t a b cs : List Char} {name : String} {tag : Option Nat}
    (named : NameText n name) (tagged : OptionalTagText t tag) (ha : Blank a) (hb : Blank b)
    (starts : trimmed s = trimmed (n ++ t ++ a ++ '=' :: (b ++ cs ++ rest)))
    (value : Consumes v Q (trimmed (cs ++ rest)) u) :
    Consumes (feature v) (fun r => ∃ t d, r = (name, .assign t d) ∧ t.map Tag.id = tag ∧ Q d)
      s u := by
  let after : List Char := a ++ '=' :: (b ++ cs ++ rest)
  have equals : trimmed after = '=' :: (b ++ cs ++ rest) := by
    rw [trimmed_append ha, trimmed_cons (by decide)]
  have avoids {p : Char → Bool} (bracket : p '(' = false) (equal : p '=' = false) :
      Avoids p (trimmed (t ++ after)) :=
    tagged.avoids bracket (by rw [equals]; exact avoids_cons.2 equal)
  have front : Consumes Grammar.name (· = name) s (trimmed (t ++ after)) :=
    consumes_name named (by simpa [after] using starts) (avoids (by decide) (by decide))
  have noArrow : Rejects ((expect '-').before (expect '>')).padded (trimmed (t ++ after)) := by
    refine Rejects.padded_of_trimmed (rejects_expect ?_).before
    rw [trimmed_trimmed]
    exact avoids (by decide) (by decide)
  have tags : Consumes Grammar.tag.optional (fun t => t.map Tag.id = tag) (trimmed (t ++ after))
      (trimmed after) :=
    consumes_optionalTag tagged (by rw [equals]; exact avoids_cons.2 (by decide))
  have equal := consumes_token (s := trimmed after) (by rw [trimmed_trimmed, equals])
  rw [List.append_assoc, trimmed_append hb] at equal
  have body := ((tags.followedBy equal).andThen value).map
    (f := fun r => FeatureBody.assign r.1 r.2)
    (R := fun b => ∃ t d, b = .assign t d ∧ t.map Tag.id = tag ∧ Q d)
    fun r h => ⟨r.1, r.2, rfl, h.1, h.2⟩
  refine (front.andThen (body.orElse_of_rejects noArrow.before.map)).imp ?_
  rintro ⟨_, _⟩ ⟨rfl, t, d, rfl, same⟩
  exact ⟨t, d, rfl, same⟩

theorem consumes_refer {n a t : List Char} {name : String} {id : Nat} (named : NameText n name)
    (ha : Blank a) (tagged : TagText t id)
    (starts : trimmed s = trimmed (n ++ '-' :: '>' :: (a ++ t ++ rest))) :
    Consumes (feature v) (fun r => ∃ t, r = (name, .refer t) ∧ t.id = id) s (trimmed rest) := by
  have visible : trimmed ('-' :: '>' :: (a ++ t ++ rest)) = '-' :: '>' :: (a ++ t ++ rest) :=
    trimmed_cons (by decide)
  have front := consumes_name named starts (by rw [visible]; exact avoids_cons.2 (by decide))
  rw [visible] at front
  have dash : Consumes (expect '-') (· = '-') ('-' :: '>' :: (a ++ t ++ rest))
      ('>' :: (a ++ t ++ rest)) := (reads_expect '-').consumes
  have arrow := Consumes.padded (s := '-' :: '>' :: (a ++ t ++ rest))
    (visible ▸ dash.before (reads_expect '>').consumes)
  have body := (arrow.before (consumes_tag tagged (s := trimmed (a ++ t ++ rest)) (by
    rw [trimmed_trimmed, List.append_assoc, trimmed_append ha]))).map
    (R := fun b => ∃ t, b = FeatureBody.refer t ∧ t.id = id) fun t h => ⟨t, rfl, h⟩
  refine (front.andThen body.orElse).imp ?_
  rintro ⟨_, _⟩ ⟨rfl, t, rfl, same⟩
  exact ⟨t, rfl, same⟩

theorem consumes_struct {t a b fs c d : List Char} {tag : Option Nat}
    {P : List (String × FeatureBody Tag) → Prop} (tagged : OptionalTagText t tag) (ha : Blank a)
    (hb : Blank b) (hc : Blank c) (hd : Blank d)
    (closes : trimmed u = trimmed (c ++ ']' :: (d ++ rest)))
    (features : Consumes ((feature v).separatedBy (expect ',').padded) P
      (trimmed (fs ++ (c ++ ']' :: (d ++ rest)))) u) :
    Consumes (struct v) (fun d => ∃ t as, d = .struct t (.ofList as) ∧ t.map Tag.id = tag ∧ P as)
      (trimmed (t ++ a ++ '[' :: (b ++ fs ++ c ++ ']' :: d) ++ rest)) (trimmed rest) := by
  let inner : List Char := b ++ (fs ++ (c ++ ']' :: (d ++ rest)))
  have bracket : trimmed (a ++ '[' :: inner) = '[' :: inner := by
    rw [trimmed_append ha, trimmed_cons (by decide)]
  have tags : Consumes Grammar.tag.optional (fun t => t.map Tag.id = tag)
      (trimmed (t ++ (a ++ '[' :: inner))) (trimmed (a ++ '[' :: inner)) :=
    consumes_optionalTag tagged (by rw [bracket]; exact avoids_cons.2 (by decide))
  have opens := consumes_token (s := trimmed (a ++ '[' :: inner)) (by rw [trimmed_trimmed, bracket])
  rw [trimmed_append hb] at opens
  have last := consumes_token (s := u) (t := d ++ rest) (by
    rw [closes, trimmed_append hc, trimmed_cons (by decide)])
  rw [trimmed_append hd] at last
  have whole := (tags.andThen ((opens.before features).followedBy last)).map
    (f := fun r => Description.struct r.1 (Features.ofList r.2))
    (R := fun d => ∃ t as, d = .struct t (.ofList as) ∧ t.map Tag.id = tag ∧ P as)
    fun r h => ⟨r.1, r.2, rfl, h.1, h.2⟩
  have text : t ++ a ++ '[' :: (b ++ fs ++ c ++ ']' :: d) ++ rest = t ++ (a ++ '[' :: inner) := by
    simp [inner]
  rw [text]
  exact whole

theorem reads_value_string {quote : Char} {cs ds : List Char} (depth : Nat)
    (isQuote : quote = '"' ∨ quote = '\'') (text : QuotedText quote cs ds) :
    Reads (value (depth + 1)) (· = .atom (.str (String.ofList ds))) (quote :: (cs ++ [quote]))
      rest := by
  have starts {p : Char → Bool} (double : p '"' = false) (single : p '\'' = false) :
      Avoids p (quote :: (cs ++ [quote]) ++ rest) := by
    refine avoids_cons.2 ?_
    rcases isQuote with rfl | rfl <;> assumption
  have noStruct := rejects_struct (v := value depth) (starts (by decide) (by decide))
    (starts (by decide) (by decide)) (starts (by decide) (by decide))
  have quotes : Reads ((quoted '"').orElse (quoted '\'')) (· = ds) (quote :: (cs ++ [quote]))
      rest := by
    rcases isQuote with rfl | rfl
    · exact (reads_quoted (by decide) text).orElse
    · refine (reads_quoted (by decide) text).orElse_of_rejects ?_
      exact (rejects_expect (avoids_cons.2 (by decide))).before.followedBy
  exact (((quotes.map fun cs h => by rw [h]).labelled .string).orElse_of_rejects
    noStruct).orElse.orElse

theorem reads_value_identifier {cs : List Char} (depth : Nat) (text : IdentifierText cs)
    (ends : Ends (trimmed rest)) :
    Reads (value (depth + 1)) (· = .var (String.ofList cs)) ('?' :: cs) rest := by
  have starts {p : Char → Bool} (other : p '?' = false) : Avoids p ('?' :: cs ++ rest) :=
    avoids_cons.2 other
  have stops : Avoids isIdentifierChar rest :=
    ends.avoids_of_trimmed (by decide) (by decide) fun _ => isBlank_of_isIdentifierChar
  refine ((reads_var text stops).orElse_of_rejects ?_).orElse
  exact (rejects_struct (starts (by decide)) (starts (by decide)) (starts (by decide))).orElse
    (rejects_string (starts (by decide)) (starts (by decide)))

theorem reads_value_word {cs : List Char} {a : Atom} (depth : Nat) (text : WordText cs a)
    (ends : Ends (trimmed rest)) : Reads (value (depth + 1)) (· = .atom a) cs rest := by
  obtain ⟨nonempty, all⟩ := text.chars
  have starts {p : Char → Bool} (none : ∀ c, p c → isWordChar c = false) :
      Avoids p (cs ++ rest) := by
    refine Avoids.append (fun c mem => Bool.eq_false_iff.2 fun holds => ?_) nonempty
    cases (all c (List.mem_of_mem_head? mem)).symm.trans (none c holds)
  have other {x : Char} (notWord : isWordChar x = false) : Avoids (· = x) (cs ++ rest) :=
    starts fun c eq => by rw [of_decide_eq_true eq, notWord]
  have visible : Avoids isBlank (cs ++ rest) := starts fun c blank => by
    by_contra char
    cases (isBlank_of_isWordChar (Bool.eq_true_of_not_eq_false char)).symm.trans blank
  have word := reads_word text
    (ends.avoids_of_trimmed (by decide) (by decide) fun _ => isBlank_of_isWordChar)
  have noStruct := rejects_struct (v := value depth) visible (other (by decide))
    (other (by decide))
  have noString := rejects_string (other (x := '"') (by decide)) (other (by decide))
  have noVar := rejects_var (other (x := '?') (by decide))
  exact word.orElse_of_rejects ((noStruct.orElse noString).orElse noVar)

/-- Is the value read from the text, up to blanks, if there is enough depth? -/
def ConsumesValue (cs : List Char) (d : Description Nat) : Prop :=
  ∀ depth rest, cs.length < depth → Ends (trimmed rest) → ∃ u, trimmed u = trimmed rest ∧
    Consumes (value depth) (fun d' => d'.map Tag.id = d) (trimmed (cs ++ rest)) u

/-- Are the features read from the text in front of a closing bracket, up to blanks? They stand
first or after others. -/
def ConsumesFeatures (first : Bool) (cs : List Char) (features : Features Nat) : Prop :=
  ∀ depth tail, cs.length < depth → (∃ after, trimmed tail = ']' :: after) →
    match first with
    | true => ∃ u, trimmed u = trimmed tail ∧
      Consumes ((feature (value depth)).separatedBy (expect ',').padded)
        (fun as => (Features.ofList as).map Tag.id = features) (trimmed (cs ++ tail)) u
    | false => ∀ s, trimmed s = trimmed (cs ++ tail) → ∃ u, trimmed u = trimmed tail ∧
      ConsumesMore (feature (value depth)) (expect ',').padded
        (fun as => (Features.ofList as).map Tag.id = features) s u

theorem FeaturesText.ends {cs : List Char} {features : Features Nat}
    (text : FeaturesText false cs features) (closes : ∃ after, trimmed tail = ']' :: after) :
    Ends (trimmed (cs ++ tail)) := by
  have comma {s cs : List Char} (separator : SeparatorText false s) :
      Ends (trimmed (s ++ cs)) := by
    obtain ⟨⟩ | ⟨ha, -⟩ := separator
    rw [List.append_assoc, trimmed_append ha, List.cons_append, trimmed_cons (by decide)]
    exact avoids_cons.2 (by decide)
  cases text with
  | nil =>
    obtain ⟨after, eq⟩ := closes
    rw [List.nil_append, eq]
    exact avoids_cons.2 (by decide)
  | assign separator => simpa using comma separator
  | refer separator => simpa using comma separator

theorem consumesFeatures_nil (first : Bool) : ConsumesFeatures first [] .nil := by
  rintro depth tail - ⟨after, closes⟩
  have ends {p : Char → Bool} (bracket : p ']' = false) : Avoids p (trimmed tail) := by
    rw [closes]
    exact avoids_cons.2 bracket
  cases first with
  | true =>
    have stops : Rejects (feature (value depth)) (trimmed tail) :=
      (rejects_name (by
        rw [trimmed_trimmed]
        exact ends (by decide))).andThen
    exact ⟨trimmed tail, trimmed_trimmed tail,
      stops.separatedBy.consumes.imp fun as h => by rw [h]; rfl⟩
  | false =>
    intro s same
    have stops : Rejects (expect ',').padded s := rejects_token (by
      rw [same]
      exact ends (by decide))
    exact ⟨s, same, (consumesMore_nil stops).imp fun as h => by rw [h]; rfl⟩

theorem ConsumesFeatures.cons {first : Bool} {cs rest : List Char} {features others : Features Nat}
    {P : String × FeatureBody Tag → Prop} (separator : SeparatorText first s)
    (item : ∀ depth tail, cs.length < depth → Ends (trimmed tail) →
      ∀ s, trimmed s = trimmed (cs ++ tail) → ∃ u, trimmed u = trimmed tail ∧
        Consumes (feature (value depth)) P s u)
    (text : FeaturesText false rest others) (more : ConsumesFeatures false rest others)
    (means : ∀ a as, P a → (Features.ofList as).map Tag.id = others →
      (Features.ofList (a :: as)).map Tag.id = features) :
    ConsumesFeatures first (s ++ cs ++ rest) features := by
  intro depth tail enough closes
  simp only [List.length_append] at enough
  have all (as : List (String × FeatureBody Tag)) :
      (∃ a as', as = a :: as' ∧ P a ∧ (Features.ofList as').map Tag.id = others) →
        (Features.ofList as).map Tag.id = features := by
    rintro ⟨a, as', rfl, ha, has⟩
    exact means a as' ha has
  have step (s : List Char) (same : trimmed s = trimmed (cs ++ (rest ++ tail))) :
      ∃ u w, trimmed w = trimmed tail ∧ Consumes (feature (value depth)) P s u ∧
        ConsumesMore (feature (value depth)) (expect ',').padded
          (fun as => (Features.ofList as).map Tag.id = others) u w := by
    obtain ⟨u, eq, one⟩ := item depth (rest ++ tail) (by omega) (text.ends closes) s same
    obtain ⟨w, eq', others⟩ := more depth tail (by omega) closes u eq
    exact ⟨u, w, eq', one, others⟩
  cases separator with
  | first =>
    obtain ⟨u, w, eq, one, others⟩ := step _ (trimmed_trimmed (cs ++ (rest ++ tail)))
    refine ⟨w, eq, ?_⟩
    rw [List.nil_append, List.append_assoc]
    exact (one.separatedBy others).imp all
  | @later a b ha hb =>
    intro s same
    have comma : trimmed s = ',' :: (b ++ (cs ++ (rest ++ tail))) := by
      rw [same]
      simp [trimmed_append ha, trimmed_cons (c := ',') (by decide)]
    obtain ⟨u, w, eq, one, others⟩ := step _ (trimmed_trimmed (cs ++ (rest ++ tail)))
    have separates := consumes_token comma
    rw [trimmed_append hb] at separates
    have shorter : (trimmed (cs ++ (rest ++ tail))).length < s.length := by
      have upper := length_trimmed_le s
      have lower := length_trimmed_le (cs ++ (rest ++ tail))
      rw [comma, List.length_cons, List.length_append] at upper
      omega
    exact ⟨w, eq, (ConsumesMore.cons separates shorter one others).imp all⟩

theorem consumesValue_struct {t a b fs c d : List Char} {tag : Option Nat}
    {features : Features Nat} (tagged : OptionalTagText t tag) (ha : Blank a) (hb : Blank b)
    (hc : Blank c) (hd : Blank d) (inner : ConsumesFeatures true fs features) :
    ConsumesValue (t ++ a ++ '[' :: (b ++ fs ++ c ++ ']' :: d)) (.struct tag features) := by
  intro depth rest enough ends
  obtain ⟨depth, rfl⟩ := Nat.exists_eq_succ_of_ne_zero (Nat.ne_of_gt (Nat.zero_lt_of_lt enough))
  -- the brackets of this level make room for one level less
  have shorter : fs.length < depth := by
    simp only [List.length_append, List.length_cons] at enough
    omega
  have closes : trimmed (c ++ ']' :: (d ++ rest)) = ']' :: (d ++ rest) := by
    rw [trimmed_append hc, trimmed_cons (by decide)]
  obtain ⟨u, same, read⟩ := inner depth _ shorter ⟨_, closes⟩
  have whole := consumes_struct tagged ha hb hc hd same read
  refine ⟨trimmed rest, trimmed_trimmed rest, (whole.imp ?_).orElse.orElse.orElse⟩
  rintro _ ⟨t, as, rfl, rfl, rfl⟩
  rfl

theorem consumesValue_of_reads {cs : List Char} {d : Description Tag} (visible : Avoids isBlank cs)
    (nonempty : cs ≠ []) (reads : ∀ depth rest, Ends (trimmed rest) →
      Reads (value (depth + 1)) (· = d) cs rest) : ConsumesValue cs (d.map Tag.id) := by
  intro depth rest enough ends
  obtain ⟨depth, rfl⟩ := Nat.exists_eq_succ_of_ne_zero (Nat.ne_of_gt (Nat.zero_lt_of_lt enough))
  rw [trimmed_of_avoids (visible.append nonempty)]
  exact ⟨rest, rfl, ((reads depth rest ends).imp fun d' h => by rw [h]).consumes⟩

theorem WordText.visible {cs : List Char} {a : Atom} (text : WordText cs a) :
    Avoids isBlank cs :=
  fun c mem => isBlank_of_isWordChar (text.chars.2 c (List.mem_of_mem_head? mem))

theorem consumesFeatures_assign {first : Bool} {n t a b cs more : List Char} {name : String}
    {tag : Option Nat} {d : Description Nat} {features : Features Nat}
    (separator : SeparatorText first s) (named : NameText n name) (tagged : OptionalTagText t tag)
    (ha : Blank a) (hb : Blank b) (value : ConsumesValue cs d)
    (text : FeaturesText false more features) (others : ConsumesFeatures false more features) :
    ConsumesFeatures first (s ++ n ++ t ++ a ++ '=' :: (b ++ cs ++ more))
      (.assign name tag d features) := by
  have item (depth : Nat) (tail : List Char)
      (enough : (n ++ t ++ a ++ '=' :: (b ++ cs)).length < depth) (ends : Ends (trimmed tail))
      (s : List Char) (starts : trimmed s = trimmed (n ++ t ++ a ++ '=' :: (b ++ cs) ++ tail)) :
      ∃ u, trimmed u = trimmed tail ∧ Consumes (feature (Grammar.value depth)) (fun r => ∃ t d',
        r = (name, .assign t d') ∧ t.map Tag.id = tag ∧ d'.map Tag.id = d) s u := by
    have shorter : cs.length < depth := by
      simp only [List.length_append, List.length_cons] at enough
      omega
    obtain ⟨u, same, read⟩ := value depth tail shorter ends
    exact ⟨u, same, consumes_assign named tagged ha hb (by simpa using starts) read⟩
  have means (a : String × FeatureBody Tag) (as : List (String × FeatureBody Tag))
      (read : ∃ t d', a = (name, .assign t d') ∧ t.map Tag.id = tag ∧ d'.map Tag.id = d)
      (others : (Features.ofList as).map Tag.id = features) :
      (Features.ofList (a :: as)).map Tag.id = .assign name tag d features := by
    rcases read with ⟨t, d', rfl, rfl, rfl⟩
    rw [← others]
    rfl
  have whole := ConsumesFeatures.cons separator item text others means
  simpa using whole

theorem consumesFeatures_refer {first : Bool} {n a t more : List Char} {name : String} {id : Nat}
    {features : Features Nat} (separator : SeparatorText first s) (named : NameText n name)
    (ha : Blank a) (tagged : TagText t id) (text : FeaturesText false more features)
    (others : ConsumesFeatures false more features) :
    ConsumesFeatures first (s ++ n ++ '-' :: '>' :: (a ++ t ++ more))
      (.refer name id features) := by
  have item (depth : Nat) (tail : List Char)
      (_ : (n ++ '-' :: '>' :: (a ++ t)).length < depth) (_ : Ends (trimmed tail))
      (s : List Char) (starts : trimmed s = trimmed (n ++ '-' :: '>' :: (a ++ t) ++ tail)) :
      ∃ u, trimmed u = trimmed tail ∧ Consumes (feature (value depth))
        (fun r => ∃ t, r = (name, .refer t) ∧ t.id = id) s u :=
    ⟨trimmed tail, trimmed_trimmed tail,
      consumes_refer named ha tagged (by simpa using starts)⟩
  have means (a : String × FeatureBody Tag) (as : List (String × FeatureBody Tag))
      (read : ∃ t, a = (name, .refer t) ∧ t.id = id)
      (others : (Features.ofList as).map Tag.id = features) :
      (Features.ofList (a :: as)).map Tag.id = .refer name id features := by
    rcases read with ⟨t, rfl, rfl⟩
    rw [← others]
    rfl
  have whole := ConsumesFeatures.cons separator item text others means
  simpa using whole

mutual

/-- A value is read from every text that denotes it. -/
theorem ValueText.consumes {cs : List Char} {d : Description Nat} (text : ValueText cs d) :
    ConsumesValue cs d := by
  match text with
  | .struct tagged ha hb features hc hd =>
    exact consumesValue_struct tagged ha hb hc hd features.consumes
  | @ValueText.string quote cs ds isQuote quoted =>
    refine consumesValue_of_reads (d := .atom (.str (String.ofList ds))) ?_ (by simp)
      fun depth rest _ => reads_value_string depth isQuote quoted
    rcases isQuote with rfl | rfl <;> exact avoids_cons.2 (by decide)
  | @ValueText.var cs identifier =>
    exact consumesValue_of_reads (d := .var (String.ofList cs)) (avoids_cons.2 (by decide))
      (by simp) fun depth rest ends => reads_value_identifier depth identifier ends
  | @ValueText.word cs a word =>
    exact consumesValue_of_reads (d := .atom a) word.visible word.chars.1
      fun depth rest ends => reads_value_word depth word ends

theorem FeaturesText.consumes {first : Bool} {cs : List Char} {features : Features Nat}
    (text : FeaturesText first cs features) : ConsumesFeatures first cs features := by
  match text with
  | .nil => exact consumesFeatures_nil first
  | .assign separator named tagged ha hb value more =>
    exact consumesFeatures_assign separator named tagged ha hb value.consumes more more.consumes
  | .refer separator named ha tagged more =>
    exact consumesFeatures_refer separator named ha tagged more more.consumes

end

end Grammar

namespace Description

/-- A description is read from every text that denotes it. -/
theorem exists_read_of_denotes {text : String} {d : Description Nat}
    (denotes : Grammar.Denotes text.toList d) : ∃ d', read text = .ok d' ∧ d'.map Tag.id = d := by
  obtain ⟨a, cs, b, eq, ha, value, hb⟩ := denotes
  have ends : trimmed b = [] := by
    rw [← List.append_nil b, trimmed_append hb]
    rfl
  have enough : cs.length < text.length + 1 := by
    rw [← String.length_toList, eq]
    simp only [List.length_append]
    omega
  obtain ⟨u, same, read⟩ := value.consumes _ b enough (by rw [ends]; exact avoids_nil _)
  rw [← trimmed_append ha, ← List.append_assoc, ← eq] at read
  have padded := read.padded
  rw [same, ends] at padded
  obtain ⟨_, taken, whole⟩ := padded.followedBy reads_endOfText.consumes
  unfold Description.read
  generalize (Grammar.value (text.length + 1)).padded.followedBy endOfText = reader at whole ⊢
  obtain ⟨d', kept, accepted, means⟩ := whole 0
  rw [← taken] at accepted
  exact ⟨d', by rw [accepted], means⟩

/-- The descriptions that are read from a text are those that the text denotes, but for the places
where tags were written. -/
theorem read_iff_denotes (text : String) (d : Description Nat) :
    (∃ d', read text = .ok d' ∧ d'.map Tag.id = d) ↔ Grammar.Denotes text.toList d := by
  constructor
  · rintro ⟨d', accepted, rfl⟩
    exact denotes_of_read accepted
  · exact exists_read_of_denotes

end Description

end FeatureLogic
