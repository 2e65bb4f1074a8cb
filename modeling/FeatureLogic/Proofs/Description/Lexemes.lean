import FeatureLogic.Proofs.Description.Words
import FeatureLogic.Proofs.Text.Spacing

/-!
# Lexemes are read

The smallest parts of a text: numbers, tags, names, quoted strings, variables and words. Each is
read from every text that denotes it, if it stands in front of something that it could not go on
with.
-/

namespace FeatureLogic.Grammar

open Text Text.Reader

variable {s rest : List Char}

theorem reads_number (n : Nat) (stops : Avoids Char.isDigit rest) :
    Reads number (· = Nat.toDigits 10 n) (Nat.toDigits 10 n) rest := by
  rcases Nat.eq_zero_or_pos n with rfl | positive
  · refine Reads.orElse_of_rejects ?_ ?_
    · exact (reads_expect '0').map fun c h => by rw [h, Nat.toDigits_zero]
    · exact (rejects_satisfy (avoids_cons.2 (by decide))).andThen.map
  · obtain ⟨c, cs, digits, nonzero⟩ := exists_toDigits_cons positive
    have all {d : Char} (mem : d ∈ c :: cs) : d.isDigit := isDigit_toDigits (digits ▸ mem)
    have first : (c.isDigit && c != '0') = true := by
      simp [all List.mem_cons_self, nonzero]
    have reads := (reads_satisfy (p := fun c => c.isDigit && c != '0') first).andThen
      (reads_many_satisfy (fun d mem => all (List.mem_cons_of_mem _ mem)) stops)
    rw [digits]
    exact (reads.map fun r h => by rw [h.1, h.2]).orElse

theorem consumes_tag {cs : List Char} {id : Nat} (text : TagText cs id)
    (starts : trimmed s = trimmed (cs ++ rest)) :
    Consumes tag (·.id = id) s (trimmed rest) := by
  obtain @⟨a, b, c, d, _, ha, hb, hc, hd⟩ := text
  have visible : Avoids isBlank (Nat.toDigits 10 id) := fun c mem =>
    isBlank_of_isDigit (isDigit_toDigits (List.mem_of_mem_head? mem))
  have opens : trimmed s = '(' :: (b ++ (Nat.toDigits 10 id ++ (c ++ ')' :: (d ++ rest)))) := by
    rw [starts, List.append_assoc, trimmed_append ha, List.cons_append, trimmed_cons (by decide)]
    simp
  have closes : trimmed (c ++ ')' :: (d ++ rest)) = ')' :: (d ++ rest) := by
    rw [trimmed_append hc, trimmed_cons (by decide)]
  have digits : Consumes number (· = Nat.toDigits 10 id)
      (trimmed (b ++ (Nat.toDigits 10 id ++ (c ++ ')' :: (d ++ rest)))))
      (c ++ ')' :: (d ++ rest)) := by
    rw [trimmed_append hb, trimmed_of_avoids (visible.append Nat.toDigits_ne_nil)]
    refine (reads_number id (avoids_of_trimmed (fun _ => isBlank_of_isDigit) ?_)).consumes
    rw [closes]
    exact avoids_cons.2 (by decide)
  have whole := ((consumes_token opens).before (digits.labelled .identifier)).followedBy
    (consumes_token closes)
  rw [trimmed_append hd] at whole
  refine whole.located.map fun r h => ?_
  rw [h, Nat.ofDigitChars_toDigits (by decide) (by decide)]

theorem rejects_tag_of_trimmed (starts : Avoids (· = '(') (trimmed s)) : Rejects tag s :=
  (rejects_token starts).before.followedBy.located.map

theorem consumes_optionalTag {cs : List Char} {tag : Option Nat} (text : OptionalTagText cs tag)
    (untagged : Avoids (· = '(') (trimmed rest)) :
    Consumes Grammar.tag.optional (fun t => t.map Tag.id = tag) (trimmed (cs ++ rest))
      (trimmed rest) := by
  cases text with
  | none =>
    have stops : Avoids (· = '(') (trimmed (trimmed rest)) := by rwa [trimmed_trimmed]
    exact (rejects_tag_of_trimmed stops).consumes_optional.imp fun t h => by rw [h]; rfl
  | some text =>
    refine (consumes_tag text (trimmed_trimmed _)).optional.imp fun t h => ?_
    obtain ⟨tag, rfl, rfl⟩ := h
    rfl

theorem OptionalTagText.avoids {cs : List Char} {tag : Option Nat} (text : OptionalTagText cs tag)
    {p : Char → Bool} (bracket : p '(' = false) (avoids : Avoids p (trimmed rest)) :
    Avoids p (trimmed (cs ++ rest)) := by
  cases text with
  | none => exact avoids
  | some text =>
    obtain ⟨id, ha, hb, hc, hd⟩ := text
    rw [List.append_assoc, trimmed_append ha, List.cons_append, trimmed_cons (by decide)]
    exact avoids_cons.2 bracket

theorem consumes_name {cs : List Char} {name : String} (text : NameText cs name)
    (starts : trimmed s = trimmed (cs ++ rest)) (ends : Avoids isNameChar (trimmed rest)) :
    Consumes Grammar.name (· = name) s (trimmed rest) := by
  obtain @⟨a, b, cs, ha, hb, nonempty, all⟩ := text
  have visible : Avoids isBlank cs := fun c mem =>
    isBlank_of_isNameChar (all c (List.mem_of_mem_head? mem))
  have front : trimmed s = cs ++ (b ++ rest) := by
    rw [starts, List.append_assoc, List.append_assoc, trimmed_append ha,
      trimmed_of_avoids (visible.append nonempty)]
  have stops : Avoids isNameChar (b ++ rest) :=
    avoids_of_trimmed (fun _ => isBlank_of_isNameChar) (by rwa [trimmed_append hb])
  have chars := ((reads_many1_satisfy all nonempty stops).map (f := String.ofList)
    (R := (· = String.ofList cs)) fun a h => by rw [h]).consumes
  rw [← front] at chars
  have padded := chars.padded.labelled .name
  rwa [trimmed_append hb] at padded

theorem rejects_name (avoids : Avoids isNameChar (trimmed s)) : Rejects Grammar.name s :=
  (Rejects.padded_of_trimmed (rejects_many1 (rejects_satisfy avoids)).map).labelled .name

theorem reads_escaped {c d : Char} (listed : Escapes c d) :
    Reads escaped (· = d) ['\\', c] rest := by
  have other {x y : Char} (ne : x ≠ y) : Rejects (expect y) ([x] ++ rest) :=
    rejects_expect (avoids_cons.2 (decide_eq_false ne))
  refine (reads_expect '\\').before ?_
  simp only [Escapes, List.mem_cons, Prod.mk.injEq, List.not_mem_nil, or_false] at listed
  rcases listed with ⟨rfl, rfl⟩ | ⟨rfl, rfl⟩ | ⟨rfl, rfl⟩ | ⟨rfl, rfl⟩ | ⟨rfl, rfl⟩
  · exact (reads_expect '\\').orElse
  · exact (reads_expect '"').orElse.orElse_of_rejects (other (by decide))
  · exact ((reads_expect '\'').orElse.orElse_of_rejects (other (by decide))).orElse_of_rejects
      (other (by decide))
  · have last : Reads ((expect 'n').map fun _ => '\n') (· = '\n') ['n'] rest :=
      (reads_expect 'n').map fun _ _ => rfl
    exact ((last.orElse.orElse_of_rejects (other (by decide))).orElse_of_rejects
      (other (by decide))).orElse_of_rejects (other (by decide))
  · have last : Reads ((expect 't').map fun _ => '\t') (· = '\t') ['t'] rest :=
      (reads_expect 't').map fun _ _ => rfl
    exact (((last.orElse_of_rejects (other (by decide)).map).orElse_of_rejects
      (other (by decide))).orElse_of_rejects (other (by decide))).orElse_of_rejects
        (other (by decide))

theorem QuotedText.readsMany {quote : Char} {cs ds : List Char} (slash : quote ≠ '\\')
    (text : QuotedText quote cs ds) :
    ReadsMany ((satisfy fun c => c != '\\' && c != quote).orElse Grammar.escaped) (· = ds) cs
      (quote :: rest) := by
  induction text with
  | nil =>
    have notSlash : Avoids (· = '\\') (quote :: rest) := avoids_cons.2 (decide_eq_false slash)
    exact readsMany_nil ((rejects_satisfy (avoids_cons.2 (by simp))).orElse
      (rejects_expect notSlash).before)
  | @plain c cs ds notSlash notQuote _ ih =>
    have char : (c != '\\' && c != quote) = true := by simp [notSlash, notQuote]
    have reads : Reads (satisfy fun c => c != '\\' && c != quote) (· = c) [c]
        (cs ++ quote :: rest) := reads_satisfy char
    refine (ReadsMany.cons reads.orElse (by simp) ih).imp ?_
    rintro _ ⟨_, _, rfl, rfl, rfl⟩
    rfl
  | @escaped c d cs ds listed _ ih =>
    have plain : Rejects (satisfy fun c => c != '\\' && c != quote)
        (['\\', c] ++ (cs ++ quote :: rest)) := rejects_satisfy (avoids_cons.2 (by simp))
    refine (ReadsMany.cons ((reads_escaped listed).orElse_of_rejects plain) (by simp) ih).imp ?_
    rintro _ ⟨_, _, rfl, rfl, rfl⟩
    rfl

theorem reads_quoted {quote : Char} {cs ds : List Char} (slash : quote ≠ '\\')
    (text : QuotedText quote cs ds) :
    Reads (quoted quote) (· = ds) (quote :: (cs ++ [quote])) rest := by
  have all : Reads ((satisfy fun c => c != '\\' && c != quote).orElse escaped).many (· = ds) cs
      ([quote] ++ rest) := (text.readsMany slash).reads
  exact ((reads_expect quote).before all).followedBy (reads_expect quote)

theorem reads_var {cs : List Char} (text : IdentifierText cs)
    (stops : Avoids isIdentifierChar rest) :
    Reads var (· = .var (String.ofList cs)) ('?' :: cs) rest := by
  obtain @⟨c, cs, starts, all⟩ := text
  have first : Reads (satisfy isIdentifierStart) (· = c) [c] (cs ++ rest) := reads_satisfy starts
  have identifier := first.andThen (reads_many_satisfy all stops)
  refine (((reads_expect '?').before identifier).map fun r h => ?_).labelled .variable
  rw [h.1, h.2]

theorem reads_word {cs : List Char} {a : Atom} (text : WordText cs a)
    (stops : Avoids isWordChar rest) : Reads word (· = .atom a) cs rest := by
  obtain ⟨nonempty, all⟩ := text.chars
  have word := (reads_many1_satisfy all nonempty stops).check (f := Atom.ofWord) (R := (· = a))
    fun b h => ⟨a, by rw [h, text.ofWord], rfl⟩
  exact (word.map fun b h => by rw [h]).labelled .value

end FeatureLogic.Grammar
