import FeatureLogic.Proofs.Settings.Lexemes

/-!
# What is left of a text

Whatever is read from the front of a text, what is left is an end of it. So a reader that needs a
bound on its steps has enough with the length of the text, and skipping a value of any kind and any
depth never goes back.
-/

namespace FeatureLogic.Settings

def Consumes (skip : Rest → Option Rest) : Prop := ∀ ⦃cs rest⦄, skip cs = some rest → rest <:+ cs

variable {f g key value : Rest → Option Rest} {cs rest : Rest} {name : List Char} {n bound : Nat}
  {c : Char}

theorem Consumes.bind (hf : Consumes f) (hg : Consumes g) : Consumes fun cs => (f cs).bind g := by
  intro cs rest found
  obtain ⟨between, first, second⟩ := Option.bind_eq_some_iff.1 found
  exact (hg second).trans (hf first)

theorem Consumes.cons (hf : Consumes f) (found : f cs = some rest) : rest <:+ c :: cs :=
  (hf found).trans (List.suffix_cons c cs)

/-! ## Lexemes -/

theorem Space.suffix (space : Space cs rest) : rest <:+ cs := by
  induction space with
  | done => exact List.suffix_rfl
  | space _ _ ih => exact ih.trans (List.suffix_cons _ _)
  | @line text cs rest _ _ ih => exact ih.trans ⟨'/' :: '/' :: (text ++ ['\n']), by simp⟩
  | lastLine => exact List.nil_suffix
  | @block text cs rest _ _ ih => exact ih.trans ⟨'/' :: '*' :: (text ++ ['*', '/']), by simp⟩

theorem Named.suffix (named : Named cs name rest) : rest <:+ cs := by
  cases named with
  | @plain c word rest _ _ _ _ => exact ⟨c :: word, rfl⟩
  | raw => exact ⟨'r' :: '#' :: name, rfl⟩

theorem Integer.suffix (integer : Integer bound cs n rest) : rest <:+ cs := by
  obtain ⟨base, digits, marked, -⟩ := integer
  cases marked with
  | @mark mark _ _ _ => exact ⟨mark ++ digits, by simp⟩
  | none => exact ⟨digits, rfl⟩

theorem consumes_skipSpace : Consumes skipSpace :=
  fun _ _ found => (skipSpace_eq_some_iff.1 found).1.suffix

theorem consumes_token (c : Char) : Consumes (token c) := by
  intro cs rest found
  obtain ⟨more, rfl, space, -⟩ := token_eq_some_iff.1 found
  exact space.suffix.trans (List.suffix_cons _ _)

theorem consumes_skipName : Consumes skipName := by
  intro cs rest found
  obtain ⟨⟨name, rest⟩, read, rfl⟩ := Option.map_eq_some_iff.1 found
  exact (name?_eq_some_iff.1 read).suffix

theorem consumes_skipText (text : List Char) : Consumes (skipText text) := by
  intro cs rest found
  fun_induction skipText text cs with
  | case1 cs =>
    cases found
    exact List.suffix_rfl
  | case2 c text cs ih => exact (ih found).trans (List.suffix_cons _ _)
  | case3 | case4 => cases found

theorem consumes_keyword (word : String) : Consumes (keyword word) := by
  intro cs rest found
  unfold keyword at found
  split at found
  next c after word =>
    obtain ⟨-, eq⟩ := Option.ite_none_left_eq_some.1 found
    cases eq
    exact consumes_skipText _ word
  next => exact consumes_skipText _ found

theorem consumes_words (words : List String) (found : words.findSome? (keyword · cs) = some rest) :
    rest <:+ cs := by
  obtain ⟨word, -, found⟩ := List.exists_of_findSome?_eq_some found
  exact consumes_keyword word found

theorem consumes_integer (bound : Nat) : Consumes fun cs => (integer? bound cs).map Prod.snd := by
  intro cs rest found
  obtain ⟨⟨n, rest⟩, read, rfl⟩ := Option.map_eq_some_iff.1 found
  exact (integer?_eq_some_iff.1 read).suffix

theorem consumes_skipInteger : Consumes skipInteger := by
  intro cs rest found
  unfold skipInteger at found
  split at found
  · exact (consumes_integer _).cons found
  · exact (consumes_integer _).cons found
  · exact consumes_integer _ found

theorem afterSign_suffix (cs : Rest) : afterSign cs <:+ cs := by
  unfold afterSign
  split
  · exact List.suffix_cons _ _
  · exact List.suffix_cons _ _
  · exact List.suffix_rfl

theorem consumes_skipFloat : Consumes skipFloat := by
  intro cs rest found
  unfold skipFloat at found
  split at found
  next special =>
    cases found
    exact (consumes_words _ special).trans (afterSign_suffix _)
  next =>
    obtain ⟨-, eq⟩ := Option.ite_none_right_eq_some.1 found
    cases eq
    exact List.dropWhile_suffix _

theorem consumes_skipNumber : Consumes skipNumber := by
  intro cs rest found
  simp only [skipNumber] at found
  split at found
  next => exact consumes_skipFloat found
  next =>
    split at found
    next integer =>
      cases found
      exact consumes_skipInteger integer
    next => exact consumes_skipFloat found

theorem consumes_skipEscape : Consumes skipEscape := by
  intro cs rest found
  unfold skipEscape at found
  split at found
  next c d cs =>
    obtain ⟨-, eq⟩ := Option.ite_none_right_eq_some.1 found
    cases eq
    exact ⟨['x', c, d], rfl⟩
  next cs =>
    simp only at found
    split at found
    next after eq =>
      obtain ⟨-, same⟩ := Option.ite_none_right_eq_some.1 found
      cases same
      have inside : '\x7d' :: rest <:+ cs := eq ▸ List.drop_suffix _ cs
      exact ((List.suffix_cons _ _).trans inside).trans ⟨['u', '\x7b'], rfl⟩
    next => cases found
  next =>
    obtain ⟨-, eq⟩ := Option.ite_none_right_eq_some.1 found
    cases eq
    exact List.suffix_cons _ _
  next => cases found

theorem consumes_skipString (fuel : Nat) : Consumes (skipString fuel) := by
  intro cs rest found
  fun_induction skipString fuel cs with
  | case1 | case2 | case6 => cases found
  | case3 fuel cs after escape ih =>
    exact ((ih found).trans (consumes_skipEscape escape)).trans (List.suffix_cons _ _)
  | case4 =>
    cases found
    exact List.suffix_cons _ _
  | case5 fuel c cs _ _ ih => exact (ih found).trans (List.suffix_cons _ _)

theorem consumes_skipThrough (ending : List Char) : Consumes (skipThrough ending) := by
  intro cs rest found
  fun_induction skipThrough ending cs with
  | case1 => cases found
  | case2 c cs after ends =>
    cases found
    exact consumes_skipText _ ends
  | case3 c cs _ ih => exact (ih found).trans (List.suffix_cons _ _)

theorem consumes_skipRawString : Consumes skipRawString := by
  intro cs rest found
  unfold skipRawString at found
  split at found
  next inside eq =>
    have opened : '"' :: inside <:+ cs := eq ▸ List.dropWhile_suffix _
    exact ((consumes_skipThrough _).cons found).trans opened
  next => cases found

theorem consumes_skipCharacter : Consumes skipCharacter := by
  intro cs rest found
  unfold skipCharacter at found
  split at found
  next =>
    split at found
    next escape =>
      cases found
      exact ((List.suffix_cons _ _).trans (consumes_skipEscape escape)).trans (List.suffix_cons _ _)
    next => cases found
  next c after _ =>
    obtain ⟨-, eq⟩ := Option.ite_none_left_eq_some.1 found
    cases eq
    exact ⟨[c, '\''], rfl⟩
  next => cases found

/-! ## Values -/

theorem Consumes.skipItems (item : Consumes value) (close : Char) (fuel : Nat) :
    Consumes (skipItems value close fuel) := by
  intro cs rest found
  induction fuel generalizing cs with
  | zero => cases found
  | succ fuel ih =>
    unfold Settings.skipItems at found
    split at found
    next => cases found
    next c after =>
      split at found
      next =>
        cases found
        exact List.suffix_cons _ _
      next =>
        have before {d : Char} {more : Rest}
            (eq : (value (c :: after)).bind skipSpace = d :: more) :
            more <:+ c :: after :=
          (List.suffix_cons _ _).trans (item.bind consumes_skipSpace eq)
        split at found
        next more eq =>
          obtain ⟨next, space, items⟩ := Option.bind_eq_some_iff.1 found
          exact ((ih items).trans (consumes_skipSpace space)).trans (before eq)
        next eq =>
          obtain ⟨-, same⟩ := Option.ite_none_right_eq_some.1 found
          cases same
          exact before eq
        next => cases found

theorem Consumes.skipBracketed (item : Consumes value) (close : Char) (fuel : Nat) :
    Consumes (skipBracketed fuel value close) :=
  consumes_skipSpace.bind (item.skipItems close fuel)

theorem Consumes.skipPair (hk : Consumes key) (hv : Consumes value) :
    Consumes (skipPair key value) :=
  ((hk.bind consumes_skipSpace).bind (consumes_token ':')).bind hv

theorem Consumes.skipStructure (item : Consumes value) (fuel : Nat) :
    Consumes (skipStructure fuel value) := by
  intro cs rest found
  obtain ⟨inside, space, found⟩ := Option.bind_eq_some_iff.1 found
  have opened : inside <:+ cs := consumes_skipSpace space
  split at found
  · exact ((consumes_skipName.skipPair item).skipBracketed ')' fuel found).trans opened
  · exact (item.skipBracketed ')' fuel found).trans opened

theorem Consumes.skipOption (item : Consumes value) (bare : Bool) :
    Consumes (skipOption bare value) := by
  intro cs rest found
  unfold Settings.skipOption at found
  split at found
  next inside =>
    obtain ⟨after, read, found⟩ := Option.bind_eq_some_iff.1 found
    have held : after <:+ inside := ((consumes_skipSpace.bind item).bind consumes_skipSpace) read
    have comma : (token ',' after).getD after <:+ after := by
      cases eq : token ',' after with
      | none => exact List.suffix_rfl
      | some more => exact consumes_token ',' eq
    split at found
    next eq =>
      cases found
      have closed : rest <:+ after := (List.suffix_cons _ _).trans (eq ▸ comma)
      exact (closed.trans held).trans (List.suffix_cons _ _)
    next => cases found
  next =>
    obtain ⟨-, found⟩ := Option.ite_none_right_eq_some.1 found
    exact item found

/-- Skipping a value leaves an end of the text, however deep values may be nested in it. -/
theorem consumes_skipValue (bare : Bool) (fuel levels : Nat) :
    Consumes (skipValue bare fuel levels) := by
  induction levels using Nat.strongRecOn with
  | ind levels ih =>
    intro cs rest found
    cases levels with
    | zero => cases found
    | succ levels =>
      unfold skipValue at found
      extract_lets within at found
      -- what stands in brackets is one level deeper
      have deeper {skip : (Rest → Option Rest) → Option Rest} {after : Rest}
          (skips : ∀ item, Consumes item → skip item = some rest → rest <:+ after)
          (found : within skip = some rest) : rest <:+ after := by
        simp only [within] at found
        split at found
        · cases found
        · exact skips _ (ih _ (by omega)) found
      clear_value within
      split at found
      next word =>
        cases found
        exact consumes_words _ word
      next word =>
        have inside := consumes_skipSpace.bind ((ih levels (by omega)).skipOption bare)
        exact (inside found).trans (consumes_keyword _ word)
      next named =>
        have after := (name?_eq_some_iff.1 named).suffix
        split at found
        next eq =>
          have inside := (List.suffix_cons _ _).trans ((consumes_skipSpace eq).trans after)
          refine (deeper (fun item consumes found => ?_) found).trans inside
          exact consumes.skipStructure fuel found
        next => exact (consumes_skipSpace found).trans after
      next =>
        split at found
        · cases found
          exact ⟨['(', ')'], rfl⟩
        · refine deeper (fun item consumes found => ?_) found
          exact (consumes.skipStructure fuel).cons found
        · refine deeper (fun item consumes found => ?_) found
          exact (consumes.skipBracketed ']' fuel).cons found
        · refine deeper (fun item consumes found => ?_) found
          exact ((consumes.skipPair consumes).skipBracketed '\x7d' fuel).cons found
        · exact (consumes_skipString fuel).cons found
        · exact consumes_skipRawString.cons found
        · exact consumes_skipCharacter.cons found
        · exact consumes_skipNumber found

end FeatureLogic.Settings
