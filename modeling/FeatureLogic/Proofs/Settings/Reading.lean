import FeatureLogic.Proofs.Settings.Ignored

/-!
# The depth that a text gives is the depth that is read

A text is read as settings exactly if its fields give the depth at most once. Then the settings have
that depth, or else the default. A depth that is read fits 64 bits, and each that does is read from
its decimal digits.
-/

namespace FeatureLogic.Settings

open Text (Avoids avoids_cons avoids_nil)

variable {unknown : Rest → Option Rest} {cs rest after behind front : Rest} {name : List Char}
  {depths : List Nat} {depth given : Option Nat} {n fuel : Nat} {text : String} {s : Settings}
  {c : Char}

theorem solid_of_isNameChar (char : isNameChar c) : Solid (c :: cs) := by
  refine solid_cons.2 ⟨?_, fun space => ?_⟩
  · rintro rfl
    cases char
  · simp only [isSpace, Bool.or_eq_true, beq_iff_eq] at space
    rcases space with ((rfl | rfl) | rfl) | rfl <;> cases char

theorem Named.exists_cons (named : Named cs name rest) :
    ∃ c more, cs = c :: more ∧ isNameChar c := by
  cases named with
  | plain start => exact ⟨_, _, rfl, isNameChar_of_isNameStart start⟩
  | raw => exact ⟨'r', _, rfl, by decide⟩

theorem Integer.solid {bound : Nat} (integer : Integer bound cs n rest) : Solid cs := by
  obtain ⟨base, digits, marked, nonempty, -, all, -⟩ := integer
  cases marked with
  | mark mem =>
    simp only [marks, List.mem_cons, List.not_mem_nil, or_false, Prod.mk.injEq] at mem
    obtain ⟨rfl, -⟩ | ⟨rfl, -⟩ | ⟨rfl, -⟩ := mem <;> exact solid_of_isNameChar (by decide)
  | none =>
    cases digits with
    | nil => exact absurd rfl nonempty
    | cons c digits =>
      exact solid_of_isNameChar
        (isNameChar_of_isNumeralChar (List.all_eq_true.1 all c List.mem_cons_self))

/-- A character is found behind white space, and the white space after it is skipped. -/
theorem skipSpace_token_iff (visible : c ≠ '/' ∧ ¬ isSpace c) :
    (skipSpace cs).bind (token c) = some rest ↔
      ∃ behind, Space cs (c :: behind) ∧ Space behind rest ∧ Solid rest := by
  constructor
  · intro found
    obtain ⟨between, skipped, found⟩ := Option.bind_eq_some_iff.1 found
    obtain ⟨behind, rfl, after⟩ := token_eq_some_iff.1 found
    exact ⟨behind, (skipSpace_eq_some_iff.1 skipped).1, after⟩
  · rintro ⟨behind, space, found⟩
    rw [skipSpace_eq_some_iff.2 ⟨space, solid_cons.2 visible⟩, Option.bind_some]
    exact token_eq_some_iff.2 ⟨behind, rfl, found⟩

/-! ## Fields -/

def field? (unknown : Rest → Option Rest) (given : Option Nat) (cs : Rest) :
    Option (Option Nat × Rest) := do
  let (name, cs) ← name? cs
  let cs ← (skipSpace cs).bind (token ':')
  if name = maxDepthField.toList then
    match given, unsigned? cs with
    | none, some (n, cs) => some (some n, cs)
    | _, _ => none
  else (unknown cs).map fun cs => (given, cs)

theorem fields?_succ (opens : cs.head? ≠ some ')') :
    fields? unknown (fuel + 1) given cs = (do
      let (depth, cs) ← field? unknown given cs
      match ← skipSpace cs with
      | ',' :: cs => fields? unknown fuel depth (← skipSpace cs)
      | ')' :: cs => some (depth, cs)
      | _ => none) := by
  rw [fields?, field?]
  · simp only [bind_assoc]
    refine bind_congr fun _ => bind_congr fun value => ?_
    split
    · cases given with
      | none => cases unsigned? value <;> rfl
      | some m => rfl
    · rfl
  · rintro more rfl
    exact opens rfl

/-- A field is read where one stands, unless it gives the depth again. -/
theorem field?_eq_some_iff : field? unknown given cs = some (depth, rest) ↔
    ∃ own, Field unknown cs own rest ∧ depth.toList = given.toList ++ own.toList := by
  constructor
  · intro read
    obtain ⟨⟨name, after⟩, named, read⟩ := Option.bind_eq_some_iff.1 read
    obtain ⟨value, colon, read⟩ := Option.bind_eq_some_iff.1 read
    rw [name?_eq_some_iff] at named
    obtain ⟨behind, space, space', solid⟩ := (skipSpace_token_iff (by decide)).1 colon
    split at read
    next own =>
      rw [show name = _ from own] at named
      split at read
      next integer _ _ =>
        cases read
        exact ⟨some _, .depth named space space' (integer?_eq_some_iff.1 integer), rfl⟩
      next => cases read
    next other =>
      obtain ⟨rest, skipped, ⟨⟩⟩ := Option.map_eq_some_iff.1 read
      exact ⟨none, .other named other space space' solid skipped, (List.append_nil _).symm⟩
  · rintro ⟨own, field, eq⟩
    cases field with
    | @depth after behind value _ n named space space' integer =>
      have colon : (skipSpace after).bind (token ':') = some value :=
        (skipSpace_token_iff (by decide)).2 ⟨behind, space, space', integer.solid⟩
      cases given with
      | some m => cases depth <;> cases eq
      | none =>
        cases depth with
        | none => cases eq
        | some n' =>
          cases eq
          simp only [field?, name?_eq_some_iff.2 named, colon, unsigned?,
            integer?_eq_some_iff.2 integer, Option.bind_eq_bind, Option.bind_some, if_pos]
    | @other after behind value _ name named other space space' solid skipped =>
      have colon : (skipSpace after).bind (token ':') = some value :=
        (skipSpace_token_iff (by decide)).2 ⟨behind, space, space', solid⟩
      have same : depth = given := by
        cases depth <;> cases given <;> simp_all
      simp only [field?, name?_eq_some_iff.2 named, colon, skipped, same, if_neg other,
        Option.bind_eq_bind, Option.bind_some, Option.map_some]

theorem Field.exists_cons (field : Field unknown cs depth rest) :
    ∃ c more, cs = c :: more ∧ isNameChar c := by
  cases field with
  | depth named => exact named.exists_cons
  | other named => exact named.exists_cons

theorem Field.suffix (consumes : Consumes unknown) (field : Field unknown cs depth rest) :
    rest <:+ cs := by
  have through {name : List Char} {after behind value : Rest} (named : Named cs name after)
      (space : Space after (':' :: behind)) (space' : Space behind value) : value <:+ cs :=
    ((space'.suffix.trans (List.suffix_cons _ _)).trans space.suffix).trans named.suffix
  cases field with
  | depth named space space' integer => exact integer.suffix.trans (through named space space')
  | other named _ space space' _ skipped =>
    exact (consumes skipped).trans (through named space space')

theorem Field.solid (field : Field unknown cs depth rest) : Solid cs := by
  obtain ⟨c, more, rfl, char⟩ := field.exists_cons
  exact solid_of_isNameChar char

theorem Fields.solid (fields : Fields unknown cs depths rest) : Solid cs := by
  cases fields with
  | none => exact solid_cons.2 (by decide)
  | last field => exact field.solid
  | next field => exact field.solid

theorem exists_toList {depths : List Nat} (few : depths.length ≤ 1) :
    ∃ depth : Option Nat, depth.toList = depths := by
  match depths with
  | [] => exact ⟨none, rfl⟩
  | [n] => exact ⟨some n, rfl⟩

theorem length_toList (depth : Option Nat) : depth.toList.length ≤ 1 := by
  cases depth <;> simp

/-- Fields are read where they stand, unless they give the depth more than once. -/
theorem fields_of_fields? (read : fields? unknown fuel given cs = some (depth, rest)) :
    ∃ depths, Fields unknown cs depths rest ∧ depth.toList = given.toList ++ depths := by
  induction fuel generalizing given cs with
  | zero => cases read
  | succ fuel ih =>
    by_cases closed : cs.head? = some ')'
    · obtain ⟨cs, rfl⟩ := List.head?_eq_some_iff.1 closed
      cases read
      exact ⟨[], .none, (List.append_nil _).symm⟩
    rw [fields?_succ closed] at read
    obtain ⟨⟨between, after⟩, first, read⟩ := Option.bind_eq_some_iff.1 read
    obtain ⟨stop, skipped, read⟩ := Option.bind_eq_some_iff.1 read
    obtain ⟨own, field, eq⟩ := field?_eq_some_iff.1 first
    have space : Space after stop := (skipSpace_eq_some_iff.1 skipped).1
    split at read
    next behind =>
      obtain ⟨more, skipped', read⟩ := Option.bind_eq_some_iff.1 read
      obtain ⟨depths, fields, eq'⟩ := ih read
      refine ⟨_, .next field space (skipSpace_eq_some_iff.1 skipped').1 fields, ?_⟩
      rw [eq', eq, List.append_assoc]
    next =>
      cases read
      exact ⟨_, .last field space, eq⟩
    next => cases read

theorem Fields.fields?_eq (consumes : Consumes unknown) (fields : Fields unknown cs depths rest)
    (enough : cs.length < fuel) (eq : depth.toList = given.toList ++ depths) :
    fields? unknown fuel given cs = some (depth, rest) := by
  have opens {cs after : Rest} {own : Option Nat} (field : Field unknown cs own after) :
      cs.head? ≠ some ')' := by
    obtain ⟨c, more, rfl, char⟩ := field.exists_cons
    rintro ⟨⟩
    cases char
  induction fields generalizing fuel given with
  | none =>
    cases fuel with
    | zero => omega
    | succ fuel =>
      have same : depth = given := by
        cases depth <;> cases given <;> simp_all
      rw [fields?, same]
  | last field space =>
    cases fuel with
    | zero => omega
    | succ fuel =>
      have stop := skipSpace_eq_some_iff.2 ⟨space, solid_cons.2 (by decide)⟩
      simp only [fields?_succ (opens field), field?_eq_some_iff.2 ⟨_, field, eq⟩, stop,
        Option.bind_eq_bind, Option.bind_some]
  | @next cs after behind more rest own depths field space space' fields ih =>
    cases fuel with
    | zero => omega
    | succ fuel =>
      have few : (given.toList ++ own.toList).length ≤ 1 := by
        have := length_toList depth
        rw [eq] at this
        simp only [List.length_append] at this ⊢
        omega
      obtain ⟨between, eq'⟩ := exists_toList few
      have stop := skipSpace_eq_some_iff.2 ⟨space, solid_cons.2 (by decide)⟩
      have shorter : more.length < cs.length := by
        have first := (field.suffix consumes).length_le
        have second := space.suffix.length_le
        have third := space'.suffix.length_le
        simp only [List.length_cons] at second
        omega
      have others : fields? unknown fuel between more = some (depth, rest) :=
        ih (by omega) (by rw [eq, eq', List.append_assoc])
      simp only [fields?_succ (opens field), field?_eq_some_iff.2 ⟨_, field, eq'⟩, stop,
        skipSpace_eq_some_iff.2 ⟨space', fields.solid⟩, Option.bind_eq_bind, Option.bind_some,
        others]

theorem Field.unique {own own' : Option Nat} {rest' : Rest} (field : Field unknown cs own rest)
    (field' : Field unknown cs own' rest') : own = own' ∧ rest = rest' := by
  have read : field? unknown none cs = some (own, rest) := field?_eq_some_iff.2 ⟨own, field, rfl⟩
  have read' : field? unknown none cs = some (own', rest') :=
    field?_eq_some_iff.2 ⟨own', field', rfl⟩
  cases read.symm.trans read'
  exact ⟨rfl, rfl⟩

theorem Space.unique {rest' : Rest} (space : Space cs rest) (solid : Solid rest)
    (space' : Space cs rest') (solid' : Solid rest') : rest = rest' :=
  Option.some.inj ((skipSpace_eq_some_iff.2 ⟨space, solid⟩).symm.trans
    (skipSpace_eq_some_iff.2 ⟨space', solid'⟩))

theorem Field.fields_cases {own : Option Nat} (field : Field unknown cs own after)
    (fields : Fields unknown cs depths rest) :
    (Space after (')' :: rest) ∧ depths = own.toList) ∨ ∃ behind more others,
      Space after (',' :: behind) ∧ Space behind more ∧ Fields unknown more others rest ∧
        depths = own.toList ++ others := by
  cases fields with
  | none =>
    obtain ⟨c, more, ⟨⟩, char⟩ := field.exists_cons
    cases char
  | last field' space =>
    obtain ⟨rfl, rfl⟩ := field.unique field'
    exact .inl ⟨space, rfl⟩
  | next field' space space' fields =>
    obtain ⟨rfl, rfl⟩ := field.unique field'
    exact .inr ⟨_, _, _, space, space', fields, rfl⟩

theorem Fields.unique {depths' : List Nat} {rest' : Rest} (fields : Fields unknown cs depths rest)
    (fields' : Fields unknown cs depths' rest') : depths = depths' ∧ rest = rest' := by
  have solid {c : Char} {cs : Rest} (stop : c = ',' ∨ c = ')') : Solid (c :: cs) := by
    rcases stop with rfl | rfl <;> exact solid_cons.2 (by decide)
  induction fields generalizing depths' with
  | none =>
    cases fields' with
    | none => exact ⟨rfl, rfl⟩
    | last field | next field =>
      obtain ⟨c, more, ⟨⟩, char⟩ := field.exists_cons
      cases char
  | last field space =>
    obtain ⟨space', rfl⟩ | ⟨_, _, _, space', -⟩ := field.fields_cases fields'
    · cases space.unique (solid (.inr rfl)) space' (solid (.inr rfl))
      exact ⟨rfl, rfl⟩
    · cases space.unique (solid (.inr rfl)) space' (solid (.inl rfl))
  | next field space between fields ih =>
    obtain ⟨space', rfl⟩ | ⟨_, _, _, space', between', others, rfl⟩ := field.fields_cases fields'
    · cases space.unique (solid (.inl rfl)) space' (solid (.inr rfl))
    · cases space.unique (solid (.inl rfl)) space' (solid (.inl rfl))
      cases between.unique fields.solid between' others.solid
      obtain ⟨rfl, rfl⟩ := ih others
      exact ⟨rfl, rfl⟩

/-! ## Settings -/

def opened? (cs : Rest) : Option Rest :=
  (match name? cs with
    | some (name, cs) => if name = typeName.toList then skipSpace cs else none
    | none => some cs).bind (token '(')

theorem opened?_eq_some_iff : opened? cs = some rest ↔
    ∃ behind, Opened cs behind ∧ Space behind rest ∧ Solid rest := by
  unfold opened?
  constructor
  · intro found
    obtain ⟨between, front, found⟩ := Option.bind_eq_some_iff.1 found
    obtain ⟨behind, rfl, after⟩ := token_eq_some_iff.1 found
    split at front
    next named =>
      obtain ⟨rfl, skipped⟩ := Option.ite_none_right_eq_some.1 front
      exact ⟨behind, .titled (name?_eq_some_iff.1 named) (skipSpace_eq_some_iff.1 skipped).1, after⟩
    next =>
      cases front
      exact ⟨behind, .bare, after⟩
  · rintro ⟨behind, opened, after⟩
    have stop : token '(' ('(' :: behind) = some rest := token_eq_some_iff.2 ⟨behind, rfl, after⟩
    cases opened with
    | bare => exact stop
    | titled named space =>
      rw [named.name?_eq]
      simp only [if_pos]
      rw [skipSpace_eq_some_iff.2 ⟨space, solid_cons.2 (by decide)⟩]
      exact stop

theorem read?_eq : read? text = (do
    let front ← skipSpace text.toList
    let (enabled, opening) ← attributes? (front.length + 1) front
    let inside ← opened? opening
    let (depth, rest) ← fields? (skipUnknown enabled inside) (inside.length + 1) none inside
    match ← skipSpace rest with
    | [] => return { maxDepth := depth.getD Graph.defaultLimit }
    | _ => none) := by
  refine bind_congr fun front => bind_congr fun ⟨enabled, opening⟩ => ?_
  simp only [opened?]
  cases name? opening with
  | none => rfl
  | some found =>
    simp only
    split
    · cases skipSpace found.2 <;> rfl
    · rfl

/-- Settings are read from a text exactly if its fields give the depth once or not at all. -/
theorem read?_eq_some_iff : read? text = some s ↔ ∃ depth : Option Nat,
    Lists text.toList depth.toList ∧ s.maxDepth = depth.getD Graph.defaultLimit := by
  rw [read?_eq]
  constructor
  · intro read
    obtain ⟨front, skipped, read⟩ := Option.bind_eq_some_iff.1 read
    obtain ⟨⟨enabled, opening⟩, attributes, read⟩ := Option.bind_eq_some_iff.1 read
    obtain ⟨inside, opened, read⟩ := Option.bind_eq_some_iff.1 read
    obtain ⟨⟨depth, rest⟩, fields, read⟩ := Option.bind_eq_some_iff.1 read
    obtain ⟨last, ends, read⟩ := Option.bind_eq_some_iff.1 read
    obtain ⟨space, solid⟩ := skipSpace_eq_some_iff.1 skipped
    obtain ⟨behind, opened, space', -⟩ := opened?_eq_some_iff.1 opened
    obtain ⟨depths, fields, rfl⟩ := fields_of_fields? fields
    split at read
    next =>
      cases read
      exact ⟨depth, ⟨front, enabled, opening, behind, inside, rest, space, solid, attributes,
        opened, space', fields, (skipSpace_eq_some_iff.1 ends).1⟩, rfl⟩
    next => cases read
  · rintro ⟨depth, ⟨front, enabled, opening, behind, inside, rest, space, solid, attributes, opened,
      space', fields, ends⟩, same⟩
    have read : fields? (skipUnknown enabled inside) (inside.length + 1) none inside =
        some (depth, rest) :=
      fields.fields?_eq (consumes_skipValue _ _ _) (Nat.lt_succ_self _) rfl
    have reached : opened? opening = some inside :=
      opened?_eq_some_iff.2 ⟨behind, opened, space', fields.solid⟩
    have eq : s = { maxDepth := depth.getD Graph.defaultLimit } := by rw [← same]
    simp only [skipSpace_eq_some_iff.2 ⟨space, solid⟩, attributes, reached, read,
      skipSpace_eq_some_iff.2 ⟨ends, avoids_nil _⟩, Option.bind_eq_bind, Option.bind_some, eq]
    rfl

/-- A text gives the depths of its fields in one way only. -/
theorem Lists.unique {text : List Char} {depths' : List Nat} (lists : Lists text depths)
    (lists' : Lists text depths') : depths = depths' := by
  obtain ⟨front, _, _, behind, inside, _, space, solid, attributes, opened, space', fields, -⟩ :=
    lists
  obtain ⟨front', _, _, behind', inside', _, start, solid', found, opened', start', fields', -⟩ :=
    lists'
  cases space.unique solid start solid'
  cases attributes.symm.trans found
  cases (opened?_eq_some_iff.2 ⟨behind, opened, space', fields.solid⟩).symm.trans
    (opened?_eq_some_iff.2 ⟨behind', opened', start', fields'.solid⟩)
  exact (fields.unique fields').1

/-- A depth that is given again is an error. -/
theorem Lists.read?_eq_none (lists : Lists text.toList depths) (again : 1 < depths.length) :
    read? text = none := by
  refine Option.eq_none_iff_forall_ne_some.2 fun s read => ?_
  obtain ⟨depth, once, -⟩ := read?_eq_some_iff.1 read
  have few := length_toList depth
  rw [once.unique lists] at few
  omega

theorem Fields.lt_of_mem (fields : Fields unknown cs depths rest) (mem : n ∈ depths) :
    n < UInt64.size := by
  have each {cs after : Rest} {own : Option Nat} (field : Field unknown cs own after)
      (mem : n ∈ own.toList) : n < UInt64.size := by
    cases field with
    | depth _ _ _ integer =>
      obtain ⟨base, digits, -, -, -, -, -, -, small⟩ := integer
      simpa [List.mem_singleton.1 mem] using small
    | other => cases mem
  induction fields with
  | none => cases mem
  | last field => exact each field mem
  | next field _ _ _ ih => exact (List.mem_append.1 mem).elim (each field) ih

/-- The depth of settings that are read fits 64 bits. -/
theorem maxDepth_lt_of_read? (read : read? text = some s) : s.maxDepth < UInt64.size := by
  obtain ⟨depth, lists, eq⟩ := read?_eq_some_iff.1 read
  rw [eq]
  cases depth with
  | none => decide
  | some n =>
    obtain ⟨_, _, _, _, _, _, -, -, -, -, -, fields, -⟩ := lists
    exact fields.lt_of_mem (List.mem_singleton.2 rfl)

theorem Opened.exists_cons (opened : Opened cs rest) :
    ∃ c more, cs = c :: more ∧ (c = '(' ∨ isNameChar c) := by
  cases opened with
  | bare => exact ⟨'(', rest, rfl, .inl rfl⟩
  | titled named =>
    obtain ⟨c, more, rfl, char⟩ := named.exists_cons
    exact ⟨c, more, rfl, .inr char⟩

/-- Without attributes and unknown fields, the depth is read that the one field gives. -/
theorem read?_of_fields {inside : Rest} (start : Space text.toList front)
    (opened : Opened front behind) (space : Space behind inside)
    (fields : ∀ unknown, Fields unknown inside depth.toList rest) (ends : Space rest []) :
    read? text = some { maxDepth := depth.getD Graph.defaultLimit } := by
  obtain ⟨c, more, rfl, char⟩ := opened.exists_cons
  have solid : Solid (c :: more) := by
    rcases char with rfl | char
    · exact solid_cons.2 (by decide)
    · exact solid_of_isNameChar char
  have plain : attributes? ((c :: more).length + 1) (c :: more) = some ([], c :: more) := by
    rw [attributes?]
    rintro cs ⟨⟩
    rcases char with eq | char
    · cases eq
    · cases char
  exact read?_eq_some_iff.2 ⟨depth, ⟨_, _, _, _, _, _, start, solid, plain, opened, space,
    fields _, ends⟩, rfl⟩

theorem named_of_word {word : List Char} (start : word.head?.any isNameStart)
    (all : word.all isNameChar) (unmarked : word ≠ ['r']) (ends : Avoids isRawNameChar rest) :
    Named (word ++ rest) word rest := by
  cases word with
  | nil => cases start
  | cons c word =>
    simp only [List.all_cons, Bool.and_eq_true] at all
    exact .plain (by simpa using start) all.2 ends (absurd · unmarked)

/-- Every depth that fits 64 bits is read from its decimal digits. -/
theorem read?_toString (small : n < UInt64.size) :
    read? ("(" ++ maxDepthField ++ ": " ++ toString n ++ ")") = some { maxDepth := n } := by
  have named : Named (maxDepthField.toList ++ ':' :: ' ' :: (Nat.toDigits 10 n ++ [')']))
      maxDepthField.toList (':' :: ' ' :: (Nat.toDigits 10 n ++ [')'])) :=
    named_of_word (by decide) (by decide) (by decide) (avoids_cons.2 (by decide))
  have integer : Integer UInt64.size (Nat.toDigits 10 n ++ [')']) n [')'] :=
    integer_toDigits small (avoids_cons.2 (by decide))
  have field (unknown : Rest → Option Rest) : Field unknown _ (some n) [')'] :=
    .depth named .done (.space (by decide) .done) integer
  have start : ("(" ++ maxDepthField ++ ": " ++ toString n ++ ")").toList =
      '(' :: (maxDepthField.toList ++ ':' :: ' ' :: (Nat.toDigits 10 n ++ [')'])) := by
    have digits : (toString n).toList = Nat.toDigits 10 n := String.toList_ofList
    have opening : "(".toList = ['('] := by decide
    have colon : ": ".toList = [':', ' '] := by decide
    have closing : ")".toList = [')'] := by decide
    simp only [String.toList_append, digits, opening, colon, closing, List.append_assoc,
      List.cons_append, List.nil_append]
  exact read?_of_fields (start ▸ .done) .bare .done (fun unknown => .last (field unknown) .done)
    .done

/-- Where no field is given the depth is the default. -/
example : read? " // nothing\nUnifyConfig ( /* none */ ) " = some {} := by decide +kernel

end FeatureLogic.Settings
