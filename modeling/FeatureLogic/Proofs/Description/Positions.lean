import FeatureLogic.Proofs.Description.Building
import FeatureLogic.Proofs.Description.Completeness
import FeatureLogic.Proofs.Text.Finding

/-!
# Positions of errors

An error of the grammar points behind a part of the text that could have gone on. An error about a
tag points at the tag, because every tag of a description stands in the text where it says. An error
for a text that denotes no structure counts the bytes of the blanks in front, which is the place
behind them exactly if each of them takes one byte.
-/

namespace FeatureLogic

open Text Text.Reader Grammar

/-! ### What stands before an error -/

theorem Description.viable_of_read {text : String} {e : SyntaxError}
    (rejected : read text = .error e) : ∃ cs rest es d, text.toList = cs ++ rest ∧
      e.position = cs.length ∧ Denotes (cs ++ es) d := by
  have follows := (follows_value (text.length + 1)).padded.followedBy follows_endOfText
  unfold read at rejected
  split at rejected
  · cases rejected
  · next r stopped =>
    cases rejected
    obtain ⟨cs, c', es, d, passes, position, _, _, -, whole, padded, rfl⟩ :=
      follows.rejected stopped
    obtain ⟨front, ds, back, rfl, blank, value, blank'⟩ := padded
    refine ⟨cs, c'.rest, es, d.map Tag.id, passes.rest, ?_, ?_⟩
    · exact position.trans (passes.index.trans (Nat.zero_add _))
    · rw [whole, List.append_nil]
      exact ⟨front, ds, back, rfl, blank, value, blank'⟩

theorem Description.position_le_of_read {text : String} {e : SyntaxError}
    (rejected : read text = .error e) : e.position ≤ text.length := by
  obtain ⟨cs, rest, -, -, split, position, -⟩ := viable_of_read rejected
  rw [position, ← String.length_toList, split, List.length_append]
  exact Nat.le_add_right _ _

/-- A text that is rejected could go on from the position of the error to one that is accepted. -/
theorem Description.exists_completion {text : String} {e : SyntaxError}
    (rejected : read text = .error e) : e.position ≤ text.length ∧
      ∃ more d, read (String.ofList (text.toList.take e.position ++ more)) = .ok d := by
  refine ⟨position_le_of_read rejected, ?_⟩
  obtain ⟨cs, rest, es, d, split, position, denotes⟩ := viable_of_read rejected
  rw [← String.toList_ofList (l := cs ++ es)] at denotes
  obtain ⟨d', accepted, -⟩ := exists_read_of_denotes denotes
  refine ⟨es, d', ?_⟩
  rwa [position, split, List.take_left]

/-- Digits with a hyphen in between are no integer. The error points in front of the whole word,
although the hyphen stands further on. -/
theorem Description.hyphenated_completion :
    read "[a=1-2]" = .error ⟨.fault .hyphenated, 3⟩ ∧
      ∃ more d, read (String.ofList ("[a=".toList ++ more)) = .ok d := by
  have rejected : read "[a=1-2]" = .error ⟨.fault .hyphenated, 3⟩ := by decide +kernel
  obtain ⟨-, completion⟩ := Description.exists_completion rejected
  exact ⟨rejected, completion⟩

/-- Is it the grammar that expects this, and not what a description means? -/
def Expectation.Grammatical : Expectation → Prop
  | .fault _ | .kind _ | .oneOf _ => True
  | .boundIdentifier _ | .newIdentifier _ | .bracketed => False

theorem Description.expected_of_read {text : String} {e : SyntaxError}
    (rejected : read text = .error e) : e.expected.Grammatical := by
  unfold read at rejected
  split at rejected
  · cases rejected
  · next r stopped =>
    cases rejected
    unfold SyntaxError.ofRejection
    dsimp only
    split <;> trivial

/-! ### Where tags stand -/

mutual

def Description.tags {τ : Type} : Description τ → List τ
  | .atom _ => []
  | .var _ => []
  | .struct tag features => tag.toList ++ features.tags

def Features.tags {τ : Type} : Features τ → List τ
  | .nil => []
  | .assign _ tag value rest => tag.toList ++ value.tags ++ rest.tags
  | .refer _ tag rest => tag :: rest.tags

end

def FeatureBody.tags {τ : Type} : FeatureBody τ → List τ
  | .assign tag value => tag.toList ++ value.tags
  | .refer tag => [tag]

theorem Features.tags_ofList {τ : Type} (as : List (String × FeatureBody τ)) :
    (Features.ofList as).tags = as.flatMap fun a => a.2.tags := by
  induction as with
  | nil => rfl
  | cons a as ih =>
    obtain ⟨name, body⟩ := a
    cases body <;> simp [Features.ofList, Features.tags, FeatureBody.tags, ih]

def Tag.StandsIn (tag : Tag) (text : List Char) : Prop :=
  ∃ before cs after, text = before ++ cs ++ after ∧ TagText cs tag.id ∧
    tag.start = before.length ∧ tag.stop = (before ++ cs).length

theorem Tag.StandsIn.start_le {tag : Tag} {text : List Char} (stands : tag.StandsIn text) :
    tag.start ≤ text.length := by
  obtain ⟨before, cs, after, split, -, start, -⟩ := stands
  rw [start, split, List.append_assoc, List.length_append]
  exact Nat.le_add_right _ _

namespace Grammar

variable {text : List Char} {v : Reader (Description Tag)}

theorem finds_tag (text : List Char) : Finds text tag (·.StandsIn text) := by
  intro before c t kept c' passes accepted
  obtain ⟨cs, passes', written⟩ := follows_tag.takes _ _ _ _ accepted
  have span : t.start = c.index ∧ t.stop = c'.index := by
    obtain ⟨s, located, rfl⟩ := accept_of_map accepted
    obtain ⟨ds, -, rfl⟩ := accept_of_located located
    exact ⟨rfl, rfl⟩
  have behind := passes.append passes'
  refine ⟨before, cs, c'.rest, behind.rest, written, ?_, ?_⟩
  · rw [span.1, passes.index, Nat.zero_add]
  · rw [span.2, behind.index, Nat.zero_add]

def FindsTags (text : List Char) (v : Reader (Description Tag)) : Prop :=
  Finds text v fun d => ∀ t ∈ d.tags, t.StandsIn text

theorem finds_feature (tags : FindsTags text v) :
    Finds text (feature v) fun r => ∀ t ∈ r.2.tags, t.StandsIn text := by
  have arrow := ((follows_expect '-').before (follows_expect '>')).padded.takes
  have refer : Finds text ((((expect '-').before (expect '>')).padded.before tag).map .refer)
      fun b : FeatureBody Tag => ∀ t ∈ b.tags, t.StandsIn text :=
    ((finds_tag text).before arrow).map fun t stands => List.forall_mem_singleton.2 stands
  have outer := (finds_tag text).optional.followedBy (q := (expect '=').padded)
    follows_optionalTag.takes
  have assign : Finds text ((((optional tag).followedBy (expect '=').padded).andThen v).map
      fun r => .assign r.1 r.2) fun b : FeatureBody Tag => ∀ t ∈ b.tags, t.StandsIn text := by
    refine (outer.andThen (follows_optionalTag.followedBy (follows_token '=')).takes tags).map ?_
    rintro ⟨t, d⟩ ⟨stands, stand⟩
    exact List.forall_mem_append.2 ⟨fun t mem => stands t (Option.mem_toList.1 mem), stand⟩
  have name : Finds text name fun _ => True := finds_of_forall fun _ => trivial
  exact (name.andThen follows_name.takes (refer.orElse assign)).imp fun r found => found.2

theorem finds_struct (values : Follows v fun cs d => ValueText cs (d.map Tag.id))
    (tags : FindsTags text v) : FindsTags text (struct v) := by
  have features := (finds_feature tags).separatedBy (follows_feature values).takes
    (follows_token ',').takes
  have body := (features.before (follows_token '[').takes).followedBy (q := (expect ']').padded)
    ((follows_token '[').before (follows_features values)).takes
  refine ((finds_tag text).optional.andThen follows_optionalTag.takes body).map ?_
  rintro ⟨t, as⟩ ⟨stands, stand⟩
  refine List.forall_mem_append.2 ⟨fun t mem => stands t (Option.mem_toList.1 mem), ?_⟩
  intro t mem
  rw [Features.tags_ofList] at mem
  obtain ⟨a, listed, mem⟩ := List.mem_flatMap.1 mem
  exact stand a listed t mem

theorem findsTags_value (text : List Char) (depth : Nat) : FindsTags text (value depth) := by
  -- what is no structure has no tags
  have leaf {α : Type} (p : Reader α) {f : α → Description Tag} (none : ∀ a, (f a).tags = [])
      (l : Label) : FindsTags text ((p.map f).labelled l) := by
    have all : Finds text p fun _ => True := finds_of_forall fun _ => trivial
    refine (all.map fun a _ t mem => ?_).labelled l
    rw [none a] at mem
    cases mem
  induction depth with
  | zero =>
    intro before c d kept c' passes accepted
    cases accepted
  | succ depth ih =>
    exact (((finds_struct (follows_value depth) ih).orElse (leaf _ (fun _ => rfl) .string)).orElse
      (leaf _ (fun _ => rfl) .variable)).orElse (leaf _ (fun _ => rfl) .value)

end Grammar

theorem Description.standsIn_of_read {text : String} {d : Description Tag}
    (accepted : read text = .ok d) : ∀ t ∈ d.tags, t.StandsIn text.toList := by
  have whole := (findsTags_value text.toList (text.length + 1)).padded.followedBy
    (q := endOfText) (follows_value _).padded.takes
  unfold read at accepted
  split at accepted
  · next read =>
    cases accepted
    exact whole [] _ _ _ _ (.refl _) read
  · cases accepted

/-! ### Errors about tags -/

def SyntaxError.Blames (e : SyntaxError) (tags : List Tag) : Prop :=
  ∃ t ∈ tags, e = ⟨.newIdentifier t.id, t.start⟩ ∨ e = ⟨.boundIdentifier t.id, t.start⟩

namespace Build

variable {α β : Type} {tags tags' : List Tag} {step : Build α}

def FailsAt (tags : List Tag) (step : Build α) : Prop :=
  ∀ st e st', step st = .error e st' → e.Blames tags

theorem FailsAt.mono (fails : FailsAt tags step) (more : tags ⊆ tags') : FailsAt tags' step := by
  intro st e st' failed
  obtain ⟨t, mem, about⟩ := fails st e st' failed
  exact ⟨t, more mem, about⟩

theorem FailsAt.bind {next : α → Build β} (first : FailsAt tags step)
    (second : ∀ a, FailsAt tags (next a)) : FailsAt tags (step >>= next) := by
  intro st e st' failed
  change EStateM.bind step next st = _ at failed
  rw [EStateM.bind] at failed
  cases ran : step st with
  | ok a st₁ =>
    rw [ran] at failed
    exact second a st₁ e st' failed
  | error e₁ st₁ =>
    rw [ran] at failed
    cases failed
    exact first st e st' ran

theorem failsAt_introduce? (tag : Option Tag) (v : Value) :
    FailsAt tag.toList (introduce? tag v) := by
  cases tag with
  | none => exact nofun
  | some tag =>
    intro st e st' failed
    change introduce tag v st = _ at failed
    rw [introduce_apply] at failed
    split at failed <;> cases failed
    exact ⟨tag, List.mem_singleton_self tag, .inl rfl⟩

theorem failsAt_refer (tag : Tag) : FailsAt [tag] (refer tag) := by
  intro st e st' failed
  rw [refer_apply] at failed
  split at failed <;> cases failed
  exact ⟨tag, List.mem_singleton_self tag, .inr rfl⟩

end Build

open Build

mutual

/-- Building a description fails only for one of its tags, or for the tag written before it. -/
theorem Description.failsAt_build (d : Description Tag) (outer : Option Tag) :
    FailsAt (outer.toList ++ d.tags) (d.build outer) := by
  have before {tags : List Tag} (v : Value) : FailsAt (outer.toList ++ tags) (introduce? outer v) :=
    (failsAt_introduce? outer v).mono (List.subset_append_left _ _)
  match d with
  | .atom a => exact (before _).bind fun _ => nofun
  | .var name => exact FailsAt.bind nofun fun x => (before _).bind fun _ => nofun
  | .struct tag features =>
    have own (v : Value) : FailsAt (outer.toList ++ (tag.toList ++ features.tags))
        (introduce? tag v) :=
      (failsAt_introduce? tag v).mono (by simp)
    have inner (s : StructId) : FailsAt (outer.toList ++ (tag.toList ++ features.tags))
        (features.build s) := (features.failsAt_build s).mono (by simp)
    exact FailsAt.bind nofun fun s => (before _).bind fun _ => (own _).bind fun _ =>
      (inner s).bind fun _ => nofun

theorem Features.failsAt_build (features : Features Tag) (s : StructId) :
    FailsAt features.tags (features.build s) := by
  match features with
  | .nil => exact nofun
  | .assign name tag value rest =>
    have first : FailsAt (tag.toList ++ value.tags ++ rest.tags) (value.build tag) :=
      (value.failsAt_build tag).mono (List.subset_append_left _ _)
    have last : FailsAt (tag.toList ++ value.tags ++ rest.tags) (rest.build s) :=
      (rest.failsAt_build s).mono (List.subset_append_right _ _)
    exact first.bind fun v => FailsAt.bind nofun fun _ => last
  | .refer name tag rest =>
    have first : FailsAt (tag :: rest.tags) (refer tag) := (failsAt_refer tag).mono (by simp)
    have last : FailsAt (tag :: rest.tags) (rest.build s) :=
      (rest.failsAt_build s).mono (List.subset_cons_self _ _)
    exact first.bind fun v => FailsAt.bind nofun fun _ => last

end

/-! ### Blanks in front -/

namespace Text

theorem utf8ByteSize_ofList_iff (cs : List Char) : cs.length ≤ (String.ofList cs).utf8ByteSize ∧
    ((String.ofList cs).utf8ByteSize = cs.length ↔ ∀ c ∈ cs, c.utf8Size = 1) := by
  induction cs with
  | nil => simp
  | cons c cs ih =>
    have positive := c.utf8Size_pos
    rw [String.ofList_cons, String.utf8ByteSize_append, String.utf8ByteSize_singleton,
      List.length_cons, List.forall_mem_cons, ← ih.2]
    omega

end Text

theorem Grammar.ValueText.exists_visible {cs : List Char} {d : Description Nat}
    (text : ValueText cs d) : ∃ c ∈ cs, isBlank c = false := by
  cases text with
  | struct => exact ⟨'[', by simp, by decide⟩
  | @string quote es ds isQuote quoted =>
    refine ⟨quote, List.mem_cons_self, ?_⟩
    rcases isQuote with rfl | rfl <;> decide
  | var identifier => exact ⟨'?', List.mem_cons_self, by decide⟩
  | word word =>
    obtain ⟨nonempty, chars⟩ := word.chars
    obtain ⟨c, mem⟩ := List.exists_mem_of_ne_nil _ nonempty
    exact ⟨c, mem, isBlank_of_isWordChar (chars c mem)⟩

theorem Description.exists_front_of_read {text : String} {d : Description Tag}
    (accepted : read text = .ok d) : ∃ c rest, isBlank c = false ∧
      text.toList = text.toList.takeWhile isBlank ++ c :: rest := by
  obtain ⟨a, cs, b, eq, -, value, -⟩ := denotes_of_read accepted
  obtain ⟨x, mem, visible⟩ := value.exists_visible
  have split : text.toList.takeWhile isBlank ++ trimmed text.toList = text.toList :=
    List.takeWhile_append_dropWhile
  cases behind : trimmed text.toList with
  | nil =>
    rw [behind, List.append_nil] at split
    have inside : x ∈ text.toList.takeWhile isBlank := by
      rw [split, eq]
      simp [mem]
    cases visible.symm.trans (List.mem_takeWhile_imp inside)
  | cons c rest =>
    have avoids := avoids_trimmed text.toList
    rw [behind] at split avoids
    exact ⟨c, rest, avoids_cons.1 avoids, split.symm⟩

/-! ### Reading a structure -/

namespace Graph

variable {g h : Graph} {text : String} {e : SyntaxError}

theorem blames_of_build {d : Description Tag}
    (failed : ((g.build [] d).1, (g.build [] d).2.2) = (.error e, h)) : e.Blames d.tags := by
  obtain ⟨result, -⟩ := Prod.mk.inj failed
  unfold build at result
  cases ran : d.build none { graph := g, introduced := [] } with
  | ok v st =>
    rw [ran] at result
    cases result
  | error e' st =>
    rw [ran] at result
    cases result
    exact d.failsAt_build none _ _ _ ran

theorem exists_cause_of_readStruct (failed : g.readStruct text = (.error e, h)) :
    Description.read text = .error e ∨ ∃ d, Description.read text = .ok d ∧ (e.Blames d.tags ∨
      e = ⟨.bracketed, (String.ofList (text.toList.takeWhile isBlank)).utf8ByteSize⟩) := by
  unfold readStruct at failed
  cases read : Description.read text with
  | error e' =>
    rw [read] at failed
    cases failed
    exact .inl rfl
  | ok d =>
    rw [read] at failed
    refine .inr ⟨d, rfl, ?_⟩
    cases d with
    | struct tag features => exact .inl (blames_of_build failed)
    | _ =>
      cases failed
      exact .inr rfl

/-- Where the error points for a text that is not read as a structure: into the text or behind it,
and to a tag if it is about one. Where a structure was expected, it points to the first visible
character exactly if each of the blanks in front takes one byte. -/
theorem readStruct_position (failed : g.readStruct text = (.error e, h)) :
    (e.expected ≠ .bracketed → e.position ≤ text.length) ∧
    (∀ id, e.expected = .newIdentifier id ∨ e.expected = .boundIdentifier id →
      ∃ t : Tag, t.id = id ∧ t.start = e.position ∧ t.StandsIn text.toList) ∧
    (e.expected = .bracketed → ∃ blanks c rest, text.toList = blanks ++ c :: rest ∧
      (∀ x ∈ blanks, isBlank x) ∧ isBlank c = false ∧
      e.position = (String.ofList blanks).utf8ByteSize ∧
      (e.position = blanks.length ↔ ∀ x ∈ blanks, x.utf8Size = 1)) := by
  rcases exists_cause_of_readStruct failed with rejected | ⟨d, accepted, blames | rfl⟩
  · have kind := Description.expected_of_read rejected
    refine ⟨fun _ => Description.position_le_of_read rejected, fun id about => ?_, fun about => ?_⟩
    · rcases about with about | about <;> rw [about] at kind <;> exact kind.elim
    · rw [about] at kind
      exact kind.elim
  · obtain ⟨t, mem, about⟩ := blames
    have stands := Description.standsIn_of_read accepted t mem
    have within : t.start ≤ text.length := String.length_toList ▸ stands.start_le
    rcases about with rfl | rfl
    · refine ⟨fun _ => within, fun id about => ⟨t, ?_, rfl, stands⟩, nofun⟩
      simpa using about
    · refine ⟨fun _ => within, fun id about => ⟨t, ?_, rfl, stands⟩, nofun⟩
      simpa using about
  · obtain ⟨c, rest, visible, split⟩ := Description.exists_front_of_read accepted
    refine ⟨fun other => absurd rfl other, fun id about => ?_, fun _ => ?_⟩
    · rcases about with about | about <;> cases about
    · exact ⟨_, c, rest, split, fun x mem => List.mem_takeWhile_imp mem, visible, rfl,
        (utf8ByteSize_ofList_iff _).2⟩

/-- A tag that is not introduced is found at its place, and a variable behind its blanks. -/
theorem readStruct_position_shown :
    (∅ : Graph).readStruct "[a->(1)]" = (.error ⟨.boundIdentifier 1, 4⟩, ∅) ∧
    (∃ t : Tag, t.id = 1 ∧ t.start = 4 ∧ t.StandsIn "[a->(1)]".toList) ∧
    (∅ : Graph).readStruct "  ?x" = (.error ⟨.bracketed, 2⟩, ∅) ∧
    ∃ blanks c rest, "  ?x".toList = blanks ++ c :: rest ∧ (∀ x ∈ blanks, isBlank x) ∧
      isBlank c = false ∧ 2 = (String.ofList blanks).utf8ByteSize := by
  have untagged : (∅ : Graph).readStruct "[a->(1)]" = (.error ⟨.boundIdentifier 1, 4⟩, ∅) := by
    rfl
  have unbracketed : (∅ : Graph).readStruct "  ?x" = (.error ⟨.bracketed, 2⟩, ∅) := by
    rfl
  obtain ⟨-, tag, -⟩ := readStruct_position untagged
  obtain ⟨-, -, front⟩ := readStruct_position unbracketed
  obtain ⟨blanks, c, rest, split, blank, visible, position, -⟩ := front rfl
  exact ⟨untagged, tag 1 (.inr rfl), unbracketed, blanks, c, rest, split, blank, visible, position⟩

/-- Two ideographic spaces take six bytes, so that the error for the variable behind them points
behind the end of the text, and not to the third character. -/
theorem readStruct_misplaced :
    (∅ : Graph).readStruct "\u3000\u3000?x" = (.error ⟨.bracketed, 6⟩, ∅) ∧
      "\u3000\u3000?x".length < 6 ∧ ("\u3000\u3000?x".toList.takeWhile isBlank).length = 2 :=
  ⟨by rfl, by decide, by decide⟩

end Graph

end FeatureLogic
