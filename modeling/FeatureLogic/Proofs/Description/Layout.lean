import FeatureLogic.Proofs.Description.Mentions
import FeatureLogic.Proofs.Description.Recovery
import FeatureLogic.Proofs.Graph.Extension

/-!
# Descriptions and their layout

A description is built as it is laid out, unless one of its mentions of tags is misplaced. Then it
fails at the first such mention.
-/

namespace FeatureLogic

open FeatureLogic.Graph Build

/-! ### Building step by step -/

namespace Build

variable {α β : Type} {earlier ms ms' : List Mention} {st st₁ st' : BuildState}

def Remembers (earlier : List Mention) (st : BuildState) : Prop :=
  st.introduced.map Prod.fst = (introducedIds earlier).reverse

theorem Remembers.lookup_eq_none_iff (remembers : Remembers earlier st) (id : Nat) :
    st.introduced.lookup id = none ↔ id ∉ introducedIds earlier := by
  rw [List.lookup_eq_none_iff, ← List.mem_reverse, ← remembers]
  constructor
  · intro differs listed
    obtain ⟨e, mem, rfl⟩ := List.mem_map.1 listed
    exact absurd (differs e mem) (by simp)
  · intro absent e mem
    exact bne_iff_ne.2 fun eq => absent (eq ▸ List.mem_map_of_mem mem)

/-- Does a step fail just at the first misplaced one of the mentions that it comes by, and end well
if there is none? -/
def Heeds (earlier ms : List Mention) (Good : α → BuildState → Prop) (step : Build α)
    (st : BuildState) : Prop :=
  match Mention.firstMisplaced? earlier ms, step st with
  | some m, .error e _ => e = m.error
  | none, .ok a st' => Good a st'
  | _, _ => False

variable {Good : α → BuildState → Prop} {Good' : β → BuildState → Prop} {step : Build α}
  {next : α → Build β}

theorem Heeds.bind (heeds : Heeds earlier ms Good step st)
    (goesOn : ∀ a st', Good a st' → Heeds (earlier ++ ms) ms' Good' (next a) st') :
    Heeds earlier (ms ++ ms') Good' (step >>= next) st := by
  unfold Heeds at heeds
  split at heeds
  · next m e st₁ first ran =>
    have fails : (step >>= next) st = .error e st₁ := by
      change EStateM.bind step next st = _
      rw [EStateM.bind, ran]
    unfold Heeds
    rw [Mention.firstMisplaced?_append, first, fails]
    exact heeds
  · next a st₁ none ran =>
    have rest := goesOn a st₁ heeds
    unfold Heeds at rest ⊢
    rwa [Mention.firstMisplaced?_append, none, Option.none_or, bind_of_ok ran]
  · exact heeds.elim

theorem Heeds.imp {Good'' : α → BuildState → Prop} (heeds : Heeds earlier ms Good step st)
    (imp : ∀ a st', Good a st' → Good'' a st') : Heeds earlier ms Good'' step st := by
  unfold Heeds at heeds ⊢
  split at heeds
  · exact heeds
  · exact imp _ _ heeds
  · exact heeds.elim

theorem heeds_bind_of_ok {a : α} (ran : step st = .ok a st₁)
    (rest : Heeds earlier ms Good' (next a) st₁) :
    Heeds earlier ms Good' (step >>= next) st := by
  unfold Heeds at rest ⊢
  rwa [bind_of_ok ran]

theorem Heeds.returns {b : β} (heeds : Heeds earlier ms Good step st)
    (good : ∀ a st', Good a st' → Good' b st') :
    Heeds earlier ms Good' (step >>= fun _ => pure b) st := by
  rw [← List.append_nil ms]
  exact heeds.bind fun a st' ended => good a st' ended

def Knows (known : Nat → Value) (st : BuildState) : Prop := ∀ e ∈ st.introduced, known e.1 = e.2

def Marks (marks : List (Nat × Value)) (st st' : BuildState) : Prop :=
  st'.introduced = marks.reverse ++ st.introduced

theorem Marks.trans {marks marks' : List (Nat × Value)} (first : Marks marks st st₁)
    (second : Marks marks' st₁ st') : Marks (marks ++ marks') st st' := by
  rw [Marks, second, first, List.reverse_append, List.append_assoc]

theorem Marks.remembers {marks : List (Nat × Value)} (introduces : Marks marks st st')
    (ids : marks.map Prod.fst = introducedIds ms) (remembers : Remembers earlier st) :
    Remembers (earlier ++ ms) st' := by
  rw [Remembers, introduces, List.map_append, List.map_reverse, ids, remembers,
    introducedIds_append, List.reverse_append]

theorem Marks.knows {marks : List (Nat × Value)} {known : Nat → Value}
    (introduces : Marks marks st st') (knows : Knows known st') : Knows known st := by
  intro e mem
  refine knows e ?_
  rw [introduces]
  exact List.mem_append_right _ mem

def outerMentions (outer : Option Tag) : List Mention := outer.toList.map .introduction

def outerMarks (outer : Option Tag) (v : Value) : List (Nat × Value) :=
  outer.toList.map fun t => (t.id, v)

theorem fst_outerMarks (outer : Option Tag) (v : Value) :
    (outerMarks outer v).map Prod.fst = introducedIds (outerMentions outer) := by
  cases outer <;> rfl

theorem heeds_introduce? (remembers : Remembers earlier st) (tag : Option Tag) (v : Value) :
    Heeds earlier (outerMentions tag)
      (fun _ st' => st'.graph = st.graph ∧ Marks (outerMarks tag v) st st')
      (introduce? tag v) st := by
  cases tag with
  | none => exact ⟨rfl, rfl⟩
  | some tag =>
    have iff := remembers.lookup_eq_none_iff tag.id
    change Heeds earlier [.introduction tag] _ (introduce tag v) st
    unfold Heeds
    rw [introduce_apply, Mention.firstMisplaced?]
    cases known : st.introduced.lookup tag.id with
    | none =>
      have placed : ¬ Mention.Misplaced earlier (.introduction tag) := iff.1 known
      rw [if_neg placed]
      exact ⟨rfl, rfl⟩
    | some w =>
      have misplaced : Mention.Misplaced earlier (.introduction tag) := by
        by_contra absent
        cases known.symm.trans (iff.2 absent)
      rw [if_pos misplaced]
      rfl

theorem heeds_refer (remembers : Remembers earlier st) (tag : Tag) :
    Heeds earlier [.reference tag] (fun v st' => st' = st ∧ st.introduced.lookup tag.id = some v)
      (refer tag) st := by
  have iff := remembers.lookup_eq_none_iff tag.id
  unfold Heeds
  rw [refer_apply, Mention.firstMisplaced?]
  cases known : st.introduced.lookup tag.id with
  | none =>
    have misplaced : Mention.Misplaced earlier (.reference tag) := iff.1 known
    rw [if_pos misplaced]
    rfl
  | some w =>
    have placed : ¬ Mention.Misplaced earlier (.reference tag) := by
      intro absent
      cases known.symm.trans (iff.2 absent)
    rw [if_neg placed]
    exact ⟨rfl, rfl⟩

structure LaysOut (outer : Option Tag) (d : Description Tag) (st : BuildState) (v : Value)
    (st' : BuildState) : Prop where
  value : v = d.handle st.graph.nextPlace
  marks : Marks (outerMarks outer v ++ d.marks st.graph.nextPlace) st st'
  place : st'.graph.nextPlace = st.graph.nextPlace.behind d
  graph : ∀ known, Knows known st' →
    st'.graph = st.graph.extend (d.contents known st.graph.nextPlace) d.occurrences

structure FillsIn (s : StructId) (features : Features Tag) (st st' : BuildState) : Prop where
  marks : Marks (features.marks st.graph.nextPlace) st st'
  place : st'.graph.nextPlace =
    st.graph.nextPlace.past features.brackets features.occurrences.length
  graph : ∀ known, Knows known st' →
    st'.graph = (st.graph.setFeatures s (features.listed known st.graph.nextPlace)).extend
      (features.contents known st.graph.nextPlace) features.occurrences

end Build

open Build

mutual

/-- A description is built as it is laid out, up to the first misplaced mention. -/
theorem Description.heeds_build (d : Description Tag) (outer : Option Tag) {earlier : List Mention}
    {st : BuildState} (remembers : Remembers earlier st) :
    Heeds earlier (outerMentions outer ++ d.mentions) (LaysOut outer d st) (d.build outer) st := by
  match d with
  | .atom a =>
    rw [Description.mentions, List.append_nil]
    refine (heeds_introduce? remembers outer (.atom a)).returns ?_
    rintro - st' ⟨same, marked⟩
    refine ⟨rfl, ?_, ?_, fun known knows => ?_⟩
    · rwa [Description.marks, List.append_nil]
    · rw [same]
      rfl
    · rw [same]
      exact (extend_nil _).symm
  | .var name =>
    rw [Description.mentions, List.append_nil]
    have remembers₁ : Remembers earlier ⟨st.graph.addVar { name }, st.introduced⟩ := remembers
    refine heeds_bind_of_ok rfl ?_
    refine (heeds_introduce? remembers₁ outer (.var st.graph.nextVar)).returns ?_
    rintro - st' ⟨same, marked⟩
    refine ⟨rfl, ?_, ?_, fun known knows => ?_⟩
    · rwa [Description.marks, List.append_nil]
    · rw [same, addVar_eq_extend, nextPlace_extend]
      rfl
    · rw [same, addVar_eq_extend]
      rfl
  | .struct tag features =>
    let v : Value := .struct st.graph.nextStruct
    have remembers₀ : Remembers earlier ⟨st.graph.addStruct ∅, st.introduced⟩ := remembers
    refine heeds_bind_of_ok rfl ?_
    refine (heeds_introduce? remembers₀ outer v).bind ?_
    rintro - st₁ ⟨same₁, marked₁⟩
    have remembers₁ := marked₁.remembers (fst_outerMarks outer v) remembers₀
    refine (heeds_introduce? remembers₁ tag v).bind ?_
    rintro - st₂ ⟨same₂, marked₂⟩
    have remembers₂ := marked₂.remembers (fst_outerMarks tag v) remembers₁
    have same : st₂.graph = st.graph.addStruct ∅ := same₂.trans same₁
    have place : st₂.graph.nextPlace = st.graph.nextPlace.inside := by
      rw [same, addStruct_eq_extend, nextPlace_extend]
      rfl
    have inside : st.graph.nextStruct.index < st₂.graph.structCount := by
      rw [same, structCount_addStruct]
      exact Nat.lt_succ_self _
    refine (features.heeds_build remembers₂ inside).returns ?_
    rintro - st' filled
    refine ⟨rfl, ?_, ?_, fun known knows => ?_⟩
    · have marked := (marked₁.trans marked₂).trans filled.marks
      rwa [place, List.append_assoc] at marked
    · rw [filled.place, place, Place.inside_past]
      rfl
    · rw [filled.graph known knows, place, same, setFeatures_addStruct, addStruct_eq_extend,
        extend_extend]
      rfl

theorem Features.heeds_build (features : Features Tag) {s : StructId} {earlier : List Mention}
    {st : BuildState} (remembers : Remembers earlier st) (inside : s.index < st.graph.structCount) :
    Heeds earlier features.mentions (fun _ st' => FillsIn s features st st') (features.build s)
      st := by
  match features with
  | .nil =>
    refine ⟨rfl, rfl, fun known knows => ?_⟩
    exact (extend_nil _).symm
  | .assign name tag value rest =>
    rw [Features.mentions, ← List.append_assoc]
    refine (value.heeds_build tag remembers).bind fun v st₁ laid => ?_
    have ids : (outerMarks tag v ++ value.marks st.graph.nextPlace).map Prod.fst =
        introducedIds (outerMentions tag ++ value.mentions) := by
      rw [List.map_append, fst_outerMarks, Description.fst_marks, introducedIds_append]
    let st₂ : BuildState := ⟨st₁.graph.setFeature s name v, st₁.introduced⟩
    have remembers₂ : Remembers _ st₂ := laid.marks.remembers ids remembers
    have place : st₂.graph.nextPlace = st.graph.nextPlace.behind value :=
      (nextPlace_setFeature _ s name v).trans laid.place
    have inside₂ : s.index < st₂.graph.structCount := by
      have grown : st₂.graph.structCount = st.graph.structCount + value.brackets :=
        congrArg Place.structs place
      omega
    have ran : setFeature s name v st₁ = .ok () st₂ := rfl
    refine heeds_bind_of_ok ran ?_
    refine (rest.heeds_build remembers₂ inside₂).imp fun _ st' filled => ?_
    have marks := laid.marks.trans filled.marks
    rw [place] at marks
    refine ⟨by rwa [List.append_assoc, laid.value] at marks, ?_, fun known knows => ?_⟩
    · rw [filled.place, place, Place.behind, Place.past_past, Features.brackets,
        Features.occurrences, List.length_append]
    · have graph₂ : st₂.graph = (st.graph.setFeature s name v).extend
          (value.contents known st.graph.nextPlace) value.occurrences := by
        rw [← setFeature_extend inside, ← laid.graph known (filled.marks.knows knows)]
      rw [filled.graph known knows, graph₂, setFeatures_extend, extend_extend, ← graph₂, place,
        laid.value]
      · rfl
      · rwa [structCount_setFeature]
  | .refer name tag rest =>
    change Heeds earlier ([.reference tag] ++ rest.mentions) _ _ st
    refine (heeds_refer remembers tag).bind ?_
    rintro v st₁ ⟨rfl, found⟩
    let st₂ : BuildState := ⟨st₁.graph.setFeature s name v, st₁.introduced⟩
    have remembers₂ : Remembers (earlier ++ [.reference tag]) st₂ := by
      rw [Remembers, introducedIds_append, introducedIds_reference, introducedIds_nil,
        List.append_nil]
      exact remembers
    have inside₂ : s.index < st₂.graph.structCount := by rwa [structCount_setFeature]
    have ran : setFeature s name v st₁ = .ok () st₂ := rfl
    refine heeds_bind_of_ok ran ?_
    refine (rest.heeds_build remembers₂ inside₂).imp fun _ st' filled => ?_
    have place : st₂.graph.nextPlace = st₁.graph.nextPlace := nextPlace_setFeature _ s name v
    have marks := filled.marks
    rw [place] at marks
    refine ⟨marks, by rw [filled.place, place]; rfl, fun known knows => ?_⟩
    have same : known tag.id = v := filled.marks.knows knows (tag.id, v) (mem_of_lookup found)
    rw [filled.graph known knows, place, Features.listed, same]
    rfl

end

/-! ### Building a whole description -/

def markedBy (marks : List (Nat × Value)) (id : Nat) : Value :=
  (marks.lookup id).getD (.atom .unspecified)

theorem markedBy_of_mem {marks : List (Nat × Value)} (nodup : (marks.map Prod.fst).Nodup)
    {e : Nat × Value} (mem : e ∈ marks) : markedBy marks e.1 = e.2 := by
  rw [markedBy, lookup_of_mem nodup mem]
  rfl

theorem mem_introducedIds_of_reference {earlier ms : List Mention} {tag : Tag}
    (none : Mention.firstMisplaced? earlier ms = none) (mem : .reference tag ∈ ms) :
    tag.id ∈ introducedIds (earlier ++ ms) := by
  obtain ⟨ms₁, ms₂, rfl⟩ := List.append_of_mem mem
  have placed := Mention.firstMisplaced?_eq_none none rfl
  have known : tag.id ∈ introducedIds (earlier ++ ms₁) := not_not.1 placed
  rw [← List.append_assoc, introducedIds_append]
  exact List.mem_append_left _ known

namespace BuildState

variable {g : Graph} {d : Description Tag}

theorem outcome_of_misplaced {m : Mention} (first : m.IsFirstMisplaced d.mentions) :
    (start g).outcome d = (.error m.error, g) := by
  have remembers : Remembers [] (start g) := rfl
  have heeds := d.heeds_build none remembers
  unfold Heeds at heeds
  rw [outerMentions, Option.toList_none, List.map_nil, List.nil_append,
    Mention.firstMisplaced?_eq_some_iff.2 first] at heeds
  split at heeds
  · next e st' some ran =>
    cases some
    have gives := (call_of_error ran).1
    have fails : ¬ (start g).Builds d := by
      rw [Builds, gives]
      exact Bool.false_ne_true
    have same : ((start g).outcome d).2 = g := ((start g).grows_after d).2.2 fails
    rw [gives] at same ⊢
    rw [heeds]
    exact congrArg _ same
  · next none _ => cases none
  · exact heeds.elim

theorem outcome_of_placed (allPlaced : ¬ Mention.SomeMisplaced d.mentions) :
    ∃ known : Nat → Value,
      (∀ e ∈ d.marks g.nextPlace, known e.1 = e.2) ∧
      (∀ tag, .reference tag ∈ d.mentions → (tag.id, known tag.id) ∈ d.marks g.nextPlace) ∧
      (start g).outcome d =
        (.ok (d.handle g.nextPlace), g.extend (d.contents known g.nextPlace) d.occurrences) := by
  have placed := Mention.firstMisplaced?_eq_none_iff.2 allPlaced
  have nodup : ((d.marks g.nextPlace).map Prod.fst).Nodup := by
    rw [Description.fst_marks]
    exact nodup_introducedIds placed .nil
  have marked {e : Nat × Value} (mem : e ∈ d.marks g.nextPlace) :
      markedBy (d.marks g.nextPlace) e.1 = e.2 := markedBy_of_mem nodup mem
  refine ⟨markedBy (d.marks g.nextPlace), fun e mem => marked mem, fun tag mem => ?_, ?_⟩
  · have introduced := mem_introducedIds_of_reference placed mem
    rw [List.nil_append, ← Description.fst_marks g.nextPlace] at introduced
    obtain ⟨⟨id, v⟩, mem', rfl⟩ := List.mem_map.1 introduced
    rwa [marked mem']
  · have remembers : Remembers [] (start g) := rfl
    have heeds := d.heeds_build none remembers
    unfold Heeds at heeds
    rw [outerMentions, Option.toList_none, List.map_nil, List.nil_append, placed] at heeds
    split at heeds
    · next some _ => cases some
    · next v st' _ ran =>
      have introduced : st'.introduced = (d.marks g.nextPlace).reverse ++ [] := heeds.marks
      have knows : Knows (markedBy (d.marks g.nextPlace)) st' := by
        intro e mem
        rw [introduced, List.append_nil, List.mem_reverse] at mem
        exact marked mem
      rw [(call_of_ok ran).1, heeds.value, heeds.graph _ knows]
    · exact heeds.elim

/-- Tags are resolved from left to right. A description that was read is built unless one of its
mentions of tags, in the order of the text, is misplaced; then it fails at the first such mention
and leaves the graph as it was. Otherwise each pair of brackets becomes one structure and each
occurrence of a variable a free variable, behind the nodes that were there and in the order of the
text, and each reference gives the value that its number was introduced with. -/
theorem outcome_of_read {text : String} (accepted : Description.read text = .ok d) (g : Graph) :
    (∀ m ∈ d.mentions, m.tag.StandsIn text.toList) ∧
    (d.mentions.Pairwise fun m m' => m.tag.start < m'.tag.start) ∧
    ((∃ e h, (start g).outcome d = (.error e, h)) ↔ Mention.SomeMisplaced d.mentions) ∧
    (∀ e h, (start g).outcome d = (.error e, h) →
      h = g ∧ ∃ m : Mention, m.IsFirstMisplaced d.mentions ∧ e = m.error) ∧
    (¬ Mention.SomeMisplaced d.mentions → ∃ (known : Nat → Value) (h : Graph),
      (∀ e ∈ d.marks g.nextPlace, known e.1 = e.2) ∧
      (∀ tag, .reference tag ∈ d.mentions → (tag.id, known tag.id) ∈ d.marks g.nextPlace) ∧
      (start g).outcome d = (.ok (d.handle g.nextPlace), h) ∧
      h = g.extend (d.contents known g.nextPlace) d.occurrences ∧
      h.structCount = g.structCount + d.brackets ∧
      h.varCount = g.varCount + d.occurrences.length) := by
  have stand : ∀ m ∈ d.mentions, m.tag.StandsIn text.toList := by
    intro m mem
    refine Description.standsIn_of_read accepted m.tag ?_
    rw [← d.tag_mentions]
    exact List.mem_map_of_mem mem
  have ascending := Description.pairwise_start_of_read accepted
  rw [← d.tag_mentions, List.pairwise_map] at ascending
  refine ⟨stand, ascending, ?_⟩
  by_cases misplaced : Mention.SomeMisplaced d.mentions
  · obtain ⟨m, first⟩ := misplaced.exists_first
    have fails := outcome_of_misplaced (g := g) first
    refine ⟨⟨fun _ => misplaced, fun _ => ⟨_, _, fails⟩⟩, fun e h failed => ?_,
      fun placed => absurd misplaced placed⟩
    cases fails.symm.trans failed
    exact ⟨rfl, m, first, rfl⟩
  · obtain ⟨known, marked, referred, built⟩ := outcome_of_placed (g := g) misplaced
    have succeeds {e : SyntaxError} {h : Graph} : (start g).outcome d ≠ (.error e, h) := by
      rw [built]
      exact nofun
    refine ⟨⟨fun ⟨e, h, failed⟩ => absurd failed succeeds, fun some => absurd some misplaced⟩,
      fun e h failed => absurd failed succeeds,
      fun _ => ⟨known, _, marked, referred, built, rfl, ?_, ?_⟩⟩
    · have place := nextPlace_extend g (d.contents known g.nextPlace) d.occurrences
      rw [Description.length_contents] at place
      exact congrArg Place.structs place
    · exact congrArg Place.vars (nextPlace_extend g (d.contents known g.nextPlace) d.occurrences)

/-- What `[a(1)=[up->(1)], b=?x, b->(1)]` is read as. -/
def looped : Description Tag :=
  .struct none (.assign "a" (some ⟨1, 2, 5⟩) (.struct none (.refer "up" ⟨1, 11, 14⟩ .nil))
    (.assign "b" none (.var "x") (.refer "b" ⟨1, 26, 29⟩ .nil)))

/-- What `[a=?x, b->(2)]` is read as. -/
def unmarked : Description Tag :=
  .struct none (.assign "a" none (.var "x") (.refer "b" ⟨2, 10, 13⟩ .nil))

/-- A tag is known inside the brackets that it marks. Where it is not, the error points at it. -/
theorem outcome_looped :
    Description.read "[a(1)=[up->(1)], b=?x, b->(1)]" = .ok looped ∧
    (∃ (known : Nat → Value) (h : Graph), known 1 = .struct ⟨1⟩ ∧
      (start ∅).outcome looped = (.ok (.struct ⟨0⟩), h) ∧
      h = (∅ : Graph).extend [.ofList [("a", .struct ⟨1⟩), ("b", .var ⟨0⟩), ("b", known 1)],
        .ofList [("up", known 1)]] ["x"]) ∧
    Description.read "[a=?x, b->(2)]" = .ok unmarked ∧
    (start ∅).outcome unmarked = (.error ⟨.boundIdentifier 2, 10⟩, ∅) ∧
    Mention.SomeMisplaced unmarked.mentions := by
  have read : Description.read "[a(1)=[up->(1)], b=?x, b->(1)]" = .ok looped := by rfl
  have read' : Description.read "[a=?x, b->(2)]" = .ok unmarked := by rfl
  have placed : ¬ Mention.SomeMisplaced looped.mentions :=
    Mention.firstMisplaced?_eq_none_iff.1 (by decide +kernel)
  have failed : (start ∅).outcome unmarked = (.error ⟨.boundIdentifier 2, 10⟩, ∅) := by
    decide +kernel
  obtain ⟨-, -, -, -, built⟩ := outcome_of_read read ∅
  obtain ⟨-, -, fails, -, -⟩ := outcome_of_read read' ∅
  obtain ⟨known, h, marked, -, gives, leaves, -⟩ := built placed
  refine ⟨read, ⟨known, h, marked (1, .struct ⟨1⟩) ?_, gives, leaves⟩, read', failed,
    fails.1 ⟨_, _, failed⟩⟩
  exact List.mem_singleton_self _

end BuildState

end FeatureLogic
