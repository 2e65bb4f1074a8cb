import FeatureLogic.Description.Builder
import FeatureLogic.Proofs.Description.Freshness

/-!
# Building on after an error

What a description gives depends on the graph and on the tags that it mentions, and a failed one
leaves the graph as it was. So it can only be felt later through the tags that it has left
introduced. As long as these are not mentioned, everything that is built is what it would be
without the failed descriptions: only nodes of successful ones lie below it.
-/

namespace FeatureLogic

open FeatureLogic.Graph

namespace Build

/-- What a part of the building has done in two states side by side, since the graph was `g`. -/
structure Proceeds (g : Graph) (P : Nat → Prop) (st st₁ st₂ : BuildState) : Prop where
  graph : st₁.graph = st₂.graph
  lookup : ∀ {id}, P id → st₁.introduced.lookup id = st₂.introduced.lookup id
  structs : g.structCount ≤ st₁.graph.structCount
  vars : g.varCount ≤ st₁.graph.varCount
  grows : st.graph.structCount ≤ st₁.graph.structCount
  frames : (g.added st₁.graph).Frames st₁.graph

abbrev Level (g : Graph) (P : Nat → Prop) (st₁ st₂ : BuildState) : Prop := Proceeds g P st₁ st₁ st₂

/-- Does a step give the same in both states, and is its result good if it succeeds? -/
def Lockstep {α : Type} (g : Graph) (P : Nat → Prop) (Good : Graph → α → Prop) (step : Build α)
    (st₁ st₂ : BuildState) : Prop :=
  match step st₁, step st₂ with
  | .ok a st₁', .ok b st₂' => a = b ∧ Good st₁'.graph a ∧ Proceeds g P st₁ st₁' st₂'
  | .error e st₁', .error f st₂' => e = f ∧ Proceeds g P st₁ st₁' st₂'
  | _, _ => False

variable {α β : Type} {g : Graph} {P : Nat → Prop} {st st₁ st₂ st₁' st₂' : BuildState}

theorem Proceeds.level (proceeds : Proceeds g P st st₁ st₂) : Level g P st₁ st₂ :=
  { proceeds with grows := Nat.le_refl _ }

theorem Proceeds.trans (first : Proceeds g P st st₁ st₂) (second : Proceeds g P st₁ st₁' st₂') :
    Proceeds g P st st₁' st₂' :=
  { second with grows := first.grows.trans second.grows }

theorem Proceeds.has (proceeds : Proceeds g P st st₁ st₂) {s : StructId}
    (has : (g.added st.graph).Has (.struct s)) : (g.added st₁.graph).Has (.struct s) :=
  ⟨has.1, has.2.trans_le proceeds.grows⟩

theorem Lockstep.bind {Good : Graph → α → Prop} {Good' : Graph → β → Prop} {step : Build α}
    {next : α → Build β} (lockstep : Lockstep g P Good step st₁ st₂)
    (goesOn : ∀ a st₁' st₂', Proceeds g P st₁ st₁' st₂' → Good st₁'.graph a →
      Lockstep g P Good' (next a) st₁' st₂') :
    Lockstep g P Good' (step >>= next) st₁ st₂ := by
  unfold Lockstep at lockstep ⊢
  show match EStateM.bind step next st₁, EStateM.bind step next st₂ with
    | .ok _ _, .ok _ _ => _ | .error _ _, .error _ _ => _ | _, _ => _
  rw [EStateM.bind, EStateM.bind]
  cases ran₁ : step st₁ with
  | error e st₁' =>
    cases ran₂ : step st₂ with
    | ok b st₂' => simp only [ran₁, ran₂] at lockstep
    | error f st₂' => simpa only [ran₁, ran₂] using lockstep
  | ok a st₁' =>
    cases ran₂ : step st₂ with
    | error f st₂' => simp only [ran₁, ran₂] at lockstep
    | ok b st₂' =>
      simp only [ran₁, ran₂] at lockstep
      obtain ⟨rfl, good, proceeds⟩ := lockstep
      have rest := goesOn a st₁' st₂' proceeds good
      unfold Lockstep at rest
      dsimp only
      cases ran₁' : next a st₁' with
      | error e st₁'' =>
        cases ran₂' : next a st₂' with
        | ok b st₂'' => simp only [ran₁', ran₂'] at rest
        | error f st₂'' =>
          simp only [ran₁', ran₂'] at rest
          exact ⟨rest.1, proceeds.trans rest.2⟩
      | ok b st₁'' =>
        cases ran₂' : next a st₂' with
        | error f st₂'' => simp only [ran₁', ran₂'] at rest
        | ok c st₂'' =>
          simp only [ran₁', ran₂'] at rest
          exact ⟨rest.1, rest.2.1, proceeds.trans rest.2.2⟩

theorem lockstep_pure (level : Level g P st₁ st₂) {Good : Graph → α → Prop} {a : α}
    (good : Good st₁.graph a) : Lockstep g P Good (pure a) st₁ st₂ := ⟨rfl, good, level⟩

theorem lockstep_newStruct (level : Level g P st₁ st₂) :
    Lockstep g P (fun h s => (g.added h).Has (.struct s)) newStruct st₁ st₂ := by
  obtain ⟨h, introduced⟩ := st₁
  obtain ⟨h', introduced'⟩ := st₂
  obtain rfl : h = h' := level.graph
  exact ⟨rfl, (added_addStruct level.structs).2 (.inr rfl), rfl, level.lookup,
    level.structs.trans (by simp), level.vars, by simp,
    frames_addStruct level.structs level.frames⟩

theorem lockstep_newVar (level : Level g P st₁ st₂) (name : String) :
    Lockstep g P (fun _ _ => True) (newVar name) st₁ st₂ := by
  obtain ⟨h, introduced⟩ := st₁
  obtain ⟨h', introduced'⟩ := st₂
  obtain rfl : h = h' := level.graph
  exact ⟨rfl, trivial, rfl, level.lookup, level.structs, level.vars.trans (by simp), Nat.le_refl _,
    frames_addVar level.vars level.frames⟩

theorem lockstep_setFeature (level : Level g P st₁ st₂) {s : StructId}
    (has : (g.added st₁.graph).Has (.struct s)) (name : String) (v : Value) :
    Lockstep g P (fun _ _ => True) (setFeature s name v) st₁ st₂ := by
  obtain ⟨h, introduced⟩ := st₁
  obtain ⟨h', introduced'⟩ := st₂
  obtain rfl : h = h' := level.graph
  refine ⟨rfl, trivial, rfl, level.lookup, level.structs.trans (by simp), level.vars, by simp, ?_⟩
  simpa [added] using level.frames.setFeature has name v

theorem lockstep_introduce? (level : Level g P st₁ st₂) {tag : Option Tag}
    (mentioned : ∀ id ∈ tag.map Tag.id, P id) (v : Value) :
    Lockstep g P (fun _ _ => True) (introduce? tag v) st₁ st₂ := by
  cases tag with
  | none => exact lockstep_pure level trivial
  | some tag =>
    have same := level.lookup (mentioned tag.id rfl)
    change Lockstep g P _ (introduce tag v) st₁ st₂
    unfold Lockstep
    rw [introduce_apply, introduce_apply, ← same]
    cases st₁.introduced.lookup tag.id with
    | some _ => exact ⟨rfl, level⟩
    | none =>
      refine ⟨rfl, trivial, { level with lookup := fun {id} listed => ?_ }⟩
      rw [Copying.lookup_cons_eq, Copying.lookup_cons_eq, level.lookup listed]

theorem lockstep_refer (level : Level g P st₁ st₂) {tag : Tag} (mentioned : P tag.id) :
    Lockstep g P (fun _ _ => True) (refer tag) st₁ st₂ := by
  unfold Lockstep
  rw [refer_apply, refer_apply, ← level.lookup mentioned]
  cases st₁.introduced.lookup tag.id with
  | some v => exact ⟨rfl, trivial, level⟩
  | none => exact ⟨rfl, level⟩

end Build

open Build

mutual

theorem Description.lockstep_build {g : Graph} {P : Nat → Prop} (d : Description Tag)
    {outer : Option Tag} {st₁ st₂ : BuildState} (level : Level g P st₁ st₂)
    (mentionedOuter : ∀ id ∈ outer.map Tag.id, P id) (mentioned : ∀ id ∈ d.ids, P id) :
    Lockstep g P (fun _ _ => True) (d.build outer) st₁ st₂ := by
  match d with
  | .atom a =>
    exact (lockstep_introduce? level mentionedOuter _).bind fun _ _ _ proceeds _ =>
      lockstep_pure proceeds.level trivial
  | .var name =>
    refine (lockstep_newVar level name).bind fun x _ _ first _ => ?_
    refine (lockstep_introduce? first.level mentionedOuter _).bind fun _ _ _ second _ => ?_
    exact lockstep_pure second.level trivial
  | .struct tag features =>
    have mentionedTag : ∀ id ∈ tag.map Tag.id, P id := fun id listed =>
      mentioned id (List.mem_append_left _ (Option.mem_toList.2 listed))
    have mentionedFeatures : ∀ id ∈ features.ids, P id := fun id listed =>
      mentioned id (List.mem_append_right _ listed)
    refine (lockstep_newStruct level).bind fun s _ _ first has => ?_
    refine (lockstep_introduce? first.level mentionedOuter _).bind fun _ _ _ second _ => ?_
    refine (lockstep_introduce? second.level mentionedTag _).bind fun _ _ _ third _ => ?_
    refine (features.lockstep_build third.level (third.has (second.has has))
      mentionedFeatures).bind fun _ _ _ fourth _ => ?_
    exact lockstep_pure fourth.level trivial

theorem Features.lockstep_build {g : Graph} {P : Nat → Prop} (features : Features Tag)
    {s : StructId} {st₁ st₂ : BuildState} (level : Level g P st₁ st₂)
    (has : (g.added st₁.graph).Has (.struct s)) (mentioned : ∀ id ∈ features.ids, P id) :
    Lockstep g P (fun _ _ => True) (features.build s) st₁ st₂ := by
  match features with
  | .nil => exact lockstep_pure level trivial
  | .assign name tag value rest =>
    have mentionedTag : ∀ id ∈ tag.map Tag.id, P id := fun id listed =>
      mentioned id (List.mem_append_left _ (List.mem_append_left _ (Option.mem_toList.2 listed)))
    have mentionedValue : ∀ id ∈ value.ids, P id := fun id listed =>
      mentioned id (List.mem_append_left _ (List.mem_append_right _ listed))
    have mentionedRest : ∀ id ∈ rest.ids, P id := fun id listed =>
      mentioned id (List.mem_append_right _ listed)
    refine (value.lockstep_build level mentionedTag mentionedValue).bind fun v _ _ first _ => ?_
    refine (lockstep_setFeature first.level (first.has has) name v).bind fun _ _ _ second _ => ?_
    exact rest.lockstep_build second.level (second.has (first.has has)) mentionedRest
  | .refer name tag rest =>
    have mentionedRest : ∀ id ∈ rest.ids, P id := fun id listed =>
      mentioned id (List.mem_cons_of_mem _ listed)
    refine (lockstep_refer level (mentioned tag.id List.mem_cons_self)).bind
      fun v _ _ first _ => ?_
    refine (lockstep_setFeature first.level (first.has has) name v).bind fun _ _ _ second _ => ?_
    exact rest.lockstep_build second.level (second.has (first.has has)) mentionedRest

end

namespace BuildState

variable {g : Graph} {P : Nat → Prop} {st st' : BuildState} {d : Description Tag}
  {ds earlier later : List (Description Tag)}

structure Agree (P : Nat → Prop) (st st' : BuildState) : Prop where
  graph : st.graph = st'.graph
  lookup : ∀ {id}, P id → st.introduced.lookup id = st'.introduced.lookup id

def Mentioned (ds : List (Description Tag)) (id : Nat) : Prop := ∃ d ∈ ds, id ∈ d.ids

theorem Agree.level (agree : Agree P st st') : Level st.graph P st st' where
  graph := agree.graph
  lookup := agree.lookup
  structs := Nat.le_refl _
  vars := Nat.le_refl _
  grows := Nat.le_refl _
  frames := ⟨fun _ => rfl, fun _ => rfl⟩

theorem call_of_ok {v : Value} (ran : d.build none st = .ok v st') :
    st.outcome d = (.ok v, st'.graph) ∧ st.after d = st' := by
  have built : st.graph.build st.introduced d = (.ok v, st'.introduced, st'.graph) := by
    rw [Graph.build, ran]
  exact ⟨by rw [outcome, built], by rw [after, built]⟩

theorem call_of_error {e : SyntaxError} (ran : d.build none st = .error e st') :
    st.outcome d = (.error e, st'.graph.truncate st.graph.structCount st.graph.varCount) ∧
      st.after d =
        ⟨st'.graph.truncate st.graph.structCount st.graph.varCount, st'.introduced⟩ := by
  have built : st.graph.build st.introduced d = (.error e, st'.introduced,
      st'.graph.truncate st.graph.structCount st.graph.varCount) := by
    rw [Graph.build, ran]
  exact ⟨by rw [outcome, built], by rw [after, built]⟩

/-- A description has the same outcome in states that agree on the tags that it mentions. -/
theorem Agree.call (agree : Agree P st st') (mentioned : ∀ id ∈ d.ids, P id) :
    st.outcome d = st'.outcome d ∧ Agree P (st.after d) (st'.after d) := by
  have lockstep : Lockstep st.graph P (fun _ _ => True) (d.build none) st st' :=
    d.lockstep_build agree.level (by simp) mentioned
  unfold Lockstep at lockstep
  split at lockstep
  · next v st₁ w st₂ ran₁ ran₂ =>
    obtain ⟨rfl, -, proceeds⟩ := lockstep
    obtain ⟨gives, leaves⟩ := call_of_ok ran₁
    obtain ⟨gives', leaves'⟩ := call_of_ok ran₂
    rw [gives, gives', leaves, leaves', proceeds.graph]
    exact ⟨rfl, proceeds.graph, proceeds.lookup⟩
  · next e st₁ f st₂ ran₁ ran₂ =>
    obtain ⟨rfl, proceeds⟩ := lockstep
    obtain ⟨gives, leaves⟩ := call_of_error ran₁
    obtain ⟨gives', leaves'⟩ := call_of_error ran₂
    rw [gives, gives', leaves, leaves', proceeds.graph, agree.graph]
    exact ⟨rfl, rfl, proceeds.lookup⟩
  · exact lockstep.elim

theorem grows_after (st : BuildState) (d : Description Tag) :
    st.graph.structCount ≤ (st.after d).graph.structCount ∧
      st.graph.varCount ≤ (st.after d).graph.varCount ∧
      (¬ st.Builds d → (st.after d).graph = st.graph) := by
  have agree : Agree (fun _ => True) st st := ⟨rfl, fun _ => rfl⟩
  have lockstep : Lockstep st.graph (fun _ => True) (fun _ _ => True) (d.build none) st st :=
    d.lockstep_build agree.level (by simp) fun _ _ => trivial
  unfold Lockstep at lockstep
  cases ran : d.build none st with
  | ok v st₁ =>
    simp only [ran] at lockstep
    obtain ⟨gives, leaves⟩ := call_of_ok ran
    have builds : st.Builds d := by rw [Builds, gives]; rfl
    rw [leaves]
    exact ⟨lockstep.2.2.structs, lockstep.2.2.vars, fun fails => absurd builds fails⟩
  | error e st₁ =>
    simp only [ran] at lockstep
    have same : st₁.graph.truncate st.graph.structCount st.graph.varCount = st.graph :=
      lockstep.2.frames.truncate
    rw [(call_of_error ran).2, same]
    exact ⟨Nat.le_refl _, Nat.le_refl _, fun _ => rfl⟩

theorem grows_afterAll (st : BuildState) (ds : List (Description Tag)) :
    st.graph.structCount ≤ (st.afterAll ds).graph.structCount ∧
      st.graph.varCount ≤ (st.afterAll ds).graph.varCount := by
  induction ds generalizing st with
  | nil => exact ⟨Nat.le_refl _, Nat.le_refl _⟩
  | cons d ds ih =>
    obtain ⟨structs, vars, -⟩ := st.grows_after d
    obtain ⟨structs', vars'⟩ := ih (st.after d)
    exact ⟨structs.trans structs', vars.trans vars'⟩

theorem adds_after {v : Value} {h : Graph} (pristine : Pristine g st)
    (ok : st.outcome d = (.ok v, h)) : Adds g st v (st.after d) := by
  cases ran : d.build none st with
  | error e st₁ => cases ok.symm.trans (call_of_error ran).1
  | ok w st₁ =>
    obtain ⟨gives, leaves⟩ := call_of_ok ran
    cases ok.symm.trans gives
    rw [leaves]
    exact d.adds_build pristine ran

/-- The failed descriptions of a run can be left out, if no later one mentions what they have left
introduced. -/
theorem agree_afterAll (undisturbed : st.Undisturbed (earlier ++ later))
    (agree : Agree (Mentioned (earlier ++ later)) st st') (pristine : Pristine g st') :
    Agree (Mentioned later) (st.afterAll earlier) (st'.afterAll (st.successes earlier)) ∧
      Pristine g (st'.afterAll (st.successes earlier)) := by
  induction earlier generalizing st st' with
  | nil => exact ⟨agree, pristine⟩
  | cons d earlier ih =>
    obtain ⟨harmless, undisturbed⟩ := undisturbed
    have widen {id : Nat} : Mentioned (earlier ++ later) id →
        Mentioned (d :: earlier ++ later) id :=
      fun ⟨d', listed, mentioned⟩ => ⟨d', List.mem_cons_of_mem d listed, mentioned⟩
    obtain ⟨same, agree'⟩ := agree.call (d := d) fun id mentioned =>
      ⟨d, List.mem_cons_self, mentioned⟩
    unfold successes
    by_cases builds : st.Builds d
    · rw [if_pos builds]
      refine ih undisturbed ⟨agree'.graph, fun known => agree'.lookup (widen known)⟩ ?_
      cases ran : st'.outcome d with
      | mk result h =>
        cases result with
        | error e =>
          have fails : (st.outcome d).1.isOk = false := by rw [same, ran]; rfl
          exact absurd builds (by simp [Builds, fails])
        | ok v => exact (adds_after pristine ran).pristine
    · rw [if_neg builds]
      refine ih undisturbed ⟨?_, fun {id} known => ?_⟩ pristine
      · rw [(st.grows_after d).2.2 builds, agree.graph]
      · obtain ⟨d', listed, mentioned⟩ := known
        rw [harmless.resolve_left builds d' listed id mentioned]
        exact agree.lookup (widen ⟨d', listed, mentioned⟩)

theorem exists_introduces {v : Value} (fresh : ¬ st.graph.Contains v)
    (inside : (st.afterAll ds).graph.Contains v) :
    ∃ earlier d later, ds = earlier ++ d :: later ∧ (st.afterAll earlier).Introduces d v := by
  induction ds generalizing st with
  | nil => exact absurd inside fresh
  | cons d ds ih =>
    by_cases now : (st.after d).graph.Contains v
    · refine ⟨[], d, ds, rfl, ?builds, fresh, now⟩
      case builds =>
        by_contra fails
        exact fresh ((st.grows_after d).2.2 fails ▸ now)
    · obtain ⟨earlier, d', later, rfl, introduces⟩ := ih now inside
      exact ⟨d :: earlier, d', later, rfl, introduces⟩

theorem has_of_below {v w : Value} (pristine : Pristine g st) (has : (g.added st.graph).Has v)
    (below : st.graph.Below v w) : (g.added st.graph).Has w := by
  induction below with
  | refl => exact has
  | feature _ found holds ih => exact pristine.feature ih found holds

/-- As long as no description mentions a tag that a failed one before it has left introduced, each
one has the outcome that it would have without the failed ones before it, and every node below what
a successful one has given is in the graph and was introduced by a successful one. -/
theorem Undisturbed.outcome_eq (undisturbed : (start g).Undisturbed (earlier ++ d :: later)) :
    ((start g).afterAll earlier).outcome d =
        ((start g).afterAll ((start g).successes earlier)).outcome d ∧
      ∀ {v h w}, ((start g).afterAll earlier).outcome d = (.ok v, h) → w.isNode →
        ((start g).afterAll (earlier ++ d :: later)).graph.Below v w →
        ((start g).afterAll (earlier ++ d :: later)).graph.Contains w ∧
          ∃ earlier' d' later', earlier ++ d :: later = earlier' ++ d' :: later' ∧
            ((start g).afterAll earlier').Introduces d' w := by
  obtain ⟨agree, pristine⟩ := agree_afterAll undisturbed ⟨rfl, fun _ => rfl⟩ (pristine_start g)
  obtain ⟨same, agree'⟩ := agree.call (d := d) fun id mentioned =>
    ⟨d, List.mem_cons_self, mentioned⟩
  refine ⟨same, fun {v h w} ok node below => ?_⟩
  have adds := adds_after pristine (same.symm.trans ok)
  rw [← List.append_nil (earlier ++ d :: later)] at undisturbed
  obtain ⟨agreeEnd, pristineEnd⟩ :=
    agree_afterAll undisturbed ⟨rfl, fun _ => rfl⟩ (pristine_start g)
  -- the run without the failed descriptions ends in the same graph, where all new nodes are plain
  have has : (g.added ((start g).afterAll (earlier ++ d :: later)).graph).Has v := by
    have grows := grows_afterAll (((start g).afterAll earlier).after d) later
    rw [agree'.graph] at grows
    rw [afterAll, List.foldl_append]
    exact added_mono grows.1 grows.2 adds.has
  rw [agreeEnd.graph] at below has
  have hasW := has_of_below pristineEnd has below
  rw [← agreeEnd.graph] at hasW
  have inside := contains_of_added hasW
  exact ⟨inside, exists_introduces (fun old => not_added_of_contains old node hasW) inside⟩

def tagged : Description Tag :=
  .struct none (.assign "a" (some ⟨3, 2, 5⟩) (.struct none .nil) .nil)

/-- The description `[a(1)=[], b->(2)]`, which fails after the first of its tags. -/
def broken : Description Tag :=
  .struct none (.assign "a" (some ⟨1, 2, 5⟩) (.struct none .nil) (.refer "b" ⟨2, 13, 16⟩ .nil))

def resumed : Description Tag := .struct none (.refer "c" ⟨3, 4, 7⟩ .nil)

def recovered : Graph where
  structs := #[{ features := .ofList [("a", .struct ⟨1⟩)] }, {},
    { features := .ofList [("c", .struct ⟨1⟩)] }]

/-- The structure of the first description is found again after a failed one. -/
theorem outcome_recovered : (start ∅).Undisturbed [tagged, broken, resumed] ∧
    ((start ∅).afterAll [tagged, broken]).outcome resumed = (.ok (.struct ⟨2⟩), recovered) ∧
    ((start ∅).afterAll [tagged]).outcome resumed = (.ok (.struct ⟨2⟩), recovered) ∧
    recovered.Below (.struct ⟨2⟩) (.struct ⟨1⟩) ∧
    ∃ earlier d later, [tagged, broken, resumed] = earlier ++ d :: later ∧
      ((start ∅).afterAll earlier).Introduces d (.struct ⟨1⟩) := by
  have undisturbed : (start ∅).Undisturbed ([tagged, broken] ++ resumed :: []) := by
    decide +kernel
  have successes : (start ∅).successes [tagged, broken] = [tagged] := by decide +kernel
  have ok : ((start ∅).afterAll [tagged, broken]).outcome resumed =
      (.ok (.struct ⟨2⟩), recovered) := by decide +kernel
  have ends : ((start ∅).afterAll [tagged, broken, resumed]).graph = recovered := by
    decide +kernel
  have holds : (NameMap.ofList [("c", Value.struct ⟨1⟩)]).get? "c" = some (.struct ⟨1⟩) := by
    decide +kernel
  have below : recovered.Below (.struct ⟨2⟩) (.struct ⟨1⟩) := .feature .refl rfl holds
  obtain ⟨same, introduced⟩ := undisturbed.outcome_eq
  rw [successes] at same
  obtain ⟨-, introduces⟩ := introduced ok rfl (ends ▸ below)
  exact ⟨undisturbed, ok, same.symm.trans ok, below, introduces⟩

/-- The description `[a=[], c->(1)]`. -/
def aliasing : Description Tag :=
  .struct none (.assign "a" none (.struct none .nil) (.refer "c" ⟨1, 10, 13⟩ .nil))

def dangling : Description Tag := .struct none (.refer "c" ⟨1, 4, 7⟩ .nil)

/-- The tag that a failed description has left introduced makes descriptions succeed that mention
it. It may even lead out of the graph. -/
theorem exists_disturbed :
    (¬ ∀ {g : Graph} {earlier : List (Description Tag)} {d : Description Tag},
      ((start g).afterAll earlier).outcome d =
        ((start g).afterAll ((start g).successes earlier)).outcome d) ∧
    ¬ ∀ {g h : Graph} {earlier : List (Description Tag)} {d : Description Tag} {v w : Value},
      ((start g).afterAll earlier).outcome d = (.ok v, h) → h.Below v w → h.Contains w := by
  constructor
  · intro same
    have differs : ((start ∅).afterAll [broken]).outcome aliasing ≠
        ((start ∅).afterAll ((start ∅).successes [broken])).outcome aliasing := by decide +kernel
    exact differs same
  · intro inside
    let left : Graph := { structs := #[{ features := .ofList [("c", .struct ⟨1⟩)] }] }
    have ok : ((start ∅).afterAll [broken]).outcome dangling = (.ok (.struct ⟨0⟩), left) := by
      decide +kernel
    have holds : (NameMap.ofList [("c", Value.struct ⟨1⟩)]).get? "c" = some (.struct ⟨1⟩) := by
      decide +kernel
    have below : left.Below (.struct ⟨0⟩) (.struct ⟨1⟩) := .feature .refl rfl holds
    exact absurd (inside ok below) (Nat.lt_irrefl 1)

end BuildState

end FeatureLogic
