import FeatureLogic.Proofs.Copy.Confinement
import FeatureLogic.Proofs.Description.Building

/-!
# Built values are plain

The nodes of a description are all new. None of them leads to a node from before, and its variables
are free.
-/

namespace FeatureLogic

open FeatureLogic.Graph

namespace Build

/-- Do the nodes built so far, and the tags introduced, lead to such nodes only, with no variable
bound? -/
structure Pristine (g : Graph) (st : BuildState) : Prop where
  structs : g.structCount ≤ st.graph.structCount
  vars : g.varCount ≤ st.graph.varCount
  free : ∀ {y}, (g.added st.graph).Has (.var y) → ∃ name, st.graph.var? y = some { name }
  feature : ∀ {t m name v}, (g.added st.graph).Has (.struct t) → st.graph.features? t = some m →
    m.get? name = some v → (g.added st.graph).Has v
  introduced : ∀ {id v}, st.introduced.lookup id = some v → (g.added st.graph).Has v

structure Adds (g : Graph) (st : BuildState) (v : Value) (st' : BuildState) : Prop where
  pristine : Pristine g st'
  structs : st.graph.structCount ≤ st'.graph.structCount
  vars : st.graph.varCount ≤ st'.graph.varCount
  has : (g.added st'.graph).Has v

variable {α β : Type} {g : Graph} {st st₁ st' : BuildState} {v w : Value}

theorem Adds.mono (adds : Adds g st w st') (has : (g.added st.graph).Has v) :
    (g.added st'.graph).Has v :=
  added_mono adds.structs adds.vars has

theorem Adds.trans (first : Adds g st w st₁) (second : Adds g st₁ v st') : Adds g st v st' :=
  ⟨second.pristine, first.structs.trans second.structs, first.vars.trans second.vars, second.has⟩

theorem pristine_start (g : Graph) : Pristine g { graph := g } where
  structs := Nat.le_refl _
  vars := Nat.le_refl _
  free has := absurd has (not_added_self rfl)
  feature has := absurd has (not_added_self rfl)
  introduced found := by cases found

theorem exists_of_bind {x : Build α} {k : α → Build β} {b : β} (h : (x >>= k) st = .ok b st') :
    ∃ a st₁, x st = .ok a st₁ ∧ k a st₁ = .ok b st' := by
  change EStateM.bind x k st = .ok b st' at h
  rw [EStateM.bind] at h
  cases ran : x st with
  | ok a st₁ =>
    rw [ran] at h
    exact ⟨a, st₁, rfl, h⟩
  | error e st₁ =>
    rw [ran] at h
    cases h

theorem Pristine.newStruct (pristine : Pristine g st) {s : StructId}
    (ran : Build.newStruct st = .ok s st') : Adds g st (.struct s) st' := by
  cases ran
  have iff {t : StructId} : (g.added (st.graph.addStruct ∅)).Has (.struct t) ↔
      (g.added st.graph).Has (.struct t) ∨ t = st.graph.nextStruct :=
    added_addStruct pristine.structs
  have mono {v : Value} (has : (g.added st.graph).Has v) :
      (g.added (st.graph.addStruct ∅)).Has v := added_mono (by simp) (by simp) has
  refine ⟨⟨pristine.structs.trans (by simp), pristine.vars, pristine.free,
    fun has found holds => ?_, fun found => mono (pristine.introduced found)⟩, by simp,
    Nat.le_refl _, iff.2 (.inr rfl)⟩
  rw [features?_addStruct] at found
  split at found
  · cases found
    cases holds
  · next ne => exact mono (pristine.feature ((iff.1 has).resolve_right ne) found holds)

theorem Pristine.newVar (pristine : Pristine g st) {name : String} {x : VarId}
    (ran : Build.newVar name st = .ok x st') : Adds g st (.var x) st' := by
  cases ran
  have iff {y : VarId} : (g.added (st.graph.addVar { name })).Has (.var y) ↔
      (g.added st.graph).Has (.var y) ∨ y = st.graph.nextVar := added_addVar pristine.vars
  have mono {v : Value} (has : (g.added st.graph).Has v) :
      (g.added (st.graph.addVar { name })).Has v := added_mono (by simp) (by simp) has
  refine ⟨⟨pristine.structs, pristine.vars.trans (by simp), fun has => ?_,
    fun has found holds => mono (pristine.feature has found holds),
    fun found => mono (pristine.introduced found)⟩, Nat.le_refl _, by simp, iff.2 (.inr rfl)⟩
  rw [var?_addVar]
  split
  · exact ⟨name, rfl⟩
  · next ne => exact pristine.free ((iff.1 has).resolve_right ne)

theorem Pristine.setFeature (pristine : Pristine g st) {s : StructId} {name : String}
    (has : (g.added st.graph).Has v)
    (ran : Build.setFeature s name v st = .ok () st') : Adds g st v st' := by
  cases ran
  have region : g.added (st.graph.setFeature s name v) = g.added st.graph := by simp [added]
  refine ⟨⟨pristine.structs.trans (by simp), pristine.vars, region ▸ pristine.free,
    fun {t m key w} hasT found holds => ?_, region ▸ pristine.introduced⟩, by simp, Nat.le_refl _,
    region ▸ has⟩
  dsimp only at hasT found ⊢
  rw [region] at hasT ⊢
  rw [features?_setFeature] at found
  split at found
  · obtain ⟨features, present, rfl⟩ := Option.map_eq_some_iff.1 found
    rw [NameMap.get?_insert] at holds
    split at holds
    · cases holds
      exact has
    · exact pristine.feature hasT present holds
  · exact pristine.feature hasT found holds

theorem Pristine.introduce? (pristine : Pristine g st) {tag : Option Tag}
    (has : (g.added st.graph).Has v) (ran : Build.introduce? tag v st = .ok () st') :
    Adds g st v st' := by
  cases tag with
  | none =>
    cases ran
    exact ⟨pristine, Nat.le_refl _, Nat.le_refl _, has⟩
  | some tag =>
    change introduce tag v st = .ok () st' at ran
    rw [introduce_apply] at ran
    cases known : st.introduced.lookup tag.id with
    | some _ => simp [known] at ran
    | none =>
      simp only [known, EStateM.Result.ok.injEq, true_and] at ran
      subst ran
      refine ⟨⟨pristine.structs, pristine.vars, pristine.free, pristine.feature,
        fun {id w} found => ?_⟩, Nat.le_refl _, Nat.le_refl _, has⟩
      rw [Copying.lookup_cons_eq] at found
      split at found
      · cases found
        exact has
      · exact pristine.introduced found

theorem Pristine.refer (pristine : Pristine g st) {tag : Tag}
    (ran : Build.refer tag st = .ok v st') : Adds g st v st' := by
  rw [refer_apply] at ran
  cases known : st.introduced.lookup tag.id with
  | none => simp [known] at ran
  | some w =>
    simp only [known, EStateM.Result.ok.injEq] at ran
    obtain ⟨rfl, rfl⟩ := ran
    exact ⟨pristine, Nat.le_refl _, Nat.le_refl _, pristine.introduced known⟩

end Build

open Build

mutual

/-- The value of a description is new, with all that it leads to. -/
theorem Description.adds_build {g : Graph} (d : Description Tag) {outer : Option Tag}
    {st st' : BuildState} {v : Value} (pristine : Pristine g st)
    (built : d.build outer st = .ok v st') : Adds g st v st' := by
  match d with
  | .atom a =>
    rw [Description.build] at built
    obtain ⟨_, st₁, ran, ⟨⟩⟩ := exists_of_bind built
    exact pristine.introduce? (v := .atom a) trivial ran
  | .var name =>
    rw [Description.build] at built
    obtain ⟨x, st₁, ran, built⟩ := exists_of_bind built
    obtain ⟨_, st₂, ran', ⟨⟩⟩ := exists_of_bind built
    have first := pristine.newVar ran
    exact first.trans (first.pristine.introduce? first.has ran')
  | .struct tag features =>
    rw [Description.build] at built
    obtain ⟨s, st₁, ran₁, built⟩ := exists_of_bind built
    obtain ⟨_, st₂, ran₂, built⟩ := exists_of_bind built
    obtain ⟨_, st₃, ran₃, built⟩ := exists_of_bind built
    obtain ⟨_, st₄, ran₄, ⟨⟩⟩ := exists_of_bind built
    have first := pristine.newStruct ran₁
    have second := first.trans (first.pristine.introduce? first.has ran₂)
    have third := second.trans (second.pristine.introduce? second.has ran₃)
    exact third.trans (features.adds_build third.pristine third.has ran₄)

theorem Features.adds_build {g : Graph} (features : Features Tag) {s : StructId}
    {st st' : BuildState} (pristine : Pristine g st) (has : (g.added st.graph).Has (.struct s))
    (built : features.build s st = .ok () st') : Adds g st (.struct s) st' := by
  match features with
  | .nil =>
    rw [Features.build] at built
    cases built
    exact ⟨pristine, Nat.le_refl _, Nat.le_refl _, has⟩
  | .assign name tag value rest =>
    rw [Features.build] at built
    obtain ⟨v, st₁, ran₁, built⟩ := exists_of_bind built
    obtain ⟨_, st₂, ran₂, ran₃⟩ := exists_of_bind built
    have first := value.adds_build pristine ran₁
    have second := first.trans (first.pristine.setFeature first.has ran₂)
    exact second.trans (rest.adds_build second.pristine (second.mono has) ran₃)
  | .refer name tag rest =>
    rw [Features.build] at built
    obtain ⟨v, st₁, ran₁, built⟩ := exists_of_bind built
    obtain ⟨_, st₂, ran₂, ran₃⟩ := exists_of_bind built
    have first := pristine.refer ran₁
    have second := first.trans (first.pristine.setFeature first.has ran₂)
    exact second.trans (rest.adds_build second.pristine (second.mono has) ran₃)

end

namespace Graph

variable {g h : Graph} {v : Value}

theorem exists_build_of_readStruct {text : String} (read : g.readStruct text = (.ok v, h)) :
    ∃ d st, Description.build none d { graph := g } = .ok v st ∧ h = st.graph := by
  unfold readStruct at read
  cases parsed : Description.read text with
  | error e => simp [parsed] at read
  | ok d =>
    cases d with
    | atom a => simp [parsed] at read
    | var name => simp [parsed] at read
    | struct tag features =>
      refine ⟨.struct tag features, ?_⟩
      simp only [parsed, build] at read
      cases ran : (Description.struct tag features).build none { graph := g } with
      | error e st => simp [ran] at read
      | ok w st =>
        simp only [ran, Prod.mk.injEq, Except.ok.injEq] at read
        exact ⟨st, by rw [read.1], read.2.symm⟩

theorem WellFormed.plain_of_readStruct (wf : g.WellFormed) {text : String}
    (read : g.readStruct text = (.ok v, h)) :
    g.PartOf h ∧ h.Plain v := by
  obtain ⟨part, contains⟩ : g.PartOf h ∧ h.Contains v := by
    simpa only [Receives, read] using wf.receives_readStruct text
  obtain ⟨d, st, built, rfl⟩ := exists_build_of_readStruct read
  have adds := d.adds_build (pristine_start g) built
  have added {w : Value} (below : st.graph.Below v w) : (g.added st.graph).Has w := by
    induction below with
    | refl => exact adds.has
    | feature _ found holds ih => exact adds.pristine.feature ih found holds
  exact ⟨part, ⟨fun below => part.wellFormed.contains_of_below contains below,
    fun below => adds.pristine.free (added below)⟩⟩

end Graph

end FeatureLogic
