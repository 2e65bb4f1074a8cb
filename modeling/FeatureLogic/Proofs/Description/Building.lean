import FeatureLogic.Description.Denotation
import FeatureLogic.Proofs.Graph.Part

/-!
# Building descriptions

Building a description only adds nodes, and it only writes features of structures that it has added
itself. Whether it succeeds or not, no handle leads out of the graph, so that giving up the new
nodes after an error leaves the graph as it was.
-/

namespace FeatureLogic

open FeatureLogic.Graph

def Introduced.Within (introduced : Introduced) (g : Graph) : Prop :=
  ∀ id v, introduced.lookup id = some v → g.Contains v

namespace Build

structure Follows (g : Graph) (st st' : BuildState) : Prop where
  part : g.PartOf st'.graph
  structs : st.graph.structCount ≤ st'.graph.structCount
  vars : st.graph.varCount ≤ st'.graph.varCount
  within : st'.introduced.Within st'.graph

abbrev Ready (g : Graph) (st : BuildState) : Prop := Follows g st st

/-- Does a step add to the graph, whether it succeeds or not, and is its result good if it does? -/
def Safe {α : Type} (g : Graph) (Good : Graph → α → Prop) (step : Build α) (st : BuildState) :
    Prop :=
  match step st with
  | .ok a st' => Follows g st st' ∧ Good st'.graph a
  | .error _ st' => Follows g st st'

variable {α β : Type} {g : Graph} {st st₁ st' : BuildState}

theorem Follows.trans (first : Follows g st st₁) (second : Follows g st₁ st') :
    Follows g st st' :=
  ⟨second.part, first.structs.trans second.structs, first.vars.trans second.vars, second.within⟩

theorem Follows.ready (follows : Follows g st st') : Ready g st' :=
  ⟨follows.part, Nat.le_refl _, Nat.le_refl _, follows.within⟩

theorem Follows.contains (follows : Follows g st st') {v : Value} (inside : st.graph.Contains v) :
    st'.graph.Contains v :=
  inside.mono follows.structs follows.vars

theorem Safe.bind {Good : Graph → α → Prop} {Good' : Graph → β → Prop} {step : Build α}
    {next : α → Build β} (safe : Safe g Good step st)
    (goesOn : ∀ a st', Follows g st st' → Good st'.graph a → Safe g Good' (next a) st') :
    Safe g Good' (step >>= next) st := by
  unfold Safe at safe ⊢
  show match EStateM.bind step next st with | .ok a st' => _ | .error _ st' => _
  rw [EStateM.bind]
  cases ran : step st with
  | error e st' =>
    rw [ran] at safe
    exact safe
  | ok a st' =>
    rw [ran] at safe
    obtain ⟨follows, good⟩ := safe
    have rest := goesOn a st' follows good
    unfold Safe at rest
    dsimp only
    cases ran' : next a st' with
    | error e st'' =>
      rw [ran'] at rest
      exact follows.trans rest
    | ok b st'' =>
      rw [ran'] at rest
      exact ⟨follows.trans rest.1, rest.2⟩

theorem safe_pure {Good : Graph → α → Prop} (ready : Ready g st) {a : α} (good : Good st.graph a) :
    Safe g Good (pure a) st := ⟨ready, good⟩

theorem safe_newStruct (ready : Ready g st) :
    Safe g (fun h s => (g.added h).Has (.struct s)) newStruct st := by
  have part : g.PartOf (st.graph.addStruct ∅) :=
    ready.part.addStruct fun name v found => by cases found
  refine ⟨⟨part, ?_, Nat.le_refl _, fun id v found => ?_⟩,
    (added_addStruct ready.part.structs).2 (.inr rfl)⟩
  · simp
  · exact (ready.within id v found).mono (by simp) (by simp)

theorem safe_newVar (ready : Ready g st) (name : String) :
    Safe g (fun h x => h.Contains (.var x)) (newVar name) st := by
  refine ⟨⟨ready.part.addVar name, Nat.le_refl _, ?_, fun id v found => ?_⟩, ?_⟩
  · simp
  · exact (ready.within id v found).mono (by simp) (by simp)
  · simp [Contains, nextVar]

theorem safe_setFeature (ready : Ready g st) {s : StructId}
    (has : (g.added st.graph).Has (.struct s)) (name : String) {v : Value}
    (inside : st.graph.Contains v) : Safe g (fun _ _ => True) (setFeature s name v) st := by
  refine ⟨⟨ready.part.setFeature has name inside, ?_, Nat.le_refl _, fun id v found => ?_⟩, trivial⟩
  · simp
  · exact (ready.within id v found).mono (by simp) (by simp)

theorem bind_of_ok {x : Build α} {a : α} (h : x st = .ok a st') (k : α → Build β) :
    (x >>= k) st = k a st' := by
  show EStateM.bind x k st = _
  rw [EStateM.bind, h]

theorem introduce_apply (tag : Tag) (v : Value) : introduce tag v st =
    match st.introduced.lookup tag.id with
    | some _ => .error ⟨.newIdentifier tag.id, tag.start⟩ st
    | none => .ok () { st with introduced := (tag.id, v) :: st.introduced } := by
  rw [introduce, bind_of_ok (x := get) (a := st) rfl]
  cases st.introduced.lookup tag.id <;> rfl

theorem refer_apply (tag : Tag) : refer tag st =
    match st.introduced.lookup tag.id with
    | some v => .ok v st
    | none => .error ⟨.boundIdentifier tag.id, tag.start⟩ st := by
  rw [refer, bind_of_ok (x := get) (a := st) rfl]
  cases st.introduced.lookup tag.id <;> rfl

theorem safe_introduce (ready : Ready g st) (tag : Tag) {v : Value} (inside : st.graph.Contains v) :
    Safe g (fun _ _ => True) (introduce tag v) st := by
  unfold Safe
  rw [introduce_apply]
  cases st.introduced.lookup tag.id with
  | some _ => exact ready
  | none =>
    refine ⟨⟨ready.part, Nat.le_refl _, Nat.le_refl _, fun id w found => ?_⟩, trivial⟩
    rw [Copying.lookup_cons_eq] at found
    split at found
    · cases found
      exact inside
    · exact ready.within id w found

theorem safe_introduce? (ready : Ready g st) (tag : Option Tag) {v : Value}
    (inside : st.graph.Contains v) : Safe g (fun _ _ => True) (introduce? tag v) st := by
  cases tag with
  | none => exact safe_pure ready trivial
  | some tag => exact safe_introduce ready tag inside

theorem safe_refer (ready : Ready g st) (tag : Tag) :
    Safe g Contains (refer tag) st := by
  unfold Safe
  rw [refer_apply]
  cases known : st.introduced.lookup tag.id with
  | some v => exact ⟨ready, ready.within tag.id v known⟩
  | none => exact ready

end Build

open Build

mutual

theorem Description.safe_build {g : Graph} (d : Description Tag) (outer : Option Tag)
    {st : BuildState} (ready : Ready g st) : Safe g Contains (d.build outer) st := by
  match d with
  | .atom a =>
    exact (safe_introduce? (v := .atom a) ready outer trivial).bind fun _ st' follows _ =>
      safe_pure follows.ready trivial
  | .var name =>
    refine (safe_newVar ready name).bind fun x st₁ follows contains => ?_
    refine (safe_introduce? follows.ready outer contains).bind fun _ st' follows' _ => ?_
    exact safe_pure follows'.ready (follows'.contains contains)
  | .struct tag features =>
    refine (safe_newStruct ready).bind fun s st₁ follows₁ has => ?_
    have contains := contains_of_added has
    refine (safe_introduce? follows₁.ready outer contains).bind fun _ st₂ follows₂ _ => ?_
    refine (safe_introduce? follows₂.ready tag (follows₂.contains contains)).bind
      fun _ st₃ follows₃ _ => ?_
    have follows := follows₂.trans follows₃
    refine (features.safe_build follows₃.ready (added_mono follows.structs follows.vars has)).bind
      fun _ st' follows₄ _ => ?_
    exact safe_pure follows₄.ready (follows₄.contains (follows.contains contains))

theorem Features.safe_build {g : Graph} (features : Features Tag) {s : StructId} {st : BuildState}
    (ready : Ready g st) (has : (g.added st.graph).Has (.struct s)) :
    Safe g (fun _ _ => True) (features.build s) st := by
  match features with
  | .nil => exact safe_pure ready trivial
  | .assign name tag value rest =>
    refine (value.safe_build tag ready).bind fun v st₁ follows contains => ?_
    have has₁ := added_mono follows.structs follows.vars has
    refine (safe_setFeature follows.ready has₁ name contains).bind fun _ st' follows' _ => ?_
    exact rest.safe_build follows'.ready (added_mono follows'.structs follows'.vars has₁)
  | .refer name tag rest =>
    refine (safe_refer ready tag).bind fun v st₁ follows contains => ?_
    have has₁ := added_mono follows.structs follows.vars has
    refine (safe_setFeature follows.ready has₁ name contains).bind fun _ st' follows' _ => ?_
    exact rest.safe_build follows'.ready (added_mono follows'.structs follows'.vars has₁)

end

namespace Graph

variable {g : Graph}

/-- A description that is built adds nodes, and one that is not leaves the graph as it was. -/
theorem WellFormed.partOf_build (wf : g.WellFormed) {introduced : Introduced}
    (within : introduced.Within g) (d : Description Tag) :
    match g.build introduced d with
    | (.ok v, introduced', h) => g.PartOf h ∧ h.Contains v ∧ introduced'.Within h
    | (.error _, _, h) => h = g := by
  have ready : Ready g { graph := g, introduced } :=
    ⟨.refl wf, Nat.le_refl _, Nat.le_refl _, within⟩
  have safe := d.safe_build none ready
  unfold Safe at safe
  unfold build
  cases ran : d.build none { graph := g, introduced } with
  | ok v st =>
    rw [ran] at safe
    exact ⟨safe.1.part, safe.2, safe.1.within⟩
  | error e st =>
    rw [ran] at safe
    exact safe.part.truncate

def Receives (g : Graph) : Except SyntaxError Value × Graph → Prop
  | (.ok v, h) => g.PartOf h ∧ h.Contains v
  | (.error _, h) => h = g

theorem WellFormed.receives_build (wf : g.WellFormed) (d : Description Tag) :
    g.Receives ((g.build [] d).1, (g.build [] d).2.2) := by
  have within : Introduced.Within [] g := fun id v found => by cases found
  have built := wf.partOf_build within d
  generalize g.build [] d = outcome at built ⊢
  obtain ⟨result, introduced, h⟩ := outcome
  cases result with
  | ok v => exact ⟨built.1, built.2.1⟩
  | error e => exact built

theorem WellFormed.receives_readValue (wf : g.WellFormed) (text : String) :
    g.Receives (g.readValue text) := by
  unfold readValue
  cases Description.read text with
  | error e => exact rfl
  | ok d => exact wf.receives_build d

theorem WellFormed.receives_readStruct (wf : g.WellFormed) (text : String) :
    g.Receives (g.readStruct text) := by
  unfold readStruct
  cases Description.read text with
  | error e => exact rfl
  | ok d =>
    cases d with
    | atom a => exact rfl
    | var name => exact rfl
    | struct tag features => exact wf.receives_build (.struct tag features)

end Graph

end FeatureLogic
