import FeatureLogic.Proofs.Graph.Plainness
import FeatureLogic.Proofs.Unification.Passage

/-!
# Scope and result agree

When plain operands are unified under a common scope whose entries are simple, all variables of a
name have become one value. That value is found in the result wherever one of them was in an
operand, and in the scope under that name and under every name that was tied to it.
-/

namespace FeatureLogic

/-- Does `name` stand for `w`, if a name without an entry stands for a free variable of that
name? -/
def Scope.Gives (scope : Scope) (g : Graph) (name : String) (w : Value) : Prop :=
  scope.get? name = some w ∨
    scope.get? name = none ∧ ∃ y, w = .var y ∧ g.var? y = some { name }

namespace Graph

open Join

def Occurs (g : Graph) (a b : Value) (path : List String) (name : String) : Prop :=
  ∃ x, g.name? x = some name ∧ (g.Leads a path (.var x) ∨ g.Leads b path (.var x))

end Graph

open FeatureLogic.Graph Join

/-- What a unification of plain operands under a common scope has gone through when it succeeds. -/
structure TiedStages (g : Graph) (a b : Value) (start : Scope) where
  left : g.Plain a
  right : g.Plain b
  simple : start.Simple g
  graph : Graph
  memory : Copying
  copies : g.TiedOperands a b start graph memory
  operands : g.OperandCopies graph (memory.images.apply a) (memory.images.apply b)
    (.common (memory.scope.map memory.images.apply))
  outcome : Value
  joined : JoinState
  run : Runs (.join (memory.images.apply a) (memory.images.apply b)) { graph } (.ok outcome) joined
  result : Value
  scope : Scope
  final : Graph
  visited : List StructId
  form : NormalForm g graph joined.graph outcome (.common (memory.scope.map memory.images.apply))
    result (.common scope) final visited

namespace TiedStages

variable {g : Graph} {a b : Value} {start : Scope} (stages : TiedStages g a b start)

def image (v : Value) : Value := stages.memory.images.apply v

def after : Graph := stages.final.forgetAbsorbed g.structCount

theorem whole : stages.graph.entirety.Closed stages.joined.graph := stages.form.whole

theorem source (stages : TiedStages g a b start) : g.Source (g.Scoped a b start) :=
  stages.left.scoped stages.right stages.simple

variable {stages}

/-- The copy of a free variable says something and is listed under all names tied to its name. -/
theorem image_var {x : VarId} {name : String} (found : g.var? x = some { name })
    (imaged : Imaged stages.memory (.var x)) :
    stages.image (.var x) ≠ .unspecified ∧ ∀ other, start.Ties g name other →
      (stages.memory.scope.map stages.memory.images.apply).get? other =
        some (stages.image (.var x)) := by
  obtain ⟨v, copied⟩ := imaged
  have called : g.name? x = some name := by simp [name?, found]
  have image : stages.image (.var x) = v := by simp [TiedStages.image, Images.apply, copied]
  rw [image]
  exact ⟨stages.copies.tied.informs (stages.copies.tied.image copied (deref?_of_free found) called),
    fun _ ties => stages.copies.listed copied (deref?_of_free found) called ties⟩

variable (stages) in
def passage : Passage g a b where
  left := stages.left
  right := stages.right
  domain := g.Scoped a b start
  inside := stages.source.contains
  start := start
  graph := stages.graph
  memory := stages.memory
  aligned := stages.copies.tied.toAligned
  complete := stages.copies.complete
  imagedLeft := stages.copies.left
  imagedRight := stages.copies.right
  telling {x v} hx copied := by
    obtain ⟨name, found⟩ := (stages.left.source stages.right).free hx
    have telling := (image_var found ⟨v, copied⟩).1
    simpa [image, Images.apply, copied] using telling
  copied := .common (stages.memory.scope.map stages.memory.images.apply)
  operands := stages.operands
  outcome := stages.outcome
  joined := stages.joined
  run := stages.run
  result := stages.result
  scoping := .common stages.scope
  final := stages.final
  visited := stages.visited
  form := stages.form

theorem has_image {v : Value} (imaged : Imaged stages.memory v) :
    stages.graph.entirety.Has (stages.image v) :=
  stages.passage.has_image imaged

theorem imaged_of_leads {path : List String} {v w : Value} (plain : g.Plain v)
    (imaged : Imaged stages.memory v) (leads : g.Leads v path w) : Imaged stages.memory w :=
  stages.passage.imaged_of_below plain imaged (plain.below_of_leads leads)

theorem leads_result {path : List String} {x : VarId} {w : Value}
    (leads : g.Leads a path (.var x) ∨ g.Leads b path (.var x))
    (becomes : stages.joined.graph.Settles (stages.image (.var x)) w) :
    stages.after.Leads stages.result path w :=
  stages.passage.leads_result leads becomes

theorem gives {name : String} {v w : Value}
    (listed : (stages.memory.scope.map stages.memory.images.apply).get? name = some v)
    (settles : stages.joined.graph.Settles v w) : stages.scope.Gives stages.after name w := by
  have kept : Region.ScopeSettles stages.joined.graph stages.visited _ stages.scope :=
    stages.form.scopes
  obtain ⟨w', settles', -, ⟨found, -⟩ | ⟨absent, x, rfl, called⟩⟩ := kept.present listed
  · cases settles'.unique settles
    exact .inl found
  · cases settles'.unique settles
    have has : stages.graph.entirety.Has v := stages.form.inside name v listed
    have settled := stages.form.normal.settled stages.whole
      (stages.whole.settled has settles').has (stages.whole.settles_self has settles')
    have reshapes := stages.form.normal.settling.reshapes
    obtain ⟨name', found⟩ := settled.free (reshapes.closed.contains settled.has)
    have same : name' = name := by
      rw [← reshapes.name] at called
      simpa [name?, found] using called
    exact .inr ⟨absent, x, rfl, by rw [after, var?_forgetAbsorbed, found, same]⟩

end TiedStages

namespace Graph

/-- A unification of plain operands under a common scope of simple entries goes through all its
stages when it succeeds. -/
theorem Plain.exists_tiedStages {g g' : Graph} {a b r : Value} {start : Scope} {after : Scoping}
    {limit : Nat} (wf : g.WellFormed) (ha : g.Plain a) (hb : g.Plain b) (simple : start.Simple g)
    (ok : g.unify? limit a b (.common start) = some (.ok (r, after), g')) :
    ∃ stages : TiedStages g a b start,
      stages.result = r ∧ after = .common stages.scope ∧ stages.after = g' := by
  have within : (Scoping.common start).All (Scope.Within · g) :=
    fun name v found => (simple name v found).contains
  obtain ⟨result, ends, how⟩ :=
    wf.exists_concludes limit (ha.contains .refl) (hb.contains .refl) within
  cases ends.symm.trans ok
  cases how with
  | @succeeds h final v w u _ copied _ st visited walked operands joined form =>
    obtain ⟨h', m, walked', copies⟩ := ha.exists_tiedOperands wf hb simple
    cases walked.symm.trans walked'
    obtain ⟨out, st', ends', run⟩ := executes_joinWithin limit limit [] (m.images.apply a)
      (m.images.apply b) { graph := h } operands.invariant_entirety operands.ready_entirety
    have same : ending (out.map id) st' = .ok u st := ends'.symm.trans joined
    cases out with
    | error f => cases same
    | ok u' =>
      cases same
      cases after with
      | separate => exact form.scopes.elim
      | common scope =>
        exact ⟨⟨ha, hb, simple, h, m, copies, operands, _, _, run, r, scope, final, visited,
          form⟩, rfl, rfl, rfl⟩

/-- After a successful unification of plain operands under a common scope of simple entries, there
is one value for each name that a variable in an operand has. The result has this value wherever a
variable of the name was, and the scope gives it for the name and for every name tied to it. -/
theorem unify?_agrees {g g' : Graph} {a b r : Value} {start : Scope} {after : Scoping}
    {limit : Nat} (wf : g.WellFormed) (ha : g.Plain a) (hb : g.Plain b) (simple : start.Simple g)
    (ok : g.unify? limit a b (.common start) = some (.ok (r, after), g')) :
    ∃ scope, after = .common scope ∧ ∀ {path₀ name}, g.Occurs a b path₀ name →
      ∃ w, (∀ path, g.Occurs a b path name → g'.Leads r path w) ∧
        ∀ other, start.Ties g name other → scope.Gives g' other w := by
  obtain ⟨stages, rfl, rfl, rfl⟩ := ha.exists_tiedStages wf hb simple ok
  refine ⟨stages.scope, rfl, fun {path₀ name} occurs => ?_⟩
  -- every variable of the name has the copy that is listed under the name
  have copied {path : List String} {x : VarId} (called : g.name? x = some name)
      (leads : g.Leads a path (.var x) ∨ g.Leads b path (.var x)) :
      Imaged stages.memory (.var x) ∧ ∀ other, start.Ties g name other →
        (stages.memory.scope.map stages.memory.images.apply).get? other =
          some (stages.image (.var x)) := by
    have imaged : Imaged stages.memory (.var x) := leads.elim
      (TiedStages.imaged_of_leads ha stages.copies.left)
      (TiedStages.imaged_of_leads hb stages.copies.right)
    have below : g.Operands a b (.var x) := leads.imp ha.below_of_leads hb.below_of_leads
    obtain ⟨name', found⟩ := (ha.source hb).free below
    have same : name' = name := by simpa [name?, found] using called
    exact ⟨imaged, (TiedStages.image_var (same ▸ found) imaged).2⟩
  obtain ⟨x, called, leads⟩ := occurs
  obtain ⟨imaged, listed⟩ := copied called leads
  obtain ⟨w, becomes⟩ := stages.whole.exists_settles (TiedStages.has_image imaged)
  refine ⟨w, ?_, fun other ties => TiedStages.gives (listed other ties) becomes⟩
  rintro path ⟨x', called', leads'⟩
  obtain ⟨-, listed'⟩ := copied called' leads'
  have same : stages.image (.var x') = stages.image (.var x) :=
    Option.some.inj ((listed' name .refl).symm.trans (listed name .refl))
  exact TiedStages.leads_result leads' (same ▸ becomes)

def tiedRecords : Graph := records.addVar { name := "m" }

theorem plain_tiedRecords {s : StructId} (h : s = ⟨0⟩ ∨ s = ⟨1⟩) :
    tiedRecords.Plain (.struct s) := by
  have check : tiedRecords.plainOn
      [.struct ⟨0⟩, .struct ⟨1⟩, .var ⟨0⟩, .atom (.int 1)] := by decide +kernel
  refine plain_of_plainOn check ?_
  rcases h with rfl | rfl <;> simp

theorem simple_tiedRecords :
    Scope.Simple (.ofList [("n", .var ⟨1⟩)]) tiedRecords := by
  intro name v found
  obtain ⟨rfl, rfl⟩ : name = "n" ∧ v = .var ⟨1⟩ := by
    simpa using NameMap.mem_of_get?_ofList found
  exact ⟨⟨1⟩, rfl⟩

theorem records_agree : ∃ (r : Value) (scope : Scope) (g' : Graph),
    tiedRecords.unify? 50 (.struct ⟨0⟩) (.struct ⟨1⟩) (.common (.ofList [("n", .var ⟨1⟩)])) =
      some (.ok (r, .common scope), g') ∧
    ∃ w, g'.Leads r ["left"] w ∧ g'.Leads r ["right"] w ∧
      scope.Gives g' "n" w ∧ scope.Gives g' "m" w := by
  have ok : ∃ (result : Value × Scoping) (g' : Graph), tiedRecords.unify? 50 (.struct ⟨0⟩)
      (.struct ⟨1⟩) (.common (.ofList [("n", .var ⟨1⟩)])) = some (.ok result, g') := ⟨_, _, rfl⟩
  obtain ⟨⟨r, after⟩, g', ok⟩ := ok
  obtain ⟨scope, rfl, agrees⟩ := unify?_agrees (wellFormed_records.addVar "m")
    (plain_tiedRecords (.inl rfl)) (plain_tiedRecords (.inr rfl)) simple_tiedRecords ok
  have left : tiedRecords.Occurs (.struct ⟨0⟩) (.struct ⟨1⟩) ["left"] "n" :=
    ⟨⟨0⟩, rfl, .inl rfl⟩
  have right : tiedRecords.Occurs (.struct ⟨0⟩) (.struct ⟨1⟩) ["right"] "n" :=
    ⟨⟨0⟩, rfl, .inl rfl⟩
  have tie : Scope.Alias (.ofList [("n", .var ⟨1⟩)]) tiedRecords "n" "m" :=
    ⟨.var ⟨1⟩, ⟨1⟩, rfl, rfl, rfl⟩
  obtain ⟨w, leads, gives⟩ := agrees left
  exact ⟨r, scope, g', ok, w, leads _ left, leads _ right, gives "n" .refl,
    gives "m" (.single tie)⟩

end Graph

end FeatureLogic
