import FeatureLogic.Graph.Traversal
import FeatureLogic.Graph.Variables
import FeatureLogic.Proofs.Graph.Tally
import FeatureLogic.Proofs.Join.Entirety

/-!
# Which variables are found

The walk that collects free variables turns back at every structure that it has entered before, even
if it is still on its way through the features of that structure. So when it comes back from a value
it has not found everything below that value: structures that were open before may still have
features to be walked through. But the structures that it has entered in between are finished. What
their features stand for has been entered or found. In the end no structure is open, and so the walk
has found every free variable that a path is traversed to.
-/

namespace FeatureLogic

namespace Census

open FeatureLogic.Graph

/-- Is the value an entered structure or a variable that has been found? Atoms are not recorded. -/
def Has (c : Census) : Value → Prop
  | .struct s => s ∈ c.entered
  | .var x => x ∈ c.free
  | .atom _ => True

def Covers (c : Census) (g : Graph) (v : Value) : Prop := ∃ w, g.deref? v = some w ∧ c.Has w

def Finished (c : Census) (g : Graph) (s : StructId) : Prop :=
  ∀ {m name v}, g.features? s = some m → m.get? name = some v → c.Covers g v

/-- Has the census grown, so that the structures entered in between are finished? -/
structure Advances (c : Census) (g : Graph) (c' : Census) : Prop where
  entered : c.entered <:+ c'.entered
  free : c.free ⊆ c'.free
  finished : ∀ s ∈ c'.entered, s ∉ c.entered → c'.Finished g s

variable {g : Graph} {c c' c'' : Census} {v w : Value} {s : StructId} {x : VarId}

theorem Advances.refl (g : Graph) (c : Census) : c.Advances g c where
  entered := List.suffix_rfl
  free := List.Subset.refl _
  finished _ mem fresh := absurd mem fresh

theorem Advances.has (advances : c.Advances g c') (has : c.Has w) : c'.Has w := by
  cases w with
  | struct s => exact advances.entered.subset has
  | var x => exact advances.free has
  | atom a => trivial

theorem Advances.covers (advances : c.Advances g c') (covers : c.Covers g v) : c'.Covers g v :=
  covers.imp fun _ ⟨reads, has⟩ => ⟨reads, advances.has has⟩

theorem Advances.trans (first : c.Advances g c') (second : c'.Advances g c'') :
    c.Advances g c'' where
  entered := first.entered.trans second.entered
  free := List.Subset.trans first.free second.free
  finished := by
    intro s mem fresh
    by_cases known : s ∈ c'.entered
    · exact fun found holds => second.covers (first.finished s known fresh found holds)
    · exact second.finished s mem known

theorem Advances.find (g : Graph) (c : Census) (x : VarId) :
    c.Advances g { c with free := x :: c.free } where
  entered := List.suffix_rfl
  free := List.subset_cons_self _ _
  finished _ mem fresh := absurd mem fresh

theorem Advances.finish (advances : Advances { c with entered := s :: c.entered } g c')
    (finished : c'.Finished g s) : c.Advances g c' where
  entered := (List.suffix_cons s c.entered).trans advances.entered
  free := advances.free
  finished := by
    intro t mem fresh
    by_cases same : t = s
    · subst same
      exact finished
    · exact advances.finished t mem (by simp [same, fresh])

theorem mem_of_leads (finished : ∀ s ∈ c.entered, c.Finished g s) {path : List String}
    (covers : c.Covers g v) (leads : g.Leads v path (.var x)) : x ∈ c.free := by
  induction path generalizing v with
  | nil =>
    obtain ⟨w, reads, has⟩ := covers
    cases reads.symm.trans (leads_nil.1 leads)
    exact has
  | cons name path ih =>
    obtain ⟨w, reads, has⟩ := covers
    obtain ⟨s, m, child, reads', found, holds, rest⟩ := leads_cons.1 leads
    cases reads.symm.trans reads'
    exact ih (finished s has found holds) rest

end Census

namespace Graph

variable {g : Graph} {P : Value → Prop} {fuel : Nat} {c : Census}

/-- A census that holds nothing but what is in `P`, and can be continued with `fuel` levels. -/
structure CensusReady (g : Graph) (P : Value → Prop) (fuel : Nat) (c : Census) : Prop where
  nodup : c.entered.Nodup
  entered : ∀ s ∈ c.entered, P (.struct s)
  free : ∀ x ∈ c.free, ∃ v, P v ∧ g.deref? v = some (.var x)
  enough : g.structCount + 1 ≤ fuel + c.entered.length

def CollectEnds (g : Graph) (P : Value → Prop) (fuel : Nat)
    (collectStruct : StructId → Census → Option Census) : Prop :=
  ∀ s c, P (.struct s) → CensusReady g P fuel c →
    ∃ c', collectStruct s c = some c' ∧ CensusReady g P fuel c' ∧ c.Advances g c' ∧
      s ∈ c'.entered

theorem CensusReady.find (ready : CensusReady g P fuel c) {v : Value} {x : VarId} (hv : P v)
    (reads : g.deref? v = some (.var x)) :
    CensusReady g P fuel { c with free := x :: c.free } where
  nodup := ready.nodup
  entered := ready.entered
  free := List.forall_mem_cons.2 ⟨⟨v, hv, reads⟩, ready.free⟩
  enough := ready.enough

theorem CensusReady.enter (ready : CensusReady g P (fuel + 1) c) {s : StructId}
    (hs : P (.struct s)) (fresh : s ∉ c.entered) :
    CensusReady g P fuel { c with entered := s :: c.entered } where
  nodup := List.nodup_cons.2 ⟨fresh, ready.nodup⟩
  entered := List.forall_mem_cons.2 ⟨hs, ready.entered⟩
  free := ready.free
  enough := by
    have := ready.enough
    rw [List.length_cons]
    omega

theorem CensusReady.leave (ready : CensusReady g P fuel c) : CensusReady g P (fuel + 1) c where
  nodup := ready.nodup
  entered := ready.entered
  free := ready.free
  enough := by
    have := ready.enough
    omega

theorem CensusReady.fuel_ne_zero (legible : g.Legible P) (ready : CensusReady g P fuel c) :
    fuel ≠ 0 := by
  have bound := length_le_structCount ready.nodup fun s mem =>
    (legible.struct (ready.entered s mem)).imp fun _ h => h.1
  have := ready.enough
  omega

theorem collectValues_cons (legible : g.Legible P)
    {collectStruct : StructId → Census → Option Census} (ends : CollectEnds g P fuel collectStruct)
    {v : Value} (hv : P v) (ready : CensusReady g P fuel c) :
    ∃ c', (∀ rest, g.collectValues collectStruct (v :: rest) c =
        g.collectValues collectStruct rest c') ∧
      CensusReady g P fuel c' ∧ c.Advances g c' ∧ c'.Covers g v := by
  obtain ⟨w, reads, hw⟩ := legible.deref hv
  cases w with
  | atom a =>
    have step (rest : List Value) : g.collectValues collectStruct (v :: rest) c =
        g.collectValues collectStruct rest c := by simp [collectValues, reads]
    exact ⟨c, step, ready, .refl g c, _, reads, trivial⟩
  | var x =>
    have step (rest : List Value) : g.collectValues collectStruct (v :: rest) c =
        g.collectValues collectStruct rest { c with free := x :: c.free } := by
      simp [collectValues, reads]
    exact ⟨_, step, ready.find hv reads, .find g c x, _, reads, List.mem_cons_self⟩
  | struct s =>
    obtain ⟨c', collected, ready', advances, entered⟩ := ends s c hw ready
    have step (rest : List Value) : g.collectValues collectStruct (v :: rest) c =
        g.collectValues collectStruct rest c' := by simp [collectValues, reads, collected]
    exact ⟨c', step, ready', advances, _, reads, entered⟩

theorem collectValues_ends (legible : g.Legible P)
    {collectStruct : StructId → Census → Option Census} (ends : CollectEnds g P fuel collectStruct)
    {values : List Value} (inside : ∀ v ∈ values, P v) (ready : CensusReady g P fuel c) :
    ∃ c', g.collectValues collectStruct values c = some c' ∧ CensusReady g P fuel c' ∧
      c.Advances g c' ∧ ∀ v ∈ values, c'.Covers g v := by
  induction values generalizing c with
  | nil => exact ⟨c, rfl, ready, .refl g c, by simp⟩
  | cons v rest ih =>
    obtain ⟨hv, insideRest⟩ := List.forall_mem_cons.1 inside
    obtain ⟨c₁, step, ready₁, advances₁, covers⟩ := collectValues_cons legible ends hv ready
    obtain ⟨c₂, collected, ready₂, advances₂, coversRest⟩ := ih insideRest ready₁
    refine ⟨c₂, (step rest).trans collected, ready₂, advances₁.trans advances₂, ?_⟩
    exact List.forall_mem_cons.2 ⟨advances₂.covers covers, coversRest⟩

theorem collectStruct_ends (legible : g.Legible P) (fuel : Nat) :
    CollectEnds g P fuel (g.collectStruct fuel) := by
  induction fuel with
  | zero => exact fun s c _ ready => absurd rfl (ready.fuel_ne_zero legible)
  | succ fuel ih =>
    intro s c hs ready
    by_cases known : s ∈ c.entered
    · -- the structure may still be open, so nothing is said of its features
      exact ⟨c, by simp [collectStruct, known], ready, .refl g c, known⟩
    · obtain ⟨m, found, inside⟩ := legible.struct hs
      obtain ⟨c', collected, ready', advances, covers⟩ :=
        collectValues_ends legible ih (NameMap.forall_mem_values.2 inside) (ready.enter hs known)
      have finished : c'.Finished g s := by
        intro m' name v found' holds
        cases found.symm.trans found'
        exact NameMap.forall_mem_values.1 covers name v holds
      refine ⟨c', by simp [collectStruct, known, found, collected], ready'.leave,
        advances.finish finished, ?_⟩
      exact advances.entered.subset List.mem_cons_self

theorem Legible.exists_census (legible : g.Legible P) {v : Value} (hv : P v) :
    ∃ c : Census, g.collectValues (g.collectStruct (g.structCount + 1)) [v] {} = some c ∧
      c.Covers g v ∧ (∀ s ∈ c.entered, c.Finished g s) ∧
      ∀ x ∈ c.free, ∃ u, P u ∧ g.deref? u = some (.var x) := by
  have ready : CensusReady g P (g.structCount + 1) {} :=
    ⟨List.nodup_nil, by simp, by simp, by simp⟩
  have single : ∀ u ∈ [v], P u := List.forall_mem_singleton.2 hv
  obtain ⟨c, collected, ready', advances, covers⟩ :=
    collectValues_ends legible (collectStruct_ends legible _) single ready
  refine ⟨c, collected, covers v List.mem_cons_self, fun s mem => ?_, ready'.free⟩
  exact advances.finished s mem List.not_mem_nil

variable {v w : Value} {path : List String}

theorem WellFormed.leads_of_traverses (wf : g.WellFormed) (traverses : g.Traverses v path w)
    {u : Value} (reads : g.deref? w = some u) : g.Leads v path u := by
  induction traverses with
  | stay => exact leads_nil.2 reads
  | link isAlias _ ih => exact (leads_congr (wf.deref?_of_isAlias isAlias)).2 (ih reads)
  | bound found holds _ ih => exact (wf.leads_deref_iff (deref?_of_bound found holds)).2 (ih reads)
  | feature found holds _ ih => exact leads_cons.2 ⟨_, _, _, rfl, found, holds, ih reads⟩

/-- The paths that lead somewhere are those traversed to values that stand for themselves. -/
theorem WellFormed.leads_iff_traverses (wf : g.WellFormed) :
    g.Leads v path w ↔ g.Traverses v path w ∧ g.deref? w = some w :=
  ⟨fun leads => ⟨leads.traverses, wf.deref?_of_leads leads⟩,
    fun ⟨traverses, self⟩ => wf.leads_of_traverses traverses self⟩

theorem WellFormed.legible_of_traverses (wf : g.WellFormed) (inside : g.Contains v) :
    g.Legible fun u => ∃ path, g.Traverses v path u where
  deref := by
    rintro u ⟨path, traverses⟩
    obtain ⟨w, reads, -⟩ := wf.exists_deref (wf.contains_of_traverses inside traverses)
    exact ⟨w, reads, _, traverses.trans (traverses_of_deref? reads)⟩
  struct := by
    rintro s ⟨path, traverses⟩
    obtain ⟨m, found⟩ := exists_features_of_contains (wf.contains_of_traverses inside traverses)
    refine ⟨m, found, fun name u holds => ⟨path ++ [name], ?_⟩⟩
    exact traverses.trans (.feature found holds (.stay u))
  var := by
    rintro x ⟨path, traverses⟩
    obtain ⟨node, found⟩ := exists_var_of_contains (wf.contains_of_traverses inside traverses)
    exact ⟨node.name, by simp [name?, found]⟩

/-- The variables are listed for every value of a well-formed graph, in ascending order. They are
the free ones among those that paths from the value are traversed to, by way of aliases and bound
variables, around cycles or not. -/
theorem WellFormed.variables?_exact (wf : g.WellFormed) (inside : g.Contains v) :
    ∃ free, g.variables? v = some free ∧ free.Pairwise (·.index < ·.index) ∧
      ∀ x, x ∈ free ↔ (∃ name, g.var? x = some { name }) ∧
        ∃ path, g.Traverses v path (.var x) := by
  obtain ⟨c, collected, covers, finished, sound⟩ :=
    (wf.legible_of_traverses inside).exists_census ⟨[], .stay v⟩
  refine ⟨_, by rw [variables?, collected, Option.map_some], ?ascending,
    fun x => ⟨?found, ?complete⟩⟩
  case ascending => exact List.Pairwise.filter _ (List.pairwise_map.2 List.pairwise_lt_range)
  case found =>
    intro listed
    have mem : x ∈ c.free := by simpa using (List.mem_filter.1 listed).2
    obtain ⟨u, ⟨path, traverses⟩, reads⟩ := sound x mem
    have self : g.deref? (.var x) = some (.var x) := wf.deref?_deref? reads
    exact ⟨wf.free_of_deref? self, _, traverses.trans (traverses_of_deref? reads)⟩
  case complete =>
    rintro ⟨⟨name, found⟩, path, traverses⟩
    have leads : g.Leads v path (.var x) :=
      wf.leads_iff_traverses.2 ⟨traverses, deref?_of_free found⟩
    have mem : x ∈ c.free := Census.mem_of_leads finished covers leads
    have place : x ∈ (List.range g.varCount).map VarId.mk :=
      List.mem_map.2 ⟨x.index, List.mem_range.2 (contains_of_var? found), rfl⟩
    exact List.mem_filter.2 ⟨place, by simpa using mem⟩

/-- A structure that leads to itself and, through a bound variable, to one that leads back to it
and to an alias. The last variable is apart from the others. -/
def whorl : Graph where
  structs := #[{ features := .ofList [("inner", .var ⟨0⟩), ("self", .struct ⟨0⟩)] },
    { features := .ofList [("open", .var ⟨1⟩), ("outer", .struct ⟨0⟩)] }]
  vars := #[{ name := "i", binding := .bound (.struct ⟨1⟩) },
    { name := "j", binding := .link ⟨2⟩ }, { name := "k" }, { name := "l" }]

theorem wellFormed_whorl : whorl.WellFormed :=
  wellFormed_of_admits (by decide +kernel) (by decide +kernel) (by decide +kernel)

/-- The alias is only passed through, and no path from the structures is traversed to the last
variable. -/
theorem whorl_variables? : whorl.WellFormed ∧ whorl.Contains (.var ⟨0⟩) ∧
    whorl.variables? (.var ⟨0⟩) = some [⟨2⟩] ∧
    whorl.Traverses (.var ⟨0⟩) ["outer", "inner", "open"] (.var ⟨1⟩) ∧
    (∃ path, whorl.Traverses (.var ⟨0⟩) path (.var ⟨2⟩)) ∧
    ∀ path, ¬ whorl.Traverses (.var ⟨0⟩) path (.var ⟨3⟩) := by
  have inside : whorl.Contains (.var ⟨0⟩) := by decide
  have listed : whorl.variables? (.var ⟨0⟩) = some [⟨2⟩] := by decide +kernel
  obtain ⟨free, listed', -, exact⟩ := wellFormed_whorl.variables?_exact inside
  cases listed.symm.trans listed'
  have around : whorl.Traverses (.var ⟨0⟩) ["outer", "inner", "open"] (.var ⟨1⟩) :=
    .bound rfl rfl (.feature rfl rfl (.feature rfl rfl (.bound rfl rfl
      (.feature rfl rfl (.stay _)))))
  refine ⟨wellFormed_whorl, inside, listed, around, ((exact ⟨2⟩).1 (by simp)).2, ?_⟩
  intro path traverses
  have mem := (exact ⟨3⟩).2 ⟨⟨"l", rfl⟩, path, traverses⟩
  simp at mem

end Graph

end FeatureLogic
