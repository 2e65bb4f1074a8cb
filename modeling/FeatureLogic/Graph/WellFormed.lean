import FeatureLogic.Graph.Dereference

/-!
# Well-formed graphs

In a well-formed graph every stored handle leads to a node, no structure is marked as absorbed, a
bound variable holds a structure or an atom that says something, and no chain of aliases returns to
itself. New nodes keep a graph well-formed as long as they hold handles that lead to nodes. A graph
whose aliases lead to later variables can be checked node by node.
-/

namespace FeatureLogic

/-- A value that a variable may be bound to. -/
def Value.Informative : Value → Prop
  | .atom a => a ≠ .unspecified
  | .struct _ => True
  | .var _ => False

instance (v : Value) : Decidable v.Informative :=
  match v with
  | .atom a => inferInstanceAs (Decidable (a ≠ .unspecified))
  | .struct _ => .isTrue trivial
  | .var _ => .isFalse id

namespace Graph

/-- Does the handle of a value lead to a node of the graph? -/
def Contains (g : Graph) : Value → Prop
  | .atom _ => True
  | .struct s => s.index < g.structCount
  | .var x => x.index < g.varCount

instance (g : Graph) (v : Value) : Decidable (g.Contains v) :=
  match v with
  | .atom _ => inferInstanceAs (Decidable True)
  | .struct s => inferInstanceAs (Decidable (s.index < g.structCount))
  | .var x => inferInstanceAs (Decidable (x.index < g.varCount))

def IsAlias (g : Graph) (x y : VarId) : Prop :=
  ∃ node, g.var? x = some node ∧ node.binding = .link y

structure WellFormed (g : Graph) : Prop where
  feature : ∀ {s node name v}, g.struct? s = some node → node.features.get? name = some v →
    g.Contains v
  unabsorbed : ∀ {s node}, g.struct? s = some node → node.absorbedBy = none
  bound : ∀ {x node v}, g.var? x = some node → node.binding = .bound v →
    g.Contains v ∧ v.Informative
  link : ∀ {x y}, g.IsAlias x y → y.index < g.varCount
  acyclic : WellFounded fun y x => g.IsAlias x y

theorem Contains.mono {g h : Graph} (structs : g.structCount ≤ h.structCount)
    (vars : g.varCount ≤ h.varCount) {v : Value} (contains : g.Contains v) : h.Contains v := by
  cases v with
  | atom => trivial
  | struct s => exact Nat.lt_of_lt_of_le contains structs
  | var x => exact Nat.lt_of_lt_of_le contains vars

theorem contains_of_struct? {g : Graph} {s : StructId} {node : Structure}
    (h : g.struct? s = some node) : g.Contains (.struct s) := by
  refine Nat.lt_of_not_le fun outside => ?_
  rw [(g.struct?_eq_none_iff s).2 outside] at h
  cases h

theorem contains_of_features? {g : Graph} {s : StructId} {m : NameMap Value}
    (h : g.features? s = some m) : g.Contains (.struct s) := by
  obtain ⟨node, found, -⟩ := Option.map_eq_some_iff.1 h
  exact contains_of_struct? found

theorem contains_of_var? {g : Graph} {x : VarId} {node : Variable}
    (h : g.var? x = some node) : g.Contains (.var x) := by
  refine Nat.lt_of_not_le fun outside => ?_
  rw [(g.var?_eq_none_iff x).2 outside] at h
  cases h

theorem exists_struct_of_contains {g : Graph} {s : StructId} (h : g.Contains (.struct s)) :
    ∃ node, g.struct? s = some node := by
  cases found : g.struct? s with
  | none => exact absurd ((g.struct?_eq_none_iff s).1 found) (Nat.not_le.2 h)
  | some node => exact ⟨node, rfl⟩

theorem exists_features_of_contains {g : Graph} {s : StructId} (h : g.Contains (.struct s)) :
    ∃ m, g.features? s = some m := by
  obtain ⟨node, found⟩ := exists_struct_of_contains h
  exact ⟨node.features, by simp [features?, found]⟩

theorem exists_var_of_contains {g : Graph} {x : VarId} (h : g.Contains (.var x)) :
    ∃ node, g.var? x = some node := by
  cases found : g.var? x with
  | none => exact absurd ((g.var?_eq_none_iff x).1 found) (Nat.not_le.2 h)
  | some node => exact ⟨node, rfl⟩

theorem WellFormed.struct?_of_features? {g : Graph} (wf : g.WellFormed) {s : StructId}
    {m : NameMap Value} (found : g.features? s = some m) :
    g.struct? s = some { features := m } := by
  obtain ⟨⟨features, absorbedBy⟩, present, rfl⟩ := Option.map_eq_some_iff.1 found
  cases wf.unabsorbed present
  exact present

theorem wellFormed_empty : (∅ : Graph).WellFormed where
  feature h := by cases h
  unabsorbed h := by cases h
  bound h := by cases h
  link := by rintro x y ⟨node, h, _⟩; cases h
  acyclic := ⟨fun x => ⟨x, by rintro y ⟨node, h, _⟩; cases h⟩⟩

theorem WellFormed.addStruct {g : Graph} (wf : g.WellFormed) {features : NameMap Value}
    (contains : ∀ name v, features.get? name = some v → (g.addStruct features).Contains v) :
    (g.addStruct features).WellFormed where
  feature {s node name v} found holds := by
    rw [struct?_addStruct] at found
    split at found
    · cases found
      exact contains name v holds
    · exact (wf.feature found holds).mono (by simp) (by simp)
  unabsorbed {s node} found := by
    rw [struct?_addStruct] at found
    split at found
    · cases found
      rfl
    · exact wf.unabsorbed found
  bound found holds := by
    obtain ⟨contains, informative⟩ := wf.bound found holds
    exact ⟨contains.mono (by simp) (by simp), informative⟩
  link := wf.link
  acyclic := wf.acyclic

theorem WellFormed.setFeature {g : Graph} (wf : g.WellFormed) (s : StructId) (name : String)
    {v : Value} (contains : g.Contains v) : (g.setFeature s name v).WellFormed where
  feature {t node key w} found holds := by
    rw [Graph.setFeature, struct?_modifyStruct] at found
    refine Contains.mono (g := g) (by simp) (by simp) ?_
    split at found
    · obtain ⟨node, present, rfl⟩ := Option.map_eq_some_iff.1 found
      simp only [NameMap.get?_insert] at holds
      split at holds
      · cases holds
        exact contains
      · exact wf.feature present holds
    · exact wf.feature found holds
  unabsorbed {t node} found := by
    rw [Graph.setFeature, struct?_modifyStruct] at found
    split at found
    · obtain ⟨node, present, rfl⟩ := Option.map_eq_some_iff.1 found
      show node.absorbedBy = none
      exact wf.unabsorbed present
    · exact wf.unabsorbed found
  bound found holds := by
    obtain ⟨contains, informative⟩ := wf.bound found holds
    exact ⟨contains.mono (by simp) (by simp), informative⟩
  link := wf.link
  acyclic := wf.acyclic

theorem isAlias_of_addVar {g : Graph} {node : Variable} (notAlias : ∀ y, node.binding ≠ .link y)
    {x y : VarId} : (g.addVar node).IsAlias x y → g.IsAlias x y := by
  rintro ⟨node', found, holds⟩
  rw [var?_addVar] at found
  split at found
  · cases found
    exact absurd holds (notAlias y)
  · exact ⟨node', found, holds⟩

theorem WellFormed.addNode {g : Graph} (wf : g.WellFormed) {node : Variable}
    (notAlias : ∀ y, node.binding ≠ .link y)
    (bound : ∀ v, node.binding = .bound v → g.Contains v ∧ v.Informative) :
    (g.addVar node).WellFormed where
  feature found holds := (wf.feature found holds).mono (by simp) (by simp)
  unabsorbed := wf.unabsorbed
  bound {x node' v} found holds := by
    have old : g.Contains v ∧ v.Informative := by
      rw [var?_addVar] at found
      split at found
      · cases found
        exact bound v holds
      · exact wf.bound found holds
    exact ⟨old.1.mono (by simp) (by simp), old.2⟩
  link h := Nat.lt_of_lt_of_le (wf.link (isAlias_of_addVar notAlias h)) (by simp)
  acyclic := Subrelation.wf (isAlias_of_addVar notAlias) wf.acyclic

theorem WellFormed.addVar {g : Graph} (wf : g.WellFormed) (name : String) :
    (g.addVar { name }).WellFormed :=
  wf.addNode (by simp) (by simp)

/-- May the variable hold this, in a graph whose aliases lead to later variables only? -/
def Admits (g : Graph) (x : VarId) : Binding → Prop
  | .free => True
  | .bound v => g.Contains v ∧ v.Informative
  | .link y => x.index < y.index ∧ y.index < g.varCount

instance (g : Graph) (x : VarId) (binding : Binding) : Decidable (g.Admits x binding) :=
  match binding with
  | .free => .isTrue trivial
  | .bound v => inferInstanceAs (Decidable (g.Contains v ∧ v.Informative))
  | .link y => inferInstanceAs (Decidable (x.index < y.index ∧ y.index < g.varCount))

/-- A graph is well-formed if its nodes hold handles of nodes only and its aliases lead to later
variables. -/
theorem wellFormed_of_admits {g : Graph} (unabsorbed : ∀ node ∈ g.structs, node.absorbedBy = none)
    (features : ∀ node ∈ g.structs, ∀ v ∈ node.features.values, g.Contains v)
    (vars : ∀ i (inside : i < g.vars.size), g.Admits ⟨i⟩ g.vars[i].binding) : g.WellFormed := by
  have admits {x : VarId} {node : Variable} (found : g.var? x = some node) :
      g.Admits x node.binding := by
    obtain ⟨inside, rfl⟩ := Array.getElem?_eq_some_iff.1 found
    exact vars x.index inside
  have later {x y : VarId} : g.IsAlias x y → x.index < y.index ∧ y.index < g.varCount := by
    rintro ⟨node, found, holds⟩
    have admitted := admits found
    rwa [holds] at admitted
  constructor
  case feature =>
    intro s node name v found holds
    have stored := features node (Array.mem_of_getElem? found)
    exact NameMap.forall_mem_values.1 stored name v holds
  case unabsorbed => exact fun found => unabsorbed _ (Array.mem_of_getElem? found)
  case bound =>
    intro x node v found holds
    have admitted := admits found
    rwa [holds] at admitted
  case link => exact fun isAlias => (later isAlias).2
  case acyclic =>
    refine Subrelation.wf ?_ (measure fun x : VarId => g.varCount - x.index).wf
    intro y x isAlias
    have := later isAlias
    show g.varCount - y.index < g.varCount - x.index
    omega

theorem WellFormed.deref?_deref? {g : Graph} (wf : g.WellFormed) {v w : Value}
    (h : g.deref? v = some w) : g.deref? w = some w := by
  cases v with
  | atom a => cases h; rfl
  | struct s => cases h; rfl
  | var x =>
    simp only [deref?, Option.bind_eq_bind, Option.bind_eq_some_iff, Option.pure_def,
      Option.some.injEq] at h
    obtain ⟨root, chased, node, found, rfl⟩ := h
    cases binding : node.binding with
    | free => simp [deref?, Binding.value?, root?_root? chased, found, binding]
    | link y => simp [deref?, Binding.value?, root?_root? chased, found, binding]
    | bound v =>
      have informative := (wf.bound found binding).2
      cases v with
      | atom a => rfl
      | struct s => rfl
      | var y => exact informative.elim

end Graph

end FeatureLogic
