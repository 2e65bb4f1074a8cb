import FeatureLogic.Graph.Reachability

/-!
# Checking that a value is plain

A list of values that holds the features of all its structures, and no variable that is bound or an
alias, holds only plain values.
-/

namespace FeatureLogic.Graph

def plainOn (g : Graph) (values : List Value) : Bool :=
  values.all fun
    | .atom _ => true
    | .struct s => (g.features? s).any fun m => m.values.all (· ∈ values)
    | .var x => (g.var? x).any fun node => node.binding = .free

theorem mem_of_below {g : Graph} {values : List Value} (check : g.plainOn values) {v w : Value}
    (mem : v ∈ values) (below : g.Below v w) : w ∈ values := by
  induction below with
  | refl => exact mem
  | @feature s m name w _ found holds ih =>
    have all := List.all_eq_true.1 check _ ih
    simp only [found, Option.any_some, List.all_eq_true, decide_eq_true_eq] at all
    exact NameMap.forall_mem_values.1 all name w holds

theorem plain_of_plainOn {g : Graph} {values : List Value} (check : g.plainOn values)
    {v : Value} (mem : v ∈ values) : g.Plain v := by
  have each {w : Value} (below : g.Below v w) :=
    List.all_eq_true.1 check w (mem_of_below check mem below)
  constructor
  · intro w below
    have ok := each below
    cases w with
    | atom a => trivial
    | struct s =>
      obtain ⟨m, found, -⟩ := (Option.any_eq_true _ _).1 ok
      exact contains_of_features? found
    | var x =>
      obtain ⟨node, found, -⟩ := (Option.any_eq_true _ _).1 ok
      exact contains_of_var? found
  · intro x below
    obtain ⟨⟨name, binding⟩, found, free⟩ := (Option.any_eq_true _ _).1 (each below)
    simp only [decide_eq_true_eq] at free
    exact ⟨name, free ▸ found⟩

theorem unshared_of_plainOn {g : Graph} {v w : Value} (values values' : List Value)
    (check : g.plainOn values) (check' : g.plainOn values')
    (apart : ∀ u ∈ values, u.isNode → u ∉ values') (mem : v ∈ values) (mem' : w ∈ values') :
    g.Unshared v w :=
  fun u node below below' =>
    apart u (mem_of_below check mem below) node (mem_of_below check' mem' below')

theorem wellFormed_of_plain {g : Graph} (plain : ∀ v, v.isNode → g.Contains v → g.Plain v)
    (unabsorbed : ∀ s node, g.struct? s = some node → node.absorbedBy = none) : g.WellFormed where
  feature {s node name v} found holds := by
    have present : g.features? s = some node.features := by simp [features?, found]
    have below : g.Below (.struct s) v := .feature .refl present holds
    exact (plain (.struct s) rfl (contains_of_struct? found)).contains below
  unabsorbed found := unabsorbed _ _ found
  bound {x node v} found holds := by
    obtain ⟨name, present⟩ := (plain (.var x) rfl (contains_of_var? found)).free .refl
    cases found.symm.trans present
    cases holds
  link {x y} := by
    rintro ⟨node, found, holds⟩
    obtain ⟨name, present⟩ := (plain (.var x) rfl (contains_of_var? found)).free .refl
    cases found.symm.trans present
    cases holds
  acyclic := by
    refine ⟨fun x => ⟨x, ?_⟩⟩
    rintro y ⟨node, found, holds⟩
    obtain ⟨name, present⟩ := (plain (.var x) rfl (contains_of_var? found)).free .refl
    cases found.symm.trans present
    cases holds

theorem wellFormed_of_plainOn {g : Graph} {values : List Value} (check : g.plainOn values)
    (structs : ∀ i < g.structCount, .struct ⟨i⟩ ∈ values)
    (vars : ∀ i < g.varCount, .var ⟨i⟩ ∈ values)
    (unabsorbed : ∀ node ∈ g.structs, node.absorbedBy = none) : g.WellFormed := by
  refine wellFormed_of_plain (fun v node contains => plain_of_plainOn check ?_)
    fun s node found => unabsorbed node (Array.mem_of_getElem? found)
  cases v with
  | atom a => cases node
  | struct s => exact structs s.index contains
  | var x => exact vars x.index contains

/-- Three structures: one with a variable under two names, one that knows something about the
second of these names, and one that is more specific than both. -/
def records : Graph where
  structs := #[{ features := .ofList [("left", .var ⟨0⟩), ("right", .var ⟨0⟩)] },
    { features := .ofList [("right", .atom (.int 1))] },
    { features := .ofList [("left", .atom (.int 1)), ("right", .atom (.int 1))] }]
  vars := #[{ name := "n" }]

theorem plainOn_records : records.plainOn
    [.struct ⟨0⟩, .struct ⟨1⟩, .struct ⟨2⟩, .var ⟨0⟩, .atom (.int 1)] := by decide +kernel

theorem plain_records {s : StructId} (h : s = ⟨0⟩ ∨ s = ⟨1⟩) : records.Plain (.struct s) := by
  refine plain_of_plainOn plainOn_records ?_
  rcases h with rfl | rfl <;> simp

theorem wellFormed_records : records.WellFormed :=
  wellFormed_of_plainOn plainOn_records (by decide +kernel) (by decide +kernel) (by decide +kernel)

end FeatureLogic.Graph
