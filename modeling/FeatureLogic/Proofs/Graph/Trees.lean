import FeatureLogic.Graph.Conflict
import FeatureLogic.Proofs.Graph.Alikeness
import FeatureLogic.Proofs.Graph.Grounding
import FeatureLogic.Proofs.Graph.Legibility
import FeatureLogic.Proofs.Graph.Wording

/-!
# Trees

A ground value is a tree if no two paths lead from it to one structure. What the features of a
structure hold are trees then, and different ones share nothing. The text of a ground value only
depends on the features of the structures below it.
-/

namespace FeatureLogic.Graph

variable {g h : Graph} {v w u : Value} {s t : StructId} {m : NameMap Value} {name name' : String}

theorem not_clashesAt_self {path : List String} {z : Value} : ¬ g.ClashesAt v v path u z := by
  rintro ⟨left, right, clash⟩
  cases left.unique right
  cases u with
  | atom a => exact clash.1 rfl
  | struct s => exact clash
  | var x => exact clash

/-- Does `v` lead to no variable, and to each structure by one path only? -/
structure Tree (g : Graph) (v : Value) : Prop extends g.Ground v where
  single : ∀ {p q s}, g.Leads v p (.struct s) → g.Leads v q (.struct s) → p = q

theorem tree_atom (g : Graph) (a : Atom) : g.Tree (.atom a) where
  contains below := by
    cases below_atom_iff.1 below
    trivial
  noVar x below := by cases below_atom_iff.1 below
  single leads := by cases (leads_atom_iff.1 leads).2

namespace Tree

theorem exists_leads (wf : g.WellFormed) (tree : g.Tree v) (below : g.Below v w) :
    ∃ path, g.Leads v path w :=
  tree.toGround.plain.exists_leads wf below

theorem feature (tree : g.Tree (.struct s)) (found : g.features? s = some m)
    (holds : m.get? name = some v) : g.Tree v where
  toGround := tree.toGround.of_below (.feature .refl found holds)
  single first second :=
    List.tail_eq_of_cons_eq (tree.single (first.feature found holds) (second.feature found holds))

/-- Different features of a tree share no structure. -/
theorem unshared_of_ne (wf : g.WellFormed) (tree : g.Tree (.struct s))
    (found : g.features? s = some m) (holds : m.get? name = some v)
    (holds' : m.get? name' = some w) (ne : name ≠ name') : g.Unshared v w := by
  intro u node below below'
  cases u with
  | atom a => cases node
  | var x => exact (tree.feature found holds).noVar x below
  | struct t =>
    obtain ⟨p, leads⟩ := (tree.feature found holds).exists_leads wf below
    obtain ⟨q, leads'⟩ := (tree.feature found holds').exists_leads wf below'
    have same := tree.single (leads.feature found holds) (leads'.feature found holds')
    exact ne (List.head_eq_of_cons_eq same)

theorem not_below_feature (wf : g.WellFormed) (tree : g.Tree (.struct s))
    (found : g.features? s = some m) (holds : m.get? name = some v) :
    ¬ g.Below v (.struct s) := by
  intro below
  obtain ⟨p, leads⟩ := (tree.feature found holds).exists_leads wf below
  cases tree.single (leads.feature found holds) (leads_struct_nil_iff.2 rfl)

end Tree

section Check

def placesOn (g : Graph) (places : List (List String × Value)) : Bool :=
  places.all fun
    | (_, .atom _) => true
    | (p, .struct s) => (g.features? s).any fun m => m.entries.all fun e =>
        (p ++ [e.1], e.2) ∈ places
    | (_, .var _) => false

variable {places : List (List String × Value)} (check : g.placesOn places) {p : List String}

include check

theorem placesOn_struct (mem : (p, .struct s) ∈ places) : ∃ m, g.features? s = some m ∧
    ∀ {name v}, m.get? name = some v → (p ++ [name], v) ∈ places := by
  obtain ⟨m, found, all⟩ := (Option.any_eq_true _ _).1 (List.all_eq_true.1 check _ mem)
  refine ⟨m, found, fun {name v} holds => ?_⟩
  simpa using List.all_eq_true.1 all _ (m.get?_eq_some_iff.1 holds)

theorem exists_place_of_below (mem : (p, v) ∈ places) (below : g.Below v w) :
    ∃ q, (q, w) ∈ places := by
  induction below with
  | refl => exact ⟨p, mem⟩
  | feature _ found holds ih =>
    obtain ⟨q, mem⟩ := ih
    obtain ⟨m, found', each⟩ := placesOn_struct check mem
    cases found.symm.trans found'
    exact ⟨_, each holds⟩

theorem not_mem_var {x : VarId} : (p, .var x) ∉ places := by
  intro mem
  cases List.all_eq_true.1 check _ mem

theorem ground_of_placesOn (mem : (p, v) ∈ places) : g.Ground v where
  contains {w} below := by
    obtain ⟨q, mem⟩ := exists_place_of_below check mem below
    cases w with
    | atom a => trivial
    | struct s =>
      obtain ⟨m, found, -⟩ := placesOn_struct check mem
      exact contains_of_features? found
    | var x => exact absurd mem (not_mem_var check)
  noVar x below := by
    obtain ⟨q, mem⟩ := exists_place_of_below check mem below
    exact not_mem_var check mem

theorem mem_of_leads {path : List String} (mem : (p, v) ∈ places) (leads : g.Leads v path w) :
    (p ++ path, w) ∈ places := by
  have stands := (ground_of_placesOn check mem).plain.deref?
  induction path generalizing p v with
  | nil =>
    cases stands.symm.trans (leads_nil.1 leads)
    rwa [List.append_nil]
  | cons name path ih =>
    obtain ⟨s, m, child, reads, found, holds, rest⟩ := leads_cons.1 leads
    cases stands.symm.trans reads
    obtain ⟨m', found', each⟩ := placesOn_struct check mem
    cases found.symm.trans found'
    have stands' := (ground_of_placesOn check (each holds)).plain.deref?
    simpa using ih (each holds) rest stands'

theorem tree_of_placesOn (mem : ([], v) ∈ places)
    (once : ∀ e ∈ places, ∀ e' ∈ places, e.2.isNode → e.2 = e'.2 → e.1 = e'.1) : g.Tree v where
  toGround := ground_of_placesOn check mem
  single leads leads' :=
    once _ (mem_of_leads check mem leads) _ (mem_of_leads check mem leads') rfl rfl

end Check

namespace Ground

theorem exists_features (ground : g.Ground v) (below : g.Below v (.struct s)) :
    ∃ m, g.features? s = some m :=
  exists_features_of_contains (ground.contains below)

variable (ground : g.Ground v)
  (same : ∀ {s}, g.Below v (.struct s) → h.features? s = g.features? s)

include ground same

theorem legible : h.Legible (g.Below v) where
  deref {w} below := by
    cases w with
    | atom a => exact ⟨.atom a, rfl, below⟩
    | struct s => exact ⟨.struct s, rfl, below⟩
    | var x => exact absurd below (ground.noVar x)
  struct {s} below := by
    obtain ⟨m, found⟩ := ground.exists_features below
    exact ⟨m, (same below).trans found, fun _ _ holds => .feature below found holds⟩
  var below := absurd below (ground.noVar _)

theorem isomorphic_of_features : g.Isomorphic v h v := by
  have pairs {w : Value} (below : g.Below v w) :
      Pairing.Pairs ⟨fun s t => s = t ∧ g.Below v (.struct s), SameName g h⟩ g h w w := by
    cases w with
    | atom a => exact ⟨_, _, rfl, rfl, rfl⟩
    | struct s => exact ⟨_, _, rfl, rfl, rfl, below⟩
    | var x => exact absurd below (ground.noVar x)
  refine ⟨_, Relator.biUnique_eq.mono And.left, ?_, pairs .refl⟩
  rintro s t ⟨rfl, below⟩
  obtain ⟨m, found⟩ := ground.exists_features below
  refine ⟨m, m, found, (same below).trans found, rfl, fun {name u w} hu hw => ?_⟩
  cases hu.symm.trans hw
  exact pairs (.feature below found hu)

/-- A ground value has the same text wherever the structures below it have the same features. -/
theorem exists_text_of_features : ∃ text, g.text? v = some text ∧ h.text? v = some text := by
  obtain ⟨text, written⟩ := (ground.legible fun _ => rfl).exists_text .refl
  obtain ⟨text', written'⟩ := (ground.legible same).exists_text .refl
  cases (ground.isomorphic_of_features same).text_eq written written'
  exact ⟨text, written, written'⟩

end Ground

end FeatureLogic.Graph
