import FeatureLogic.Proofs.Copy.Substituting
import FeatureLogic.Proofs.Graph.Plainness

/-!
# Substituting twice

What a substitution makes of a value with free variables is complete. A variable is left only
where the scope has no entry for its name, or where its name lies on a cycle of names. Another
substitution leaves these variables in their places, and so it gives an isomorphic copy.
-/

namespace FeatureLogic.Scope

open FeatureLogic.Graph

variable {scope : Scope} {g h : Graph} {v w : Value} {copies : StructId → StructId → Prop}

theorem Meets.plain (meets : scope.Meets g v w) (entries : scope.Plain g) (plain : g.Plain v) :
    g.Plain w := by
  induction meets with
  | refl => exact plain
  | feature _ found holds ih => exact ih.of_below (.feature .refl found holds)
  | meaning _ meant ih => exact (meaning?_meaning? entries ih meant).1

theorem Plain.territory (entries : scope.Plain g) (wf : g.WellFormed) (plain : g.Plain v) :
    scope.Territory g (scope.Meets g v) where
  contains meets := (meets.plain entries plain).contains .refl
  free meets := (meets.plain entries plain).free .refl
  feature meets := meets.feature
  meaning {u} meets := by
    have plainU := meets.plain entries plain
    obtain ⟨w, meant, -⟩ := exists_meaning wf entries.within (plainU.contains .refl)
    exact ⟨w, meant, meets.meaning meant, (meaning?_meaning? entries plainU meant).2⟩

theorem Substitutes.exists_made_of_below (substitutes : scope.Substitutes g v h w copies)
    {u' : Value} (below : h.Below w u') : ∃ u, scope.Meets g v u ∧ scope.Makes g copies u u' := by
  induction below with
  | refl => exact ⟨v, .refl, substitutes.makes⟩
  | @feature t n name u' _ found' holds' ih =>
    obtain ⟨u, meets, made⟩ := ih
    obtain ⟨u₁, meant, related⟩ := made
    cases u₁ with
    | atom a => exact related.elim
    | var y => exact related.elim
    | struct s =>
      obtain ⟨m, n', found, found'', images⟩ := substitutes.features related
      cases found'.symm.trans found''
      have image := images name
      rw [holds'] at image
      generalize holds : m.get? name = o at image
      cases image with
      | some made => exact ⟨_, (meets.meaning meant).feature found holds, made⟩

theorem Substitutes.exists_meaning (substitutes : scope.Substitutes g v h w copies) {x : VarId}
    (below : h.Below w (.var x)) : ∃ u, scope.Meets g v u ∧ scope.meaning? g u = some (.var x) := by
  obtain ⟨u, meets, u₁, meant, related⟩ := substitutes.exists_made_of_below below
  cases u₁ with
  | atom a => exact related.elim
  | struct s => exact related.elim
  | var y =>
    cases (show y = x from related)
    exact ⟨u, meets, meant⟩

theorem Substitutes.stands (substitutes : scope.Substitutes g v h w copies)
    (entries : scope.Plain g) (plain : g.Plain v) {x : VarId} (below : h.Below w (.var x)) :
    g.Plain (.var x) ∧ scope.meaning? g (.var x) = some (.var x) := by
  obtain ⟨u, meets, meant⟩ := substitutes.exists_meaning below
  exact meaning?_meaning? entries (meets.plain entries plain) meant

theorem Substitutes.plain (substitutes : scope.Substitutes g v h w copies) (part : g.PartOf h)
    (contains : h.Contains w) (entries : scope.Plain g) (plain : g.Plain v) : h.Plain w := by
  refine ⟨part.wellFormed.contains_of_below contains, fun below => ?_⟩
  obtain ⟨name, found⟩ := (substitutes.stands entries plain below).1.free .refl
  exact ⟨name, (part.frames.var (contains_of_var? found)).trans found⟩

/-- A substitution in a value with free variables, by a scope of such values, ends and adds nothing
but structures. Of every structure that it comes by, it makes one copy. A variable in the result
whose name has an entry lies on a cycle of names, and a second substitution gives an isomorphic
result. -/
theorem substitute?_complete (wf : g.WellFormed) (plain : g.Plain v) (entries : scope.Plain g) :
    ∃ w h copies, scope.substitute? g v = some (w, h) ∧ g.PartOf h ∧
      scope.Substitutes g v h w copies ∧
      (∀ {x name}, h.Below w (.var x) → h.name? x = some name → scope.get? name ≠ none →
        Relation.TransGen (scope.Alias g) name name) ∧
      ∃ t k, scope.substitute? h w = some (t, k) ∧ k.isomorphic? t w = some true := by
  obtain ⟨w, h, copies, substituted, part, contains, substitutes⟩ :=
    exists_substitutes wf entries.within (entries.territory wf plain)
  refine ⟨w, h, copies, substituted, part, substitutes, fun {x name} below called listed => ?_, ?_⟩
  · obtain ⟨plainX, stands⟩ := substitutes.stands entries plain below
    have calledBefore := (part.name?_eq (plainX.contains .refl)).symm.trans called
    exact transGen_of_meaning? entries plainX stands calledBefore listed
  · have still : scope.Still h w := fun x below =>
      follow_of_frames part.frames (substitutes.stands entries plain below).2
    exact still.substitute? part.wellFormed (entries.retained part.retains).within
      (substitutes.plain part contains entries plain)

/-- A structure that holds itself and `x`, and one that holds `x` and `y`. -/
def knotted : Graph where
  structs := #[{ features := .ofList [("f", .struct ⟨0⟩), ("g", .var ⟨0⟩)] },
    { features := .ofList [("k", .var ⟨0⟩), ("l", .var ⟨1⟩)] }]
  vars := #[{ name := "x" }, { name := "y" }, { name := "z" }]

/-- `x` stands for the structure in which it lies, and `y` and `z` stand for each other. -/
def knots : Scope := .ofList [("x", .struct ⟨1⟩), ("y", .var ⟨2⟩), ("z", .var ⟨1⟩)]

theorem plainOn_knotted : knotted.plainOn
    [.struct ⟨0⟩, .struct ⟨1⟩, .var ⟨0⟩, .var ⟨1⟩, .var ⟨2⟩] := by decide +kernel

theorem wellFormed_knotted : knotted.WellFormed :=
  wellFormed_of_plainOn plainOn_knotted (by decide +kernel) (by decide +kernel) (by decide +kernel)

theorem plain_knots : knots.Plain knotted := fun name v found => by
  have listed := NameMap.mem_of_get?_ofList found
  refine plain_of_plainOn plainOn_knotted ?_
  simp only [List.mem_cons, Prod.mk.injEq, List.not_mem_nil, or_false] at listed ⊢
  tauto

/-- The structure below `x` holds itself in the result, and `y` is left in it. -/
theorem knotted_complete : ∃ w h copies, knots.substitute? knotted (.struct ⟨0⟩) = some (w, h) ∧
    knots.Substitutes knotted (.struct ⟨0⟩) h w copies ∧
    ∃ t k, knots.substitute? h w = some (t, k) ∧ k.isomorphic? t w = some true := by
  obtain ⟨w, h, copies, substituted, -, substitutes, -, again⟩ :=
    substitute?_complete wellFormed_knotted
      (plain_of_plainOn plainOn_knotted (v := .struct ⟨0⟩) (by simp)) plain_knots
  exact ⟨w, h, copies, substituted, substitutes, again⟩

end FeatureLogic.Scope
