import FeatureLogic.Proofs.Copy.Tracing
import FeatureLogic.Proofs.Graph.Comparing
import FeatureLogic.Proofs.Graph.Matching
import FeatureLogic.Proofs.Scope.Meaning

/-!
# Substituted copies

A substitution copies every structure that it comes by once, and puts the copy of its meaning in the
place of each value. Where all variables below a value stand for themselves, it only copies the
structures, and the copy is isomorphic to the value.
-/

namespace FeatureLogic

open FeatureLogic.Graph

namespace Scope

variable {scope : Scope} {g h k : Graph} {D : Value → Prop} {W W' : Graph × Images} {v w : Value}
  {copies copies' : StructId → StructId → Prop}

/-- A set of values with free variables that a substitution does not leave. -/
structure Territory (scope : Scope) (g : Graph) (D : Value → Prop) : Prop extends g.Source D where
  meaning : ∀ {v}, D v → ∃ u, scope.meaning? g v = some u ∧ D u ∧ scope.meaning? g u = some u

theorem meaning?_struct (scope : Scope) (g : Graph) (s : StructId) :
    scope.meaning? g (.struct s) = some (.struct s) := rfl

theorem Makes.mono (more : ∀ {s t}, copies s t → copies' s t) (makes : scope.Makes g copies v w) :
    scope.Makes g copies' v w := by
  obtain ⟨u, meant, related⟩ := makes
  refine ⟨u, meant, ?_⟩
  cases u <;> cases w <;> first | exact related.elim | exact related | exact more related

theorem Makes.relates (makes : scope.Makes g copies v w) {u : Value}
    (meant : scope.meaning? g v = some u) : Pairing.Relates ⟨copies, Eq⟩ u w := by
  obtain ⟨u', meant', related⟩ := makes
  cases meant.symm.trans meant'
  exact related

theorem Makes.exists_copy {s : StructId} (makes : scope.Makes g copies (.struct s) w) :
    ∃ t, w = .struct t ∧ copies s t := by
  have related := makes.relates (meaning?_struct scope g s)
  cases w with
  | atom a => exact related.elim
  | var y => exact related.elim
  | struct t => exact ⟨t, rfl, related⟩

theorem makes_struct_iff {s t : StructId} :
    scope.Makes g copies (.struct s) (.struct t) ↔ copies s t :=
  ⟨fun makes => makes.relates (meaning?_struct scope g s), fun listed => ⟨.struct s, rfl, listed⟩⟩

end Scope

/-- The copies of a substitution, in a form in which more of them are never less. -/
def Images.Copies (images : Images) (s t : StructId) : Prop := (s, t) ∈ images.structs

namespace Graph

open Scope

def replacements (scope : Scope) (g : Graph) : Ledger Images where
  copies images := images.structs
  remember s t images := images.addStruct s t
  Sound _ images := ∀ x w, images.vars.lookup x = some w → scope.Makes g images.Copies (.var x) w
  copies_remember := substitutions.copies_remember
  sound_remember sound x w found := (sound x w found).mono (List.mem_cons_of_mem _)
  sound_mono _ _ := id

end Graph

namespace Scope

variable {scope : Scope} {g h k : Graph} {D : Value → Prop} {W W' : Graph × Images} {v w : Value}
  {copies copies' : StructId → StructId → Prop}

theorem images_replacements : (replacements scope g).Images fun images =>
    scope.Makes g images.Copies where
  known listed := makes_struct_iff.2 (mem_of_lookup listed)
  remember _ made := made.mono (List.mem_cons_of_mem _)

theorem charts_replacements (scope : Scope) (g : Graph) (D : Value → Prop) :
    (replacements scope g).Charts g D (g, {}) where
  structs := Nat.le_refl _
  vars := Nat.le_refl _
  frames := ⟨fun _ => rfl, fun _ => rfl⟩
  copied listed := by cases listed
  oneToOne := by
    constructor <;> intro _ _ _ listed <;> cases listed
  sound x w found := by cases found

theorem traces_addVar {images : Images} (charts : (replacements scope g).Charts g D (h, images))
    {x : VarId} (made : scope.Makes g images.Copies (.var x) w) :
    (replacements scope g).Traces g D (fun images => scope.Makes g images.Copies) (h, images)
      (h, images.addVar x w) where
  charts := { charts with
    sound := fun y u known => by
      rw [Images.addVar, Copying.lookup_cons_eq] at known
      split at known
      · next eq =>
        cases known
        exact eq ▸ made
      · exact charts.sound y u known }
  more := id
  lists := id
  structs := Nat.le_refl _
  unchanged _ _ := rfl
  complete _ lower upper := absurd upper (Nat.not_lt.2 lower)

theorem substituteValue_traces (territory : scope.Territory g D)
    {copyStruct : StructId → Graph × Images → Option (StructId × Graph × Images)}
    (traces : ∀ {s W t W'}, D (.struct s) → (replacements scope g).Charts g D W →
      copyStruct s W = some (t, W') →
      (replacements scope g).Traces g D (fun images => scope.Makes g images.Copies) W W' ∧
        scope.Makes g W'.2.Copies (.struct s) (.struct t))
    (hv : D v) (charts : (replacements scope g).Charts g D W)
    (walked : scope.substituteValue copyStruct v W = some (w, W')) :
    (replacements scope g).Traces g D (fun images => scope.Makes g images.Copies) W W' ∧
      scope.Makes g W'.2.Copies v w := by
  cases v with
  | atom a =>
    cases walked
    exact ⟨.refl charts, .atom a, rfl, rfl⟩
  | struct s =>
    obtain ⟨⟨t, W'⟩, copied, ⟨⟩⟩ := Option.map_eq_some_iff.1 walked
    exact traces hv charts copied
  | var x =>
    obtain ⟨h, images⟩ := W
    cases known : images.vars.lookup x with
    | some u =>
      simp only [substituteValue, known, Option.some.injEq, Prod.mk.injEq] at walked
      obtain ⟨rfl, rfl⟩ := walked
      exact ⟨.refl charts, charts.sound x _ known⟩
    | none =>
      obtain ⟨u, meant, hu, -⟩ := territory.meaning hv
      have meant' : scope.meaning? h (.var x) = some u := follow_of_frames charts.frames meant
      cases u with
      | atom a =>
        simp only [substituteValue, known, meant', Option.some.injEq, Prod.mk.injEq] at walked
        obtain ⟨rfl, rfl⟩ := walked
        have made : scope.Makes g images.Copies (.var x) (.atom a) := ⟨_, meant, rfl⟩
        exact ⟨traces_addVar charts made, made⟩
      | var y =>
        simp only [substituteValue, known, meant', Option.some.injEq, Prod.mk.injEq] at walked
        obtain ⟨rfl, rfl⟩ := walked
        have made : scope.Makes g images.Copies (.var x) (.var y) := ⟨_, meant, rfl⟩
        exact ⟨traces_addVar charts made, made⟩
      | struct s =>
        simp only [substituteValue, known, meant', Option.map_eq_some_iff, Prod.mk.injEq] at walked
        obtain ⟨⟨t, k, images'⟩, copied, rfl, rfl⟩ := walked
        obtain ⟨first, listed⟩ := traces hu charts copied
        have made : scope.Makes g images'.Copies (.var x) (.struct t) :=
          ⟨_, meant, makes_struct_iff.1 listed⟩
        exact ⟨first.trans (traces_addVar first.charts made), made⟩

theorem substituteStruct_traces (territory : scope.Territory g D) (fuel : Nat)
    {s t : StructId} (hs : D (.struct s)) (charts : (replacements scope g).Charts g D W)
    (walked : scope.substituteStruct fuel s W = some (t, W')) :
    (replacements scope g).Traces g D (fun images => scope.Makes g images.Copies) W W' ∧
      scope.Makes g W'.2.Copies (.struct s) (.struct t) := by
  induction fuel generalizing s t W W' with
  | zero => cases walked
  | succ fuel ih =>
    exact Ledger.imageStruct_traces territory.toSource images_replacements
      (substituteValue_traces territory ih) hs charts walked

theorem exists_made (territory : scope.Territory g (scope.Meets g v))
    (made : scope.Makes g copies v w)
    (features : ∀ {s t}, copies s t → ∃ m n, g.features? s = some m ∧ h.features? t = some n ∧
      ∀ name, Option.Rel (scope.Makes g copies) (m.get? name) (n.get? name)) {u : Value}
    (meets : scope.Meets g v u) : ∃ u', scope.Makes g copies u u' := by
  induction meets with
  | refl => exact ⟨w, made⟩
  | @feature s m name u _ found holds ih =>
    obtain ⟨_, made⟩ := ih
    obtain ⟨t, rfl, copied⟩ := made.exists_copy
    obtain ⟨m', n, found', -, images⟩ := features copied
    cases found.symm.trans found'
    have image := images name
    rw [holds] at image
    generalize n.get? name = o at image
    cases image with
    | some made => exact ⟨_, made⟩
  | @meaning u u₁ before meant ih =>
    obtain ⟨u', made⟩ := ih
    obtain ⟨u₂, again, -, stands⟩ := territory.meaning before
    cases meant.symm.trans again
    exact ⟨u', u₁, stands, made.relates meant⟩

theorem exists_substitutes (wf : g.WellFormed) (within : scope.Within g)
    (territory : scope.Territory g (scope.Meets g v)) :
    ∃ w h copies, scope.substitute? g v = some (w, h) ∧ g.PartOf h ∧ h.Contains w ∧
      scope.Substitutes g v h w copies := by
  obtain ⟨w, h, images, copied, contains, keeps⟩ :=
    exists_substituteValue wf within (territory.contains .refl)
  obtain ⟨traces, made⟩ := substituteValue_traces territory
    (substituteStruct_traces territory _) .refl (charts_replacements scope g _) copied
  -- no structure is listed twice, so that what is listed is what is found
  have lists {s t : StructId} (listed : images.Copies s t) :
      (replacements scope g).Lists images s t := lookup_of_mem keeps.nodup listed
  have oneToOne : Relator.BiUnique images.Copies := traces.charts.oneToOne.mono lists
  have features {s t : StructId} (listed : images.Copies s t) :
      ∃ m n, g.features? s = some m ∧ h.features? t = some n ∧
        ∀ name, Option.Rel (scope.Makes g images.Copies) (m.get? name) (n.get? name) := by
    have has := (traces.charts.copied (lists listed)).2
    obtain ⟨s', m, n, listed', found, found', related⟩ := traces.complete t has.1 has.2
    cases oneToOne.1 listed (mem_of_lookup listed')
    exact ⟨m, n, found, found', related⟩
  refine ⟨w, h, images.Copies, by simp [substitute?, copied], keeps.part, contains, made, oneToOne,
    fun listed => ?_, fun {s} => ⟨fun meets => ?_, ?_⟩, features⟩
  · exact Nat.not_lt.2 (traces.charts.copied (lists listed)).2.1
  · obtain ⟨_, made⟩ := exists_made territory made features meets
    obtain ⟨t, -, listed⟩ := made.exists_copy
    exact ⟨t, listed⟩
  · rintro ⟨t, listed⟩
    exact (traces.charts.copied (lists listed)).1

/-! ### Copies without replacements -/

def Still (scope : Scope) (g : Graph) (v : Value) : Prop :=
  ∀ x, g.Below v (.var x) → scope.meaning? g (.var x) = some (.var x)

theorem Still.meaning (still : scope.Still g v) {u : Value} (below : g.Below v u) :
    scope.meaning? g u = some u := by
  cases u with
  | atom a => rfl
  | struct s => rfl
  | var x => exact still x below

theorem Still.meets_iff (still : scope.Still g v) {u : Value} :
    scope.Meets g v u ↔ g.Below v u := by
  constructor
  · intro meets
    induction meets with
    | refl => exact .refl
    | feature _ found holds ih => exact .feature ih found holds
    | meaning _ meant ih =>
      cases (still.meaning ih).symm.trans meant
      exact ih
  · intro below
    induction below with
    | refl => exact .refl
    | feature _ found holds ih => exact .feature ih found holds

theorem Still.territory (still : scope.Still g v) (plain : g.Plain v) :
    scope.Territory g (scope.Meets g v) where
  contains meets := plain.contains (still.meets_iff.1 meets)
  free meets := plain.free (still.meets_iff.1 meets)
  feature meets := meets.feature
  meaning {u} meets := by
    have stands := still.meaning (still.meets_iff.1 meets)
    exact ⟨u, stands, meets, stands⟩

theorem Makes.pairs (part : g.PartOf h) (plain : g.Plain v) (still : scope.Still g v) {u u' : Value}
    (below : g.Below v u) (made : scope.Makes g copies u u') :
    Pairing.Pairs ⟨fun t s => copies s t, SameName h h⟩ h h u' u := by
  have related := made.relates (still.meaning below)
  cases u <;> cases u' <;> first | exact related.elim | skip
  · exact ⟨_, _, rfl, rfl, Eq.symm related⟩
  · exact ⟨_, _, rfl, rfl, related⟩
  · next x y =>
    obtain rfl : x = y := related
    obtain ⟨name, found⟩ := plain.free below
    have reads : h.deref? (.var x) = some (.var x) :=
      part.frames.deref?_eq_some (deref?_of_free found)
    have called : h.name? x = some name :=
      (part.name?_eq (plain.contains below)).trans (by simp [name?, found])
    exact ⟨_, _, reads, reads, name, called, called⟩

/-- A copy that leaves every variable in its place is isomorphic to the value. -/
theorem Substitutes.isomorphic (substitutes : scope.Substitutes g v h w copies)
    (part : g.PartOf h) (plain : g.Plain v) (still : scope.Still g v) : h.Isomorphic w h v := by
  refine ⟨fun t s => copies s t, substitutes.oneToOne.flip, fun {t s} listed => ?_,
    substitutes.makes.pairs part plain still .refl⟩
  have below := still.meets_iff.1 (substitutes.met.2 ⟨t, listed⟩)
  obtain ⟨m, n, found, found', related⟩ := substitutes.features listed
  refine ⟨n, m, found', (part.features?_eq (plain.contains below)).trans found,
    (NameMap.keys_eq_of_rel related).symm, fun {name u' u} holds' holds => ?_⟩
  have related := related name
  rw [holds, holds'] at related
  cases related with
  | some made => exact made.pairs part plain still (below.feature found holds)

/-- Where all variables below a plain value stand for themselves, a substitution gives an isomorphic
copy of the value. -/
theorem Still.substitute? (wf : g.WellFormed) (within : scope.Within g) (plain : g.Plain v)
    (still : scope.Still g v) :
    ∃ w h, scope.substitute? g v = some (w, h) ∧ h.isomorphic? w v = some true := by
  obtain ⟨w, h, copies, substituted, part, contains, substitutes⟩ :=
    exists_substitutes wf within (still.territory plain)
  refine ⟨w, h, substituted, ?_⟩
  obtain ⟨answer, compared, iff⟩ :=
    part.wellFormed.isomorphic?_iff contains (part.contains (plain.contains .refl))
  rw [compared, iff.2 (substitutes.isomorphic part plain still)]

def Silent (scope : Scope) (g : Graph) (D : Value → Prop) : Prop :=
  ∀ x name, D (.var x) → g.name? x = some name → scope.get? name = none

/-- A scope without entries for the variables below a value leaves them in their places. -/
theorem Silent.still (silent : scope.Silent g (g.Below v)) (plain : g.Plain v) :
    scope.Still g v := by
  intro x below
  obtain ⟨name, found⟩ := plain.free below
  exact meaning?_of_free found (silent x name below (by simp [name?, found]))

end Scope

end FeatureLogic
