import FeatureLogic.Proofs.Copy.Added
import FeatureLogic.Proofs.Join.Entirety

/-!
# Parts of a graph

Everything but a join only adds nodes, so that the graph before it is a part of the graph after it.
What is read from the old nodes stays the same, and giving up the new ones undoes the addition.
-/

namespace FeatureLogic.Graph

/-- Is `h` a well-formed graph that has all the nodes of `g`, as they are in `g`? -/
structure PartOf (g h : Graph) : Prop where
  wellFormed : h.WellFormed
  structs : g.structCount ≤ h.structCount
  vars : g.varCount ≤ h.varCount
  frames : (g.added h).Frames h

variable {g h k : Graph}

namespace PartOf

theorem refl (wf : g.WellFormed) : g.PartOf g :=
  ⟨wf, Nat.le_refl _, Nat.le_refl _, fun _ => rfl, fun _ => rfl⟩

theorem trans (first : g.PartOf h) (second : h.PartOf k) : g.PartOf k where
  wellFormed := second.wellFormed
  structs := first.structs.trans second.structs
  vars := first.vars.trans second.vars
  frames := ⟨fun old => (second.frames.struct (Nat.lt_of_lt_of_le old first.structs)).trans
      (first.frames.struct old),
    fun old => (second.frames.var (Nat.lt_of_lt_of_le old first.vars)).trans
      (first.frames.var old)⟩

theorem contains (part : g.PartOf h) {v : Value} (inside : g.Contains v) : h.Contains v :=
  inside.mono part.structs part.vars

theorem truncate (part : g.PartOf h) : h.truncate g.structCount g.varCount = g :=
  part.frames.truncate

theorem addStruct (part : g.PartOf h) {features : NameMap Value}
    (inside : ∀ name v, features.get? name = some v → (h.addStruct features).Contains v) :
    g.PartOf (h.addStruct features) where
  wellFormed := part.wellFormed.addStruct inside
  structs := part.structs.trans (by simp)
  vars := part.vars
  frames := frames_addStruct part.structs part.frames

theorem setFeature (part : g.PartOf h) {s : StructId} (has : (g.added h).Has (.struct s))
    (name : String) {v : Value} (inside : h.Contains v) : g.PartOf (h.setFeature s name v) where
  wellFormed := part.wellFormed.setFeature s name inside
  structs := part.structs.trans (by simp)
  vars := part.vars
  frames := by simpa [added] using part.frames.setFeature has name v

theorem addNode (part : g.PartOf h) {node : Variable} (notAlias : ∀ y, node.binding ≠ .link y)
    (bound : ∀ v, node.binding = .bound v → h.Contains v ∧ v.Informative) :
    g.PartOf (h.addVar node) where
  wellFormed := part.wellFormed.addNode notAlias bound
  structs := part.structs
  vars := part.vars.trans (by simp)
  frames := frames_addVar part.vars part.frames

theorem addVar (part : g.PartOf h) (name : String) : g.PartOf (h.addVar { name }) :=
  part.addNode (by simp) (by simp)

theorem features?_eq (part : g.PartOf h) {s : StructId} (inside : g.Contains (.struct s)) :
    h.features? s = g.features? s := by
  rw [features?, part.frames.struct inside, features?]
  rfl

theorem name?_eq (part : g.PartOf h) {x : VarId} (inside : g.Contains (.var x)) :
    h.name? x = g.name? x := by
  rw [name?, part.frames.var inside, name?]
  rfl

theorem deref?_eq (wf : g.WellFormed) (part : g.PartOf h) {v : Value} (inside : g.Contains v) :
    h.deref? v = g.deref? v := by
  obtain ⟨w, reads, -⟩ := wf.exists_deref inside
  rw [reads, part.frames.deref?_eq_some reads]

end PartOf

/-- Is everything below a plain value of `g` in `h` what it is in `g`? -/
structure Retains (g h : Graph) : Prop where
  features : ∀ {s}, g.Plain (.struct s) → h.features? s = g.features? s
  var : ∀ {x}, g.Plain (.var x) → h.var? x = g.var? x

theorem PartOf.retains (part : g.PartOf h) : g.Retains h where
  features plain := part.features?_eq (plain.contains .refl)
  var plain := part.frames.var (plain.contains .refl)

namespace Retains

theorem refl (g : Graph) : g.Retains g := ⟨fun _ => rfl, fun _ => rfl⟩

variable (retains : g.Retains h) {v w : Value} (simple : g.Plain v)

include retains simple

theorem below_iff : h.Below v w ↔ g.Below v w := by
  constructor
  · intro below
    induction below with
    | refl => exact .refl
    | feature _ found holds ih =>
      exact ih.feature ((retains.features (simple.of_below ih)).symm.trans found) holds
  · intro below
    induction below with
    | refl => exact .refl
    | feature below found holds ih =>
      exact ih.feature ((retains.features (simple.of_below below)).trans found) holds

theorem plain : h.Plain v where
  contains {w} below := by
    have before := (retains.below_iff simple).1 below
    have inside := simple.contains before
    cases w with
    | atom a => trivial
    | struct s =>
      obtain ⟨m, found⟩ := exists_features_of_contains inside
      exact contains_of_features? ((retains.features (simple.of_below before)).trans found)
    | var x =>
      obtain ⟨node, found⟩ := exists_var_of_contains inside
      exact contains_of_var? ((retains.var (simple.of_below before)).trans found)
  free {x} below := by
    have before := (retains.below_iff simple).1 below
    obtain ⟨name, found⟩ := simple.free before
    exact ⟨name, (retains.var (simple.of_below before)).trans found⟩

theorem leads_iff {path : List String} : h.Leads v path w ↔ g.Leads v path w := by
  induction path generalizing v with
  | nil => rw [leads_nil, leads_nil, simple.deref?, (retains.plain simple).deref?]
  | cons name path ih =>
    simp only [leads_cons, simple.deref?, (retains.plain simple).deref?, Option.some.injEq]
    refine exists_congr fun s => exists_congr fun m => exists_congr fun child => ?_
    refine and_congr_right fun eq => ?_
    subst eq
    rw [retains.features simple]
    refine and_congr_right fun found => and_congr_right fun holds => ?_
    exact ih (simple.of_below (.feature .refl found holds))

end Retains

theorem Retains.trans (first : g.Retains h) (second : h.Retains k) : g.Retains k where
  features plain := (second.features (first.plain plain)).trans (first.features plain)
  var plain := (second.var (first.plain plain)).trans (first.var plain)

theorem WellFormed.exists_copyVar (wf : g.WellFormed) {x : VarId} (inside : g.Contains (.var x)) :
    ∃ y h, g.copyVar? x = some (y, h) ∧ g.PartOf h ∧ h.Contains (.var y) := by
  obtain ⟨node, present⟩ := exists_var_of_contains inside
  obtain ⟨w, resolves⟩ := wf.exists_resolves inside
  obtain ⟨root, rfl⟩ := path_var resolves.path
  obtain ⟨target, found⟩ := exists_var_of_contains resolves.contains
  let copy : Variable := { node with binding := target.binding.value?.elim .free .bound }
  have held {v : Value} (holds : copy.binding = .bound v) : target.binding = .bound v := by
    cases known : target.binding with
    | free => simp [copy, known, Binding.value?] at holds
    | link y => simp [copy, known, Binding.value?] at holds
    | bound u => simpa [copy, known, Binding.value?] using holds
  refine ⟨g.nextVar, g.addVar copy, ?_, (PartOf.refl wf).addNode (fun y => ?_) fun v holds =>
    wf.bound found (held holds), ?_⟩
  · simp [copyVar?, binding?, present, root?_eq_some_iff.2 resolves, found, copy]
  · cases known : target.binding <;> simp [copy, known, Binding.value?]
  · simp [Contains, nextVar]

end FeatureLogic.Graph
