import FeatureLogic.Proofs.Copy.Added
import FeatureLogic.Proofs.Join.Entirety
import FeatureLogic.Scope.Scoping

/-!
# The confinement of copies

Whatever the operands of a unification are and whatever their scopes say, copying them changes no
node from before. It adds structures and free variables, and no handle leads from an added node to
one from before.
-/

namespace FeatureLogic

def Scope.Within (scope : Scope) (g : Graph) : Prop :=
  ∀ name v, scope.get? name = some v → g.Contains v

theorem Scope.within_iff {scope : Scope} {g : Graph} :
    scope.Within g ↔ ∀ e ∈ scope.entries, g.Contains e.2 := by
  constructor
  · intro within e mem
    exact within e.1 e.2 (scope.get?_eq_some_iff.2 mem)
  · intro all name v found
    exact all (name, v) (scope.get?_eq_some_iff.1 found)

instance (scope : Scope) (g : Graph) : Decidable (scope.Within g) :=
  decidable_of_iff _ Scope.within_iff.symm

theorem Scope.Within.mono {scope : Scope} {g h : Graph} (within : scope.Within g)
    (structs : g.structCount ≤ h.structCount) (vars : g.varCount ≤ h.varCount) :
    scope.Within h :=
  fun name v found => (within name v found).mono structs vars

theorem Scoping.within_fresh (g : Graph) : Scoping.fresh.All (Scope.Within · g) :=
  ⟨(fun name v found => by cases found), fun name v found => by cases found⟩

namespace Graph

open Copying

/-- What holds of the graph and the memory while operands of `g` are copied. -/
structure Confines (g h : Graph) (m : Copying) : Prop where
  wellFormed : h.WellFormed
  structs : g.structCount ≤ h.structCount
  vars : g.varCount ≤ h.varCount
  frames : (g.added h).Frames h
  image : ∀ {s t}, m.images.structs.lookup s = some t → (g.added h).Has (.struct t)
  self : ∀ {t}, (g.added h).Has (.struct t) → m.images.structs.lookup t = some t
  origin : ∀ {t}, (g.added h).Has (.struct t) →
    ∃ s, g.Contains (.struct s) ∧ m.images.structs.lookup s = some t
  feature : ∀ {t features name v}, (g.added h).Has (.struct t) → h.features? t = some features →
    features.get? name = some v → (g.added h).Has v
  imageVar : ∀ {x v}, m.images.vars.lookup x = some v → (g.added h).Has v
  free : ∀ {y}, (g.added h).Has (.var y) → ∃ name, h.var? y = some { name }
  scope : m.scope.Within h

variable {g h : Graph} {m : Copying}

theorem confines_start (wf : g.WellFormed) {scope : Scope} (within : scope.Within g) :
    g.Confines g { scope } where
  wellFormed := wf
  structs := Nat.le_refl _
  vars := Nat.le_refl _
  frames := ⟨fun _ => rfl, fun _ => rfl⟩
  image found := by cases found
  self has := absurd has (not_added_self rfl)
  origin has := absurd has (not_added_self rfl)
  feature has := absurd has (not_added_self rfl)
  imageVar found := by cases found
  free has := absurd has (not_added_self rfl)
  scope := within

namespace Confines

theorem changeScope (confines : g.Confines h m) {scope : Scope} (within : scope.Within h) :
    g.Confines h { m with scope } :=
  { confines with scope := within }

theorem structCount_le (confines : g.Confines h m) : h.structCount ≤ 2 * g.structCount :=
  structCount_le_of_origin confines.origin

theorem contains_of_fresh (confines : g.Confines h m) {s : StructId}
    (contains : h.Contains (.struct s)) (fresh : m.images.structs.lookup s = none) :
    g.Contains (.struct s) := by
  refine Nat.lt_of_not_le fun le => ?_
  cases fresh.symm.trans (confines.self ⟨le, contains⟩)

theorem addStruct (confines : g.Confines h m) {s : StructId} (contains : h.Contains (.struct s))
    (fresh : m.images.structs.lookup s = none) :
    g.Confines (h.addStruct ∅) (m.addStruct s h.nextStruct) := by
  have before := confines.contains_of_fresh contains fresh
  have iff {t : StructId} : (g.added (h.addStruct ∅)).Has (.struct t) ↔
      (g.added h).Has (.struct t) ∨ t = h.nextStruct := added_addStruct confines.structs
  have mono {v : Value} (has : (g.added h).Has v) : (g.added (h.addStruct ∅)).Has v :=
    added_mono (by simp) (by simp) has
  constructor
  · exact confines.wellFormed.addStruct fun name v found => by cases found
  · exact confines.structs.trans (by simp)
  · exact confines.vars
  · exact frames_addStruct confines.structs confines.frames
  · intro u t found
    rcases lookup_addStruct_eq_some found with ⟨rfl, -⟩ | found
    · exact iff.2 (.inr rfl)
    · exact mono (confines.image found)
  · exact lookup_self_addStruct confines.structs before confines.self
  · exact exists_origin_addStruct confines.structs id before fresh confines.origin
  · intro t features name v has found holds
    rw [features?_addStruct] at found
    split at found
    · cases found
      cases holds
    · next ne => exact mono (confines.feature ((iff.1 has).resolve_right ne) found holds)
  · exact fun found => mono (confines.imageVar found)
  · exact confines.free
  · exact confines.scope.mono (by simp) (by simp)

theorem setFeature (confines : g.Confines h m) {t : StructId}
    (has : (g.added h).Has (.struct t)) (name : String) {v : Value} (hasValue : (g.added h).Has v) :
    g.Confines (h.setFeature t name v) m := by
  have region : g.added (h.setFeature t name v) = g.added h := by simp [added]
  constructor
  · exact confines.wellFormed.setFeature t name (contains_of_added hasValue)
  · exact confines.structs.trans (by simp)
  · exact confines.vars
  · exact region ▸ confines.frames.setFeature has name v
  · exact region ▸ confines.image
  · exact region ▸ confines.self
  · exact region ▸ confines.origin
  · intro u features key w hasU found holds
    rw [region] at hasU ⊢
    rw [features?_setFeature] at found
    split at found
    · obtain ⟨features, present, rfl⟩ := Option.map_eq_some_iff.1 found
      rw [NameMap.get?_insert] at holds
      split at holds
      · cases holds
        exact hasValue
      · exact confines.feature hasU present holds
    · exact confines.feature hasU found holds
  · exact region ▸ confines.imageVar
  · exact region ▸ confines.free
  · exact confines.scope.mono (by simp) (by simp)

theorem addImage (confines : g.Confines h m) (x : VarId) {v : Value} (has : (g.added h).Has v) :
    g.Confines h (m.addVar x v) := by
  refine { confines with imageVar := fun {z w} found => ?_ }
  rw [lookup_addVar] at found
  split at found
  · cases found
    exact has
  · exact confines.imageVar found

theorem addVar (confines : g.Confines h m) (name : String) : g.Confines (h.addVar { name }) m := by
  have iff {y : VarId} : (g.added (h.addVar { name })).Has (.var y) ↔
      (g.added h).Has (.var y) ∨ y = h.nextVar := added_addVar confines.vars
  have mono {v : Value} (has : (g.added h).Has v) : (g.added (h.addVar { name })).Has v :=
    added_mono (by simp) (by simp) has
  constructor
  · exact confines.wellFormed.addVar name
  · exact confines.structs
  · exact confines.vars.trans (by simp)
  · exact frames_addVar confines.vars confines.frames
  · exact confines.image
  · exact confines.self
  · exact confines.origin
  · exact fun has found holds => mono (confines.feature has found holds)
  · exact fun found => mono (confines.imageVar found)
  · intro y has
    rw [var?_addVar]
    split
    · exact ⟨name, rfl⟩
    · next ne => exact confines.free ((iff.1 has).resolve_right ne)
  · exact confines.scope.mono (by simp) (by simp)

theorem bindAll (confines : g.Confines h m) {v : Value} (has : (g.added h).Has v)
    (names : List String) : g.Confines h (m.bindAll names v) := by
  induction names generalizing m with
  | nil => exact confines
  | cons name rest ih =>
    refine ih (m := { m with scope := m.scope.insert name v }) (confines.changeScope ?_)
    intro key w found
    rw [NameMap.get?_insert] at found
    split at found
    · cases found
      exact contains_of_added has
    · exact confines.scope key w found

theorem closed (confines : g.Confines h m) : (g.added h).Closed h where
  structCount := rfl
  varCount := rfl
  frames := confines.frames
  feature := confines.feature
  forward {v w} has step := by
    cases v with
    | atom a => cases step
    | struct t => cases (confines.wellFormed.forward?_struct t).symm.trans step
    | var y =>
      obtain ⟨name, found⟩ := confines.free has
      simp [forward?, found, Binding.alias?] at step
  content {v c} has held := by
    cases v with
    | atom a => cases held
    | struct t => cases held
    | var y =>
      obtain ⟨name, found⟩ := confines.free has
      simp [content?, found, Binding.value?] at held
  grounded has := confines.wellFormed.exists_resolves (contains_of_added has)

end Confines

end Graph

end FeatureLogic
