import FeatureLogic.Proofs.Copy.Confinement
import FeatureLogic.Unification
import Mathlib.Data.List.Perm.Subperm

/-!
# Copying operands in their scopes

The copying of operands ends and stays confined to added nodes, whatever the operands are and
whatever their scopes say. Every level of the walk adds the copy of another structure, and on the
way through a scope every name but the last has an entry.
-/

namespace FeatureLogic.Graph

open Copying

structure Advances (g : Graph) (W W' : Copying.Walk) : Prop where
  confines : g.Confines W'.1 W'.2
  structs : W.1.structCount ≤ W'.1.structCount
  vars : W.1.varCount ≤ W'.1.varCount

variable {g : Graph} {W W₁ W' : Copying.Walk}

theorem Advances.refl (confines : g.Confines W.1 W.2) : g.Advances W W :=
  ⟨confines, Nat.le_refl _, Nat.le_refl _⟩

theorem Advances.trans (first : g.Advances W W₁) (second : g.Advances W₁ W') : g.Advances W W' :=
  ⟨second.confines, first.structs.trans second.structs, first.vars.trans second.vars⟩

theorem Advances.contains (advances : g.Advances W W') {v : Value} (contains : W.1.Contains v) :
    W'.1.Contains v :=
  contains.mono advances.structs advances.vars

theorem Advances.has (advances : g.Advances W W') {v : Value} (has : (g.added W.1).Has v) :
    (g.added W'.1).Has v :=
  added_mono advances.structs advances.vars has

def Stays {α β : Type} (g : Graph) (fuel : Nat) (original : α → Value) (result : β → Value)
    (copy : α → Copying.Walk → Option (β × Copying.Walk)) : Prop :=
  ∀ a W, W.1.Contains (original a) → g.Confines W.1 W.2 →
    2 * g.structCount + 1 ≤ fuel + W.1.structCount →
    ∃ b W', copy a W = some (b, W') ∧ (g.added W'.1).Has (result b) ∧ g.Advances W W'

theorem fill_stays {fuel : Nat} {image : Value → Copying.Walk → Option (Value × Copying.Walk)}
    (stays : g.Stays fuel id id image) {target : StructId} {entries : List (String × Value)}
    (inside : ∀ e ∈ entries, W.1.Contains e.2) (confines : g.Confines W.1 W.2)
    (has : (g.added W.1).Has (.struct target))
    (enough : 2 * g.structCount + 1 ≤ fuel + W.1.structCount) :
    ∃ W', fill image target entries W = some W' ∧ g.Advances W W' := by
  induction entries generalizing W with
  | nil => exact ⟨W, rfl, .refl confines⟩
  | cons e rest ih =>
    obtain ⟨name, v⟩ := e
    obtain ⟨w, ⟨h, m⟩, copied, hasCopy, advances⟩ :=
      stays v W (inside _ List.mem_cons_self) confines enough
    let written : Copying.Walk := (h.setFeature target name w, m)
    have step : g.Advances W written :=
      ⟨advances.confines.setFeature (advances.has has) name hasCopy,
        advances.structs.trans (by simp [written]), advances.vars.trans (by simp [written])⟩
    obtain ⟨W', filled, rest⟩ := ih (W := written)
      (fun e mem => step.contains (inside e (List.mem_cons_of_mem _ mem))) step.confines
      (step.has has) (enough.trans (Nat.add_le_add_left step.structs _))
    exact ⟨W', fill_cons_eq_some_iff.2 ⟨w, h, m, copied, filled⟩, step.trans rest⟩

theorem copyNode_stays {fuel : Nat} {image : Value → Copying.Walk → Option (Value × Copying.Walk)}
    (stays : g.Stays fuel id id image) :
    g.Stays (fuel + 1) Value.struct Value.struct (copyNode image) := by
  rintro s ⟨h, m⟩ contains confines enough
  cases known : m.images.structs.lookup s with
  | some t => exact ⟨t, (h, m), by simp [copyNode, known], confines.image known, .refl confines⟩
  | none =>
    obtain ⟨features, found⟩ := exists_features_of_contains contains
    let entered : Copying.Walk := (h.addStruct ∅, m.addStruct s h.nextStruct)
    have step : g.Advances (h, m) entered :=
      ⟨confines.addStruct contains known, by simp [entered], Nat.le_refl _⟩
    have has : (g.added entered.1).Has (.struct h.nextStruct) :=
      (added_addStruct confines.structs).2 (.inr rfl)
    have read : (h.addStruct ∅).features? s = some features := by
      rw [features?_addStruct, if_neg, found]
      rintro rfl
      exact Nat.lt_irrefl _ contains
    have inside : ∀ e ∈ features.entries, entered.1.Contains e.2 := by
      intro e mem
      obtain ⟨node, present, rfl⟩ := Option.map_eq_some_iff.1 found
      have holds := node.features.get?_eq_some_iff.2 mem
      exact step.contains (confines.wellFormed.feature present holds)
    have enough' : 2 * g.structCount + 1 ≤ fuel + entered.1.structCount := by
      simp only [entered, structCount_addStruct]
      dsimp only at enough
      omega
    obtain ⟨W', filled, advances⟩ := fill_stays stays inside step.confines has enough'
    refine ⟨h.nextStruct, W', ?_, advances.has has, step.trans advances⟩
    have walked : imageStruct (fun s t m => m.addStruct s t) image s (h, m) =
        some (h.nextStruct, W') := by
      simp only [imageStruct, read, Option.map_eq_some_iff]
      exact ⟨W', filled, rfl⟩
    simp [copyNode, known, walked]

theorem copyValue_stays {fuel : Nat}
    {copyStruct : StructId → Copying.Walk → Option (StructId × Copying.Walk)}
    {copyVar : VarId → Copying.Walk → Option (Value × Copying.Walk)}
    (structs : g.Stays fuel Value.struct Value.struct copyStruct)
    (vars : g.Stays fuel Value.var id copyVar) :
    g.Stays fuel id id (copyValue copyStruct copyVar) := by
  intro v W contains confines enough
  cases v with
  | atom a => exact ⟨.atom a, W, rfl, trivial, .refl confines⟩
  | struct s =>
    obtain ⟨t, W', copied, has, advances⟩ := structs s W contains confines enough
    exact ⟨.struct t, W', by simp [copyValue, copied], has, advances⟩
  | var x =>
    cases known : W.2.images.vars.lookup x with
    | some v =>
      exact ⟨v, W, by simp [copyValue, known], confines.imageVar known, .refl confines⟩
    | none =>
      obtain ⟨w, ⟨h, m⟩, copied, has, advances⟩ := vars x W contains confines enough
      exact ⟨w, (h, m.addVar x w), by simp [copyValue, known, copied], has,
        advances.confines.addImage x has, advances.structs, advances.vars⟩

/-- Outside of a scope a bound variable is copied as its value, and a free one once. -/
theorem copyVarPlain_stays {fuel : Nat}
    {copyStruct : StructId → Copying.Walk → Option (StructId × Copying.Walk)}
    (structs : g.Stays fuel Value.struct Value.struct copyStruct) :
    g.Stays fuel Value.var id (copyVarPlain copyStruct) := by
  rintro x ⟨h, m⟩ contains confines enough
  obtain ⟨v, reads, inside⟩ := confines.wellFormed.exists_deref contains
  cases v with
  | atom a =>
    exact ⟨.atom a, (h, m), by simp [copyVarPlain, reads], trivial, .refl confines⟩
  | struct s =>
    obtain ⟨t, W', copied, has, advances⟩ := structs s (h, m) inside confines enough
    exact ⟨.struct t, W', by simp [copyVarPlain, reads, copied], has, advances⟩
  | var root =>
    cases known : m.images.vars.lookup root with
    | some v =>
      exact ⟨v, (h, m), by simp [copyVarPlain, reads, known], confines.imageVar known,
        .refl confines⟩
    | none =>
      obtain ⟨name, found⟩ := confines.wellFormed.free_of_deref? reads
      have copied : h.copyVar? root = some (h.nextVar, h.addVar { name }) :=
        copyVar?_of_free found
      have has : (g.added (h.addVar { name })).Has (.var h.nextVar) :=
        (added_addVar confines.vars).2 (.inr rfl)
      exact ⟨.var h.nextVar,
        (h.addVar { name }, (m.addVar root (.var h.nextVar)).addVar h.nextVar (.var h.nextVar)),
        by simp [copyVarPlain, reads, known, copied], has,
        ((confines.addVar name).addImage root has).addImage h.nextVar has, by simp, by simp⟩

theorem copyStructPlain_stays (g : Graph) (fuel : Nat) :
    g.Stays fuel Value.struct Value.struct (copyStructPlain fuel) := by
  induction fuel with
  | zero =>
    intro s W _ confines enough
    have := confines.structCount_le
    omega
  | succ fuel ih => exact copyNode_stays (copyValue_stays ih (copyVarPlain_stays ih))

theorem copyPlain_stays {v : Value} (contains : W.1.Contains v) (confines : g.Confines W.1 W.2) :
    ∃ w W', copyPlain v W = some (w, W') ∧ (g.added W'.1).Has w ∧ g.Advances W W' := by
  have structs := copyStructPlain_stays g (W.1.structCount + 1)
  refine copyValue_stays structs (copyVarPlain_stays structs) v W contains confines ?_
  have := confines.structs
  omega

theorem exists_aliases {h : Graph} (wf : h.WellFormed) {scope : Scope} (within : scope.Within h)
    {fuel : Nat} {name : String} {earlier : List String} {v : Value} (contains : h.Contains v)
    (nodup : (name :: earlier).Nodup) (entries : ∀ key ∈ earlier, key ∈ scope.keys)
    (enough : scope.size < fuel + earlier.length) :
    ∃ names u, aliases h scope fuel name (name :: earlier) v = some (names, u) ∧
      h.Contains u := by
  induction fuel generalizing name earlier v with
  | zero =>
    have length := (List.subperm_of_subset (List.nodup_cons.1 nodup).2 entries).length_le
    rw [NameMap.keys, List.length_map] at length
    rw [NameMap.size] at enough
    omega
  | succ fuel ih =>
    cases found : scope.get? name with
    | none => exact ⟨name :: earlier, v, by simp [aliases, found], contains⟩
    | some entry =>
      have inside := within name entry found
      obtain ⟨w, reads, insideRead⟩ := wf.exists_deref inside
      cases w with
      | atom a => exact ⟨name :: earlier, entry, by simp [aliases, found, reads], inside⟩
      | struct s => exact ⟨name :: earlier, entry, by simp [aliases, found, reads], inside⟩
      | var y =>
        obtain ⟨node, present⟩ := exists_var_of_contains insideRead
        have called : h.name? y = some node.name := by simp [name?, present]
        by_cases met : node.name ∈ name :: earlier
        · exact ⟨name :: earlier, entry, by simp [aliases, found, reads, called, met], inside⟩
        · obtain ⟨names, u, followed, containsU⟩ := ih inside (List.nodup_cons.2 ⟨met, nodup⟩)
            (List.forall_mem_cons.2 ⟨scope.mem_keys_iff.2 (by simp [found]), entries⟩)
            (by rw [List.length_cons]; omega)
          exact ⟨names, u, by simp [aliases, found, reads, called, met, followed], containsU⟩

theorem copyVarScoped_stays (g : Graph) (fuel : Nat) : g.Stays fuel Value.var id copyVarScoped := by
  rintro x ⟨h, m⟩ contains confines -
  obtain ⟨node, present⟩ := exists_var_of_contains contains
  have called : h.name? x = some node.name := by simp [name?, present]
  obtain ⟨names, v, followed, inside⟩ := exists_aliases confines.wellFormed confines.scope
    contains (List.nodup_singleton node.name) (by simp) (Nat.lt_succ_self _)
  obtain ⟨w, ⟨k, n⟩, copied, has, advances⟩ := copyPlain_stays (W := (h, m)) inside confines
  exact ⟨w, (k, n.bindAll names w), by simp [copyVarScoped, called, followed, copied, bindAll],
    has, advances.confines.bindAll has names, advances.structs, advances.vars⟩

theorem copyStructScoped_stays (g : Graph) (fuel : Nat) :
    g.Stays fuel Value.struct Value.struct (copyStructScoped fuel) := by
  induction fuel with
  | zero =>
    intro s W _ confines enough
    have := confines.structCount_le
    omega
  | succ fuel ih => exact copyNode_stays (copyValue_stays ih (copyVarScoped_stays g fuel))

theorem copyScoped_stays {v : Value} (contains : W.1.Contains v) (confines : g.Confines W.1 W.2) :
    ∃ w W', copyScoped v W = some (w, W') ∧ (g.added W'.1).Has w ∧ g.Advances W W' := by
  refine copyValue_stays (copyStructScoped_stays g _) (copyVarScoped_stays g _) v W contains
    confines ?_
  have := confines.structs
  omega

/-- The copies of two operands: added nodes, in a graph whose nodes from before are unchanged. -/
structure OperandCopies (g h : Graph) (v w : Value) (scoping : Scoping) : Prop where
  wellFormed : h.WellFormed
  closed : (g.added h).Closed h
  structs : g.structCount ≤ h.structCount
  vars : g.varCount ≤ h.varCount
  left : (g.added h).Has v
  right : (g.added h).Has w
  within : scoping.All (Scope.Within · h)

theorem Confines.within_map {h : Graph} {m : Copying} (confines : g.Confines h m) {scope : Scope}
    (within : scope.Within h) : Scope.Within (scope.map m.images.apply) h := by
  intro name w found
  rw [NameMap.get?_map, Option.map_eq_some_iff] at found
  obtain ⟨v, listed, rfl⟩ := found
  cases v with
  | atom a => trivial
  | struct s =>
    cases known : m.images.structs.lookup s with
    | none => simpa [Images.apply, known] using within name _ listed
    | some t => simpa [Images.apply, known] using contains_of_added (confines.image known)
  | var x =>
    cases known : m.images.vars.lookup x with
    | none => simpa [Images.apply, known] using within name _ listed
    | some v => simpa [Images.apply, known] using contains_of_added (confines.imageVar known)

/-- The copying of operands always ends, and stays confined to the end. -/
theorem WellFormed.exists_confines (wf : g.WellFormed) {v w : Value} (hv : g.Contains v)
    (hw : g.Contains w) {scoping : Scoping} (within : scoping.All (Scope.Within · g)) :
    ∃ v' w' scoping' h m, g.copyOperands v w scoping = some (v', w', scoping', h) ∧
      g.OperandCopies h v' w' scoping' ∧ g.Confines h m := by
  cases scoping with
  | common scope =>
    obtain ⟨v', W₁, copied, hasV, first⟩ :=
      copyScoped_stays (W := (g, { scope })) hv (confines_start wf within)
    obtain ⟨w', W₂, copied', hasW, second⟩ :=
      copyScoped_stays (first.contains hw) first.confines
    have confines := second.confines
    refine ⟨v', w', .common (W₂.2.scope.map W₂.2.images.apply), W₂.1, W₂.2, ?_,
      ⟨confines.wellFormed, confines.closed, confines.structs, confines.vars, second.has hasV, hasW,
        confines.within_map confines.scope⟩, confines⟩
    simp [copyOperands, copied, copied']
  | separate left right =>
    obtain ⟨v', W₁, copied, hasV, first⟩ :=
      copyScoped_stays (W := (g, { scope := left })) hv (confines_start wf within.1)
    have rightWithin : right.Within W₁.1 := within.2.mono first.structs first.vars
    obtain ⟨w', W₂, copied', hasW, second⟩ :=
      copyScoped_stays (W := (W₁.1, { W₁.2 with scope := right })) (first.contains hw)
        (first.confines.changeScope rightWithin)
    have confines := second.confines
    have leftWithin : W₁.2.scope.Within W₂.1 :=
      first.confines.scope.mono second.structs second.vars
    refine ⟨v', w', .separate (W₁.2.scope.map W₂.2.images.apply)
      (W₂.2.scope.map W₂.2.images.apply), W₂.1, W₂.2, ?_,
      ⟨confines.wellFormed, confines.closed, confines.structs, confines.vars, second.has hasV, hasW,
        confines.within_map leftWithin, confines.within_map confines.scope⟩, confines⟩
    simp [copyOperands, copied, copied']

/-- The copying of operands always ends. -/
theorem WellFormed.exists_copyOperands (wf : g.WellFormed) {v w : Value} (hv : g.Contains v)
    (hw : g.Contains w) {scoping : Scoping} (within : scoping.All (Scope.Within · g)) :
    ∃ v' w' scoping' h, g.copyOperands v w scoping = some (v', w', scoping', h) ∧
      g.OperandCopies h v' w' scoping' := by
  obtain ⟨v', w', scoping', h, _, copied, copies, -⟩ := wf.exists_confines hv hw within
  exact ⟨v', w', scoping', h, copied, copies⟩

end FeatureLogic.Graph
