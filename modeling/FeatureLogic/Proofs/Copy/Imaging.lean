import FeatureLogic.Proofs.Copy.Confinement
import FeatureLogic.Proofs.Graph.Part
import FeatureLogic.Graph.Renaming
import FeatureLogic.Scope.Substitution
import Mathlib.Data.List.Perm.Subperm

/-!
# Renamed and substituted copies

Renaming and substitution copy a structure of the graph when they enter it for the first time, and
put the copies where the features are copied. So both end, and the graph is a part of what they
make of it. They differ in what becomes of a variable and in what else they remember.
-/

namespace FeatureLogic

open FeatureLogic.Graph

/-- A memory of the structures copied so far, with what has to hold of the rest of it. -/
structure Ledger (μ : Type) where
  copies : μ → List (StructId × StructId)
  remember : StructId → StructId → μ → μ
  Sound : Graph → μ → Prop
  copies_remember : ∀ {s t m}, copies (remember s t m) = (s, t) :: copies m
  sound_remember : ∀ {h s t m}, Sound h m → Sound h (remember s t m)
  sound_mono : ∀ {h k m}, h.structCount ≤ k.structCount → h.vars = k.vars → Sound h m → Sound k m

namespace Ledger

variable {μ : Type} (l : Ledger μ) {g : Graph}

structure Keeps (g : Graph) (W : Graph × μ) : Prop where
  part : g.PartOf W.1
  nodup : ((l.copies W.2).map Prod.fst).Nodup
  copied : ∀ {s t}, (s, t) ∈ l.copies W.2 → g.Contains (.struct s) ∧ (g.added W.1).Has (.struct t)
  sound : l.Sound W.1 W.2

structure Proceeds (g : Graph) (W W' : Graph × μ) : Prop where
  keeps : l.Keeps g W'
  structs : W.1.structCount ≤ W'.1.structCount
  vars : W.1.varCount ≤ W'.1.varCount
  longer : (l.copies W.2).length ≤ (l.copies W'.2).length

def Ends {α β : Type} (g : Graph) (fuel : Nat) (original : α → Value) (result : β → Value)
    (copy : α → Graph × μ → Option (β × Graph × μ)) : Prop :=
  ∀ a W, g.Contains (original a) → l.Keeps g W →
    g.structCount + 1 ≤ fuel + (l.copies W.2).length →
    ∃ b W', copy a W = some (b, W') ∧ W'.1.Contains (result b) ∧ l.Proceeds g W W'

variable {l} {W W₁ W' : Graph × μ}

theorem Proceeds.refl (keeps : l.Keeps g W) : l.Proceeds g W W :=
  ⟨keeps, Nat.le_refl _, Nat.le_refl _, Nat.le_refl _⟩

theorem Proceeds.trans (first : l.Proceeds g W W₁) (second : l.Proceeds g W₁ W') :
    l.Proceeds g W W' :=
  ⟨second.keeps, first.structs.trans second.structs, first.vars.trans second.vars,
    first.longer.trans second.longer⟩

theorem Keeps.length_le (keeps : l.Keeps g W) : (l.copies W.2).length ≤ g.structCount := by
  have found : ∀ s ∈ (l.copies W.2).map Prod.fst, ∃ m, g.features? s = some m := by
    intro s mem
    obtain ⟨⟨s, t⟩, listed, rfl⟩ := List.mem_map.1 mem
    exact exists_features_of_contains (keeps.copied listed).1
  simpa using length_le_structCount keeps.nodup found

theorem fill_proceeds {fuel : Nat} {image : Value → Graph × μ → Option (Value × Graph × μ)}
    (ends : l.Ends g fuel id id image) {target : StructId} {entries : List (String × Value)}
    (inside : ∀ e ∈ entries, g.Contains e.2) (keeps : l.Keeps g W)
    (has : (g.added W.1).Has (.struct target))
    (enough : g.structCount + 1 ≤ fuel + (l.copies W.2).length) :
    ∃ W', fill image target entries W = some W' ∧ l.Proceeds g W W' := by
  induction entries generalizing W with
  | nil => exact ⟨W, rfl, .refl keeps⟩
  | cons e rest ih =>
    obtain ⟨name, v⟩ := e
    obtain ⟨w, ⟨h, m⟩, copied, containsCopy, proceeds⟩ :=
      ends v W (inside _ List.mem_cons_self) keeps enough
    have has' : (g.added h).Has (.struct target) := added_mono proceeds.structs proceeds.vars has
    have region : g.added (h.setFeature target name w) = g.added h := by simp [added]
    let written : Graph × μ := (h.setFeature target name w, m)
    have kept : l.Keeps g written :=
      ⟨proceeds.keeps.part.setFeature has' name containsCopy, proceeds.keeps.nodup,
        fun mem => by simpa only [written, region] using proceeds.keeps.copied mem,
        l.sound_mono (by simp [written]) (by rfl) proceeds.keeps.sound⟩
    have step : l.Proceeds g W written :=
      ⟨kept, by simpa [written] using proceeds.structs, by simpa [written] using proceeds.vars,
        proceeds.longer⟩
    obtain ⟨W', filled, rest⟩ := ih (W := written)
      (fun e mem => inside e (List.mem_cons_of_mem _ mem)) kept
      (by simpa only [written, region] using has')
      (enough.trans (Nat.add_le_add_left step.longer _))
    exact ⟨W', fill_cons_eq_some_iff.2 ⟨w, h, m, copied, filled⟩, step.trans rest⟩

theorem Keeps.enter (keeps : l.Keeps g W) {s : StructId} (inside : g.Contains (.struct s))
    (fresh : (l.copies W.2).lookup s = none) :
    l.Keeps g (W.1.addStruct ∅, l.remember s W.1.nextStruct W.2) where
  part := keeps.part.addStruct fun name v found => by cases found
  nodup := by
    rw [l.copies_remember, List.map_cons, List.nodup_cons]
    refine ⟨fun mem => ?_, keeps.nodup⟩
    obtain ⟨p, listed, same⟩ := List.mem_map.1 mem
    have differs := List.lookup_eq_none_iff.1 fresh p listed
    simp [same] at differs
  copied {u t} mem := by
    rw [l.copies_remember] at mem
    rcases List.mem_cons.1 mem with eq | mem
    · cases eq
      exact ⟨inside, (added_addStruct keeps.part.structs).2 (.inr rfl)⟩
    · obtain ⟨old, has⟩ := keeps.copied mem
      exact ⟨old, added_mono (by simp) (by simp) has⟩
  sound := l.sound_remember (l.sound_mono (by simp) (by rfl) keeps.sound)

theorem imageStruct_ends (wf : g.WellFormed) {fuel : Nat}
    {image : Value → Graph × μ → Option (Value × Graph × μ)} (ends : l.Ends g fuel id id image) :
    l.Ends g (fuel + 1) Value.struct Value.struct fun s W =>
      match (l.copies W.2).lookup s with
      | some t => some (t, W)
      | none => imageStruct l.remember image s W := by
  rintro s ⟨h, m⟩ inside keeps enough
  cases known : (l.copies m).lookup s with
  | some t =>
    exact ⟨t, (h, m), by simp [known],
      contains_of_added (keeps.copied (mem_of_lookup known)).2, .refl keeps⟩
  | none =>
    obtain ⟨node, present⟩ := exists_struct_of_contains inside
    have entered := keeps.enter inside known
    have read : (h.addStruct ∅).features? s = some node.features := by
      rw [entered.part.features?_eq inside, features?, present]
      rfl
    have longer : (l.copies m).length < (l.copies (l.remember s h.nextStruct m)).length := by
      simp [l.copies_remember]
    have inside : ∀ e ∈ node.features.entries, g.Contains e.2 := fun e mem =>
      wf.feature present (node.features.get?_eq_some_iff.2 mem)
    have has : (g.added (h.addStruct ∅)).Has (.struct h.nextStruct) :=
      (added_addStruct keeps.part.structs).2 (.inr rfl)
    obtain ⟨W', filled, proceeds⟩ :=
      fill_proceeds ends inside entered has (by dsimp only at enough ⊢; omega)
    have walked : imageStruct l.remember image s (h, m) = some (h.nextStruct, W') := by
      simp [imageStruct, read, filled]
    refine ⟨h.nextStruct, W', by simp [known, walked], ?_, proceeds.keeps,
      Nat.le_trans (by simp) proceeds.structs, proceeds.vars, longer.le.trans proceeds.longer⟩
    have new : (h.addStruct ∅).Contains (.struct h.nextStruct) := by simp [Contains, nextStruct]
    exact new.mono proceeds.structs proceeds.vars

end Ledger

namespace Graph

variable {g h : Graph}

def Replaces (g : Graph) (replaced : NameMap VarId) : Prop :=
  ∀ name y, replaced.get? name = some y → g.Contains (.var y)

def renamings : Ledger Renaming.Memory where
  copies m := m.copies
  remember s t m := { m with copies := (s, t) :: m.copies }
  Sound h m := h.Replaces m.replaced
  copies_remember := rfl
  sound_remember := id
  sound_mono structs vars sound name y found :=
    (sound name y found).mono structs (congrArg Array.size vars).le

theorem renameVar_ends {x : VarId} (inside : g.Contains (.var x)) {W : Renaming.Walk}
    (keeps : renamings.Keeps g W) :
    ∃ w W', renameVar x W = some (w, W') ∧ W'.1.Contains w ∧ renamings.Proceeds g W W' := by
  obtain ⟨h, m⟩ := W
  have insideNow := keeps.part.contains inside
  obtain ⟨node, present⟩ := exists_var_of_contains insideNow
  have called : h.name? x = some node.name := by simp [name?, present]
  cases known : m.replaced.get? node.name with
  | some y =>
    exact ⟨.var y, (h, m), by simp [renameVar, called, known], keeps.sound _ y known, .refl keeps⟩
  | none =>
    by_cases taken : node.name ∈ m.taken
    · let fresh := Renaming.unusedName m.taken node.name
      let renamed : Renaming.Walk := (h.addVar { name := fresh },
        { m with replaced := m.replaced.insert node.name h.nextVar, taken := fresh :: m.taken })
      have new : renamed.1.Contains (.var h.nextVar) := by simp [renamed, Contains, nextVar]
      have kept : renamings.Keeps g renamed := by
        refine ⟨keeps.part.addVar fresh, keeps.nodup, fun mem => ?_, fun name y found => ?_⟩
        · obtain ⟨old, has⟩ := keeps.copied mem
          exact ⟨old, added_mono (by simp [renamed]) (by simp [renamed]) has⟩
        · rw [NameMap.get?_insert] at found
          split at found
          · cases found
            exact new
          · exact (keeps.sound name y found).mono (by simp [renamed]) (by simp [renamed])
      exact ⟨.var h.nextVar, renamed,
        by simp [renameVar, called, known, taken, newVar, renamed, fresh], new,
        kept, by simp [renamed], by simp [renamed], Nat.le_refl _⟩
    · exact ⟨.var x, (h, m), by simp [renameVar, called, known, taken], insideNow, .refl keeps⟩

theorem renameValue_ends (wf : g.WellFormed) {fuel : Nat}
    {renameStruct : StructId → Renaming.Walk → Option (StructId × Renaming.Walk)}
    (ends : renamings.Ends g fuel Value.struct Value.struct renameStruct) :
    renamings.Ends g fuel id id (renameValue renameStruct) := by
  intro v W inside keeps enough
  obtain ⟨w, reads, insideRead⟩ := wf.exists_deref inside
  have reads' : W.1.deref? v = some w := (PartOf.deref?_eq wf keeps.part inside).trans reads
  cases w with
  | atom a => exact ⟨.atom a, W, by simp [renameValue, reads'], trivial, .refl keeps⟩
  | var x =>
    obtain ⟨w, W', renamed, contains, proceeds⟩ := renameVar_ends insideRead keeps
    exact ⟨w, W', by simp [renameValue, reads', renamed], contains, proceeds⟩
  | struct s =>
    obtain ⟨t, W', renamed, contains, proceeds⟩ := ends s W insideRead keeps enough
    exact ⟨.struct t, W', by simp [renameValue, reads', renamed], contains, proceeds⟩

theorem renameStruct_ends (wf : g.WellFormed) (fuel : Nat) :
    renamings.Ends g fuel Value.struct Value.struct (renameStruct fuel) := by
  induction fuel with
  | zero =>
    intro s W _ keeps enough
    have := keeps.length_le
    omega
  | succ fuel ih => exact Ledger.imageStruct_ends wf (renameValue_ends wf ih)

theorem exists_names {replaced : NameMap VarId} (replaces : g.Replaces replaced) :
    ∃ names, replaced.values.mapM g.name? = some names ∧
      ∀ name, name ∈ names ↔ ∃ old y, replaced.get? old = some y ∧ g.name? y = some name := by
  have listed {y : VarId} : y ∈ replaced.values ↔ ∃ old, replaced.get? old = some y := by
    simp only [NameMap.values, List.mem_map, NameMap.get?_eq_some_iff]
    constructor
    · rintro ⟨e, mem, rfl⟩
      exact ⟨e.1, mem⟩
    · rintro ⟨old, mem⟩
      exact ⟨(old, y), mem, rfl⟩
  have all : ∀ y ∈ replaced.values, ∃ name, g.name? y = some name := by
    intro y mem
    obtain ⟨old, held⟩ := listed.1 mem
    obtain ⟨node, found⟩ := exists_var_of_contains (replaces old y held)
    exact ⟨node.name, by simp [name?, found]⟩
  have read (values : List VarId) (all : ∀ y ∈ values, ∃ name, g.name? y = some name) :
      ∃ names, values.mapM g.name? = some names ∧
        ∀ name, name ∈ names ↔ ∃ y ∈ values, g.name? y = some name := by
    induction values with
    | nil => exact ⟨[], rfl, by simp⟩
    | cons y rest ih =>
      obtain ⟨name, found⟩ := all y List.mem_cons_self
      obtain ⟨names, called, mem⟩ := ih fun z mem => all z (List.mem_cons_of_mem _ mem)
      exact ⟨name :: names, by simp [found, called], by simp [mem, found, eq_comm]⟩
  obtain ⟨names, called, mem⟩ := read _ all
  refine ⟨names, called, fun name => (mem name).trans ?_⟩
  simp only [listed]
  constructor
  · rintro ⟨y, ⟨old, held⟩, found⟩
    exact ⟨old, y, held, found⟩
  · rintro ⟨old, y, held, found⟩
    exact ⟨y, ⟨old, held⟩, found⟩

/-- The renaming of a value ends and only adds nodes. -/
theorem WellFormed.exists_rename (wf : g.WellFormed) {v : Value} (inside : g.Contains v)
    {replaced : NameMap VarId} (replaces : g.Replaces replaced) (used : List String) :
    ∃ w replaced' h, g.rename? v replaced used = some (w, replaced', h) ∧
      g.PartOf h ∧ h.Contains w ∧ h.Replaces replaced' := by
  obtain ⟨names, called, -⟩ := exists_names replaces
  have start : renamings.Keeps g (g, { replaced, taken := names ++ used }) :=
    ⟨.refl wf, List.nodup_nil, (fun mem => by cases mem), replaces⟩
  obtain ⟨w, ⟨h, m⟩, renamed, contains, proceeds⟩ :=
    renameValue_ends wf (renameStruct_ends wf _) v _ inside start
      (show g.structCount + 1 ≤ 2 * (g.structCount + 1) + 0 by omega)
  exact ⟨w, m.replaced, h, by simp [rename?, called, renamed], proceeds.keeps.part, contains,
    proceeds.keeps.sound⟩

def substitutions : Ledger Images where
  copies images := images.structs
  remember s t images := images.addStruct s t
  Sound h images := ∀ x w, images.vars.lookup x = some w → h.Contains w
  copies_remember := rfl
  sound_remember := id
  sound_mono structs vars sound x w found :=
    (sound x w found).mono structs (congrArg Array.size vars).le

end Graph

namespace Scope

variable {scope : Scope} {g h : Graph}

/-- The way of a value through a scope and the aliases of a graph ends in the graph. A look-up in
the scope takes one step, and at most one more, through the aliases, comes before it. -/
theorem exists_follow (wf : g.WellFormed) (within : scope.Within g) {fuel : Nat}
    {seen : List String} {v : Value} (inside : g.Contains v) (nodup : seen.Nodup)
    (entries : ∀ name ∈ seen, name ∈ scope.keys)
    (enough : 2 * scope.size + 3 ≤ fuel + 2 * seen.length ∨
      2 * scope.size + 2 ≤ fuel + 2 * seen.length ∧ g.deref? v = some v) :
    ∃ w, scope.follow g fuel seen v = some w ∧ g.Contains w := by
  induction fuel generalizing seen v with
  | zero =>
    have length := (List.subperm_of_subset nodup entries).length_le
    rw [NameMap.keys, List.length_map] at length
    rw [NameMap.size] at enough
    omega
  | succ fuel ih =>
    cases v with
    | atom a => exact ⟨.atom a, rfl, trivial⟩
    | struct s => exact ⟨.struct s, rfl, inside⟩
    | var x =>
      obtain ⟨node, present⟩ := exists_var_of_contains inside
      have called : g.name? x = some node.name := by simp [name?, present]
      cases listed : if node.name ∈ seen then none else scope.get? node.name with
      | some v =>
        have fresh : node.name ∉ seen := by
          intro mem
          simp [mem] at listed
        rw [if_neg fresh] at listed
        have nodup' : (node.name :: seen).Nodup := List.nodup_cons.2 ⟨fresh, nodup⟩
        have entries' : ∀ name ∈ node.name :: seen, name ∈ scope.keys :=
          List.forall_mem_cons.2 ⟨scope.mem_keys_iff.2 (by simp [listed]), entries⟩
        obtain ⟨w, followed, contains⟩ := ih (within _ v listed) nodup' entries'
          (.inl (by rw [List.length_cons]; omega))
        exact ⟨w, by simp [follow, called, fresh, listed, followed], contains⟩
      | none =>
        obtain ⟨w, reads, contains⟩ := wf.exists_deref inside
        by_cases self : w = .var x
        · exact ⟨w, by simp [follow, called, listed, reads, self], contains⟩
        · have more : 2 * scope.size + 3 ≤ fuel + 1 + 2 * seen.length := by
            rcases enough with enough | ⟨-, eq⟩
            · exact enough
            · exact absurd (Option.some.inj (reads.symm.trans eq)) self
          obtain ⟨u, followed, contains'⟩ := ih contains nodup entries
            (.inr ⟨by omega, wf.deref?_deref? reads⟩)
          exact ⟨u, by simp [follow, called, listed, reads, self, followed], contains'⟩

theorem exists_meaning (wf : g.WellFormed) (within : scope.Within g) {v : Value}
    (inside : g.Contains v) : ∃ w, scope.meaning? g v = some w ∧ g.Contains w :=
  exists_follow wf within inside List.nodup_nil (by simp) (.inl (by simp [NameMap.size]))

theorem follow_of_frames (frames : (g.added h).Frames h) {fuel : Nat} {seen : List String}
    {v w : Value} (followed : scope.follow g fuel seen v = some w) :
    scope.follow h fuel seen v = some w := by
  induction fuel generalizing seen v with
  | zero => cases followed
  | succ fuel ih =>
    cases v with
    | atom a => exact followed
    | struct s => exact followed
    | var x =>
      simp only [follow] at followed ⊢
      cases called : g.name? x with
      | none => simp [called] at followed
      | some name =>
        obtain ⟨node, found, -⟩ := Option.map_eq_some_iff.1 called
        have calledNow : h.name? x = some name := by
          rw [name?, frames.var (contains_of_var? found), ← called]
          rfl
        rw [calledNow]
        simp only [called] at followed
        cases listed : if name ∈ seen then none else scope.get? name with
        | some v =>
          simp only [listed] at followed ⊢
          exact ih followed
        | none =>
          simp only [listed] at followed ⊢
          cases reads : g.deref? (.var x) with
          | none => simp [reads] at followed
          | some u =>
            rw [frames.deref?_eq_some reads]
            simp only [reads] at followed ⊢
            split at followed
            · next self => simpa [self] using followed
            · next other =>
              rw [if_neg other]
              exact ih followed

theorem substituteValue_ends (wf : g.WellFormed) (within : scope.Within g) {fuel : Nat}
    {copyStruct : StructId → Graph × Images → Option (StructId × Graph × Images)}
    (ends : substitutions.Ends g fuel Value.struct Value.struct copyStruct) :
    substitutions.Ends g fuel id id (scope.substituteValue copyStruct) := by
  intro v W inside keeps enough
  have remembered {h : Graph} {images : Images} (x : VarId) {w : Value}
      (proceeds : substitutions.Proceeds g W (h, images)) (contains : h.Contains w) :
      substitutions.Proceeds g W (h, images.addVar x w) := by
    refine ⟨⟨proceeds.keeps.part, proceeds.keeps.nodup, proceeds.keeps.copied,
      fun y u found => ?_⟩, proceeds.structs, proceeds.vars, proceeds.longer⟩
    rw [Images.addVar, Copying.lookup_cons_eq] at found
    split at found
    · cases found
      exact contains
    · exact proceeds.keeps.sound y u found
  cases v with
  | atom a => exact ⟨.atom a, W, rfl, trivial, .refl keeps⟩
  | struct s =>
    obtain ⟨t, W', copied, contains, proceeds⟩ := ends s W inside keeps enough
    exact ⟨.struct t, W', by simp [substituteValue, copied], contains, proceeds⟩
  | var x =>
    obtain ⟨h, images⟩ := W
    cases known : images.vars.lookup x with
    | some w =>
      exact ⟨w, (h, images), by simp [substituteValue, known], keeps.sound x w known, .refl keeps⟩
    | none =>
      obtain ⟨w, meant, insideW⟩ := exists_meaning wf within inside
      have meant' : scope.meaning? h (.var x) = some w := follow_of_frames keeps.part.frames meant
      cases w with
      | atom a =>
        exact ⟨.atom a, (h, images.addVar x (.atom a)), by simp [substituteValue, known, meant'],
          trivial, remembered x (.refl keeps) trivial⟩
      | var y =>
        have contains := keeps.part.contains insideW
        exact ⟨.var y, (h, images.addVar x (.var y)), by simp [substituteValue, known, meant'],
          contains, remembered x (.refl keeps) contains⟩
      | struct s =>
        obtain ⟨t, ⟨k, images'⟩, copied, contains, proceeds⟩ := ends s (h, images) insideW keeps
          enough
        exact ⟨.struct t, (k, images'.addVar x (.struct t)),
          by simp [substituteValue, known, meant', copied], contains,
          remembered x proceeds contains⟩

theorem substituteStruct_ends (wf : g.WellFormed) (within : scope.Within g) (fuel : Nat) :
    substitutions.Ends g fuel Value.struct Value.struct (scope.substituteStruct fuel) := by
  induction fuel with
  | zero =>
    intro s W _ keeps enough
    have := keeps.length_le
    omega
  | succ fuel ih => exact Ledger.imageStruct_ends wf (substituteValue_ends wf within ih)

theorem exists_substituteValue (wf : g.WellFormed) (within : scope.Within g) {v : Value}
    (inside : g.Contains v) : ∃ w h images,
      scope.substituteValue (scope.substituteStruct (2 * (g.structCount + 1))) v (g, {}) =
        some (w, h, images) ∧ h.Contains w ∧ substitutions.Keeps g (h, images) := by
  have start : substitutions.Keeps g (g, {}) :=
    ⟨.refl wf, List.nodup_nil, (fun mem => by cases mem), fun x w found => by cases found⟩
  obtain ⟨w, ⟨h, images⟩, copied, contains, proceeds⟩ :=
    substituteValue_ends wf within (substituteStruct_ends wf within _) v _ inside start
      (show g.structCount + 1 ≤ 2 * (g.structCount + 1) + 0 by omega)
  exact ⟨w, h, images, copied, contains, proceeds.keeps⟩

/-- A substitution ends and only adds nodes. -/
theorem exists_substitute (wf : g.WellFormed) (within : scope.Within g) {v : Value}
    (inside : g.Contains v) :
    ∃ w h, scope.substitute? g v = some (w, h) ∧ g.PartOf h ∧ h.Contains w := by
  obtain ⟨w, h, images, copied, contains, keeps⟩ := exists_substituteValue wf within inside
  exact ⟨w, h, by simp [substitute?, copied], keeps.part, contains⟩

end Scope

end FeatureLogic
