import FeatureLogic.Graph.Reachability
import FeatureLogic.Proofs.Copy.Copies
import FeatureLogic.Proofs.Graph.Nodes
import FeatureLogic.Unification

/-!
# Copying structures

The copying of structures ends, because every level of the walk adds the copy of another structure.
In the end each copy has the copies of the features of its original. What else holds on the way is
up to an invariant that the copying of the variables keeps too.
-/

namespace FeatureLogic.Graph

open Copying

def Imaged (m : Copying) : Value → Prop
  | .atom _ => True
  | .struct s => ∃ t, m.images.structs.lookup s = some t
  | .var x => ∃ v, m.images.vars.lookup x = some v

structure Extends (W W' : Copying.Walk) : Prop where
  structCount : W.1.structCount ≤ W'.1.structCount
  structs : ∀ {s t}, W.2.images.structs.lookup s = some t →
    W'.2.images.structs.lookup s = some t
  vars : ∀ {x v}, W.2.images.vars.lookup x = some v → W'.2.images.vars.lookup x = some v

def Complete (g : Graph) (D : Value → Prop) (W : Copying.Walk) (t : StructId) : Prop :=
  ∃ s features, D (.struct s) ∧ W.2.images.structs.lookup s = some t ∧
    g.features? s = some features ∧ W.1.features? t = some (features.map W.2.images.apply) ∧
    ∀ name v, features.get? name = some v → Imaged W.2 v

/-- What an invariant allows for if structures in `D` can be copied under it. -/
structure Upkeep (g : Graph) (D : Value → Prop) (I : Graph → Copying → Prop) : Prop where
  structs : ∀ {h m}, I h m → g.structCount ≤ h.structCount
  few : ∀ {h m}, I h m → h.structCount ≤ 2 * g.structCount
  frames : ∀ {h m}, I h m → (g.added h).Frames h
  unused : ∀ {h m}, I h m → m.images.structs.lookup h.nextStruct = none
  has : ∀ {h m v}, I h m → Imaged m v → (g.added h).Has (m.images.apply v)
  enter : ∀ {h m s}, I h m → D (.struct s) → m.images.structs.lookup s = none →
    I (h.addStruct ∅) (m.addStruct s h.nextStruct)
  fill : ∀ {h m t v}, I h m → (g.added h).Has (.struct t) → (g.added h).Has v →
    ∀ name, I (h.setFeature t name v) m

structure Copied (g : Graph) (D : Value → Prop) (I : Graph → Copying → Prop)
    (W W' : Copying.Walk) : Prop where
  kept : I W'.1 W'.2
  more : Extends W W'
  unchanged : ∀ t : StructId, t.index < W.1.structCount → W'.1.features? t = W.1.features? t
  complete : ∀ t : StructId, W.1.structCount ≤ t.index → t.index < W'.1.structCount →
    Complete g D W' t

variable {g : Graph} {D : Value → Prop} {I : Graph → Copying → Prop} {W W₁ W' : Copying.Walk}

theorem Extends.refl (W : Copying.Walk) : Extends W W := ⟨Nat.le_refl _, id, id⟩

theorem Extends.trans (first : Extends W W₁) (second : Extends W₁ W') : Extends W W' :=
  ⟨first.structCount.trans second.structCount, fun found => second.structs (first.structs found),
    fun found => second.vars (first.vars found)⟩

theorem extends_addStruct {h : Graph} {m : Copying} {s : StructId}
    (fresh : m.images.structs.lookup s = none)
    (unused : m.images.structs.lookup h.nextStruct = none) :
    Extends (h, m) (h.addStruct ∅, m.addStruct s h.nextStruct) where
  structCount := by simp
  structs {u t} before := by
    rw [lookup_addStruct, if_neg, if_neg, before]
    · rintro rfl
      cases fresh.symm.trans before
    · rintro rfl
      cases unused.symm.trans before
  vars before := before

theorem extends_addVar {h : Graph} {m : Copying} {x : VarId} {v : Value}
    (fresh : m.images.vars.lookup x = none) : Extends (h, m) (h, m.addVar x v) where
  structCount := Nat.le_refl _
  structs before := before
  vars {z w} before := by
    rw [lookup_addVar, if_neg, before]
    rintro rfl
    cases fresh.symm.trans before

/-- A variable without a copy gets a new one without a change to what was copied before. -/
theorem extends_addFirst {h : Graph} {m : Copying} {x : VarId} {name : String}
    (fresh : m.images.vars.lookup x = none) (unused : m.images.vars.lookup h.nextVar = none)
    (node : Variable) : Extends (h, m) (h.addVar node, m.addFirst x h.nextVar name) where
  structCount := by simp
  structs before := before
  vars {z w} before := by
    rw [lookup_addFirst, if_neg, before]
    rintro (rfl | rfl)
    · cases fresh.symm.trans before
    · cases unused.symm.trans before

theorem Extends.imaged (more : Extends W W') {v : Value} (imaged : Imaged W.2 v) :
    Imaged W'.2 v := by
  cases v with
  | atom a => trivial
  | struct s => exact imaged.imp fun _ => more.structs
  | var x => exact imaged.imp fun _ => more.vars

theorem Extends.apply_eq (more : Extends W W') {v : Value} (imaged : Imaged W.2 v) :
    W'.2.images.apply v = W.2.images.apply v := by
  cases v with
  | atom a => rfl
  | struct s =>
    obtain ⟨t, found⟩ := imaged
    simp only [Images.apply, found, more.structs found]
  | var x =>
    obtain ⟨w, found⟩ := imaged
    simp only [Images.apply, found, more.vars found]

theorem Complete.mono {t : StructId} (complete : Complete g D W t) (more : Extends W W')
    (unchanged : W'.1.features? t = W.1.features? t) : Complete g D W' t := by
  obtain ⟨s, features, hs, copied, found, found', imaged⟩ := complete
  refine ⟨s, features, hs, more.structs copied, found, ?_,
    fun name v holds => more.imaged (imaged name v holds)⟩
  rw [unchanged, found', Option.some.injEq]
  refine NameMap.ext fun name => ?_
  rw [NameMap.get?_map, NameMap.get?_map]
  cases holds : features.get? name with
  | none => rfl
  | some v => rw [Option.map_some, Option.map_some, more.apply_eq (imaged name v holds)]

theorem Copied.still (kept : I W'.1 W'.2) (more : Extends W W')
    (structs : W'.1.structs = W.1.structs) : Copied g D I W W' where
  kept := kept
  more := more
  unchanged t _ := by rw [features?, features?, struct?, struct?, structs]
  complete t lower upper := by
    rw [structCount, structs] at upper
    exact absurd upper (Nat.not_lt.2 lower)

theorem Copied.refl (kept : I W.1 W.2) : Copied g D I W W := .still kept (.refl W) rfl

theorem Copied.trans (first : Copied g D I W W₁) (second : Copied g D I W₁ W') :
    Copied g D I W W' where
  kept := second.kept
  more := first.more.trans second.more
  unchanged t old :=
    (second.unchanged t (old.trans_le first.more.structCount)).trans (first.unchanged t old)
  complete t lower upper := by
    by_cases between : t.index < W₁.1.structCount
    · exact (first.complete t lower between).mono second.more (second.unchanged t between)
    · exact second.complete t (Nat.le_of_not_lt between) upper

def CopyEnds (g : Graph) (D : Value → Prop) (I : Graph → Copying → Prop) (fuel : Nat)
    (image : Value → Copying.Walk → Option (Value × Copying.Walk)) : Prop :=
  ∀ v W, D v → I W.1 W.2 → 2 * g.structCount + 1 ≤ fuel + W.1.structCount →
    ∃ W', image v W = some (W'.2.images.apply v, W') ∧ Copied g D I W W' ∧ Imaged W'.2 v

def CopyStructEnds (g : Graph) (D : Value → Prop) (I : Graph → Copying → Prop) (fuel : Nat)
    (image : StructId → Copying.Walk → Option (StructId × Copying.Walk)) : Prop :=
  ∀ s W, D (.struct s) → I W.1 W.2 → 2 * g.structCount + 1 ≤ fuel + W.1.structCount →
    ∃ t W', image s W = some (t, W') ∧ Copied g D I W W' ∧
      W'.2.images.structs.lookup s = some t

def CopyVarEnds (g : Graph) (D : Value → Prop) (I : Graph → Copying → Prop) (fuel : Nat)
    (copyVar : VarId → Copying.Walk → Option (Value × Copying.Walk)) : Prop :=
  ∀ x W, D (.var x) → I W.1 W.2 → W.2.images.vars.lookup x = none →
    2 * g.structCount + 1 ≤ fuel + W.1.structCount →
    ∃ v W', (copyVar x W).map (fun (v, g, m) => (v, g, m.addVar x v)) = some (v, W') ∧
      Copied g D I W W' ∧ W'.2.images.vars.lookup x = some v

/-- What has been done when the features of `target` are filled in from `entries`. They were
`filled` before and are `filled'` now. -/
structure Filled (g : Graph) (D : Value → Prop) (I : Graph → Copying → Prop) (target : StructId)
    (entries : List (String × Value)) (W : Copying.Walk) (filled : NameMap Value)
    (W' : Copying.Walk) (filled' : NameMap Value) : Prop where
  kept : I W'.1 W'.2
  more : Extends W W'
  unchanged : ∀ t : StructId, t.index < W.1.structCount → t ≠ target →
    W'.1.features? t = W.1.features? t
  complete : ∀ t : StructId, W.1.structCount ≤ t.index → t.index < W'.1.structCount →
    Complete g D W' t
  own : W'.1.features? target = some filled'
  imaged : ∀ name v, NameMap.find? name entries = some v → Imaged W'.2 v
  get : ∀ name, filled'.get? name =
    ((NameMap.find? name entries).map W'.2.images.apply).or (filled.get? name)

variable {target : StructId} {entries rest : List (String × Value)} {filled filled' : NameMap Value}

theorem Filled.nil (kept : I W.1 W.2) (own : W.1.features? target = some filled) :
    Filled g D I target [] W filled W filled where
  kept := kept
  more := .refl W
  unchanged _ _ _ := rfl
  complete _ lower upper := absurd upper (Nat.not_lt.2 lower)
  own := own
  imaged name v found := by cases found
  get name := by simp [NameMap.find?]

theorem Filled.cons {name : String} {v : Value} (copied : Copied g D I W W₁)
    (has : (g.added W.1).Has (.struct target)) (imaged : Imaged W₁.2 v)
    (fresh : name ∉ rest.map Prod.fst)
    (filling : Filled g D I target rest
      (W₁.1.setFeature target name (W₁.2.images.apply v), W₁.2)
      (filled.insert name (W₁.2.images.apply v)) W' filled') :
    Filled g D I target ((name, v) :: rest) W filled W' filled' := by
  have more : Extends W₁ W' :=
    ⟨(structCount_setFeature ..).ge.trans filling.more.structCount, filling.more.structs,
      filling.more.vars⟩
  have kept {t : StructId} (old : t.index < W₁.1.structCount) (ne : t ≠ target) :
      W'.1.features? t = W₁.1.features? t := by
    rw [filling.unchanged t (old.trans_le (structCount_setFeature ..).ge) ne, features?_setFeature,
      if_neg ne.symm]
  refine ⟨filling.kept, copied.more.trans more, ?_, ?_, filling.own, ?_, ?_⟩
  · intro t old ne
    rw [kept (old.trans_le copied.more.structCount) ne, copied.unchanged t old]
  · intro t lower upper
    by_cases between : t.index < W₁.1.structCount
    · have ne : t ≠ target := by
        rintro rfl
        exact Nat.not_lt.2 lower has.2
      exact (copied.complete t lower between).mono more (kept between ne)
    · exact filling.complete t
        ((structCount_setFeature ..).le.trans (Nat.le_of_not_lt between)) upper
  · intro key w holds
    rw [NameMap.find?] at holds
    split at holds
    · cases holds
      exact more.imaged imaged
    · exact filling.imaged key w holds
  · intro key
    rw [filling.get, NameMap.get?_insert, NameMap.find?]
    by_cases eq : name = key
    · subst eq
      simp [NameMap.find?_eq_none fresh, more.apply_eq imaged]
    · simp [eq]

theorem fill_copies (upkeep : Upkeep g D I) {fuel : Nat}
    {image : Value → Copying.Walk → Option (Value × Copying.Walk)}
    (ends : CopyEnds g D I fuel image) (inside : ∀ e ∈ entries, D e.2)
    (nodup : (entries.map Prod.fst).Nodup) (kept : I W.1 W.2)
    (has : (g.added W.1).Has (.struct target))
    (enough : 2 * g.structCount + 1 ≤ fuel + W.1.structCount)
    (found : W.1.features? target = some filled) :
    ∃ W' filled', fill image target entries W = some W' ∧
      Filled g D I target entries W filled W' filled' := by
  induction entries generalizing W filled with
  | nil => exact ⟨W, filled, rfl, .nil kept found⟩
  | cons e rest ih =>
    obtain ⟨name, v⟩ := e
    obtain ⟨fresh, nodupRest⟩ := List.nodup_cons.1 nodup
    obtain ⟨W₁, walked, copied, imaged⟩ := ends v W (inside _ List.mem_cons_self) kept enough
    have grown := copied.more.structCount
    have has₁ : (g.added W₁.1).Has (.struct target) := ⟨has.1, has.2.trans_le grown⟩
    let W₂ : Copying.Walk := (W₁.1.setFeature target name (W₁.2.images.apply v), W₁.2)
    have same : W₂.1.structCount = W₁.1.structCount := structCount_setFeature ..
    have has₂ : (g.added W₂.1).Has (.struct target) := ⟨has₁.1, has₁.2.trans_le same.ge⟩
    have found₂ : W₂.1.features? target =
        some (filled.insert name (W₁.2.images.apply v)) :=
      features?_setFeature_self ((copied.unchanged target has.2).trans found) ..
    obtain ⟨W', filled', walkedRest, filling⟩ := ih (W := W₂)
      (fun e mem => inside e (List.mem_cons_of_mem _ mem)) nodupRest
      (upkeep.fill copied.kept has₁ (upkeep.has copied.kept imaged) name) has₂ (by omega) found₂
    exact ⟨W', filled', fill_cons_eq_some_iff.2 ⟨_, _, _, walked, walkedRest⟩,
      .cons copied has imaged fresh filling⟩

/-- A structure without a copy gets one. -/
theorem imageStruct_copies (domain : g.Domain D) (upkeep : Upkeep g D I) {fuel : Nat}
    {image : Value → Copying.Walk → Option (Value × Copying.Walk)}
    (ends : CopyEnds g D I fuel image) {s : StructId} (hs : D (.struct s))
    (kept : I W.1 W.2) (fresh : W.2.images.structs.lookup s = none)
    (enough : 2 * g.structCount + 1 ≤ fuel + 1 + W.1.structCount) :
    ∃ W', imageStruct (fun s t m => m.addStruct s t) image s W = some (W.1.nextStruct, W') ∧
      Copied g D I W W' ∧ W'.2.images.structs.lookup s = some W.1.nextStruct := by
  obtain ⟨h, m⟩ := W
  obtain ⟨features, found⟩ := exists_features_of_contains (domain.contains hs)
  have old : s.index < g.structCount := domain.contains hs
  have ne : s ≠ h.nextStruct := by
    rintro rfl
    exact Nat.not_lt.2 (upkeep.structs kept) old
  have read : (h.addStruct ∅).features? s = some features :=
    (features?_enter (upkeep.structs kept) (upkeep.frames kept) old).trans found
  have entered := upkeep.enter kept hs fresh
  have has : (g.added (h.addStruct ∅)).Has (.struct h.nextStruct) :=
    ⟨upkeep.structs kept, by simp [added, nextStruct]⟩
  have inside : ∀ e ∈ features.entries, D e.2 := fun e mem =>
    domain.feature hs found (features.get?_eq_some_iff.2 mem)
  have empty : (h.addStruct ∅).features? h.nextStruct = some ∅ := by
    rw [features?_addStruct, if_pos rfl]
  have enough' : 2 * g.structCount + 1 ≤ fuel + (h.addStruct ∅).structCount := by
    rw [structCount_addStruct]
    dsimp only at enough
    omega
  obtain ⟨W', filled, walked, filling⟩ :=
    fill_copies upkeep (W := (h.addStruct ∅, m.addStruct s h.nextStruct)) ends inside
      features.nodup_keys entered has enough' empty
  have copied : W'.2.images.structs.lookup s = some h.nextStruct := by
    apply filling.more.structs
    rw [lookup_addStruct, if_neg ne, if_pos rfl]
  have own : filled = features.map W'.2.images.apply := by
    refine NameMap.ext fun name => ?_
    rw [filling.get, NameMap.get?_empty, Option.or_none, NameMap.get?_map]
    rfl
  refine ⟨W', by simp [imageStruct, read, walked], ⟨filling.kept,
    (extends_addStruct fresh (upkeep.unused kept)).trans filling.more, ?_, ?_⟩, copied⟩
  · intro t before
    have other : t ≠ h.nextStruct := by
      rintro rfl
      exact Nat.lt_irrefl _ before
    rw [filling.unchanged t (before.trans_le (by simp)) other, features?_addStruct, if_neg other]
  · intro t lower upper
    by_cases eq : t = h.nextStruct
    · subst eq
      exact ⟨s, features, hs, copied, found, own ▸ filling.own, filling.imaged⟩
    · have above : h.structCount + 1 ≤ t.index := by
        have : t.index ≠ h.structCount := fun same =>
          eq (by cases t; exact congrArg StructId.mk same)
        dsimp only at lower
        omega
      exact filling.complete t (by rw [structCount_addStruct]; exact above) upper

theorem copyNode_copies (domain : g.Domain D) (upkeep : Upkeep g D I) {fuel : Nat}
    {image : Value → Copying.Walk → Option (Value × Copying.Walk)}
    (ends : CopyEnds g D I fuel image) : CopyStructEnds g D I (fuel + 1) (copyNode image) := by
  intro s W hs kept enough
  obtain ⟨h, m⟩ := W
  cases known : m.images.structs.lookup s with
  | some t => exact ⟨t, (h, m), by simp [copyNode, known], .refl kept, known⟩
  | none =>
    obtain ⟨W', walked, copied, found⟩ :=
      imageStruct_copies (W := (h, m)) domain upkeep ends hs kept known enough
    exact ⟨h.nextStruct, W', by simp [copyNode, known, walked], copied, found⟩

theorem copyValue_copies {fuel : Nat}
    {copyStruct : StructId → Copying.Walk → Option (StructId × Copying.Walk)}
    {copyVar : VarId → Copying.Walk → Option (Value × Copying.Walk)}
    (structs : CopyStructEnds g D I fuel copyStruct) (vars : CopyVarEnds g D I fuel copyVar) :
    CopyEnds g D I fuel (copyValue copyStruct copyVar) := by
  intro v W hv kept enough
  cases v with
  | atom a => exact ⟨W, rfl, .refl kept, trivial⟩
  | struct s =>
    obtain ⟨t, W', walked, copied, found⟩ := structs s W hv kept enough
    exact ⟨W', by simp [copyValue, walked, Images.apply, found], copied, t, found⟩
  | var x =>
    cases known : W.2.images.vars.lookup x with
    | some v => exact ⟨W, by simp [copyValue, known, Images.apply], .refl kept, v, known⟩
    | none =>
      obtain ⟨v, W', walked, copied, found⟩ := vars x W hv kept known enough
      refine ⟨W', ?_, copied, v, found⟩
      simp only [copyValue, known, Images.apply, found, Option.getD_some]
      exact walked

end FeatureLogic.Graph
