import FeatureLogic.Proofs.Graph.Nodes
import FeatureLogic.Proofs.Join.Region
import FeatureLogic.Unification.Operand

/-!
# Added nodes

The copies of operands are the nodes that the copying adds to the graph. A node is added after all
others, so that nothing that was there before changes.
-/

namespace FeatureLogic

namespace Graph

/-- The nodes that `h` has and `g` has not. -/
def added (g h : Graph) : Region := ⟨g, h.structCount, h.varCount⟩

variable {g h k : Graph}

theorem added_has_struct {t : StructId} :
    (g.added h).Has (.struct t) ↔ g.structCount ≤ t.index ∧ t.index < h.structCount := Iff.rfl

theorem added_has_var {y : VarId} :
    (g.added h).Has (.var y) ↔ g.varCount ≤ y.index ∧ y.index < h.varCount := Iff.rfl

theorem not_added_of_contains {v : Value} (contains : g.Contains v) (node : v.isNode) :
    ¬ (g.added h).Has v := by
  intro has
  cases v with
  | atom a => cases node
  | struct s => exact Nat.not_le.2 contains has.1
  | var x => exact Nat.not_le.2 contains has.1

theorem added_mono (structs : h.structCount ≤ k.structCount) (vars : h.varCount ≤ k.varCount)
    {v : Value} (has : (g.added h).Has v) : (g.added k).Has v := by
  cases v with
  | atom a => trivial
  | struct s => exact ⟨has.1, has.2.trans_le structs⟩
  | var x => exact ⟨has.1, has.2.trans_le vars⟩

theorem contains_of_added {v : Value} (has : (g.added h).Has v) : h.Contains v := by
  cases v with
  | atom a => trivial
  | struct s => exact has.2
  | var x => exact has.2

theorem not_added_self {v : Value} (node : v.isNode) : ¬ (g.added g).Has v :=
  fun has => not_added_of_contains (contains_of_added has) node has

theorem not_added_nextStruct : ¬ (g.added h).Has (.struct h.nextStruct) :=
  fun has => Nat.lt_irrefl _ has.2

theorem not_added_nextVar : ¬ (g.added h).Has (.var h.nextVar) := fun has => Nat.lt_irrefl _ has.2

theorem added_addStruct (structs : g.structCount ≤ h.structCount) {features : NameMap Value}
    {t : StructId} : (g.added (h.addStruct features)).Has (.struct t) ↔
      (g.added h).Has (.struct t) ∨ t = h.nextStruct := by
  obtain ⟨i⟩ := t
  simp only [added_has_struct, structCount_addStruct, nextStruct, StructId.mk.injEq]
  omega

theorem added_addVar (vars : g.varCount ≤ h.varCount) {node : Variable} {y : VarId} :
    (g.added (h.addVar node)).Has (.var y) ↔ (g.added h).Has (.var y) ∨ y = h.nextVar := by
  obtain ⟨i⟩ := y
  simp only [added_has_var, varCount_addVar, nextVar, VarId.mk.injEq]
  omega

theorem frames_addStruct (structs : g.structCount ≤ h.structCount) {features : NameMap Value}
    (frames : (g.added h).Frames h) :
    (g.added (h.addStruct features)).Frames (h.addStruct features) where
  struct {t} small := by
    rw [struct?_addStruct, if_neg]
    · exact frames.struct small
    · rintro rfl
      exact Nat.not_lt.2 structs small
  var small := frames.var small

theorem features?_enter (structs : g.structCount ≤ h.structCount) (frames : (g.added h).Frames h)
    {s : StructId} (inside : g.Contains (.struct s)) :
    (h.addStruct ∅).features? s = g.features? s := by
  have other : s ≠ h.nextStruct := by
    rintro rfl
    exact Nat.not_lt.2 structs inside
  rw [features?_addStruct, if_neg other, features?, frames.struct inside]
  rfl

theorem frames_addVar (vars : g.varCount ≤ h.varCount) {node : Variable}
    (frames : (g.added h).Frames h) : (g.added (h.addVar node)).Frames (h.addVar node) where
  struct small := frames.struct small
  var {y} small := by
    rw [var?_addVar, if_neg]
    · exact frames.var small
    · rintro rfl
      exact Nat.not_lt.2 vars small

end Graph

namespace Copying

variable {m : Copying}

theorem lookup_cons_eq {α β : Type} [DecidableEq α] (a b : α) (v : β) (l : List (α × β)) :
    ((b, v) :: l).lookup a = if a = b then some v else l.lookup a := by
  by_cases h : a = b
  · simp [h]
  · rw [List.lookup_cons, beq_false_of_ne h, if_neg h]

@[simp] theorem lookup_addStruct (s t u : StructId) :
    (m.addStruct s t).images.structs.lookup u =
      if u = t then some t else if u = s then some t else m.images.structs.lookup u := by
  simp only [addStruct, Images.addStruct, lookup_cons_eq]

@[simp] theorem lookup_addVar (x y : VarId) (v : Value) :
    (m.addVar x v).images.vars.lookup y = if y = x then some v else m.images.vars.lookup y := by
  simp only [addVar, Images.addVar, lookup_cons_eq]

@[simp] theorem vars_addStruct (s t : StructId) :
    (m.addStruct s t).images.vars = m.images.vars := rfl

@[simp] theorem structs_addVar (x : VarId) (v : Value) :
    (m.addVar x v).images.structs = m.images.structs := rfl

@[simp] theorem scope_addStruct (s t : StructId) : (m.addStruct s t).scope = m.scope := rfl

@[simp] theorem scope_addVar (x : VarId) (v : Value) : (m.addVar x v).scope = m.scope := rfl

def addFree (m : Copying) (root y x : VarId) : Copying :=
  ((m.addVar root (.var y)).addVar y (.var y)).addVar x (.var y)

@[simp] theorem structs_addFree (root y x : VarId) :
    (m.addFree root y x).images.structs = m.images.structs := rfl

@[simp] theorem scope_addFree (root y x : VarId) : (m.addFree root y x).scope = m.scope := rfl

theorem lookup_addFree (root y x z : VarId) :
    (m.addFree root y x).images.vars.lookup z =
      if z = x ∨ z = y ∨ z = root then some (.var y) else m.images.vars.lookup z := by
  simp only [addFree, lookup_addVar]
  by_cases isX : z = x <;> by_cases isY : z = y <;> by_cases isRoot : z = root <;>
    simp [isX, isY, isRoot]

/-- Outside of a scope a variable that stands for a free one is copied as a new variable. -/
theorem copyPlain_of_free {g h : Graph} {x root y : VarId}
    (fresh : m.images.vars.lookup x = none) (freshRoot : m.images.vars.lookup root = none)
    (reads : g.deref? (.var x) = some (.var root)) (copied : g.copyVar? root = some (y, h)) :
    copyPlain (.var x) (g, m) = some (.var y, h, m.addFree root y x) := by
  simp [copyPlain, copyValue, copyVarPlain, fresh, reads, freshRoot, copied, addFree]

def bindAll (m : Copying) (names : List String) (v : Value) : Copying :=
  { m with scope := names.foldl (fun scope name => scope.insert name v) m.scope }

@[simp] theorem images_bindAll (names : List String) (v : Value) :
    (m.bindAll names v).images = m.images := rfl

theorem get?_bindAll (names : List String) (v : Value) (key : String) :
    (m.bindAll names v).scope.get? key = if key ∈ names then some v else m.scope.get? key := by
  induction names generalizing m with
  | nil => rfl
  | cons name rest ih =>
    refine (ih (m := { m with scope := m.scope.insert name v })).trans ?_
    rw [NameMap.get?_insert]
    by_cases later : key ∈ rest
    · simp [later]
    · by_cases eq : name = key
      · simp [eq]
      · simp [later, eq, Ne.symm eq]

def addFirst (m : Copying) (x y : VarId) (name : String) : Copying :=
  ((m.addFree x y x).bindAll [name] (.var y)).addVar x (.var y)

theorem lookup_addFirst (x y z : VarId) (name : String) :
    (m.addFirst x y name).images.vars.lookup z =
      if z = x ∨ z = y then some (.var y) else m.images.vars.lookup z := by
  rw [addFirst, lookup_addVar, images_bindAll, lookup_addFree]
  by_cases eq : z = x <;> simp [eq]

theorem get?_addFirst (x y : VarId) (name key : String) :
    (m.addFirst x y name).scope.get? key =
      if name = key then some (.var y) else m.scope.get? key := by
  simp [addFirst, get?_bindAll, eq_comm]

theorem lookup_addStruct_eq_some {s t u v : StructId}
    (found : (m.addStruct s t).images.structs.lookup u = some v) :
    v = t ∧ (u = t ∨ u = s) ∨ m.images.structs.lookup u = some v := by
  rw [lookup_addStruct] at found
  split at found
  · next eq =>
    cases found
    exact .inl ⟨rfl, .inl eq⟩
  · split at found
    · next eq =>
      cases found
      exact .inl ⟨rfl, .inr eq⟩
    · exact .inr found

variable {g h : Graph}

theorem lookup_self_addStruct (structs : g.structCount ≤ h.structCount) {s : StructId}
    (contains : g.Contains (.struct s))
    (self : ∀ {t}, (g.added h).Has (.struct t) → m.images.structs.lookup t = some t) {t : StructId}
    (has : (g.added (h.addStruct ∅)).Has (.struct t)) :
    (m.addStruct s h.nextStruct).images.structs.lookup t = some t := by
  rw [lookup_addStruct]
  split
  · next eq => rw [eq]
  · next ne =>
    have before := ((Graph.added_addStruct structs).1 has).resolve_right ne
    rw [if_neg, self before]
    rintro rfl
    exact Graph.not_added_of_contains contains rfl before

/-- Added structures stay copies of structures from before when another one is added. -/
theorem exists_origin_addStruct (structs : g.structCount ≤ h.structCount) {P : StructId → Prop}
    (inside : ∀ {s}, P s → g.Contains (.struct s)) {s : StructId} (hs : P s)
    (fresh : m.images.structs.lookup s = none)
    (origin : ∀ {t}, (g.added h).Has (.struct t) →
      ∃ s, P s ∧ m.images.structs.lookup s = some t) {t : StructId}
    (has : (g.added (h.addStruct ∅)).Has (.struct t)) :
    ∃ u, P u ∧ (m.addStruct s h.nextStruct).images.structs.lookup u = some t := by
  rcases (Graph.added_addStruct structs).1 has with before | rfl
  · obtain ⟨u, hu, found⟩ := origin before
    refine ⟨u, hu, ?_⟩
    rw [lookup_addStruct, if_neg, if_neg, found]
    · rintro rfl
      cases fresh.symm.trans found
    · rintro rfl
      exact Nat.not_lt.2 structs (inside hu)
  · refine ⟨s, hs, ?_⟩
    rw [lookup_addStruct, if_pos rfl]
    split <;> rfl

/-- If every added structure is the copy of a structure from before, then at most as many were
added as there were before. -/
theorem structCount_le_of_origin (origin : ∀ {t}, (g.added h).Has (.struct t) →
      ∃ s, g.Contains (.struct s) ∧ m.images.structs.lookup s = some t) :
    h.structCount ≤ 2 * g.structCount := by
  choose! original inside copied using fun (t : StructId) => origin (t := t)
  let originals := (List.range (h.structCount - g.structCount)).map fun i =>
    original ⟨g.structCount + i⟩
  have has {i : Nat} (mem : i ∈ List.range (h.structCount - g.structCount)) :
      (g.added h).Has (.struct ⟨g.structCount + i⟩) := by
    rw [List.mem_range] at mem
    exact ⟨Nat.le_add_right _ _, show g.structCount + i < h.structCount by omega⟩
  have nodup : originals.Nodup := by
    refine (List.nodup_map_iff_inj_on List.nodup_range).2 fun i mem j mem' eq => ?_
    have found := copied _ (has mem)
    rw [eq, copied _ (has mem')] at found
    simpa using found.symm
  have found : ∀ s ∈ originals, ∃ features, g.features? s = some features := by
    intro s mem
    obtain ⟨i, listed, rfl⟩ := List.mem_map.1 mem
    exact Graph.exists_features_of_contains (inside _ (has listed))
  have bound := Graph.length_le_structCount nodup found
  rw [List.length_map, List.length_range] at bound
  omega

end Copying

end FeatureLogic
