import FeatureLogic.Graph.Absorption
import FeatureLogic.Graph.WellFormed
import Mathlib.Data.Finset.Card
import Mathlib.Logic.Relation

/-!
# Forwarding

While two values are joined, absorbed structures lead to the structures that absorbed them, and
aliases to other variables. Both kinds of pointers are never taken back, so what they identify
stays identified. A value resolves to the node at the end of its pointers; the representatives
that a join asks for are exactly these nodes, however many pointers there are.
-/

namespace FeatureLogic

section Climb

variable {α : Type}

/-- Goes on as long as there is a next element, over fewer than `fuel` of them. -/
def climb (next : α → Option (Option α)) : Nat → α → Option α
  | 0, _ => none
  | fuel + 1, a =>
    match next a with
    | none => none
    | some none => some a
    | some (some b) => climb next fuel b

variable {next : α → Option (Option α)}

theorem climb_mono {n m : Nat} {a b : α} (le : n ≤ m) (h : climb next n a = some b) :
    climb next m a = some b := by
  induction n generalizing m a with
  | zero => cases h
  | succ n ih =>
    obtain ⟨m, rfl⟩ : ∃ k, m = k + 1 := ⟨m - 1, by omega⟩
    simp only [climb] at h ⊢
    split at h
    · cases h
    · exact h
    · exact ih (by omega) h

/-- A climb that ends enters no element twice. The elements that need less fuel than a given one
are all different from it. -/
theorem climb_trail {n : Nat} {a b : α} (h : climb next n a = some b) :
    ∃ trail : List α, trail.Nodup ∧ (∀ c ∈ trail, next c ≠ none) ∧
      (∀ c ∈ trail, climb next trail.length c = some b) ∧
      climb next trail.length a = some b ∧ climb next (trail.length - 1) a = none := by
  induction n generalizing a with
  | zero => cases h
  | succ n ih =>
    cases step : next a with
    | none => simp [climb, step] at h
    | some onward =>
      cases onward with
      | none =>
        simp only [climb, step, Option.some.injEq] at h
        subst h
        exact ⟨[a], by simp, by simp [step], by simp [climb, step], by simp [climb, step],
          by simp [climb]⟩
      | some c =>
        simp only [climb, step] at h
        obtain ⟨trail, nodup, steps, ends, reached, short⟩ := ih h
        have nonempty : trail.length ≠ 0 := by
          intro empty
          rw [empty] at reached
          cases reached
        have needs : climb next trail.length a = none := by
          obtain ⟨k, length⟩ := Nat.exists_eq_succ_of_ne_zero nonempty
          rw [length] at short ⊢
          simpa only [climb, step, Nat.succ_sub_one] using short
        have fresh : a ∉ trail := fun mem => by
          rw [ends a mem] at needs
          cases needs
        have reaches : climb next (trail.length + 1) a = some b := by
          simpa only [climb, step] using reached
        refine ⟨a :: trail, List.nodup_cons.2 ⟨fresh, nodup⟩, ?_, ?_, reaches, needs⟩
        · simp only [List.mem_cons, forall_eq_or_imp]
          exact ⟨by simp [step], steps⟩
        · simp only [List.mem_cons, forall_eq_or_imp]
          exact ⟨reaches, fun d mem => climb_mono (Nat.le_succ _) (ends d mem)⟩

theorem climb_enough {all : Finset α} (mem : ∀ a, next a ≠ none → a ∈ all) {n : Nat} {a b : α}
    (h : climb next n a = some b) : climb next all.card a = some b := by
  classical
  obtain ⟨trail, nodup, steps, -, reached, -⟩ := climb_trail h
  have length : trail.length ≤ all.card := by
    rw [← List.toFinset_card_of_nodup nodup]
    exact Finset.card_le_card fun c hc => mem c (steps c (List.mem_toFinset.1 hc))
  exact climb_mono length reached

end Climb

def Binding.alias? : Binding → Option VarId
  | .link x => some x
  | _ => none

theorem Value.Informative.ne_unspecified {v : Value} (h : v.Informative) : v ≠ .unspecified := by
  rintro rfl
  exact h rfl

namespace Graph

/-- One pointer on from an absorbed structure or an alias. -/
def forward? (g : Graph) : Value → Option Value
  | .atom _ => none
  | .struct s => (g.struct? s).bind fun node => node.absorbedBy.map .struct
  | .var x => (g.var? x).bind fun node => node.binding.alias?.map .var

def content? (g : Graph) : Value → Option Value
  | .var x => (g.var? x).bind fun node => node.binding.value?
  | _ => none

def Forwards (g : Graph) (v w : Value) : Prop := g.forward? v = some w

/-- Is `w` the node at the end of the pointers from `v`? -/
structure Resolves (g : Graph) (v w : Value) : Prop where
  path : Relation.ReflTransGen g.Forwards v w
  stops : g.forward? w = none
  contains : g.Contains w

/-- Do the pointers from two values meet? -/
def Same (g : Graph) (v w : Value) : Prop := Relation.Join (Relation.ReflTransGen g.Forwards) v w

@[simp] theorem forward?_atom (g : Graph) (a : Atom) : g.forward? (.atom a) = none := rfl

@[simp] theorem content?_atom (g : Graph) (a : Atom) : g.content? (.atom a) = none := rfl

@[simp] theorem content?_struct (g : Graph) (s : StructId) : g.content? (.struct s) = none := rfl

theorem forwards_rightUnique (g : Graph) : Relator.RightUnique g.Forwards :=
  fun _ _ _ hv hw => Option.some.inj (hv.symm.trans hw)

theorem same_equivalence (g : Graph) : Equivalence g.Same :=
  Relation.equivalence_join_reflTransGen fun _ _ c hb hc =>
    ⟨c, g.forwards_rightUnique hb hc ▸ .refl, .refl⟩

theorem Same.refl (g : Graph) (v : Value) : g.Same v v := g.same_equivalence.refl v

theorem Same.symm {g : Graph} {v w : Value} (h : g.Same v w) : g.Same w v :=
  g.same_equivalence.symm h

theorem Same.trans {g : Graph} {u v w : Value} (huv : g.Same u v) (hvw : g.Same v w) :
    g.Same u w :=
  g.same_equivalence.trans huv hvw

theorem same_of_path {g : Graph} {v w : Value} (h : Relation.ReflTransGen g.Forwards v w) :
    g.Same v w :=
  ⟨w, h, .refl⟩

theorem eq_of_path_of_stops {g : Graph} {v w : Value}
    (path : Relation.ReflTransGen g.Forwards v w) (stops : g.forward? v = none) : w = v := by
  rcases path.cases_head with rfl | ⟨u, step, -⟩
  · rfl
  · rw [Forwards, stops] at step
    cases step

theorem Same.path_of_stops {g : Graph} {v w : Value} (h : g.Same v w)
    (stops : g.forward? w = none) : Relation.ReflTransGen g.Forwards v w := by
  obtain ⟨z, hv, hw⟩ := h
  rwa [eq_of_path_of_stops hw stops] at hv

theorem Same.mono {g h : Graph} (forward : ∀ {v w}, g.forward? v = some w → h.forward? v = some w)
    {v w : Value} : g.Same v w → h.Same v w :=
  have path := Relation.ReflTransGen.mono (r := g.Forwards) (p := h.Forwards)
    fun _ _ step => forward step
  fun ⟨z, hv, hw⟩ => ⟨z, path _ _ hv, path _ _ hw⟩

theorem Resolves.unique {g : Graph} {v w w' : Value} (h : g.Resolves v w) (h' : g.Resolves v w') :
    w = w' := by
  have same : g.Same w w' := (same_of_path h.path).symm.trans (same_of_path h'.path)
  exact (eq_of_path_of_stops (same.path_of_stops h'.stops) h.stops).symm

theorem Same.resolves {g : Graph} {v v' w : Value} (h : g.Same v v') (resolves : g.Resolves v' w) :
    g.Resolves v w :=
  ⟨(h.trans (same_of_path resolves.path)).path_of_stops resolves.stops, resolves.stops,
    resolves.contains⟩

theorem Resolves.same {g : Graph} {v w : Value} (h : g.Resolves v w) : g.Same v w :=
  same_of_path h.path

theorem forward?_struct_eq_some {g : Graph} {s : StructId} {w : Value} :
    g.forward? (.struct s) = some w ↔
      ∃ node t, g.struct? s = some node ∧ node.absorbedBy = some t ∧ w = .struct t := by
  simp only [forward?, Option.bind_eq_some_iff, Option.map_eq_some_iff]
  grind

theorem forward?_var_eq_some {g : Graph} {x : VarId} {w : Value} :
    g.forward? (.var x) = some w ↔
      ∃ node y, g.var? x = some node ∧ node.binding = .link y ∧ w = .var y := by
  simp only [forward?, Option.bind_eq_some_iff, Option.map_eq_some_iff]
  constructor
  · rintro ⟨node, found, y, holds, rfl⟩
    cases binding : node.binding with
    | link z =>
      simp only [binding, Binding.alias?, Option.some.injEq] at holds
      exact ⟨node, y, found, holds ▸ binding, rfl⟩
    | free => simp [binding, Binding.alias?] at holds
    | bound v => simp [binding, Binding.alias?] at holds
  · rintro ⟨node, y, found, holds, rfl⟩
    exact ⟨node, found, y, by rw [holds]; rfl, rfl⟩

theorem content?_var_eq_some {g : Graph} {x : VarId} {v : Value} :
    g.content? (.var x) = some v ↔ ∃ node, g.var? x = some node ∧ node.binding = .bound v := by
  simp only [content?, Option.bind_eq_some_iff]
  refine exists_congr fun node => and_congr_right fun _ => ?_
  cases node.binding <;> simp [Binding.value?]

theorem content?_eq_value? {g : Graph} {x : VarId} {node : Variable}
    (found : g.var? x = some node) :
    g.content? (.var x) = node.binding.value? := by
  rw [content?, found, Option.bind_some]

theorem forward?_of_content? {g : Graph} {v w : Value} (h : g.content? v = some w) :
    g.forward? v = none := by
  cases v with
  | atom a => rfl
  | struct s => cases h
  | var x =>
    obtain ⟨node, found, holds⟩ := content?_var_eq_some.1 h
    simp [forward?, found, holds, Binding.alias?]

theorem Forwards.isStruct {g : Graph} {s : StructId} {w : Value} (h : g.Forwards (.struct s) w) :
    ∃ t, w = .struct t := by
  obtain ⟨_, t, _, _, rfl⟩ := forward?_struct_eq_some.1 h
  exact ⟨t, rfl⟩

theorem path_struct {g : Graph} {s : StructId} {w : Value}
    (h : Relation.ReflTransGen g.Forwards (.struct s) w) : ∃ t, w = .struct t := by
  induction h with
  | refl => exact ⟨s, rfl⟩
  | tail _ step ih =>
    obtain ⟨t, rfl⟩ := ih
    exact step.isStruct

theorem path_var {g : Graph} {x : VarId} {w : Value}
    (h : Relation.ReflTransGen g.Forwards (.var x) w) : ∃ y, w = .var y := by
  induction h with
  | refl => exact ⟨x, rfl⟩
  | tail _ step ih =>
    obtain ⟨y, rfl⟩ := ih
    obtain ⟨_, z, _, _, rfl⟩ := forward?_var_eq_some.1 step
    exact ⟨z, rfl⟩

theorem path_atom {g : Graph} {a : Atom} {w : Value}
    (h : Relation.ReflTransGen g.Forwards (.atom a) w) : w = .atom a :=
  eq_of_path_of_stops h rfl

theorem Resolves.eq_unspecified_iff {g : Graph} {v w : Value} (h : g.Resolves v w) :
    w = .unspecified ↔ v = .unspecified := by
  cases v with
  | atom a => rw [path_atom h.path]
  | struct s =>
    obtain ⟨t, rfl⟩ := path_struct h.path
    simp [Value.unspecified]
  | var x =>
    obtain ⟨y, rfl⟩ := path_var h.path
    simp [Value.unspecified]

theorem Resolves.informative_iff {g : Graph} {v w : Value} (h : g.Resolves v w) :
    w.Informative ↔ v.Informative := by
  cases v with
  | atom a => rw [path_atom h.path]
  | struct s =>
    obtain ⟨t, rfl⟩ := path_struct h.path
    rfl
  | var x =>
    obtain ⟨y, rfl⟩ := path_var h.path
    rfl

theorem chase_eq_climb (g : Graph) (fuel : Nat) (x : VarId) :
    g.chase fuel x = climb (fun x => (g.var? x).map fun node => node.binding.alias?) fuel x := by
  induction fuel generalizing x with
  | zero => rfl
  | succ fuel ih =>
    simp only [chase, climb]
    cases g.var? x with
    | none => rfl
    | some node =>
      obtain ⟨name, binding⟩ := node
      cases binding with
      | link y => simpa [Binding.alias?] using ih y
      | free => rfl
      | bound v => rfl

theorem ascend_eq_climb (g : Graph) (fuel : Nat) (s : StructId) :
    g.ascend fuel s = climb (fun s => (g.struct? s).map fun node => node.absorbedBy) fuel s := by
  induction fuel generalizing s with
  | zero => rfl
  | succ fuel ih =>
    simp only [ascend, climb]
    cases g.struct? s with
    | none => rfl
    | some node =>
      obtain ⟨features, absorbedBy⟩ := node
      cases absorbedBy with
      | none => rfl
      | some t => simpa using ih t

theorem root?_of_chase {g : Graph} {fuel : Nat} {x root : VarId} (h : g.chase fuel x = some root) :
    g.root? x = some root := by
  rw [chase_eq_climb] at h
  rw [root?, chase_eq_climb]
  have all (y : VarId) (found : (g.var? y).map (fun node => node.binding.alias?) ≠ none) :
      y ∈ (Finset.range g.varCount).image VarId.mk := by
    refine Finset.mem_image.2 ⟨y.index, Finset.mem_range.2 ?_, rfl⟩
    obtain ⟨_, known⟩ := Option.ne_none_iff_exists'.1 found
    obtain ⟨node, known, -⟩ := Option.map_eq_some_iff.1 known
    exact contains_of_var? known
  refine climb_mono ?_ (climb_enough all h)
  exact (Finset.card_image_le.trans (Finset.card_range _).le).trans (Nat.le_succ _)

theorem survivor?_of_ascend {g : Graph} {fuel : Nat} {s u : StructId}
    (h : g.ascend fuel s = some u) : g.survivor? s = some u := by
  rw [ascend_eq_climb] at h
  rw [survivor?, ascend_eq_climb]
  have all (t : StructId) (found : (g.struct? t).map (fun node => node.absorbedBy) ≠ none) :
      t ∈ (Finset.range g.structCount).image StructId.mk := by
    refine Finset.mem_image.2 ⟨t.index, Finset.mem_range.2 ?_, rfl⟩
    obtain ⟨_, known⟩ := Option.ne_none_iff_exists'.1 found
    obtain ⟨node, known, -⟩ := Option.map_eq_some_iff.1 known
    exact contains_of_struct? known
  refine climb_mono ?_ (climb_enough all h)
  exact (Finset.card_image_le.trans (Finset.card_range _).le).trans (Nat.le_succ _)

theorem resolves_of_chase {g : Graph} {fuel : Nat} {x root : VarId}
    (h : g.chase fuel x = some root) : g.Resolves (.var x) (.var root) := by
  induction fuel generalizing x with
  | zero => cases h
  | succ fuel ih =>
    cases found : g.var? x with
    | none => simp [chase, found] at h
    | some node =>
      have contains := contains_of_var? found
      obtain ⟨name, binding⟩ := node
      cases binding with
      | link y =>
        simp only [chase, found] at h
        obtain ⟨path, stops, inside⟩ := ih h
        exact ⟨.head (forward?_var_eq_some.2 ⟨_, y, found, rfl, rfl⟩) path, stops, inside⟩
      | free =>
        simp only [chase, found, Option.some.injEq] at h
        exact h ▸ ⟨.refl, by simp [forward?, found, Binding.alias?], contains⟩
      | bound v =>
        simp only [chase, found, Option.some.injEq] at h
        exact h ▸ ⟨.refl, by simp [forward?, found, Binding.alias?], contains⟩

theorem resolves_of_ascend {g : Graph} {fuel : Nat} {s u : StructId}
    (h : g.ascend fuel s = some u) : g.Resolves (.struct s) (.struct u) := by
  induction fuel generalizing s with
  | zero => cases h
  | succ fuel ih =>
    cases found : g.struct? s with
    | none => simp [ascend, found] at h
    | some node =>
      have contains := contains_of_struct? found
      cases absorbed : node.absorbedBy with
      | some t =>
        simp only [ascend, found, absorbed] at h
        obtain ⟨path, stops, inside⟩ := ih h
        exact ⟨.head (forward?_struct_eq_some.2 ⟨node, t, found, absorbed, rfl⟩) path, stops,
          inside⟩
      | none =>
        simp only [ascend, found, absorbed, Option.some.injEq] at h
        exact h ▸ ⟨.refl, by simp [forward?, found, absorbed], contains⟩

theorem exists_chase {g : Graph} {v : Value} {root : VarId} (stops : g.forward? (.var root) = none)
    (contains : g.Contains (.var root)) (path : Relation.ReflTransGen g.Forwards v (.var root)) :
    ∀ x, v = .var x → ∃ fuel, g.chase fuel x = some root := by
  induction path using Relation.ReflTransGen.head_induction_on with
  | refl =>
    rintro x ⟨⟩
    obtain ⟨node, found⟩ := exists_var_of_contains contains
    refine ⟨1, chase_of_ends found fun y holds => ?_⟩
    rw [forward?_var_eq_some.2 ⟨node, y, found, holds, rfl⟩] at stops
    cases stops
  | head step _ ih =>
    rintro x rfl
    obtain ⟨node, y, found, holds, rfl⟩ := forward?_var_eq_some.1 step
    obtain ⟨fuel, chased⟩ := ih y rfl
    refine ⟨fuel + 1, ?_⟩
    obtain ⟨name, binding⟩ := node
    cases holds
    simpa only [chase, found] using chased

theorem exists_ascend {g : Graph} {v : Value} {u : StructId}
    (stops : g.forward? (.struct u) = none) (contains : g.Contains (.struct u))
    (path : Relation.ReflTransGen g.Forwards v (.struct u)) :
    ∀ s, v = .struct s → ∃ fuel, g.ascend fuel s = some u := by
  induction path using Relation.ReflTransGen.head_induction_on with
  | refl =>
    rintro s ⟨⟩
    obtain ⟨node, found⟩ := exists_struct_of_contains contains
    refine ⟨1, ?_⟩
    cases absorbed : node.absorbedBy with
    | none => simp only [ascend, found, absorbed]
    | some t =>
      rw [forward?_struct_eq_some.2 ⟨node, t, found, absorbed, rfl⟩] at stops
      cases stops
  | head step _ ih =>
    rintro s rfl
    obtain ⟨node, t, found, absorbed, rfl⟩ := forward?_struct_eq_some.1 step
    obtain ⟨fuel, ascended⟩ := ih t rfl
    exact ⟨fuel + 1, by simpa only [ascend, found, absorbed] using ascended⟩

theorem root?_eq_some_iff {g : Graph} {x root : VarId} :
    g.root? x = some root ↔ g.Resolves (.var x) (.var root) := by
  refine ⟨resolves_of_chase, fun h => ?_⟩
  obtain ⟨fuel, chased⟩ := exists_chase h.stops h.contains h.path x rfl
  exact root?_of_chase chased

theorem survivor?_eq_some_iff {g : Graph} {s u : StructId} :
    g.survivor? s = some u ↔ g.Resolves (.struct s) (.struct u) := by
  refine ⟨resolves_of_ascend, fun h => ?_⟩
  obtain ⟨fuel, ascended⟩ := exists_ascend h.stops h.contains h.path s rfl
  exact survivor?_of_ascend ascended

theorem representative?_eq_some_iff {g : Graph} {v w : Value} :
    g.representative? v = some w ↔ g.Resolves v w := by
  cases v with
  | atom a =>
    simp only [representative?, Option.some.injEq]
    exact ⟨fun h => h ▸ ⟨.refl, rfl, trivial⟩, fun h => (path_atom h.path).symm⟩
  | struct s =>
    simp only [representative?, Option.map_eq_some_iff, survivor?_eq_some_iff]
    refine ⟨by rintro ⟨u, resolves, rfl⟩; exact resolves, fun resolves => ?_⟩
    obtain ⟨u, rfl⟩ := path_struct resolves.path
    exact ⟨u, resolves, rfl⟩
  | var x =>
    simp only [representative?, Option.map_eq_some_iff, root?_eq_some_iff]
    refine ⟨by rintro ⟨u, resolves, rfl⟩; exact resolves, fun resolves => ?_⟩
    obtain ⟨root, rfl⟩ := path_var resolves.path
    exact ⟨root, resolves, rfl⟩

/-- A variable stands for what the end of its chain of aliases holds, if that holds anything. -/
theorem deref?_of_resolves {g : Graph} {x root : VarId} (h : g.Resolves (.var x) (.var root)) :
    g.deref? (.var x) = some ((g.content? (.var root)).getD (.var root)) := by
  have chased := root?_eq_some_iff.2 h
  obtain ⟨node, found⟩ := exists_var_of_contains h.contains
  simp [deref?, content?, chased, found]

end Graph

end FeatureLogic
