import FeatureLogic.Proofs.Join.Execution

/-!
# Joins under a higher limit

The limit does nothing but end a join. So a join under the lower of two limits either meets its
limit or goes through the same states as the join under the higher one. There is one rule for each
way to put programs together, and from these rules the lemmas about the parts of a join follow.
-/

namespace FeatureLogic

def MeetsLimit {α : Type} (out : Except Failure α) : Prop :=
  ∃ limit path, out = .error (.tooDeep limit path)

theorem meetsLimit_tooDeep {α : Type} (limit : Nat) (path : List String) :
    MeetsLimit (.error (.tooDeep limit path) : Except Failure α) :=
  ⟨limit, path, rfl⟩

@[simp] theorem not_meetsLimit_ok {α : Type} (a : α) :
    ¬ MeetsLimit (.ok a : Except Failure α) := by
  rintro ⟨_, _, ⟨⟩⟩

namespace Join

variable {α β : Type} {program program' : Join α}

/-- Does a program meet its limit wherever it does not end as the other one does? -/
def StopsShort (program program' : Join α) : Prop :=
  ∀ st, (∃ limit path st', program st = .error (.failure (.tooDeep limit path)) st') ∨
    program st = program' st

theorem StopsShort.refl (program : Join α) : StopsShort program program :=
  fun _ => .inr rfl

theorem stopsShort_tooDeep (limit : Nat) (path : List String) :
    StopsShort (throw (.failure (.tooDeep limit path))) program' :=
  fun st => .inl ⟨limit, path, st, rfl⟩

theorem StopsShort.bind {k k' : α → Join β} (first : StopsShort program program')
    (rest : ∀ a, StopsShort (k a) (k' a)) : StopsShort (program >>= k) (program' >>= k') := by
  intro st
  cases first st with
  | inl met =>
    obtain ⟨limit, path, st', ends⟩ := met
    exact .inl ⟨limit, path, st', bind_of_error ends k⟩
  | inr same =>
    cases ends : program' st with
    | ok a st' =>
      rw [bind_of_ok (same.trans ends), bind_of_ok ends]
      exact rest a st'
    | error e st' =>
      rw [bind_of_error (same.trans ends), bind_of_error ends]
      exact .inr rfl

theorem StopsShort.after (first : Join α) {k k' : α → Join β}
    (rest : ∀ a, StopsShort (k a) (k' a)) : StopsShort (first >>= k) (first >>= k') :=
  (StopsShort.refl first).bind rest

theorem stopsShort_reuse (v w : Value) {join join' : Join Value} (short : StopsShort join join') :
    StopsShort (reuse v w join) (reuse v w join') := by
  intro st
  cases known : st.joined.lookup (v, w) with
  | none =>
    rw [reuse_of_unknown known, reuse_of_unknown known]
    exact short st
  | some u =>
    rw [reuse_of_known known, reuse_of_known known]
    exact .inr rfl

section Parts

variable {join join' : Joiner} (short : ∀ path v w, StopsShort (join path v w) (join' path v w))
  (path : List String)

include short

theorem stopsShort_bindVar (x : VarId) (v : Value) :
    StopsShort (bindVar join path x v) (bindVar join' path x v) := by
  unfold bindVar
  refine .after _ fun root => .after _ fun node => ?_
  cases node.binding with
  | free => exact .refl _
  | link y => exact .refl _
  | bound old => exact (short path old v).bind fun _ => .refl _

theorem stopsShort_aliasVar (x y : VarId) :
    StopsShort (aliasVar join path x y) (aliasVar join' path x y) := by
  unfold aliasVar
  refine .after _ fun node => .after _ fun _ => ?_
  cases node.binding with
  | free => exact .refl _
  | link z => exact .refl _
  | bound v => exact (stopsShort_bindVar short path y v).bind fun _ => .refl _

theorem stopsShort_takeOver (s : StructId) (entries : List (String × Value)) :
    StopsShort (takeOver join path s entries) (takeOver join' path s entries) := by
  induction entries with
  | nil => exact .refl _
  | cons e rest ih =>
    unfold takeOver
    refine .after _ fun target => .after _ fun features => ?_
    exact (short _ _ _).bind fun _ => .after _ fun _ => .after _ fun _ => ih

theorem stopsShort_absorbStruct (s t : StructId) :
    StopsShort (absorbStruct join path s t) (absorbStruct join' path s t) := by
  unfold absorbStruct
  refine .after _ fun features => .after _ fun _ => ?_
  exact (stopsShort_takeOver short path s _).bind fun _ => .refl _

theorem stopsShort_joinNodes (v w : Value) :
    StopsShort (joinNodes join path v w) (joinNodes join' path v w) := by
  cases v with
  | atom a =>
    cases w with
    | var y => exact (stopsShort_bindVar short path y _).bind fun _ => .refl _
    | atom b => exact .refl _
    | struct t => exact .refl _
  | struct s =>
    cases w with
    | var y => exact (stopsShort_bindVar short path y _).bind fun _ => .refl _
    | atom b => exact .refl _
    | struct t => exact stopsShort_absorbStruct short path s t
  | var x =>
    cases w with
    | var y => exact stopsShort_aliasVar short path x y
    | atom b => exact (stopsShort_bindVar short path x _).bind fun _ => .refl _
    | struct t => exact (stopsShort_bindVar short path x _).bind fun _ => .refl _

theorem stopsShort_joinValues (v w : Value) :
    StopsShort (joinValues join path v w) (joinValues join' path v w) := by
  unfold joinValues
  split
  · exact .refl _
  split
  · exact .refl _
  refine .after _ fun v' => .after _ fun w' => ?_
  split
  · exact .refl _
  · exact stopsShort_joinNodes short path v' w'

end Parts

/-- With a smaller budget a join stops short of what it does with a larger one. The limits
themselves are only there to be reported. -/
theorem stopsShort_joinWithin (limit limit' : Nat) {budget budget' : Nat} (le : budget ≤ budget')
    (path : List String) (v w : Value) :
    StopsShort (joinWithin limit budget path v w) (joinWithin limit' budget' path v w) := by
  induction budget generalizing budget' path v w with
  | zero =>
    cases budget' with
    | zero => exact stopsShort_reuse v w (stopsShort_tooDeep limit path)
    | succ budget' => exact stopsShort_reuse v w (stopsShort_tooDeep limit path)
  | succ budget ih =>
    cases budget' with
    | zero => exact absurd le (Nat.not_succ_le_zero budget)
    | succ budget' =>
      refine stopsShort_reuse v w (.bind ?_ fun _ => .refl _)
      exact stopsShort_joinValues (ih (Nat.le_of_succ_le_succ le)) path v w

end Join

end FeatureLogic
