import FeatureLogic.Proofs.Join.Execution
import Mathlib.Order.Interval.Finset.Nat

/-!
# How deeply joins are nested

A structure that takes over features has absorbed another one before, and that one never comes back
to life. So below the join of two structures only joins of fewer living structures are nested, and
between two such joins there is at most one more, of a variable with a value. A join therefore nests
at most twice as deep as there are structures alive at its start.
-/

namespace FeatureLogic

namespace Region

def live (r : Region) (g : Graph) : Finset Nat :=
  {i ∈ Finset.Ico r.before.structCount r.endStruct | g.forward? (.struct ⟨i⟩) = none}

variable {r : Region} {g h : Graph}

theorem mem_live {s : StructId} :
    s.index ∈ r.live g ↔ r.Has (.struct s) ∧ g.forward? (.struct s) = none := by
  simp [live, Has]

theorem live_subset (grows : g.GrowsTo h) : r.live h ⊆ r.live g := by
  intro i alive
  have ⟨has, stops⟩ := mem_live (s := ⟨i⟩).1 alive
  refine mem_live (s := ⟨i⟩).2 ⟨has, ?_⟩
  cases step : g.forward? (.struct ⟨i⟩) with
  | none => rfl
  | some w => cases stops.symm.trans (grows.forward step)

theorem card_live_le (r : Region) (g : Graph) :
    (r.live g).card ≤ r.endStruct - r.before.structCount :=
  (Finset.card_filter_le _ _).trans_eq (Nat.card_Ico _ _)

/-- An absorbed structure is alive no more, and the one that absorbed it still is. -/
theorem card_live_absorb (closed : r.Closed g) {s t : StructId} (hasS : r.Has (.struct s))
    (hasT : r.Has (.struct t)) (liveS : g.forward? (.struct s) = none)
    (liveT : g.forward? (.struct t) = none) (ne : s ≠ t) :
    0 < (r.live (g.absorb s t)).card ∧ (r.live (g.absorb s t)).card < (r.live g).card := by
  constructor
  · refine Finset.card_pos.2 ⟨s.index, mem_live.2 ⟨hasS, ?_⟩⟩
    rw [Graph.forward?_absorb, if_neg (by simpa using ne), liveS]
  · refine Finset.card_lt_card ((Finset.ssubset_iff_of_subset (live_subset (.absorb liveT))).2
      ⟨t.index, mem_live.2 ⟨hasT, liveT⟩, fun alive => ?_⟩)
    cases (closed.forward?_absorb hasT s).symm.trans (mem_live.1 alive).2

end Region

namespace Join

section Fits

variable {α β : Type} {st : JoinState}

def Fits (ends : EStateM.Result Halt JoinState α) : Prop :=
  ∀ limit path st', ends ≠ .error (.failure (.tooDeep limit path)) st'

theorem fits_ok (a : α) (st' : JoinState) : Fits (.ok a st') := by
  rintro _ _ _ ⟨⟩

theorem fits_bind {program : Join α} {k : α → Join β} (first : Fits (program st))
    (rest : ∀ a st', program st = .ok a st' → Fits (k a st')) : Fits ((program >>= k) st) := by
  cases ends : program st with
  | ok a st' =>
    rw [bind_of_ok ends]
    exact rest a st' ends
  | error e st' =>
    rw [bind_of_error ends]
    rintro limit path _ ⟨⟩
    exact first limit path st' ends

theorem fits_look {read : Graph → Option α} {k : α → Join β}
    (rest : ∀ a, read st.graph = some a → Fits (k a st)) : Fits ((look read >>= k) st) := by
  cases found : read st.graph with
  | none =>
    rw [bind_of_error (look_of_none found)]
    rintro _ _ _ ⟨⟩
  | some a =>
    rw [bind_of_ok (look_of_some found)]
    exact rest a found

theorem fits_mismatch (path : List String) (v w : Value) :
    Fits (mismatch path v w st : EStateM.Result Halt JoinState α) := by
  refine fits_look fun left _ => fits_look fun right _ => ?_
  rintro _ _ _ ⟨⟩

variable {join : Joiner} {path : List String} {v w : Value}

theorem fits_bindVar {x : VarId}
    (fits : ∀ {root c}, st.graph.Resolves (.var x) (.var root) →
      st.graph.content? (.var root) = some c → Fits (join path c v st)) :
    Fits (bindVar join path x v st) := by
  unfold bindVar
  refine fits_look fun root found => fits_look fun node known => ?_
  cases holds : node.binding with
  | free => exact fits_look fun _ _ => fits_ok _ _
  | link y => exact fits_look fun _ _ => fits_ok _ _
  | bound c =>
    have held := Graph.content?_var_eq_some.2 ⟨node, known, holds⟩
    exact fits_bind (fits (Graph.root?_eq_some_iff.1 found) held)
      fun _ _ _ => fits_look fun _ _ => fits_ok _ _

theorem fits_aliasVar {x y : VarId}
    (fits : ∀ {c}, st.graph.content? (.var x) = some c →
      Fits (bindVar join path y c (st.write (·.setBinding x (.link y))))) :
    Fits (aliasVar join path x y st) := by
  unfold aliasVar
  refine fits_look fun node known => ?_
  rw [bind_of_ok (update_apply _)]
  cases holds : node.binding with
  | free => exact fits_ok _ _
  | link z => exact fits_ok _ _
  | bound c =>
    exact fits_bind (fits (Graph.content?_var_eq_some.2 ⟨node, known, holds⟩))
      fun _ _ _ => fits_ok _ _

theorem fits_joinNodes
    (aliases : ∀ {x y}, v = .var x → w = .var y → Fits (aliasVar join path x y st))
    (bindsLeft : ∀ {x}, v = .var x → (∀ y, w ≠ .var y) → Fits (bindVar join path x w st))
    (bindsRight : ∀ {y}, w = .var y → (∀ x, v ≠ .var x) → Fits (bindVar join path y v st))
    (absorbs : ∀ {s t}, v = .struct s → w = .struct t → Fits (absorbStruct join path s t st)) :
    Fits (joinNodes join path v w st) := by
  cases v with
  | var x =>
    cases w with
    | var y => exact aliases rfl rfl
    | atom b => exact fits_bind (bindsLeft rfl (by simp)) fun _ _ _ => fits_ok _ _
    | struct t => exact fits_bind (bindsLeft rfl (by simp)) fun _ _ _ => fits_ok _ _
  | atom a =>
    cases w with
    | var y => exact fits_bind (bindsRight rfl (by simp)) fun _ _ _ => fits_ok _ _
    | atom b => exact fits_mismatch path _ _
    | struct t => exact fits_mismatch path _ _
  | struct s =>
    cases w with
    | var y => exact fits_bind (bindsRight rfl (by simp)) fun _ _ _ => fits_ok _ _
    | atom b => exact fits_mismatch path _ _
    | struct t => exact absorbs rfl rfl

theorem fits_joinValues
    (fits : ∀ {v' w'}, v ≠ .unspecified → w ≠ .unspecified → st.graph.Resolves v v' →
      st.graph.Resolves w w' → v' ≠ w' → Fits (joinNodes join path v' w' st)) :
    Fits (joinValues join path v w st) := by
  unfold joinValues
  split
  · exact fits_ok _ _
  split
  · exact fits_ok _ _
  rename_i hv hw
  refine fits_look fun v' found => fits_look fun w' found' => ?_
  split
  · exact fits_ok _ _
  · rename_i ne
    exact fits hv hw (Graph.representative?_eq_some_iff.1 found)
      (Graph.representative?_eq_some_iff.1 found') ne

theorem fits_joinWithin {limit budget : Nat}
    (fits : Fits (joinValues (joinWithin limit budget) path v w st)) :
    Fits (joinWithin limit (budget + 1) path v w st) := by
  unfold joinWithin
  cases known : st.joined.lookup (v, w) with
  | some u =>
    rw [reuse_of_known known]
    exact fits_ok _ _
  | none =>
    rw [reuse_of_unknown known]
    refine fits_bind fits fun u st' _ => ?_
    rw [bind_of_ok (record_apply v w u)]
    exact fits_ok _ _

end Fits

def Shallow {α : Type} (r : Region) (count : Nat) (task : Task) (program : Join α) : Prop :=
  ∀ st, Invariant r st → task.Ready r st.graph → (r.live st.graph).card ≤ count →
    Fits (program st)

variable {r : Region} {join : Joiner} {count : Nat}

theorem Executes.success {task : Task} {program : Join Value} {st st' : JoinState} {u : Value}
    (executes : Executes r task id program) (invariant : Invariant r st)
    (ready : task.Ready r st.graph) (ends : program st = .ok u st') :
    Success r task st u st' := by
  obtain ⟨_, rfl, run⟩ := executes.exists_run invariant ready ends
  exact run.keeps invariant ready

def ShallowOnInformative (r : Region) (count : Nat) (join : Joiner) : Prop :=
  ∀ path {v w}, v.Informative → w.Informative → Shallow r count (.join v w) (join path v w)

theorem shallow_bindVar (informative : ShallowOnInformative r count join) (path : List String)
    (x : VarId) (v : Value) : Shallow r count (.bind x v) (bindVar join path x v) := by
  intro st invariant ⟨hasX, hasV, said⟩ few
  refine fits_bindVar fun {root c} resolves held => ?_
  have ⟨hasC, said'⟩ :=
    invariant.closed.content (invariant.closed.has_of_path hasX resolves.path) held
  exact informative path said' said st invariant ⟨hasC, hasV⟩ few

theorem shallow_aliasVar (informative : ShallowOnInformative r count join) (path : List String)
    (x y : VarId) : Shallow r count (.nodes (.var x) (.var y)) (aliasVar join path x y) := by
  intro st invariant ready few
  refine fits_aliasVar fun {c} held => ?_
  have ⟨invariant', ready'⟩ := invariant.carry ready held
  refine shallow_bindVar informative path y c _ invariant' ready' ?_
  refine (Finset.card_le_card fun i alive => ?_).trans few
  have ⟨has, stops⟩ := Region.mem_live (s := ⟨i⟩).1 alive
  rw [JoinState.graph_write, Graph.forward?_setBinding, if_neg (by simp)] at stops
  exact Region.mem_live (s := ⟨i⟩).2 ⟨has, stops⟩

theorem shallow_takeOver (joins : ∀ path v w, Executes r (.join v w) id (join path v w))
    (shallow : ∀ path v w, Shallow r count (.join v w) (join path v w)) (path : List String)
    (s : StructId) (entries : List (String × Value)) :
    Shallow r count (.takeOver s entries) (takeOver join path s entries) := by
  induction entries with
  | nil => exact fun st _ _ _ => fits_ok _ _
  | cons e rest ih =>
    obtain ⟨name, theirs⟩ := e
    intro st invariant ⟨has, inside⟩ few
    unfold takeOver
    refine fits_look fun target found => fits_look fun m features => ?_
    have hasTarget := invariant.closed.has_of_path has (Graph.survivor?_eq_some_iff.1 found).path
    have ready : (Task.join ((m.get? name).getD .unspecified) theirs).Ready r st.graph :=
      ⟨has_getD invariant.closed hasTarget features name, inside _ List.mem_cons_self⟩
    refine fits_bind (shallow _ _ _ st invariant ready few) fun u st₁ ends => ?_
    have success := (joins (path ++ [name]) _ _).success invariant ready ends
    refine fits_look fun target' found' => ?_
    rw [bind_of_ok (update_apply _)]
    have sets := Graph.GrowsTo.setFeature st₁.graph target' name u
    have hasTarget' :=
      success.invariant.closed.has_of_path has (Graph.survivor?_eq_some_iff.1 found').path
    refine ih _ ?_ ⟨has, fun e mem => inside e (List.mem_cons_of_mem _ mem)⟩ ?_
    · exact success.invariant.write
        (success.invariant.closed.setFeature hasTarget' name success.has) sets.forward
    · exact (Finset.card_le_card (Region.live_subset (success.grows.trans sets))).trans few

theorem shallow_absorbStruct (joins : ∀ path v w, Executes r (.join v w) id (join path v w))
    (shallow : ∀ {fewer}, 0 < fewer → fewer < count → ∀ path v w,
      Shallow r fewer (.join v w) (join path v w)) (path : List String) (s t : StructId) :
    Shallow r count (.nodes (.struct s) (.struct t)) (absorbStruct join path s t) := by
  intro st invariant ready few
  obtain ⟨hasS, hasT, -, -, liveS, liveT, ne⟩ := id ready
  have ⟨positive, fewer⟩ := Region.card_live_absorb invariant.closed hasS hasT liveS liveT
    (by simpa using ne)
  unfold absorbStruct
  refine fits_look fun m found => ?_
  rw [bind_of_ok (update_apply _)]
  refine fits_bind ?_ fun _ _ _ => fits_look fun _ _ => fits_ok _ _
  exact shallow_takeOver joins (shallow positive (fewer.trans_le few)) path s m.entries _
    (invariant.absorb ready) (ready_takeOver invariant.closed hasS hasT found) le_rfl

theorem shallow_joinNodes (joins : ∀ path v w, Executes r (.join v w) id (join path v w))
    (shallow : ∀ {fewer}, 0 < fewer → fewer < count → ∀ path v w,
      Shallow r fewer (.join v w) (join path v w)) (path : List String) {v w : Value}
    (informative : ¬ (v.Informative ∧ w.Informative) → ShallowOnInformative r count join) :
    Shallow r count (.nodes v w) (joinNodes join path v w) := by
  intro st invariant ready few
  obtain ⟨hasV, hasW, hv, hw, -⟩ := id ready
  apply fits_joinNodes
  · rintro x y rfl rfl
    exact shallow_aliasVar (informative fun both => both.1.elim) path x y st invariant ready few
  · rintro x rfl notVar
    exact shallow_bindVar (informative fun both => both.1.elim) path x w st invariant
      ⟨hasV, hasW, informative_of_ready hw notVar⟩ few
  · rintro y rfl notVar
    exact shallow_bindVar (informative fun both => both.2.elim) path y v st invariant
      ⟨hasW, hasV, informative_of_ready hv notVar⟩ few
  · rintro s t rfl rfl
    exact shallow_absorbStruct joins shallow path s t st invariant ready few

theorem shallow_joinValues (joins : ∀ path v w, Executes r (.join v w) id (join path v w))
    (shallow : ∀ {fewer}, 0 < fewer → fewer < count → ∀ path v w,
      Shallow r fewer (.join v w) (join path v w)) (path : List String) {v w : Value}
    (informative : ¬ (v.Informative ∧ w.Informative) → ShallowOnInformative r count join) :
    Shallow r count (.merge v w) (joinValues join path v w) := by
  intro st invariant ready few
  refine fits_joinValues fun {v' w'} hv hw left right ne => ?_
  have informative' (unsaid : ¬ (v'.Informative ∧ w'.Informative)) :=
    informative fun said => unsaid ⟨left.informative_iff.2 said.1, right.informative_iff.2 said.2⟩
  exact shallow_joinNodes joins shallow path informative' st invariant
    (invariant.ready_nodes ready hv hw left right ne) few

/-- A budget of twice the number of living structures is enough. Two values that say something get
along with one level less, since no variable is between them and their structures. -/
theorem shallow_joinWithin (limit : Nat) {budget : Nat} (path : List String) {v w : Value}
    (enough : 2 * max 1 count ≤ budget ∨
      (v.Informative ∧ w.Informative) ∧ 2 * max 1 count ≤ budget + 1) :
    Shallow r count (.join v w) (joinWithin limit budget path v w) := by
  induction budget generalizing count path v w with
  | zero => omega
  | succ budget ih =>
    intro st invariant ready few
    refine fits_joinWithin (shallow_joinValues (executes_joinWithin limit budget)
      (fun {fewer} some less => ?_) path (fun unsaid => ?_) st invariant ready few)
    · exact fun path v w => ih path (.inl (by omega))
    · have enough := enough.resolve_right fun both => unsaid both.1
      exact fun path {v w} said said' => ih path (.inr ⟨⟨said, said'⟩, enough⟩)

theorem fits_joinWithin_of_bare {st : JoinState} (closed : r.Closed st.graph)
    (structs : ∀ s, ¬ r.Has (.struct s))
    (free : ∀ {x}, r.Has (.var x) → st.graph.content? (.var x) = none) {v w : Value}
    (hasV : r.Has v) (hasW : r.Has w) (limit budget : Nat) (path : List String) :
    Fits (joinWithin limit (budget + 1) path v w st) := by
  refine fits_joinWithin (fits_joinValues fun {v' w'} _ _ left right _ => ?_)
  have hasV' := closed.has_of_path hasV left.path
  have hasW' := closed.has_of_path hasW right.path
  have binds {x : VarId} {u : Value} (hasX : r.Has (.var x)) :
      Fits (bindVar (joinWithin limit budget) path x u st) :=
    fits_bindVar fun {root c} resolves held => by
      cases (free (closed.has_of_path hasX resolves.path)).symm.trans held
  apply fits_joinNodes
  · rintro x y rfl rfl
    exact fits_aliasVar fun held => by cases (free hasV').symm.trans held
  · rintro x rfl _
    exact binds hasV'
  · rintro y rfl _
    exact binds hasW'
  · rintro s t rfl rfl
    exact absurd hasV' (structs s)

end Join

end FeatureLogic
