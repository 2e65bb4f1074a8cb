import FeatureLogic.Proofs.Graph.Parallel
import FeatureLogic.Proofs.Join.Execution
import FeatureLogic.Proofs.Join.Memory

/-!
# Joins with and without a memory

A join that looks outcomes up ends as the join does that joins every pair afresh, unless the latter
meets its limit. The two do not go through the same steps. Where an outcome is looked up on one
side, its operands are joined again on the other, which finds out that they are identified and at
most binds a variable to a value that is identified with its own. So both sides have parallel
graphs. There is one rule for each step that they take together, and one for each step that the
side without a memory takes alone.
-/

namespace FeatureLogic.Join

variable {α β α' β' : Type}

/-- How a program ends beside one that looks nothing up. Where the latter meets its limit, or one
of them a handle that dangles, nothing is said. -/
inductive EndsBeside (R : α → JoinState → α' → JoinState → Prop) :
    EStateM.Result Halt JoinState α → EStateM.Result Halt JoinState α' → Prop where
  | ok {a : α} {a' : α'} {st st' : JoinState} :
    R a st a' st' → EndsBeside R (.ok a st) (.ok a' st')
  | mismatch {path : List String} {left right left' right' : String} {st st' : JoinState} :
    EndsBeside R (.error (.failure (.mismatch path left right)) st)
      (.error (.failure (.mismatch path left' right')) st')
  | tooDeep {ends : EStateM.Result Halt JoinState α} {limit : Nat} {path : List String}
      {st' : JoinState} : EndsBeside R ends (.error (.failure (.tooDeep limit path)) st')
  | danglingLeft {st : JoinState} {ends' : EStateM.Result Halt JoinState α'} :
    EndsBeside R (.error .dangling st) ends'
  | danglingRight {ends : EStateM.Result Halt JoinState α} {st' : JoinState} :
    EndsBeside R ends (.error .dangling st')

section Rules

variable {R : α → JoinState → α' → JoinState → Prop} {S : β → JoinState → β' → JoinState → Prop}
  {st st' : JoinState}

theorem EndsBeside.bind {program : Join α} {program' : Join α'} {k : α → Join β}
    {k' : α' → Join β'} (first : EndsBeside R (program st) (program' st'))
    (rest : ∀ {a st₁ a' st₁'}, program st = .ok a st₁ → R a st₁ a' st₁' →
      EndsBeside S (k a st₁) (k' a' st₁')) :
    EndsBeside S ((program >>= k) st) ((program' >>= k') st') := by
  generalize left : program st = out at first
  generalize right : program' st' = out' at first
  cases first with
  | ok related =>
    rw [bind_of_ok left, bind_of_ok right]
    exact rest left related
  | mismatch =>
    rw [bind_of_error left, bind_of_error right]
    exact .mismatch
  | tooDeep =>
    rw [bind_of_error right]
    exact .tooDeep
  | danglingLeft =>
    rw [bind_of_error left]
    exact .danglingLeft
  | danglingRight =>
    rw [bind_of_error right]
    exact .danglingRight

theorem EndsBeside.bind_right {a : α} {b : β} {program' : Join α'} {k' : α' → Join β'}
    (first : EndsBeside R (.ok a st) (program' st'))
    (rest : ∀ {a' st₁'}, R a st a' st₁' → EndsBeside S (.ok b st) (k' a' st₁')) :
    EndsBeside S (.ok b st) ((program' >>= k') st') := by
  have first : EndsBeside R ((pure a : Join α) st) (program' st') := first
  refine first.bind (k := fun _ => pure b) fun {_ _ _ _} ends related => ?_
  cases ends
  exact rest related

theorem endsBeside_look {read : Graph → Option α} {read' : Graph → Option α'} {k : α → Join β}
    {k' : α' → Join β'} (rest : ∀ {a a'}, read st.graph = some a → read' st'.graph = some a' →
      EndsBeside S (k a st) (k' a' st')) :
    EndsBeside S ((look read >>= k) st) ((look read' >>= k') st') := by
  cases left : read st.graph with
  | none =>
    rw [bind_of_error (look_of_none left)]
    exact .danglingLeft
  | some a =>
    cases right : read' st'.graph with
    | none =>
      rw [bind_of_error (look_of_none right)]
      exact .danglingRight
    | some a' =>
      rw [bind_of_ok (look_of_some left), bind_of_ok (look_of_some right)]
      exact rest left right

theorem endsBeside_look_right {read' : Graph → Option α'} {k' : α' → Join β'}
    {ends : EStateM.Result Halt JoinState β}
    (rest : ∀ {a'}, read' st'.graph = some a' → EndsBeside S ends (k' a' st')) :
    EndsBeside S ends ((look read' >>= k') st') := by
  cases right : read' st'.graph with
  | none =>
    rw [bind_of_error (look_of_none right)]
    exact .danglingRight
  | some a' =>
    rw [bind_of_ok (look_of_some right)]
    exact rest right

theorem endsBeside_mismatch (path : List String) (v w v' w' : Value) :
    EndsBeside R (mismatch path v w st) (mismatch path v' w' st') := by
  refine endsBeside_look fun _ _ => ?_
  refine endsBeside_look fun _ _ => ?_
  exact .mismatch

end Rules

def Follows (u : Value) (st : JoinState) (u' : Value) (st' : JoinState) : Prop :=
  st.graph.Same u u' ∧ st.graph.Parallels st'.graph

def KeepsParallel (_ : Unit) (st : JoinState) (_ : Unit) (st' : JoinState) : Prop :=
  st.graph.Parallels st'.graph

structure Abreast (r : Region) (task : Task) (st st' : JoinState) : Prop where
  invariant : Invariant r st
  ready : task.Ready r st.graph
  remembers : Remembers st.graph (task.Expects st.graph) st.joined
  parallels : st.graph.Parallels st'.graph

def Beside (r : Region) (join join' : Joiner) : Prop :=
  ∀ path {v w v' w' st st'}, Abreast r (.join v w) st st' → st.graph.Same v v' →
    st.graph.Same w w' → EndsBeside Follows (join path v w st) (join' path v' w' st')

variable {r : Region} {st st' : JoinState} {join join' : Joiner}

theorem Executes.finish {task : Task} {program : Join Value} {u : Value}
    (executes : Executes r task id program) (abreast : Abreast r task st st') {st₁ : JoinState}
    (ends : program st = .ok u st₁) : Success r task st u st₁ ∧ Recollected task u st₁ := by
  obtain ⟨_, rfl, run⟩ := executes.exists_run abreast.invariant abreast.ready ends
  exact ⟨run.keeps abreast.invariant abreast.ready,
    run.recollects _ rfl abreast.invariant abreast.ready abreast.remembers⟩

theorem Abreast.takeFirst {s target : StructId} {name : String} {theirs : Value}
    {rest : List (String × Value)} {m : NameMap Value}
    (abreast : Abreast r (.takeOver s ((name, theirs) :: rest)) st st')
    (survives : st.graph.Resolves (.struct s) (.struct target))
    (features : st.graph.features? target = some m) :
    Abreast r (.join ((m.get? name).getD .unspecified) theirs) st st' := by
  have ⟨invariant, ⟨has, inside⟩, remembers, parallels⟩ := abreast
  have hasTarget := invariant.closed.has_of_path has survives.path
  exact ⟨invariant, ⟨has_getD invariant.closed hasTarget features name,
    inside _ List.mem_cons_self⟩, remembers.settle_takeOver.start _, parallels⟩

theorem Abreast.takeRest {s target : StructId} {name : String} {theirs ours u : Value}
    {rest : List (String × Value)} {st₁ st₁' : JoinState} {write' : Graph → Graph}
    (abreast : Abreast r (.takeOver s ((name, theirs) :: rest)) st st')
    (success : Success r (.join ours theirs) st u st₁)
    (recollected : Recollected (.join ours theirs) u st₁)
    (survives : st₁.graph.Resolves (.struct s) (.struct target))
    (parallels : (st₁.graph.setFeature target name u).Parallels (write' st₁'.graph)) :
    Abreast r (.takeOver s rest) (st₁.write (·.setFeature target name u)) (st₁'.write write') := by
  have ⟨has, inside⟩ := abreast.ready
  have sets := Graph.GrowsTo.setFeature st₁.graph target name u
  have hasTarget := success.invariant.closed.has_of_path has survives.path
  have closed := success.invariant.closed.setFeature hasTarget name success.has
  exact ⟨success.invariant.write closed sets.forward,
    ⟨has, fun e mem => inside e (List.mem_cons_of_mem _ mem)⟩,
    (recollected.remembers.grow sets).start _, parallels⟩

theorem eq_unspecified_iff {g : Graph} (closed : r.Closed g) {v w : Value} (has : r.Has v)
    (same : g.Same v w) : v = .unspecified ↔ w = .unspecified := by
  obtain ⟨u, resolves⟩ := closed.grounded has
  exact resolves.eq_unspecified_iff.symm.trans (same.symm.resolves resolves).eq_unspecified_iff

theorem bindVar_eq (join : Joiner) (path : List String) (x : VarId) (v : Value) :
    bindVar join path x v = (do
      let root ← look (·.root? x)
      let node ← look (·.var? root)
      let bound ← node.binding.value?.elim (pure v) fun old => join path old v
      let root ← look (·.root? root)
      update (·.setBinding root (.bound bound))) := by
  unfold bindVar
  congr
  funext root
  congr
  funext node
  obtain ⟨name, binding⟩ := node
  cases binding <;> rfl

theorem aliasVar_eq (join : Joiner) (path : List String) (x y : VarId) :
    aliasVar join path x y = do
      let node ← look (·.var? x)
      update (·.setBinding x (.link y))
      node.binding.value?.elim (pure ()) fun v => bindVar join path y v
      return .var y := by
  unfold aliasVar
  congr
  funext node
  obtain ⟨name, binding⟩ := node
  cases binding <;> rfl

section Together

variable (joins : ∀ path v w, Executes r (.join v w) id (join path v w))
  (beside : Beside r join join') (path : List String)

include beside

theorem endsBeside_bindVar {x : VarId} {v v' : Value} (abreast : Abreast r (.bind x v) st st')
    (same : st.graph.Same v v') :
    EndsBeside KeepsParallel (bindVar join path x v st) (bindVar join' path x v' st') := by
  obtain ⟨invariant, ⟨hasX, hasV, informative⟩, remembers, parallels⟩ := abreast
  rw [bindVar_eq, bindVar_eq]
  refine endsBeside_look fun {root root'} left right => ?_
  cases parallels.root_eq left right
  refine endsBeside_look fun {node node'} found found' => ?_
  have resolves := Graph.root?_eq_some_iff.1 left
  have bound : EndsBeside Follows
      ((node.binding.value?.elim (pure v) fun old => join path old v : Join Value) st)
      ((node'.binding.value?.elim (pure v') fun old => join' path old v' : Join Value) st') := by
    have values := parallels.rel_value found found'
    have held := Graph.content?_eq_value? found
    generalize node.binding.value? = c at values held
    generalize node'.binding.value? = c' at values
    cases values with
    | none => exact .ok ⟨same, parallels⟩
    | some sameC =>
      have hasRoot := invariant.closed.has_of_path hasX resolves.path
      have ⟨hasC, _⟩ := invariant.closed.content hasRoot held
      refine beside path ⟨invariant, ⟨hasC, hasV⟩, ?_, parallels⟩ sameC same
      exact remembers.mono id (Task.Expects.join invariant.closed hasX resolves held informative)
  apply bound.bind
  intro u st₁ u' st₁' _ ⟨sameU, parallels₁⟩
  refine endsBeside_look fun {root₁ root₁'} left₁ right₁ => ?_
  cases parallels₁.root_eq left₁ right₁
  exact .ok (parallels₁.bind (Graph.root?_eq_some_iff.1 left₁).stops sameU)

theorem endsBeside_aliasVar {x y : VarId} (abreast : Abreast r (.nodes (.var x) (.var y)) st st') :
    EndsBeside Follows (aliasVar join path x y st) (aliasVar join' path x y st') := by
  obtain ⟨invariant, ready, remembers, parallels⟩ := abreast
  have ⟨hasX, _, _, _, rootX, _⟩ := ready
  rw [aliasVar_eq, aliasVar_eq]
  refine endsBeside_look fun {node node'} found found' => ?_
  rw [bind_of_ok (update_apply _), bind_of_ok (update_apply _)]
  have linked := parallels.link rootX y
  have values := parallels.rel_value found found'
  have held := Graph.content?_eq_value? found
  generalize node.binding.value? = c at values held
  generalize node'.binding.value? = c' at values
  cases values with
  | none => exact .ok ⟨.refl _ _, linked⟩
  | @some c c' sameC =>
    have ⟨invariant₁, ready₁⟩ := invariant.carry ready held
    have abreast₁ : Abreast r (.bind y c) (st.write (·.setBinding x (.link y)))
        (st'.write (·.setBinding x (.link y))) :=
      ⟨invariant₁, ready₁, remembers.carry invariant.closed hasX held, linked⟩
    have sameC₁ := sameC.mono (Graph.forward?_setBinding_of_root rootX (.link y))
    apply (endsBeside_bindVar beside path abreast₁ sameC₁).bind
    intro _ st₁ _ st₁' _ kept
    exact .ok ⟨.refl _ _, kept⟩

theorem endsBeside_bind {x : VarId} {v : Value} (abreast : Abreast r (.bind x v) st st') :
    EndsBeside Follows
      ((do bindVar join path x v; return .var x : Join Value) st)
      ((do bindVar join' path x v; return .var x : Join Value) st') := by
  apply (endsBeside_bindVar beside path abreast (.refl _ v)).bind
  intro _ st₁ _ st₁' _ kept
  exact .ok ⟨.refl _ _, kept⟩

include joins

theorem endsBeside_takeOver (s : StructId) {entries entries' : List (String × Value)}
    (abreast : Abreast r (.takeOver s entries) st st')
    (related : List.Forall₂ (fun e e' => e.1 = e'.1 ∧ st.graph.Same e.2 e'.2) entries entries') :
    EndsBeside KeepsParallel (takeOver join path s entries st)
      (takeOver join' path s entries' st') := by
  induction entries generalizing entries' st st' with
  | nil =>
    cases related
    exact .ok abreast.parallels
  | cons e rest ih =>
    obtain ⟨name, theirs⟩ := e
    cases related with
    | @cons _ e' _ rest' head tail =>
      obtain ⟨name', theirs'⟩ := e'
      obtain ⟨rfl, same⟩ := head
      have parallels := abreast.parallels
      unfold takeOver
      refine endsBeside_look fun {target target'} left right => ?_
      cases parallels.survivor_eq left right
      refine endsBeside_look fun {m n} features features' => ?_
      have survives := Graph.survivor?_eq_some_iff.1 left
      have first := abreast.takeFirst survives features
      have ours := (parallels.sameMaps features features').getD name
      apply (beside _ first ours same).bind
      rintro u st₁ u' st₁' ends ⟨sameU, parallels₁⟩
      obtain ⟨success, recollected⟩ := (joins _ _ _).finish first ends
      refine endsBeside_look fun {target₁ target₁'} left₁ right₁ => ?_
      cases parallels₁.survivor_eq left₁ right₁
      rw [bind_of_ok (update_apply _), bind_of_ok (update_apply _)]
      have survives₁ := Graph.survivor?_eq_some_iff.1 left₁
      have sets := Graph.GrowsTo.setFeature st₁.graph target₁ name u
      apply ih (abreast.takeRest success recollected survives₁
        (parallels₁.setFeature target₁ name sameU))
      exact tail.imp fun e e' related => ⟨related.1, (success.grows.trans sets).same related.2⟩

theorem endsBeside_absorbStruct {s t : StructId}
    (abreast : Abreast r (.nodes (.struct s) (.struct t)) st st') :
    EndsBeside Follows (absorbStruct join path s t st) (absorbStruct join' path s t st') := by
  obtain ⟨invariant, ready, remembers, parallels⟩ := abreast
  have ⟨hasS, hasT, _, _, _, liveT, _⟩ := ready
  unfold absorbStruct
  refine endsBeside_look fun {m n} found found' => ?_
  rw [bind_of_ok (update_apply _), bind_of_ok (update_apply _)]
  have absorbs : st.graph.GrowsTo (st.graph.absorb s t) := .absorb liveT
  have entries := NameMap.forall₂_entries_of_rel (parallels.sameMaps found found')
  have abreast₁ : Abreast r (.takeOver s m.entries) (st.write (·.absorb s t))
      (st'.write (·.absorb s t)) :=
    ⟨invariant.absorb ready, ready_takeOver invariant.closed hasS hasT found,
      (remembers.absorb invariant.closed hasT liveT).start _, parallels.absorb s liveT⟩
  have entries₁ := entries.imp fun e e' related => And.imp_right absorbs.same related
  apply (endsBeside_takeOver joins beside path s abreast₁ entries₁).bind
  intro _ st₁ _ st₁' _ kept
  refine endsBeside_look fun {u u'} left right => ?_
  cases Graph.Parallels.survivor_eq kept left right
  exact .ok ⟨.refl _ _, kept⟩

theorem endsBeside_joinNodes {v w : Value} (abreast : Abreast r (.nodes v w) st st') :
    EndsBeside Follows (joinNodes join path v w st) (joinNodes join' path v w st') := by
  have ⟨invariant, ⟨hasV, hasW, hv, hw, _⟩, remembers, parallels⟩ := abreast
  have left {x : VarId} (isVar : v = .var x) (notVar : ∀ y, w ≠ .var y) :
      Abreast r (.bind x w) st st' :=
    ⟨invariant, ⟨isVar ▸ hasV, hasW, informative_of_ready hw notVar⟩,
      (remembers.settle_var (.inl isVar)).start _, parallels⟩
  have right {y : VarId} (notVar : ∀ x, v ≠ .var x) (isVar : w = .var y) :
      Abreast r (.bind y v) st st' :=
    ⟨invariant, ⟨isVar ▸ hasW, hasV, informative_of_ready hv notVar⟩,
      (remembers.settle_var (.inr isVar)).start _, parallels⟩
  cases v with
  | var x =>
    cases w with
    | var y => exact endsBeside_aliasVar beside path abreast
    | atom b => exact endsBeside_bind beside path (left rfl (by simp))
    | struct t => exact endsBeside_bind beside path (left rfl (by simp))
  | atom a =>
    cases w with
    | var y => exact endsBeside_bind beside path (right (by simp) rfl)
    | atom b => exact endsBeside_mismatch path _ _ _ _
    | struct t => exact endsBeside_mismatch path _ _ _ _
  | struct s =>
    cases w with
    | var y => exact endsBeside_bind beside path (right (by simp) rfl)
    | atom b => exact endsBeside_mismatch path _ _ _ _
    | struct t => exact endsBeside_absorbStruct joins beside path abreast

theorem endsBeside_joinValues {v w v' w' : Value} (abreast : Abreast r (.merge v w) st st')
    (left : st.graph.Same v v') (right : st.graph.Same w w') :
    EndsBeside Follows (joinValues join path v w st) (joinValues join' path v' w' st') := by
  obtain ⟨invariant, ready, remembers, parallels⟩ := abreast
  have silentV := eq_unspecified_iff invariant.closed ready.1 left
  have silentW := eq_unspecified_iff invariant.closed ready.2 right
  unfold joinValues
  simp only [silentV, silentW]
  split
  · exact .ok ⟨right, parallels⟩
  · next hv =>
    split
    · exact .ok ⟨left, parallels⟩
    · next hw =>
      refine endsBeside_look fun {z z'} foundV foundV' => ?_
      cases parallels.representative_eq left foundV foundV'
      refine endsBeside_look fun {y y'} foundW foundW' => ?_
      cases parallels.representative_eq right foundW foundW'
      have resolvesV := Graph.representative?_eq_some_iff.1 foundV
      have resolvesW := Graph.representative?_eq_some_iff.1 foundW
      split
      · exact .ok ⟨.refl _ _, parallels⟩
      · next ne =>
        exact endsBeside_joinNodes joins beside path
          ⟨invariant, invariant.ready_nodes ready (mt silentV.1 hv) (mt silentW.1 hw) resolvesV
            resolvesW ne, remembers.mono id (Task.Expects.nodes resolvesV resolvesW), parallels⟩

end Together

section Alone

variable {limit budget : Nat} {path : List String} {u v w : Value}

theorem endsBeside_joinAfresh
    (ends : ∀ budget, EndsBeside Follows (.ok u st)
      (joinValues (joinAfresh limit budget) path v w st')) :
    EndsBeside Follows (.ok u st) (joinAfresh limit budget path v w st') := by
  cases budget with
  | zero => exact .tooDeep
  | succ budget =>
    refine (ends budget).bind_right fun {u' st₁'} follows => ?_
    rw [bind_of_ok (record_apply v w u')]
    exact .ok (by simpa [Follows] using follows)

theorem endsBeside_joinValues_of_same (parallels : st.graph.Parallels st'.graph)
    (hv : v ≠ .unspecified) (hw : w ≠ .unspecified) (left : st.graph.Same u v)
    (right : st.graph.Same u w) :
    EndsBeside Follows (.ok u st) (joinValues join' path v w st') := by
  unfold joinValues
  rw [if_neg hv, if_neg hw]
  refine endsBeside_look_right fun {z} found => ?_
  refine endsBeside_look_right fun {z'} found' => ?_
  have resolves := parallels.resolves_iff.1 (Graph.representative?_eq_some_iff.1 found)
  have resolves' := parallels.resolves_iff.1 (Graph.representative?_eq_some_iff.1 found')
  cases (left.resolves resolves).unique (right.resolves resolves')
  rw [if_pos rfl]
  exact .ok ⟨left.trans resolves.same, parallels⟩

variable (limit budget path) in
theorem endsBeside_rebind {x : VarId} {c : Value} (closed : r.Closed st.graph)
    (has : r.Has (.var x)) (parallels : st.graph.Parallels st'.graph)
    (held : st.graph.content? (.var x) = some c) (same : st.graph.Same c w) :
    EndsBeside KeepsParallel (.ok () st) (bindVar (joinAfresh limit budget) path x w st') := by
  have ⟨hasC, said⟩ := closed.content has held
  have telling {c' : Value} (same : st.graph.Same c c') : c' ≠ .unspecified :=
    mt (eq_unspecified_iff closed hasC same).2 said.ne_unspecified
  have stops := Graph.forward?_of_content? held
  have root : st.graph.root? x = some x :=
    Graph.root?_eq_some_iff.2 ⟨.refl, stops, Graph.contains_of_content? held⟩
  rw [bindVar_eq]
  refine endsBeside_look_right fun {root'} found => ?_
  cases parallels.root_eq root found
  refine endsBeside_look_right fun {node} known => ?_
  have content := parallels.content (.var x)
  rw [held, Graph.content?, known, Option.bind_some] at content
  generalize node.binding.value? = value at content
  cases content with
  | @some _ c' sameC =>
    have joined : EndsBeside Follows (.ok c st) (joinAfresh limit budget path c' w st') :=
      endsBeside_joinAfresh fun _ =>
        endsBeside_joinValues_of_same parallels (telling sameC) (telling same) sameC same
    refine joined.bind_right fun {u' st₁'} follows => ?_
    obtain ⟨sameU, parallels₁⟩ := follows
    refine endsBeside_look_right fun {root₁} found₁ => ?_
    cases parallels₁.root_eq root found₁
    exact .ok (parallels₁.rebind held sameU)

theorem joinNodes_var_left (join : Joiner) (path : List String) (x : VarId)
    (notVar : ∀ y, w ≠ .var y) :
    joinNodes join path (.var x) w = (do bindVar join path x w; return .var x) := by
  cases w with
  | atom a => rfl
  | struct s => rfl
  | var y => exact absurd rfl (notVar y)

theorem joinNodes_var_right (join : Joiner) (path : List String) (y : VarId)
    (notVar : ∀ x, v ≠ .var x) :
    joinNodes join path v (.var y) = (do bindVar join path y v; return .var y) := by
  cases v with
  | atom a => rfl
  | struct s => rfl
  | var x => exact absurd rfl (notVar x)

variable (limit budget path) in
theorem endsBeside_joinNodes_of_boundTo {x : VarId} (closed : r.Closed st.graph)
    (has : r.Has (.var x)) (parallels : st.graph.Parallels st'.graph)
    (bound : st.graph.BoundTo (.var x) w) (said : w.Informative)
    (same : st.graph.Same u (.var x)) {z y : Value} (left : st.graph.Resolves (.var x) z)
    (right : st.graph.Resolves w y) :
    z ≠ y ∧
      EndsBeside Follows (.ok u st) (joinNodes (joinAfresh limit budget) path z y st') ∧
      EndsBeside Follows (.ok u st) (joinNodes (joinAfresh limit budget) path y z st') := by
  obtain ⟨root, c, resolves, held, sameC⟩ := bound
  cases resolves.unique left
  obtain ⟨x', rfl⟩ := Graph.path_var left.path
  have notVar (y' : VarId) : y ≠ .var y' := by
    rintro rfl
    exact (right.informative_iff.2 said).elim
  have again := endsBeside_rebind limit budget path closed (closed.has_of_path has left.path)
    parallels held (sameC.trans right.same)
  rw [joinNodes_var_left _ _ _ notVar, joinNodes_var_right _ _ _ notVar]
  exact ⟨(notVar x').symm, again.bind_right fun kept => .ok ⟨same.trans left.same, kept⟩,
    again.bind_right fun kept => .ok ⟨same.trans left.same, kept⟩⟩

theorem endsBeside_joinValues_of_nodes (parallels : st.graph.Parallels st'.graph) {v' w' : Value}
    (hv : v' ≠ .unspecified) (hw : w' ≠ .unspecified) (left : st.graph.Same v v')
    (right : st.graph.Same w w')
    (nodes : ∀ {z y}, st.graph.Resolves v z → st.graph.Resolves w y → z ≠ y ∧
      EndsBeside Follows (.ok u st) (joinNodes join' path z y st')) :
    EndsBeside Follows (.ok u st) (joinValues join' path v' w' st') := by
  unfold joinValues
  rw [if_neg hv, if_neg hw]
  refine endsBeside_look_right fun {z} found => ?_
  refine endsBeside_look_right fun {y} found' => ?_
  have resolves := parallels.resolves_iff.1 (Graph.representative?_eq_some_iff.1 found)
  have resolves' := parallels.resolves_iff.1 (Graph.representative?_eq_some_iff.1 found')
  have ⟨ne, ends⟩ := nodes (left.resolves resolves) (right.resolves resolves')
  rw [if_neg ne]
  exact ends

theorem informative_or_var (hv : v ≠ .unspecified) : v.Informative ∨ ∃ x, v = .var x := by
  by_cases isVar : ∃ x, v = .var x
  · exact .inr isVar
  · exact .inl (informative_of_ready hv (not_exists.1 isVar))

theorem endsBeside_hit {v' w' : Value} (abreast : Abreast r (.join v w) st st')
    (known : ((v, w), u) ∈ st.joined) (left : st.graph.Same v v') (right : st.graph.Same w w') :
    EndsBeside Follows (.ok u st) (joinAfresh limit budget path v' w' st') := by
  obtain ⟨invariant, ⟨hasV, hasW⟩, remembers, parallels⟩ := abreast
  obtain ⟨_, blends⟩ := invariant.joined known
  have recalled : Recalled st.graph st.graph.BoundTo v w u :=
    ((Runs.hit known).recollects u rfl invariant ⟨hasV, hasW⟩ remembers).recalls
  have silentV := eq_unspecified_iff invariant.closed hasV left
  have silentW := eq_unspecified_iff invariant.closed hasW right
  refine endsBeside_joinAfresh fun budget => ?_
  by_cases hv : v' = .unspecified
  · rw [joinValues, if_pos hv]
    exact .ok ⟨blends.left (silentV.2 hv) ▸ right, parallels⟩
  by_cases hw : w' = .unspecified
  · rw [joinValues, if_neg hv, if_pos hw]
    exact .ok ⟨blends.right (silentW.2 hw) ▸ left, parallels⟩
  have again (sameV : st.graph.Same u v) (sameW : st.graph.Same u w) :
      EndsBeside Follows (.ok u st) (joinValues (joinAfresh limit budget) path v' w' st') :=
    endsBeside_joinValues_of_same parallels hv hw (sameV.trans left) (sameW.trans right)
  -- Two values that both say something, and two variables, are identified by now. A variable and
  -- such a value never are: they are found apart, and the variable is bound again.
  cases informative_or_var (mt silentV.1 hv) with
  | inl saidV =>
    cases informative_or_var (mt silentW.1 hw) with
    | inl saidW =>
      obtain ⟨_, sameV, sameW⟩ := blends.concrete saidV saidW
      exact again sameV.symm sameW.symm
    | inr isVar =>
      obtain ⟨y, rfl⟩ := isVar
      obtain ⟨same, bound⟩ := recalled.right rfl saidV
      refine endsBeside_joinValues_of_nodes parallels hv hw left right fun {z z'} toZ toZ' => ?_
      obtain ⟨ne, _, ends⟩ := endsBeside_joinNodes_of_boundTo limit budget path
        invariant.closed hasW parallels bound saidV same toZ' toZ
      exact ⟨ne.symm, ends⟩
  | inr isVar =>
    obtain ⟨x, rfl⟩ := isVar
    cases informative_or_var (mt silentW.1 hw) with
    | inl saidW =>
      obtain ⟨same, bound⟩ := recalled.left rfl saidW
      refine endsBeside_joinValues_of_nodes parallels hv hw left right fun {z z'} toZ toZ' => ?_
      obtain ⟨ne, ends, _⟩ := endsBeside_joinNodes_of_boundTo limit budget path
        invariant.closed hasV parallels bound saidW same toZ toZ'
      exact ⟨ne, ends⟩
    | inr isVar =>
      obtain ⟨y, rfl⟩ := isVar
      obtain ⟨same, same'⟩ := recalled.aliased rfl rfl
      exact again (same'.trans same.symm) same'

end Alone

/-- A join that looks outcomes up ends as one that looks nothing up, unless the latter meets its
limit. -/
theorem beside_joinWithin (limit budget : Nat) :
    Beside r (joinWithin limit budget) (joinAfresh limit budget) := by
  induction budget with
  | zero => exact fun path _ _ _ _ _ _ _ _ _ => .tooDeep
  | succ budget ih =>
    intro path v w v' w' st st' abreast left right
    cases known : st.joined.lookup (v, w) with
    | some u =>
      rw [joinWithin, reuse_of_known known]
      exact endsBeside_hit abreast (mem_of_lookup known) left right
    | none =>
      rw [joinWithin, reuse_of_unknown known, joinAfresh]
      have abreast' : Abreast r (.merge v w) st st' :=
        ⟨abreast.invariant, abreast.ready, abreast.remembers, abreast.parallels⟩
      refine (endsBeside_joinValues (executes_joinWithin limit budget) ih path abreast' left
        right).bind fun {u st₁ u' st₁'} _ follows => ?_
      rw [bind_of_ok (record_apply v w u), bind_of_ok (record_apply v' w' u')]
      exact .ok (by simpa [Follows] using follows)

/-- A join that looks nothing up ends, too, and what it did is one of the derivations. -/
theorem executes_joinAfresh (limit budget : Nat) (path : List String) (v w : Value) :
    Executes r (.join v w) id (joinAfresh limit budget path v w) := by
  induction budget generalizing path v w with
  | zero => exact fun st _ _ => ⟨.error (.tooDeep limit path), st, rfl, .tooDeep⟩
  | succ budget ih =>
    intro st invariant ready
    obtain ⟨out, st', ends, run⟩ := executes_joinValues ih path v w st invariant ready
    rw [joinAfresh]
    cases out with
    | error f =>
      refine ⟨.error f, st', ?_, .abandon run⟩
      rw [bind_of_error ends]
      rfl
    | ok u =>
      refine ⟨.ok u, st'.remember v w u, ?_, .miss run⟩
      rw [bind_of_ok ends, bind_of_ok (record_apply _ _ _)]
      rfl

end FeatureLogic.Join
