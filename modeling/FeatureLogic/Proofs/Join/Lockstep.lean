import FeatureLogic.Proofs.Graph.Wording
import FeatureLogic.Proofs.Join.Execution

/-!
# Joins in lockstep

Two joins that start from mirrored graphs with partners as operands go through the same steps. Both
succeed with partners and leave mirrored graphs, or both fail for the same reason at the same place.
If partners have the same names, they fail with the same words. There is one rule for each step of a
program, and from these rules the lemmas about the parts of a join are put together.
-/

namespace FeatureLogic

/-- Are two failures of one kind and at the same place? What stood there may be written differently
on the two sides. -/
def Failure.Agrees : Failure → Failure → Prop
  | .mismatch path _ _, .mismatch path' _ _ => path = path'
  | .tooDeep limit path, .tooDeep limit' path' => limit = limit' ∧ path = path'
  | _, _ => False

theorem Failure.Agrees.refl (failure : Failure) : failure.Agrees failure := by
  cases failure with
  | mismatch path left right => exact rfl
  | tooDeep limit path => exact ⟨rfl, rfl⟩

namespace Join

/-- What two joins are compared by: what is to hold of the names in their graphs, and which texts
and failures count as the same. -/
structure Measure (q : Pairing) where
  Keeps : Graph → Graph → Prop
  Words : String → String → Prop
  Agrees : Failure → Failure → Prop
  stable : ∀ {g h g' h'}, (∀ x, g'.name? x = g.name? x) → (∀ y, h'.name? y = h.name? y) →
    Keeps g h → Keeps g' h'
  words : ∀ {g h v w left right}, q.Mirrors g h → Keeps g h → q.Relates v w →
    g.text? v = some left → h.text? w = some right → Words left right
  mismatch : ∀ path {left right left' right'}, Words left left' → Words right right' →
    Agrees (.mismatch path left right) (.mismatch path left' right')
  refl : ∀ failure, Agrees failure failure

/-- Nothing is said about names, so that the texts in a failure may differ. -/
def Measure.nameless (q : Pairing) : Measure q where
  Keeps _ _ := True
  Words _ _ := True
  Agrees := Failure.Agrees
  stable _ _ := id
  words _ _ _ _ _ := trivial
  mismatch _ _ _ _ _ _ _ := rfl
  refl := Failure.Agrees.refl

def Measure.exact {q : Pairing} (unique : Relator.BiUnique q.structs) : Measure q where
  Keeps g h := q.Named g h
  Words := Eq
  Agrees := Eq
  stable left right named _ _ partners := by rw [left, right, named partners]
  words mirrors named related := Pairing.text_eq unique mirrors named related
  mismatch path _ _ _ _ left right := by rw [left, right]
  refl := Eq.refl

variable {α β α' β' : Type} {q : Pairing} {M : Measure q}

def Recalls (q : Pairing) (e e' : (Value × Value) × Value) : Prop :=
  (q.Relates e.1.1 e'.1.1 ∧ q.Relates e.1.2 e'.1.2) ∧ q.Relates e.2 e'.2

structure Mirrored (M : Measure q) (st st' : JoinState) : Prop where
  graph : q.Mirrors st.graph st'.graph
  keeps : M.Keeps st.graph st'.graph
  joined : List.Forall₂ (Recalls q) st.joined st'.joined

/-- Do two programs end alike? Where one of them has met a handle that dangles, nothing is said. -/
inductive EndsAlike (M : Measure q) (R : α → α' → Prop) :
    EStateM.Result Halt JoinState α → EStateM.Result Halt JoinState α' → Prop where
  | ok {a : α} {a' : α'} {st st' : JoinState} :
    R a a' → Mirrored M st st' → EndsAlike M R (.ok a st) (.ok a' st')
  | failure {f f' : Failure} {st st' : JoinState} :
    M.Agrees f f' → EndsAlike M R (.error (.failure f) st) (.error (.failure f') st')
  | danglingLeft {st : JoinState} {end' : EStateM.Result Halt JoinState α'} :
    EndsAlike M R (.error .dangling st) end'
  | danglingRight {ends : EStateM.Result Halt JoinState α} {st : JoinState} :
    EndsAlike M R ends (.error .dangling st)

def Lockstep (M : Measure q) (R : α → α' → Prop) (program : Join α) (program' : Join α') : Prop :=
  ∀ ⦃st st'⦄, Mirrored M st st' → EndsAlike M R (program st) (program' st')

section Rules

variable {R : α → α' → Prop} {S : β → β' → Prop}

theorem lockstep_pure {a : α} {a' : α'} (h : R a a') : Lockstep M R (pure a) (pure a') :=
  fun _ _ mirrored => .ok h mirrored

theorem lockstep_fail {f f' : Failure} (agrees : M.Agrees f f') :
    Lockstep M R (throw (.failure f)) (throw (.failure f')) :=
  fun _ _ _ => .failure agrees

theorem Lockstep.bind {program : Join α} {program' : Join α'} {k : α → Join β}
    {k' : α' → Join β'} (first : Lockstep M R program program')
    (rest : ∀ {a a'}, R a a' → Lockstep M S (k a) (k' a')) :
    Lockstep M S (program >>= k) (program' >>= k') := by
  intro st st' mirrored
  have ends := first mirrored
  generalize left : program st = out at ends
  generalize right : program' st' = out' at ends
  cases ends with
  | ok related mirrored' =>
    rw [bind_of_ok left, bind_of_ok right]
    exact rest related mirrored'
  | failure agrees =>
    rw [bind_of_error left, bind_of_error right]
    exact .failure agrees
  | danglingLeft =>
    rw [bind_of_error left]
    exact .danglingLeft
  | danglingRight =>
    rw [bind_of_error right]
    exact .danglingRight

theorem lockstep_read {read : Graph → Option α} {read' : Graph → Option α'}
    (reads : ∀ {g h a a'}, q.Mirrors g h → M.Keeps g h → read g = some a → read' h = some a' →
      R a a') : Lockstep M R (look read) (look read') := by
  intro st st' mirrored
  cases left : read st.graph with
  | none =>
    rw [look_of_none left]
    exact .danglingLeft
  | some a =>
    cases right : read' st'.graph with
    | none =>
      rw [look_of_none right]
      exact .danglingRight
    | some a' =>
      rw [look_of_some left, look_of_some right]
      exact .ok (reads mirrored.graph mirrored.keeps left right) mirrored

theorem lockstep_look {read : Graph → Option α} {read' : Graph → Option α'}
    (reads : ∀ {g h a a'}, q.Mirrors g h → read g = some a → read' h = some a' → R a a') :
    Lockstep M R (look read) (look read') :=
  lockstep_read fun mirrors _ => reads mirrors

theorem lockstep_update {write write' : Graph → Graph}
    (names : ∀ g x, (write g).name? x = g.name? x) (names' : ∀ g x, (write' g).name? x = g.name? x)
    (writes : ∀ {g h}, q.Mirrors g h → q.Mirrors (write g) (write' h)) :
    Lockstep M (fun _ _ => True) (update write) (update write') := by
  intro st st' mirrored
  rw [update_apply, update_apply]
  exact .ok trivial ⟨writes mirrored.graph, M.stable (names _) (names' _) mirrored.keeps,
    mirrored.joined⟩

variable {v w v' w' u u' : Value}

theorem lockstep_mismatch (path : List String) (left : q.Relates v v') (right : q.Relates w w') :
    Lockstep M R (mismatch path v w) (mismatch path v' w') := by
  refine (lockstep_read fun mirrors keeps => M.words mirrors keeps left).bind fun words => ?_
  refine (lockstep_read fun mirrors keeps => M.words mirrors keeps right).bind fun words' => ?_
  exact lockstep_fail (M.mismatch path words words')

theorem lockstep_record (left : q.Relates v v') (right : q.Relates w w')
    (outcome : q.Relates u u') :
    Lockstep M (fun _ _ => True) (record v w u) (record v' w' u') := by
  intro st st' mirrored
  rw [record_apply, record_apply]
  refine .ok trivial ?_
  unfold JoinState.remember
  rw [left.isNode_eq, right.isNode_eq]
  split
  · exact ⟨mirrored.graph, mirrored.keeps, .cons ⟨⟨left, right⟩, outcome⟩ mirrored.joined⟩
  · exact mirrored

end Rules

variable (unique : Relator.BiUnique q.Relates)

include unique

theorem lookup_of_recalls {joined joined' : List ((Value × Value) × Value)}
    (recalls : List.Forall₂ (Recalls q) joined joined') {v w v' w' : Value}
    (left : q.Relates v v') (right : q.Relates w w') :
    Option.Rel q.Relates (joined.lookup (v, w)) (joined'.lookup (v', w')) := by
  have unique' : Relator.BiUnique fun p p' : Value × Value =>
      q.Relates p.1 p'.1 ∧ q.Relates p.2 p'.2 :=
    ⟨fun _ _ _ first second => Prod.ext (unique.1 first.1 second.1) (unique.1 first.2 second.2),
      fun _ _ _ first second => Prod.ext (unique.2 first.1 second.1) (unique.2 first.2 second.2)⟩
  have partners : q.Relates (v, w).1 (v', w').1 ∧ q.Relates (v, w).2 (v', w').2 := ⟨left, right⟩
  exact lookup_of_forall₂ unique' recalls partners

theorem lockstep_reuse {v w v' w' : Value} (left : q.Relates v v') (right : q.Relates w w')
    {join join' : Join Value} (joins : Lockstep M q.Relates join join') :
    Lockstep M q.Relates (reuse v w join) (reuse v' w' join') := by
  intro st st' mirrored
  have found := lookup_of_recalls unique mirrored.joined left right
  generalize known : st.joined.lookup (v, w) = u at found
  generalize known' : st'.joined.lookup (v', w') = u' at found
  cases found with
  | none =>
    rw [reuse_of_unknown known, reuse_of_unknown known']
    exact joins mirrored
  | some related =>
    rw [reuse_of_known known, reuse_of_known known']
    exact .ok related mirrored

def Steady (M : Measure q) (join : Joiner) : Prop :=
  ∀ (path : List String) {v w v' w' : Value}, q.Relates v v' → q.Relates w w' →
    Lockstep M q.Relates (join path v w) (join path v' w')

variable {join : Joiner} (steady : Steady M join) (path : List String)

include steady

theorem lockstep_bindVar {x y : VarId} {v w : Value} (partners : q.vars x y)
    (related : q.Relates v w) :
    Lockstep M (fun _ _ => True) (bindVar join path x v) (bindVar join path y w) := by
  unfold bindVar
  refine (lockstep_look fun mirrors => mirrors.root partners).bind fun {root root'} roots => ?_
  refine (lockstep_look (R := fun node node' => q.Holds node.binding node'.binding)
    fun mirrors found found' => ?_).bind fun {node node'} holds => ?_
  · obtain ⟨_, _, known, known', holds⟩ := mirrors.var roots
    cases found.symm.trans known
    cases found'.symm.trans known'
    exact holds
  have store {bound bound' : Value} (outcome : q.Relates bound bound') :
      Lockstep M (fun _ _ => True)
        (do
          let root ← look (·.root? root)
          update (·.setBinding root (.bound bound)))
        (do
          let root ← look (·.root? root')
          update (·.setBinding root (.bound bound'))) :=
    (lockstep_look fun mirrors => mirrors.root roots).bind fun roots' =>
      lockstep_update (by simp) (by simp) fun mirrors => mirrors.setBinding unique roots' outcome
  obtain ⟨name, binding⟩ := node
  obtain ⟨name', binding'⟩ := node'
  cases binding <;> cases binding' <;> first | exact holds.elim | skip
  · exact (lockstep_pure related).bind store
  · exact (steady path holds related).bind store
  · exact (lockstep_pure related).bind store

theorem lockstep_aliasVar {x y x' y' : VarId} (left : q.vars x x') (right : q.vars y y') :
    Lockstep M q.Relates (aliasVar join path x y) (aliasVar join path x' y') := by
  unfold aliasVar
  refine (lockstep_look (R := fun node node' => q.Holds node.binding node'.binding)
    fun mirrors found found' => ?_).bind fun {node node'} holds => ?_
  · obtain ⟨_, _, known, known', holds⟩ := mirrors.var left
    cases found.symm.trans known
    cases found'.symm.trans known'
    exact holds
  refine (lockstep_update (by simp) (by simp) fun mirrors => mirrors.setBinding unique left
    (show q.Holds (.link y) (.link y') from right)).bind fun _ => ?_
  obtain ⟨name, binding⟩ := node
  obtain ⟨name', binding'⟩ := node'
  cases binding <;> cases binding' <;> first | exact holds.elim | skip
  · exact lockstep_pure (show q.Relates (.var y) (.var y') from right)
  · exact (lockstep_bindVar unique steady path right holds).bind fun _ =>
      lockstep_pure (show q.Relates (.var y) (.var y') from right)
  · exact lockstep_pure (show q.Relates (.var y) (.var y') from right)

theorem lockstep_takeOver {s t : StructId} (partners : q.structs s t)
    {entries entries' : List (String × Value)}
    (related : List.Forall₂ (fun e e' => e.1 = e'.1 ∧ q.Relates e.2 e'.2) entries entries') :
    Lockstep M (fun _ _ => True) (takeOver join path s entries)
      (takeOver join path t entries') := by
  induction related with
  | nil => exact lockstep_pure trivial
  | @cons e e' rest rest' related _ ih =>
    obtain ⟨name, theirs⟩ := e
    obtain ⟨name', theirs'⟩ := e'
    obtain ⟨rfl, related⟩ := related
    unfold takeOver
    refine (lockstep_look fun mirrors => mirrors.survivor partners).bind fun targets => ?_
    refine (lockstep_look fun mirrors => mirrors.features targets).bind fun {m n} maps => ?_
    have ours : q.Relates ((m.get? name).getD .unspecified) ((n.get? name).getD .unspecified) := by
      have found := maps name
      generalize m.get? name = v at found
      generalize n.get? name = w at found
      cases found with
      | none => rfl
      | some related => exact related
    refine (steady (path ++ [name]) ours related).bind fun outcome => ?_
    refine (lockstep_look fun mirrors => mirrors.survivor partners).bind fun targets' => ?_
    exact (lockstep_update (by simp) (by simp) fun mirrors =>
      mirrors.setFeature unique targets' name outcome).bind fun _ => ih

theorem lockstep_absorbStruct {s t s' t' : StructId} (left : q.structs s s')
    (right : q.structs t t') :
    Lockstep M q.Relates (absorbStruct join path s t) (absorbStruct join path s' t') := by
  unfold absorbStruct
  refine (lockstep_look fun mirrors => mirrors.features right).bind fun maps => ?_
  refine (lockstep_update (by simp) (by simp)
    fun mirrors => mirrors.absorb unique left right).bind fun _ => ?_
  refine (lockstep_takeOver unique steady path left maps.forall₂_entries).bind fun _ => ?_
  exact (lockstep_look fun mirrors => mirrors.survivor left).bind fun survivors =>
    lockstep_pure survivors

theorem lockstep_joinNodes {v w v' w' : Value} (left : q.Relates v v') (right : q.Relates w w') :
    Lockstep M q.Relates (joinNodes join path v w) (joinNodes join path v' w') := by
  cases v <;> cases v' <;> first | exact left.elim | skip
  · cases w <;> cases w' <;> first | exact right.elim | skip
    · exact lockstep_mismatch path left right
    · exact lockstep_mismatch path left right
    · exact (lockstep_bindVar unique steady path right left).bind fun _ => lockstep_pure right
  · cases w <;> cases w' <;> first | exact right.elim | skip
    · exact lockstep_mismatch path left right
    · exact lockstep_absorbStruct unique steady path left right
    · exact (lockstep_bindVar unique steady path right left).bind fun _ => lockstep_pure right
  · cases w <;> cases w' <;> first | exact right.elim | skip
    · exact (lockstep_bindVar unique steady path left right).bind fun _ => lockstep_pure left
    · exact (lockstep_bindVar unique steady path left right).bind fun _ => lockstep_pure left
    · exact lockstep_aliasVar unique steady path left right

theorem lockstep_joinValues {v w v' w' : Value} (left : q.Relates v v') (right : q.Relates w w') :
    Lockstep M q.Relates (joinValues join path v w) (joinValues join path v' w') := by
  unfold joinValues
  simp only [left.eq_unspecified_iff, right.eq_unspecified_iff]
  split
  · exact lockstep_pure right
  split
  · exact lockstep_pure left
  refine (lockstep_look fun mirrors => mirrors.representative left).bind fun nodes => ?_
  refine (lockstep_look fun mirrors => mirrors.representative right).bind fun nodes' => ?_
  simp only [Relator.rel_eq unique nodes nodes']
  split
  · exact lockstep_pure nodes
  · exact lockstep_joinNodes unique steady path nodes nodes'

omit steady path in
theorem steady_joinWithin (limit budget : Nat) : Steady M (joinWithin limit budget) := by
  induction budget with
  | zero =>
    intro path v w v' w' left right
    exact lockstep_reuse unique left right (lockstep_fail (M.refl (.tooDeep limit path)))
  | succ budget ih =>
    intro path v w v' w' left right
    refine lockstep_reuse unique left right ?_
    refine (lockstep_joinValues unique ih path left right).bind fun outcome => ?_
    exact (lockstep_record left right outcome).bind fun _ => lockstep_pure outcome

end Join

end FeatureLogic
