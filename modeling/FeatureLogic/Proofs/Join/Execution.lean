import FeatureLogic.Proofs.Graph.Legibility
import FeatureLogic.Proofs.Join.Invariance

/-!
# Executions of a join

In a closed region a join finds every node that it looks for, and both sides of a mismatch have a
text. So it always ends, with a value or with a failure, and what it did is one of the derivations.
-/

namespace FeatureLogic

theorem Region.Closed.legible {r : Region} {g : Graph} (closed : r.Closed g) :
    g.Legible r.Has where
  deref {v} has := by
    cases v with
    | atom a => exact ⟨.atom a, rfl, has⟩
    | struct s => exact ⟨.struct s, rfl, has⟩
    | var x =>
      obtain ⟨w, resolves⟩ := closed.grounded has
      obtain ⟨root, rfl⟩ := Graph.path_var resolves.path
      refine ⟨_, Graph.deref?_of_resolves resolves, ?_⟩
      have hasRoot := closed.has_of_path has resolves.path
      cases held : g.content? (.var root) with
      | none => exact hasRoot
      | some c => exact (closed.content hasRoot held).1
  struct {s} has := by
    obtain ⟨m, found⟩ := closed.exists_features has
    exact ⟨m, found, fun _ _ holds => closed.feature has found holds⟩
  var {x} has := by
    obtain ⟨node, found⟩ := closed.exists_var has
    exact ⟨node.name, by simp [Graph.name?, found]⟩

namespace Join

section Steps

variable {α β : Type} {st st' : JoinState}

theorem bind_of_ok {x : Join α} {a : α} (h : x st = .ok a st') (k : α → Join β) :
    (x >>= k) st = k a st' := by
  show EStateM.bind x k st = _
  rw [EStateM.bind, h]

theorem bind_of_error {x : Join α} {e : Halt} (h : x st = .error e st') (k : α → Join β) :
    (x >>= k) st = .error e st' := by
  show EStateM.bind x k st = _
  rw [EStateM.bind, h]

theorem look_of_some {read : Graph → Option α} {a : α} (h : read st.graph = some a) :
    look read st = .ok a st := by
  unfold look
  rw [bind_of_ok (x := get) (a := st) rfl, h]
  rfl

theorem look_of_none {read : Graph → Option α} (h : read st.graph = none) :
    look read st = .error .dangling st := by
  unfold look
  rw [bind_of_ok (x := get) (a := st) rfl, h]
  rfl

@[simp] theorem update_apply (write : Graph → Graph) :
    update write st = .ok () (st.write write) := rfl

@[simp] theorem record_apply (v w u : Value) :
    record v w u st = .ok () (st.remember v w u) := by
  unfold record JoinState.remember
  split <;> rfl

theorem reuse_of_known {v w u : Value} (h : st.joined.lookup (v, w) = some u) (join : Join Value) :
    reuse v w join st = .ok u st := by
  unfold reuse
  rw [bind_of_ok (x := get) (a := st) rfl, h]
  rfl

theorem reuse_of_unknown {v w : Value} (h : st.joined.lookup (v, w) = none) (join : Join Value) :
    reuse v w join st = join st := by
  unfold reuse
  rw [bind_of_ok (x := get) (a := st) rfl, h]

theorem exists_ok_of_run' {p : Join α} {a : α} (ran : p.run' st = some a) :
    ∃ st', p st = .ok a st' := by
  delta EStateM.run' EStateM.run at ran
  cases ends : p st with
  | error e st' =>
    rw [ends] at ran
    cases ran
  | ok b st' =>
    rw [ends] at ran
    cases ran
    exact ⟨st', rfl⟩

end Steps

def ending {α : Type} : Except Failure α → JoinState → EStateM.Result Halt JoinState α
  | .ok a, st => .ok a st
  | .error f, st => .error (.failure f) st

/-- Does a program that is to do a task end, having done what the task allows? `f` gives the
program's result from that of the task. -/
def Executes {α : Type} (r : Region) (task : Task) (f : Value → α) (program : Join α) : Prop :=
  ∀ st, Invariant r st → task.Ready r st.graph →
    ∃ out st', program st = ending (out.map f) st' ∧ Runs task st out st'

theorem Executes.exists_run {α : Type} {r : Region} {task : Task} {f : Value → α}
    {program : Join α} (executes : Executes r task f program) {st st' : JoinState}
    (invariant : Invariant r st) (ready : task.Ready r st.graph) {a : α}
    (ends : program st = .ok a st') : ∃ u, a = f u ∧ Runs task st (.ok u) st' := by
  obtain ⟨out, st₁, ends', run⟩ := executes st invariant ready
  cases out with
  | error f => cases ends.symm.trans ends'
  | ok u =>
    cases ends.symm.trans ends'
    exact ⟨u, rfl, run⟩

variable {r : Region} {join : Joiner}

theorem exists_root {g : Graph} (closed : r.Closed g) {x : VarId} (has : r.Has (.var x)) :
    ∃ root, g.root? x = some root ∧ g.Resolves (.var x) (.var root) := by
  obtain ⟨w, resolves⟩ := closed.grounded has
  obtain ⟨root, rfl⟩ := Graph.path_var resolves.path
  exact ⟨root, Graph.root?_eq_some_iff.2 resolves, resolves⟩

theorem exists_survivor {g : Graph} (closed : r.Closed g) {s : StructId}
    (has : r.Has (.struct s)) :
    ∃ u, g.survivor? s = some u ∧ g.Resolves (.struct s) (.struct u) := by
  obtain ⟨w, resolves⟩ := closed.grounded has
  obtain ⟨u, rfl⟩ := Graph.path_struct resolves.path
  exact ⟨u, Graph.survivor?_eq_some_iff.2 resolves, resolves⟩

theorem executes_mismatch {path : List String} {v w : Value} (notVar : ∀ x, v ≠ .var x)
    (notVar' : ∀ x, w ≠ .var x) (kinds : ∀ s t, v = .struct s → w ≠ .struct t) :
    Executes r (.nodes v w) id (mismatch path v w) := by
  intro st invariant ⟨hasV, hasW, _⟩
  obtain ⟨left, written⟩ := invariant.closed.legible.exists_text hasV
  obtain ⟨right, written'⟩ := invariant.closed.legible.exists_text hasW
  refine ⟨.error (.mismatch path left right), st, ?_, .clash notVar notVar' kinds⟩
  unfold mismatch
  rw [bind_of_ok (look_of_some written), bind_of_ok (look_of_some written')]
  rfl

theorem executes_bindVar (joins : ∀ path v w, Executes r (.join v w) id (join path v w))
    (path : List String) (x : VarId) (v : Value) :
    Executes r (.bind x v) (fun _ => ()) (bindVar join path x v) := by
  intro st invariant ⟨hasX, hasV, informative⟩
  obtain ⟨root, found, resolves⟩ := exists_root invariant.closed hasX
  have hasRoot := invariant.closed.has_of_path hasX resolves.path
  obtain ⟨node, known⟩ := invariant.closed.exists_var hasRoot
  unfold bindVar
  rw [bind_of_ok (look_of_some found), bind_of_ok (look_of_some known)]
  have free (notBound : ∀ c, node.binding ≠ .bound c) :
      ∃ out st', (do
        let root ← look (·.root? root)
        update (·.setBinding root (.bound v)) : Join Unit) st = ending (out.map fun _ => ()) st' ∧
        Runs (.bind x v) st out st' := by
    have empty : st.graph.content? (.var root) = none := by
      cases held : st.graph.content? (.var root) with
      | none => rfl
      | some c =>
        obtain ⟨node', known', holds⟩ := Graph.content?_var_eq_some.1 held
        cases known.symm.trans known'
        exact absurd holds (notBound c)
    have same : st.graph.root? root = some root :=
      Graph.root?_eq_some_iff.2 ⟨.refl, resolves.stops, resolves.contains⟩
    refine ⟨.ok v, st.write (·.setBinding root (.bound v)), ?_, .bindFree resolves empty⟩
    rw [bind_of_ok (look_of_some same)]
    rfl
  cases holds : node.binding with
  | free => exact free fun c h => by cases holds.symm.trans h
  | link y => exact free fun c h => by cases holds.symm.trans h
  | bound c =>
    have held : st.graph.content? (.var root) = some c :=
      Graph.content?_var_eq_some.2 ⟨node, known, holds⟩
    obtain ⟨hasC, -⟩ := invariant.closed.content hasRoot held
    obtain ⟨out, st₁, ends, run⟩ := joins path c v st invariant ⟨hasC, hasV⟩
    dsimp only
    cases out with
    | error f =>
      refine ⟨.error f, st₁, ?_, .bindFails resolves held run⟩
      rw [bind_of_error ends]
      rfl
    | ok u =>
      have closed₁ := (run.keeps invariant (show (Task.join c v).Ready r st.graph from
        ⟨hasC, hasV⟩)).invariant.closed
      obtain ⟨root', found', resolves'⟩ := exists_root closed₁ hasRoot
      refine ⟨.ok u, _, ?_, .bindBound resolves held run resolves'⟩
      rw [bind_of_ok ends, bind_of_ok (look_of_some found')]
      rfl

theorem executes_aliasVar (joins : ∀ path v w, Executes r (.join v w) id (join path v w))
    (path : List String) (x y : VarId) :
    Executes r (.nodes (.var x) (.var y)) id (aliasVar join path x y) := by
  intro st invariant ready
  obtain ⟨hasX, hasY, -, -, rootX, rootY, ne⟩ := id ready
  obtain ⟨node, known⟩ := invariant.closed.exists_var hasX
  unfold aliasVar
  rw [bind_of_ok (look_of_some known), bind_of_ok (update_apply _)]
  have free (notBound : ∀ c, node.binding ≠ .bound c) : st.graph.content? (.var x) = none := by
    cases held : st.graph.content? (.var x) with
    | none => rfl
    | some c =>
      obtain ⟨node', known', holds⟩ := Graph.content?_var_eq_some.1 held
      cases known.symm.trans known'
      exact absurd holds (notBound c)
  cases holds : node.binding with
  | free => exact ⟨_, _, rfl, .link (free fun c h => by cases holds.symm.trans h)⟩
  | link z => exact ⟨_, _, rfl, .link (free fun c h => by cases holds.symm.trans h)⟩
  | bound c =>
    have held : st.graph.content? (.var x) = some c :=
      Graph.content?_var_eq_some.2 ⟨node, known, holds⟩
    obtain ⟨invariant₁, ready₁⟩ := invariant.carry ready held
    obtain ⟨out, st₁, ends, run⟩ := executes_bindVar joins path y c _ invariant₁ ready₁
    refine ⟨out.map fun _ => .var y, st₁, ?_, .carry held run⟩
    dsimp only
    cases out with
    | error f => rw [bind_of_error (e := .failure f) ends]; rfl
    | ok u => rw [bind_of_ok ends]; rfl

theorem executes_takeOver (joins : ∀ path v w, Executes r (.join v w) id (join path v w))
    (path : List String) (s : StructId) (entries : List (String × Value)) :
    Executes r (.takeOver s entries) (fun _ => ()) (takeOver join path s entries) := by
  induction entries with
  | nil => exact fun st _ _ => ⟨.ok (.struct s), st, rfl, .done⟩
  | cons e rest ih =>
    obtain ⟨name, theirs⟩ := e
    intro st invariant ⟨has, inside⟩
    obtain ⟨target, found, resolves⟩ := exists_survivor invariant.closed has
    have hasTarget := invariant.closed.has_of_path has resolves.path
    obtain ⟨m, features⟩ := invariant.closed.exists_features hasTarget
    have readyJoin : (Task.join ((m.get? name).getD .unspecified) theirs).Ready r st.graph :=
      ⟨has_getD invariant.closed hasTarget features name, inside _ List.mem_cons_self⟩
    obtain ⟨out, st₁, ends, run⟩ := joins (path ++ [name]) _ _ st invariant readyJoin
    unfold takeOver
    rw [bind_of_ok (look_of_some found), bind_of_ok (look_of_some features)]
    cases out with
    | error f =>
      refine ⟨.error f, st₁, ?_, .featureFails resolves features run⟩
      rw [bind_of_error ends]
      rfl
    | ok u =>
      have success := run.keeps invariant readyJoin
      obtain ⟨target', found', resolves'⟩ := exists_survivor success.invariant.closed has
      have hasTarget' := success.invariant.closed.has_of_path has resolves'.path
      have sets := Graph.GrowsTo.setFeature st₁.graph target' name u
      have invariant₁ : Invariant r (st₁.write (·.setFeature target' name u)) :=
        success.invariant.write
          (success.invariant.closed.setFeature hasTarget' name success.has) sets.forward
      obtain ⟨out, st₂, ends', runRest⟩ :=
        ih _ invariant₁ ⟨has, fun e mem => inside e (List.mem_cons_of_mem _ mem)⟩
      refine ⟨out, st₂, ?_, .feature resolves features run resolves' runRest⟩
      rw [bind_of_ok ends, bind_of_ok (look_of_some found'), bind_of_ok (update_apply _)]
      exact ends'

theorem Runs.eq_of_takeOver {s : StructId} {entries : List (String × Value)} {u : Value}
    {st st' : JoinState} (run : Runs (.takeOver s entries) st (.ok u) st') : u = .struct s := by
  induction entries generalizing st with
  | nil =>
    cases run
    rfl
  | cons e rest ih =>
    cases run with
    | feature _ _ _ _ runRest => exact ih runRest

theorem executes_absorbStruct (joins : ∀ path v w, Executes r (.join v w) id (join path v w))
    (path : List String) (s t : StructId) :
    Executes r (.nodes (.struct s) (.struct t)) id (absorbStruct join path s t) := by
  intro st invariant ready
  have hasS := ready.1
  have hasT := ready.2.1
  obtain ⟨m, found⟩ := invariant.closed.exists_features hasT
  have invariant₁ := invariant.absorb ready
  have ready₁ : (Task.takeOver s m.entries).Ready r (st.write (·.absorb s t)).graph :=
    ready_takeOver invariant.closed hasS hasT found
  obtain ⟨out, st', ends, run⟩ := executes_takeOver joins path s m.entries _ invariant₁ ready₁
  unfold absorbStruct
  rw [bind_of_ok (look_of_some found), bind_of_ok (update_apply _)]
  cases out with
  | error f =>
    refine ⟨.error f, st', ?_, .absorbFails found run⟩
    rw [bind_of_error ends]
    rfl
  | ok u =>
    cases run.eq_of_takeOver
    have success := run.keeps invariant₁ ready₁
    obtain ⟨u, survives, resolves⟩ := exists_survivor success.invariant.closed hasS
    refine ⟨.ok (.struct u), st', ?_, .absorb found run resolves⟩
    rw [bind_of_ok ends, bind_of_ok (look_of_some survives)]
    rfl

theorem executes_bind (joins : ∀ path v w, Executes r (.join v w) id (join path v w))
    (path : List String) (x : VarId) (v : Value) {st : JoinState} (invariant : Invariant r st)
    (ready : (Task.bind x v).Ready r st.graph) :
    ∃ out st', (do
      bindVar join path x v
      return .var x : Join Value) st = ending (out.map fun _ => .var x) st' ∧
      Runs (.bind x v) st out st' := by
  obtain ⟨out, st', ends, run⟩ := executes_bindVar joins path x v st invariant ready
  refine ⟨out, st', ?_, run⟩
  cases out with
  | error f => rw [bind_of_error ends]; rfl
  | ok u => rw [bind_of_ok ends]; rfl

theorem executes_joinNodes (joins : ∀ path v w, Executes r (.join v w) id (join path v w))
    (path : List String) (v w : Value) :
    Executes r (.nodes v w) id (joinNodes join path v w) := by
  have left (x : VarId) (notVar : ∀ y, w ≠ .var y) (program : joinNodes join path (.var x) w = do
      bindVar join path x w
      return .var x) : Executes r (.nodes (.var x) w) id (joinNodes join path (.var x) w) := by
    intro st invariant ⟨hasX, hasW, hx, hw, _⟩
    obtain ⟨out, st', ends, run⟩ := executes_bind joins path x w invariant
      ⟨hasX, hasW, informative_of_ready hw notVar⟩
    exact ⟨out.map fun _ => .var x, st', by rw [program, ends]; cases out <;> rfl,
      .bindLeft notVar run⟩
  have right (y : VarId) (notVar : ∀ x, v ≠ .var x) (program : joinNodes join path v (.var y) = do
      bindVar join path y v
      return .var y) : Executes r (.nodes v (.var y)) id (joinNodes join path v (.var y)) := by
    intro st invariant ⟨hasV, hasY, hv, hy, _⟩
    obtain ⟨out, st', ends, run⟩ := executes_bind joins path y v invariant
      ⟨hasY, hasV, informative_of_ready hv notVar⟩
    exact ⟨out.map fun _ => .var y, st', by rw [program, ends]; cases out <;> rfl,
      .bindRight notVar run⟩
  have clash (notVar : ∀ x, v ≠ .var x) (notVar' : ∀ x, w ≠ .var x)
      (kinds : ∀ s t, v = .struct s → w ≠ .struct t)
      (program : joinNodes join path v w = mismatch path v w) :
      Executes r (.nodes v w) id (joinNodes join path v w) := by
    rw [program]
    exact executes_mismatch notVar notVar' kinds
  cases v with
  | var x =>
    cases w with
    | var y => exact executes_aliasVar joins path x y
    | atom b => exact left x (by simp) rfl
    | struct t => exact left x (by simp) rfl
  | atom a =>
    cases w with
    | var y => exact right y (by simp) rfl
    | atom b => exact clash (by simp) (by simp) (by simp) rfl
    | struct t => exact clash (by simp) (by simp) (by simp) rfl
  | struct s =>
    cases w with
    | var y => exact right y (by simp) rfl
    | atom b => exact clash (by simp) (by simp) (by simp) rfl
    | struct t => exact executes_absorbStruct joins path s t

theorem joinValues_of_same {st : JoinState} {v w u : Value} (hv : v ≠ .unspecified)
    (hw : w ≠ .unspecified) (left : st.graph.Resolves v u) (right : st.graph.Resolves w u)
    (path : List String) : joinValues join path v w st = .ok u st := by
  simp only [joinValues, hv, hw, ite_false]
  rw [bind_of_ok (look_of_some (Graph.representative?_eq_some_iff.2 left)),
    bind_of_ok (look_of_some (Graph.representative?_eq_some_iff.2 right)), if_pos rfl]
  rfl

theorem executes_joinValues (joins : ∀ path v w, Executes r (.join v w) id (join path v w))
    (path : List String) (v w : Value) :
    Executes r (.merge v w) id (joinValues join path v w) := by
  intro st invariant ⟨hasV, hasW⟩
  by_cases hv : v = .unspecified
  · subst hv
    exact ⟨.ok w, st, by simp only [joinValues, ite_true]; rfl, .left⟩
  by_cases hw : w = .unspecified
  · subst hw
    exact ⟨.ok v, st, by simp only [joinValues, hv, ite_true, ite_false]; rfl, .right hv⟩
  obtain ⟨v', left⟩ := invariant.closed.grounded hasV
  obtain ⟨w', right⟩ := invariant.closed.grounded hasW
  by_cases same : v' = w'
  · subst same
    exact ⟨.ok v', st, joinValues_of_same hv hw left right path, .same hv hw left right⟩
  · simp only [joinValues, hv, hw, ite_false]
    rw [bind_of_ok (look_of_some (Graph.representative?_eq_some_iff.2 left)),
      bind_of_ok (look_of_some (Graph.representative?_eq_some_iff.2 right))]
    have ready := invariant.ready_nodes ⟨hasV, hasW⟩ hv hw left right same
    obtain ⟨out, st', ends, run⟩ := executes_joinNodes joins path v' w' st invariant ready
    refine ⟨out, st', ?_, .nodes hv hw left right same run⟩
    rw [if_neg same]
    exact ends

/-- A join always ends, with a value or a failure, and what it did is one of the derivations. -/
theorem executes_joinWithin (limit budget : Nat) (path : List String) (v w : Value) :
    Executes r (.join v w) id (joinWithin limit budget path v w) := by
  induction budget generalizing path v w with
  | zero =>
    intro st _ _
    unfold joinWithin
    cases known : st.joined.lookup (v, w) with
    | some u => exact ⟨.ok u, st, reuse_of_known known _, .hit (mem_of_lookup known)⟩
    | none => exact ⟨.error (.tooDeep limit path), st, reuse_of_unknown known _, .tooDeep⟩
  | succ budget ih =>
    intro st invariant ready
    unfold joinWithin
    cases known : st.joined.lookup (v, w) with
    | some u => exact ⟨.ok u, st, reuse_of_known known _, .hit (mem_of_lookup known)⟩
    | none =>
      obtain ⟨out, st', ends, run⟩ := executes_joinValues ih path v w st invariant ready
      rw [reuse_of_unknown known]
      cases out with
      | error f =>
        refine ⟨.error f, st', ?_, .abandon run⟩
        rw [bind_of_error ends]
        rfl
      | ok u =>
        refine ⟨.ok u, st'.remember v w u, ?_, .miss run⟩
        rw [bind_of_ok ends, bind_of_ok (record_apply _ _ _)]
        rfl

theorem exists_joinWithin_self {st : JoinState} (closed : r.Closed st.graph) {v : Value}
    (has : r.Has v) (unknown : st.joined.lookup (v, v) = none) (limit budget : Nat)
    (path : List String) : ∃ u st', joinWithin limit (budget + 1) path v v st = .ok u st' := by
  have joins : ∃ u, joinValues (joinWithin limit budget) path v v st = .ok u st := by
    by_cases hv : v = .unspecified
    · exact ⟨v, by simp only [joinValues, hv, ite_true]; rfl⟩
    · obtain ⟨w, resolves⟩ := closed.grounded has
      exact ⟨w, joinValues_of_same hv hv resolves resolves path⟩
  obtain ⟨u, ends⟩ := joins
  refine ⟨u, st.remember v v u, ?_⟩
  rw [joinWithin, reuse_of_unknown unknown, bind_of_ok ends, bind_of_ok (record_apply v v u)]
  rfl

end Join

end FeatureLogic
