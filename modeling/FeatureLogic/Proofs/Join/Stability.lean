import FeatureLogic.Proofs.Join.Trace

/-!
# Stability of a join

Every single write of a join in a closed region leaves the region closed: it forwards a root to
another root, or it binds a root to a value that says something, or it sets a feature to a value of
the region. So representatives can be found at every time, also while nested joins are going on.
-/

namespace FeatureLogic.Traced

open Join

variable {α β : Type} {r : Region} {st : JoinState} {g : Graph}

def Stable (r : Region) (task : Task) (p : Traced α) : Prop :=
  ∀ st, Invariant r st → task.Ready r st.graph → ∀ g ∈ p.graphs st, r.Closed g

theorem mem_graphs_bind {p : Traced α} {next : α → Traced β} (mem : g ∈ (p >>= next).graphs st) :
    g ∈ p.graphs st ∨ ∃ a st', p.run st = .ok a st' ∧ g ∈ (next a).graphs st' := by
  rcases List.mem_append.1 mem with mem | mem
  · exact .inl mem
  · cases ran : p.run st with
    | ok a st' =>
      rw [ran] at mem
      exact .inr ⟨a, st', rfl, mem⟩
    | error e st' =>
      rw [ran] at mem
      cases mem

theorem mem_graphs_look {read : Graph → Option α} {next : α → Traced β}
    (mem : g ∈ (look read >>= next).graphs st) :
    ∃ a, read st.graph = some a ∧ g ∈ (next a).graphs st := by
  rcases mem_graphs_bind mem with mem | ⟨a, st', ran, mem⟩
  · cases mem
  · cases found : read st.graph with
    | none => cases (look_of_none found).symm.trans ran
    | some b =>
      cases (look_of_some found).symm.trans ran
      exact ⟨_, rfl, mem⟩

theorem mem_graphs_update {write : Graph → Graph} {next : Unit → Traced β}
    (mem : g ∈ (update write >>= next).graphs st) :
    g = write st.graph ∨ g ∈ (next ()).graphs (st.write write) := by
  rcases mem_graphs_bind mem with mem | ⟨_, st', ran, mem⟩
  · exact .inl (List.mem_singleton.1 mem)
  · cases ran
    exact .inr mem

theorem mem_graphs_quiet {p : Join α} {next : α → Traced β}
    (mem : g ∈ (quiet p >>= next).graphs st) :
    ∃ a st', p st = .ok a st' ∧ g ∈ (next a).graphs st' := by
  rcases mem_graphs_bind mem with mem | after
  · cases mem
  · exact after

/-- What a task makes of a program's last write is made known by what the task guarantees. -/
theorem closed_of_runs {task : Task} {u : Value} {st' : JoinState} (invariant : Invariant r st)
    (ready : task.Ready r st.graph) (run : Runs task st (.ok u) st') : r.Closed st'.graph :=
  (run.keeps invariant ready).invariant.closed

section Stable

variable {join : Joiner} (runs : ∀ path v w, Executes r (.join v w) id (join path v w).run)
  (stable : ∀ path v w, Stable r (.join v w) (join path v w)) (path : List String)

include runs stable

theorem stable_bindVar (x : VarId) (v : Value) :
    Stable r (.bind x v) (bindVar join path x v) := by
  intro st invariant ready g mem
  obtain ⟨hasX, hasV, informative⟩ := id ready
  obtain ⟨root, found, mem⟩ := mem_graphs_look mem
  obtain ⟨node, known, mem⟩ := mem_graphs_look mem
  have resolves := Graph.root?_eq_some_iff.1 found
  have hasRoot := invariant.closed.has_of_path hasX resolves.path
  have fresh (mem : g ∈ (do
      let root ← look (·.root? root)
      update (·.setBinding root (.bound v)) : Traced Unit).graphs st) : r.Closed g := by
    obtain ⟨root', found', mem⟩ := mem_graphs_look mem
    have resolves' := Graph.root?_eq_some_iff.1 found'
    rw [List.mem_singleton.1 mem]
    exact invariant.closed.bind (invariant.closed.has_of_path hasRoot resolves'.path)
      resolves'.stops hasV informative
  cases holds : node.binding with
  | free =>
    rw [holds] at mem
    exact fresh mem
  | link y =>
    rw [holds] at mem
    exact fresh mem
  | bound c =>
    rw [holds] at mem
    have held : st.graph.content? (.var root) = some c :=
      Graph.content?_var_eq_some.2 ⟨node, known, holds⟩
    have readyJoin : (Task.join c v).Ready r st.graph :=
      ⟨(invariant.closed.content hasRoot held).1, hasV⟩
    rcases mem_graphs_bind mem with mem | ⟨u, st₁, ran, mem⟩
    · exact stable path c v st invariant readyJoin g mem
    · obtain ⟨root', found', mem⟩ := mem_graphs_look mem
      obtain ⟨out, st₁', ends, run⟩ := runs path c v st invariant readyJoin
      cases out with
      | error f => cases ends.symm.trans ran
      | ok u' =>
        cases ends.symm.trans ran
        rw [List.mem_singleton.1 mem]
        exact closed_of_runs invariant ready
          (.bindBound resolves held run (Graph.root?_eq_some_iff.1 found'))

theorem stable_aliasVar (x y : VarId) :
    Stable r (.nodes (.var x) (.var y)) (aliasVar join path x y) := by
  intro st invariant ready g mem
  obtain ⟨hasX, hasY, -, -, -, rootY, ne⟩ := id ready
  obtain ⟨node, known, mem⟩ := mem_graphs_look mem
  rcases mem_graphs_update mem with rfl | mem
  · exact invariant.closed.link hasX hasY rootY (by simpa using ne)
  · cases holds : node.binding with
    | free =>
      rw [holds] at mem
      cases mem
    | link z =>
      rw [holds] at mem
      cases mem
    | bound c =>
      rw [holds] at mem
      have held : st.graph.content? (.var x) = some c :=
        Graph.content?_var_eq_some.2 ⟨node, known, holds⟩
      obtain ⟨invariant₁, ready₁⟩ := invariant.carry ready held
      rcases mem_graphs_bind mem with mem | ⟨_, _, _, mem⟩
      · exact stable_bindVar runs stable path y c _ invariant₁ ready₁ g mem
      · cases mem

theorem stable_takeOver (s : StructId) (entries : List (String × Value)) :
    Stable r (.takeOver s entries) (takeOver join path s entries) := by
  induction entries with
  | nil =>
    intro st _ _ g mem
    cases mem
  | cons e rest ih =>
    obtain ⟨name, theirs⟩ := e
    intro st invariant ⟨has, inside⟩ g mem
    obtain ⟨target, found, mem⟩ := mem_graphs_look mem
    obtain ⟨m, features, mem⟩ := mem_graphs_look mem
    have hasTarget :=
      invariant.closed.has_of_path has (Graph.survivor?_eq_some_iff.1 found).path
    have readyJoin : (Task.join ((m.get? name).getD .unspecified) theirs).Ready r st.graph :=
      ⟨has_getD invariant.closed hasTarget features name, inside _ List.mem_cons_self⟩
    rcases mem_graphs_bind mem with mem | ⟨u, st₁, ran, mem⟩
    · exact stable _ _ _ st invariant readyJoin g mem
    · obtain ⟨target', found', mem⟩ := mem_graphs_look mem
      obtain ⟨out, st₁', ends, run⟩ := runs (path ++ [name]) _ _ st invariant readyJoin
      cases out with
      | error f => cases ends.symm.trans ran
      | ok u' =>
        cases ends.symm.trans ran
        have success := run.keeps invariant readyJoin
        have hasTarget' := success.invariant.closed.has_of_path has
          (Graph.survivor?_eq_some_iff.1 found').path
        have closed := success.invariant.closed.setFeature hasTarget' name success.has
        rcases mem_graphs_update mem with rfl | mem
        · exact closed
        · exact ih _
            (success.invariant.write closed (Graph.GrowsTo.setFeature _ target' name _).forward)
            ⟨has, fun e mem => inside e (List.mem_cons_of_mem _ mem)⟩ g mem

theorem stable_absorbStruct (s t : StructId) :
    Stable r (.nodes (.struct s) (.struct t)) (absorbStruct join path s t) := by
  intro st invariant ready g mem
  obtain ⟨m, found, mem⟩ := mem_graphs_look mem
  have invariant₁ := invariant.absorb ready
  rcases mem_graphs_update mem with rfl | mem
  · exact invariant₁.closed
  · rcases mem_graphs_bind mem with mem | ⟨_, st₁, _, mem⟩
    · exact stable_takeOver runs stable path s m.entries _ invariant₁
        (ready_takeOver invariant.closed ready.1 ready.2.1 found) g mem
    · obtain ⟨u, _, mem⟩ := mem_graphs_look mem
      cases mem

theorem stable_joinNodes (v w : Value) : Stable r (.nodes v w) (joinNodes join path v w) := by
  have bound {x : VarId} {v : Value} (hasX : r.Has (.var x)) (hasV : r.Has v)
      (hv : v ≠ .unspecified) (notVar : ∀ y, v ≠ .var y) {st : JoinState}
      (invariant : Invariant r st) {g : Graph}
      (mem : g ∈ (do bindVar join path x v; return .var x : Traced Value).graphs st) :
      r.Closed g := by
    rcases mem_graphs_bind mem with mem | ⟨_, _, _, mem⟩
    · exact stable_bindVar runs stable path x v st invariant
        ⟨hasX, hasV, informative_of_ready hv notVar⟩ g mem
    · cases mem
  intro st invariant ready g mem
  obtain ⟨hasV, hasW, hv, hw, -⟩ := id ready
  cases v with
  | var x =>
    cases w with
    | var y => exact stable_aliasVar runs stable path x y st invariant ready g mem
    | atom b => exact bound hasV hasW hw (by simp) invariant mem
    | struct t => exact bound hasV hasW hw (by simp) invariant mem
  | atom a =>
    cases w with
    | var y => exact bound hasW hasV hv (by simp) invariant mem
    | atom b => cases mem
    | struct t => cases mem
  | struct s =>
    cases w with
    | var y => exact bound hasW hasV hv (by simp) invariant mem
    | atom b => cases mem
    | struct t => exact stable_absorbStruct runs stable path s t st invariant ready g mem

theorem stable_joinValues (v w : Value) : Stable r (.merge v w) (joinValues join path v w) := by
  intro st invariant ready g mem
  unfold joinValues at mem
  split at mem
  · cases mem
  · next hv =>
    split at mem
    · cases mem
    · next hw =>
      obtain ⟨v', found, mem⟩ := mem_graphs_look mem
      obtain ⟨w', found', mem⟩ := mem_graphs_look mem
      have left := Graph.representative?_eq_some_iff.1 found
      have right := Graph.representative?_eq_some_iff.1 found'
      split at mem
      · cases mem
      · next ne =>
        exact stable_joinNodes runs stable path v' w' st invariant
          (invariant.ready_nodes ready hv hw left right ne) g mem

end Stable

/-- The region is closed in every graph that a join goes through. -/
theorem stable_joinWithin (limit budget : Nat) (path : List String) (v w : Value) :
    Stable r (.join v w) (joinWithin limit budget path v w) := by
  have runs (budget : Nat) (path : List String) (v w : Value) :
      Executes r (.join v w) id (joinWithin limit budget path v w).run := by
    rw [run_joinWithin]
    exact executes_joinWithin limit budget path v w
  induction budget generalizing path v w with
  | zero =>
    intro st _ _ g mem
    obtain ⟨st', _, ran, mem⟩ := mem_graphs_quiet mem
    cases ran
    cases known : st.joined.lookup (v, w) with
    | some u =>
      rw [known] at mem
      cases mem
    | none =>
      rw [known] at mem
      cases mem
  | succ budget ih =>
    intro st invariant ready g mem
    obtain ⟨st', _, ran, mem⟩ := mem_graphs_quiet mem
    cases ran
    cases known : st.joined.lookup (v, w) with
    | some u =>
      rw [known] at mem
      cases mem
    | none =>
      rw [known] at mem
      rcases mem_graphs_bind mem with mem | ⟨u, st₁, _, mem⟩
      · exact stable_joinValues (runs budget) ih path v w st invariant ready g mem
      · obtain ⟨_, _, _, mem⟩ := mem_graphs_quiet mem
        cases mem

end FeatureLogic.Traced
