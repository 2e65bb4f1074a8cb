import FeatureLogic.Proofs.Join.Derivation
import FeatureLogic.Proofs.Join.Region

/-!
# What every join keeps

A join that starts in a closed region ends in one, identifies nothing less than before, and gives
a value that both its operands have been identified with, as far as these are structures or atoms.
What a variable stands for is not part of this, because while an alias carries its value over the
outcomes known for it hold only in prospect. A failed join has left the nodes before the region as
they were.
-/

namespace FeatureLogic

namespace Join

structure Blends (g : Graph) (v w u : Value) : Prop where
  left : v = .unspecified → u = w
  right : w = .unspecified → u = v
  informed : v ≠ .unspecified → w ≠ .unspecified → u ≠ .unspecified
  concrete : v.Informative → w.Informative → u.Informative ∧ g.Same v u ∧ g.Same w u

theorem Blends.mono {g h : Graph} (forward : ∀ {v w}, g.forward? v = some w → h.forward? v = some w)
    {v w u : Value} (blends : Blends g v w u) : Blends h v w u where
  left := blends.left
  right := blends.right
  informed := blends.informed
  concrete hv hw :=
    have ⟨informative, left, right⟩ := blends.concrete hv hw
    ⟨informative, left.mono forward, right.mono forward⟩

/-- Is the region closed, and do the known outcomes belong to their operands? -/
structure Invariant (r : Region) (st : JoinState) : Prop where
  closed : r.Closed st.graph
  joined : ∀ {v w u}, ((v, w), u) ∈ st.joined → r.Has u ∧ Blends st.graph v w u

def Task.Ready (r : Region) (g : Graph) : Task → Prop
  | .join v w => r.Has v ∧ r.Has w
  | .merge v w => r.Has v ∧ r.Has w
  | .nodes v w => r.Has v ∧ r.Has w ∧ v ≠ .unspecified ∧ w ≠ .unspecified ∧
      g.forward? v = none ∧ g.forward? w = none ∧ v ≠ w
  | .bind x v => r.Has (.var x) ∧ r.Has v ∧ v.Informative
  | .takeOver s entries => r.Has (.struct s) ∧ ∀ e ∈ entries, r.Has e.2

def Task.Done (g h : Graph) (u : Value) : Task → Prop
  | .join v w => Blends h v w u ∧ (v = .unspecified → h = g)
  | .merge v w => Blends h v w u ∧ (v = .unspecified → h = g)
  | .nodes v w => Blends h v w u
  | .bind x v => u.Informative ∧ h.Same v u ∧ ∃ root,
      Relation.ReflTransGen h.Forwards (.var x) (.var root) ∧ h.content? (.var root) = some u
  | .takeOver _ _ => True

structure Success (r : Region) (task : Task) (st : JoinState) (u : Value) (st' : JoinState) :
    Prop where
  invariant : Invariant r st'
  has : r.Has u
  grows : st.graph.GrowsTo st'.graph
  done : task.Done st.graph st'.graph u

def Keeps (r : Region) (task : Task) (st : JoinState) (out : Except Failure Value)
    (st' : JoinState) : Prop :=
  Invariant r st → task.Ready r st.graph →
    match out with
    | .ok u => Success r task st u st'
    | .error _ => r.Frames st'.graph

variable {r : Region} {st st' st₁ st₂ : JoinState} {out : Except Failure Value}

theorem Invariant.write {f : Graph → Graph} (invariant : Invariant r st)
    (closed : r.Closed (f st.graph))
    (forward : ∀ {v w}, st.graph.forward? v = some w → (f st.graph).forward? v = some w) :
    Invariant r (st.write f) where
  closed := closed
  joined mem :=
    have ⟨has, blends⟩ := invariant.joined mem
    ⟨has, blends.mono forward⟩

theorem keeps_miss {v w u : Value} (ih : Keeps r (.merge v w) st (.ok u) st') :
    Keeps r (.join v w) st (.ok u) (st'.remember v w u) := by
  intro invariant ready
  obtain ⟨invariant', has, grows, blends, same⟩ := ih invariant ready
  refine ⟨⟨by simpa using invariant'.closed, fun mem => ?_⟩, has, by simpa using grows,
    by simpa using blends, by simpa using same⟩
  rcases JoinState.mem_remember mem with h | mem
  · cases h
    exact ⟨has, by simpa using blends⟩
  · simpa using invariant'.joined mem

theorem keeps_same {v w u : Value} (hv : v ≠ .unspecified) (hw : w ≠ .unspecified)
    (left : st.graph.Resolves v u) (right : st.graph.Resolves w u) :
    Keeps r (.merge v w) st (.ok u) st := by
  intro invariant ready
  refine ⟨invariant, invariant.closed.has_of_path ready.1 left.path, .refl _, ⟨?_, ?_, ?_, ?_⟩,
    fun h => absurd h hv⟩
  · exact fun h => absurd h hv
  · exact fun h => absurd h hw
  · exact fun h _ => mt left.eq_unspecified_iff.1 h
  · exact fun h _ => ⟨left.informative_iff.2 h, left.same, right.same⟩

theorem Invariant.ready_nodes {v w v' w' : Value} (invariant : Invariant r st)
    (ready : (Task.merge v w).Ready r st.graph) (hv : v ≠ .unspecified) (hw : w ≠ .unspecified)
    (left : st.graph.Resolves v v') (right : st.graph.Resolves w w') (ne : v' ≠ w') :
    (Task.nodes v' w').Ready r st.graph :=
  ⟨invariant.closed.has_of_path ready.1 left.path, invariant.closed.has_of_path ready.2 right.path,
    mt left.eq_unspecified_iff.1 hv, mt right.eq_unspecified_iff.1 hw, left.stops, right.stops, ne⟩

theorem keeps_nodes {v w v' w' : Value} (hv : v ≠ .unspecified) (hw : w ≠ .unspecified)
    (left : st.graph.Resolves v v') (right : st.graph.Resolves w w') (ne : v' ≠ w')
    (ih : Keeps r (.nodes v' w') st out st') : Keeps r (.merge v w) st out st' := by
  intro invariant ready
  have ready' := invariant.ready_nodes ready hv hw left right ne
  have ⟨_, _, hv', hw', _⟩ := ready'
  have result := ih invariant ready'
  cases out with
  | error f => exact result
  | ok u =>
    obtain ⟨invariant', has, grows, blends⟩ := result
    refine ⟨invariant', has, grows, ⟨?_, ?_, ?_, ?_⟩, fun h => absurd h hv⟩
    · exact fun h => absurd h hv
    · exact fun h => absurd h hw
    · exact fun _ _ => blends.informed hv' hw'
    · intro informative informative'
      obtain ⟨result, same, same'⟩ :=
        blends.concrete (left.informative_iff.2 informative) (right.informative_iff.2 informative')
      exact ⟨result, (grows.same left.same).trans same, (grows.same right.same).trans same'⟩

theorem blends_var {g : Graph} {v w : Value} {x : VarId} (hv : v ≠ .unspecified)
    (hw : w ≠ .unspecified) (var : v = .var x ∨ w = .var x) : Blends g v w (.var x) where
  left h := absurd h hv
  right h := absurd h hw
  informed _ _ h := by cases h
  concrete hv hw := by
    rcases var with rfl | rfl
    · exact hv.elim
    · exact hw.elim

theorem keeps_link {x y : VarId} (free : st.graph.content? (.var x) = none) :
    Keeps r (.nodes (.var x) (.var y)) st (.ok (.var y))
      (st.write (·.setBinding x (.link y))) := by
  intro invariant ⟨hasX, hasY, hx, hy, rootX, rootY, ne⟩
  have grows : st.graph.GrowsTo (st.graph.setBinding x (.link y)) := .link rootX free
  exact ⟨invariant.write (invariant.closed.link hasX hasY rootY (by simpa using ne)) grows.forward,
    hasY, grows, blends_var hx hy (.inr rfl)⟩

theorem Invariant.carry {x y : VarId} {c : Value} (invariant : Invariant r st)
    (ready : (Task.nodes (.var x) (.var y)).Ready r st.graph)
    (held : st.graph.content? (.var x) = some c) :
    Invariant r (st.write (·.setBinding x (.link y))) ∧
      (Task.bind y c).Ready r (st.graph.setBinding x (.link y)) := by
  obtain ⟨hasX, hasY, -, -, rootX, rootY, ne⟩ := ready
  obtain ⟨hasC, informative⟩ := invariant.closed.content hasX held
  have closed : r.Closed (st.graph.setBinding x (.link y)) :=
    invariant.closed.link hasX hasY rootY (by simpa using ne)
  exact ⟨invariant.write closed (Graph.forward?_setBinding_of_root rootX _),
    hasY, hasC, informative⟩

theorem keeps_carry {x y : VarId} {c : Value} (held : st.graph.content? (.var x) = some c)
    (ih : Keeps r (.bind y c) (st.write (·.setBinding x (.link y))) out st') :
    Keeps r (.nodes (.var x) (.var y)) st (out.map fun _ => .var y) st' := by
  intro invariant ready
  obtain ⟨invariant₁, ready₁⟩ := invariant.carry ready held
  obtain ⟨hasX, hasY, hx, hy, rootX, -⟩ := ready
  have linked := invariant.closed.forward?_link hasX y
  have result := ih invariant₁ ready₁
  cases out with
  | error f => exact result
  | ok u =>
    obtain ⟨invariant', _, grows, _, same, root, path, content⟩ := result
    refine ⟨invariant', hasY, ⟨grows.structCount, ?_, ?_, ?_, ?_⟩, blends_var hx hy (.inr rfl)⟩
    · simpa using grows.varCount
    · simpa using grows.name
    · exact fun step => grows.forward (Graph.forward?_setBinding_of_root rootX _ step)
    · intro v c' held'
      by_cases h : v = .var x
      · -- what `x` held is held at the end of the chain of `y` now
        subst h
        cases held.symm.trans held'
        exact ⟨.var root, u, .head (grows.forward linked) path, content, same⟩
      · refine grows.content ?_
        rw [JoinState.graph_write, Graph.content?_setBinding, if_neg h]
        exact held'

theorem informative_of_ready {v : Value} (hv : v ≠ .unspecified) (notVar : ∀ y, v ≠ .var y) :
    v.Informative := by
  cases v with
  | atom a => exact fun h => hv (congrArg Value.atom h)
  | struct s => trivial
  | var y => exact notVar y rfl

theorem keeps_bindLeft {x : VarId} {v : Value} (ih : Keeps r (.bind x v) st out st')
    (notVar : ∀ y, v ≠ .var y) : Keeps r (.nodes (.var x) v) st (out.map fun _ => .var x) st' := by
  intro invariant ⟨hasX, hasV, hx, hv, _⟩
  have result := ih invariant ⟨hasX, hasV, informative_of_ready hv notVar⟩
  cases out with
  | error f => exact result
  | ok u => exact ⟨result.invariant, hasX, result.grows, blends_var hx hv (.inl rfl)⟩

theorem keeps_bindRight {y : VarId} {v : Value} (ih : Keeps r (.bind y v) st out st')
    (notVar : ∀ x, v ≠ .var x) : Keeps r (.nodes v (.var y)) st (out.map fun _ => .var y) st' := by
  intro invariant ⟨hasV, hasY, hv, hy, _⟩
  have result := ih invariant ⟨hasY, hasV, informative_of_ready hv notVar⟩
  cases out with
  | error f => exact result
  | ok u => exact ⟨result.invariant, hasY, result.grows, blends_var hv hy (.inr rfl)⟩

theorem Invariant.absorb {s t : StructId} (invariant : Invariant r st)
    (ready : (Task.nodes (.struct s) (.struct t)).Ready r st.graph) :
    Invariant r (st.write (·.absorb s t)) := by
  obtain ⟨hasS, hasT, -, -, liveS, liveT, ne⟩ := ready
  exact invariant.write (invariant.closed.absorb hasS hasT liveS (by simpa using ne))
    (Graph.GrowsTo.absorb liveT).forward

theorem ready_takeOver {s t : StructId} {m : NameMap Value} (closed : r.Closed st.graph)
    (hasS : r.Has (.struct s)) (hasT : r.Has (.struct t)) (found : st.graph.features? t = some m)
    {h : Graph} : (Task.takeOver s m.entries).Ready r h :=
  ⟨hasS, fun _ mem => closed.feature hasT found (m.get?_eq_some_iff.2 mem)⟩

theorem keeps_absorb {s t u : StructId} {m : NameMap Value}
    (found : st.graph.features? t = some m)
    (ih : Keeps r (.takeOver s m.entries) (st.write (·.absorb s t)) (.ok (.struct s)) st')
    (survivor : st'.graph.Resolves (.struct s) (.struct u)) :
    Keeps r (.nodes (.struct s) (.struct t)) st (.ok (.struct u)) st' := by
  intro invariant ready
  obtain ⟨hasS, hasT, hs, ht, _, liveT, _⟩ := id ready
  obtain ⟨invariant', _, grows, -⟩ :=
    ih (invariant.absorb ready) (ready_takeOver invariant.closed hasS hasT found)
  have absorbed := invariant.closed.forward?_absorb hasT s
  refine ⟨invariant', invariant'.closed.has_of_path hasS survivor.path,
    (Graph.GrowsTo.absorb liveT).trans grows, ⟨?_, ?_, ?_, ?_⟩⟩
  · exact fun h => absurd h hs
  · exact fun h => absurd h ht
  · exact fun _ _ h => by cases h
  · exact fun _ _ => ⟨trivial, survivor.same,
      Graph.same_of_path (.head (grows.forward absorbed) survivor.path)⟩

theorem keeps_bindFree {x root : VarId} {v : Value}
    (resolves : st.graph.Resolves (.var x) (.var root))
    (free : st.graph.content? (.var root) = none) :
    Keeps r (.bind x v) st (.ok v) (st.write (·.setBinding root (.bound v))) := by
  intro invariant ⟨hasX, hasV, informative⟩
  have hasRoot := invariant.closed.has_of_path hasX resolves.path
  have grows : st.graph.GrowsTo (st.graph.setBinding root (.bound v)) :=
    .bind resolves.stops fun c held => by
      rw [free] at held
      cases held
  refine ⟨invariant.write (invariant.closed.bind hasRoot resolves.stops hasV informative)
    grows.forward, hasV, grows, informative, .refl _ v, root, grows.path resolves.path, ?_⟩
  obtain ⟨node, found⟩ := invariant.closed.exists_var hasRoot
  simp [Graph.content?_setBinding, found, Binding.value?]

/-- What the root of a variable holds after a join of its old value is identified with the
outcome, so that this may take its place. -/
theorem same_content {g h : Graph} {root root' : VarId} {c c' u : Value} (grows : g.GrowsTo h)
    (held : g.content? (.var root) = some c) (resolves : h.Resolves (.var root) (.var root'))
    (same : h.Same c u) (held' : h.content? (.var root') = some c') : h.Same c' u := by
  obtain ⟨w, d, path, content, same'⟩ := grows.content held
  have root : w = .var root' :=
    Graph.eq_of_path_of_stops
      ((Graph.Same.symm (Graph.same_of_path path)).trans resolves.same |>.path_of_stops
        resolves.stops) (Graph.forward?_of_content? content) |>.symm
  subst root
  cases content.symm.trans held'
  exact same'.symm.trans same

theorem keeps_bindBound {x root root' : VarId} {v c u : Value}
    (resolves : st.graph.Resolves (.var x) (.var root))
    (held : st.graph.content? (.var root) = some c) (ih : Keeps r (.join c v) st (.ok u) st')
    (resolves' : st'.graph.Resolves (.var root) (.var root')) :
    Keeps r (.bind x v) st (.ok u) (st'.write (·.setBinding root' (.bound u))) := by
  intro invariant ⟨hasX, hasV, informative⟩
  have hasRoot := invariant.closed.has_of_path hasX resolves.path
  obtain ⟨hasC, informative'⟩ := invariant.closed.content hasRoot held
  obtain ⟨invariant', hasU, grows, blends, -⟩ := ih invariant ⟨hasC, hasV⟩
  obtain ⟨result, sameC, sameV⟩ := blends.concrete informative' informative
  have hasRoot' := invariant'.closed.has_of_path hasRoot resolves'.path
  have rebinds : st'.graph.GrowsTo (st'.graph.setBinding root' (.bound u)) :=
    .bind resolves'.stops fun c' held' => same_content grows held resolves' sameC held'
  refine ⟨invariant'.write (invariant'.closed.bind hasRoot' resolves'.stops hasU result)
    rebinds.forward, hasU, grows.trans rebinds, result, rebinds.same sameV, root',
    rebinds.path ((grows.path resolves.path).trans resolves'.path), ?_⟩
  obtain ⟨node, found⟩ := invariant'.closed.exists_var hasRoot'
  simp [Graph.content?_setBinding, found, Binding.value?]

theorem has_getD {g : Graph} (closed : r.Closed g) {s : StructId} (has : r.Has (.struct s))
    {m : NameMap Value} (found : g.features? s = some m) (name : String) :
    r.Has ((m.get? name).getD .unspecified) := by
  cases holds : m.get? name with
  | none => trivial
  | some v => exact closed.feature has found holds

theorem keeps_feature {s target target' : StructId} {name : String} {theirs u : Value}
    {rest : List (String × Value)} {m : NameMap Value}
    (resolves : st.graph.Resolves (.struct s) (.struct target))
    (found : st.graph.features? target = some m)
    (ih : Keeps r (.join ((m.get? name).getD .unspecified) theirs) st (.ok u) st₁)
    (resolves' : st₁.graph.Resolves (.struct s) (.struct target'))
    (ihRest : Keeps r (.takeOver s rest) (st₁.write (·.setFeature target' name u)) out st₂) :
    Keeps r (.takeOver s ((name, theirs) :: rest)) st out st₂ := by
  intro invariant ⟨has, entries⟩
  have hasTarget := invariant.closed.has_of_path has resolves.path
  obtain ⟨invariant₁, hasU, grows, -⟩ := ih invariant
    ⟨has_getD invariant.closed hasTarget found name, entries _ List.mem_cons_self⟩
  have sets := Graph.GrowsTo.setFeature st₁.graph target' name u
  have result := ihRest
    (invariant₁.write (invariant₁.closed.setFeature
      (invariant₁.closed.has_of_path has resolves'.path) name hasU) sets.forward)
    ⟨has, fun e mem => entries e (List.mem_cons_of_mem _ mem)⟩
  cases out with
  | error f => exact result
  | ok u' =>
    obtain ⟨invariant₂, has', grows', -⟩ := result
    exact ⟨invariant₂, has', (grows.trans sets).trans grows', trivial⟩

/-- Every task keeps its guarantee. -/
theorem Runs.keeps {task : Task} (run : Runs task st out st') : Keeps r task st out st' := by
  induction run with
  | hit known =>
    intro invariant _
    obtain ⟨has, blends⟩ := invariant.joined known
    exact ⟨invariant, has, .refl _, blends, fun _ => rfl⟩
  | tooDeep => exact fun invariant _ => invariant.closed.frames
  | miss _ ih => exact keeps_miss ih
  | abandon _ ih => exact ih
  | left =>
    intro invariant ready
    exact ⟨invariant, ready.2, .refl _, ⟨fun _ => rfl, id, fun h => absurd rfl h,
      fun h => absurd rfl h⟩, fun _ => rfl⟩
  | right hv =>
    intro invariant ready
    exact ⟨invariant, ready.1, .refl _, ⟨fun h => absurd h hv, fun _ => rfl,
      fun _ h => absurd rfl h, fun _ h => absurd rfl h⟩, fun h => absurd h hv⟩
  | same hv hw left right => exact keeps_same hv hw left right
  | nodes hv hw left right ne _ ih => exact keeps_nodes hv hw left right ne ih
  | clash => exact fun invariant _ => invariant.closed.frames
  | link free => exact keeps_link free
  | carry held _ ih => exact keeps_carry held ih
  | bindLeft notVar _ ih => exact keeps_bindLeft ih notVar
  | bindRight notVar _ ih => exact keeps_bindRight ih notVar
  | absorb found _ survivor ih => exact keeps_absorb found ih survivor
  | absorbFails found _ ih =>
    intro invariant ready
    exact ih (invariant.absorb ready)
      (ready_takeOver invariant.closed ready.1 ready.2.1 found)
  | bindFree resolves free => exact keeps_bindFree resolves free
  | bindBound resolves held _ resolves' ih => exact keeps_bindBound resolves held ih resolves'
  | bindFails resolves held _ ih =>
    intro invariant ⟨hasX, hasV, _⟩
    have hasRoot := invariant.closed.has_of_path hasX resolves.path
    exact ih invariant ⟨(invariant.closed.content hasRoot held).1, hasV⟩
  | done => exact fun invariant ready => ⟨invariant, ready.1, .refl _, trivial⟩
  | feature resolves found _ resolves' _ ih ihRest =>
    exact keeps_feature resolves found ih resolves' ihRest
  | featureFails resolves found _ ih =>
    intro invariant ⟨has, entries⟩
    have hasTarget := invariant.closed.has_of_path has resolves.path
    exact ih invariant
      ⟨has_getD invariant.closed hasTarget found _, entries _ List.mem_cons_self⟩

end Join

end FeatureLogic
