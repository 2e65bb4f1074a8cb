import FeatureLogic.Proofs.Join.Invariance

/-!
# What is remembered of a join

An outcome may be looked up long after it was kept, when its operands have been absorbed or bound
to something else. It is still what joining the operands again would give: two variables have
become aliases, and a variable that met a structure or an atom holds that value, or what the value
was identified with since. There is one moment at which this is not so: while an alias hands its
value over, the other variable does not hold it yet. It is then the first thing that the task at
hand brings about, so what is remembered is right before anything else is looked up.
-/

namespace FeatureLogic

namespace Graph

variable {g h : Graph} {v w c : Value}

theorem contains_of_content? (held : g.content? v = some c) : g.Contains v := by
  cases v with
  | atom a => trivial
  | struct s => cases held
  | var x =>
    obtain ⟨node, found, -⟩ := content?_var_eq_some.1 held
    exact contains_of_var? found

def BoundTo (g : Graph) (v c : Value) : Prop :=
  ∃ root held, g.Resolves v root ∧ g.content? root = some held ∧ g.Same held c

theorem BoundTo.mono (grows : g.GrowsTo h) : g.BoundTo v c → h.BoundTo v c := by
  rintro ⟨root, old, resolves, held, same⟩
  obtain ⟨root', new, path, held', same'⟩ := grows.content held
  have resolves' : h.Resolves v root' :=
    ⟨(grows.path resolves.path).trans path, forward?_of_content? held',
      contains_of_content? held'⟩
  exact ⟨root', new, resolves', held', same'.symm.trans (grows.same same)⟩

theorem BoundTo.congr {v' c' : Value} (left : g.Same v v') (right : g.Same c c') :
    g.BoundTo v' c' → g.BoundTo v c :=
  fun ⟨root, held, resolves, content, same⟩ =>
    ⟨root, held, left.resolves resolves, content, same.trans right.symm⟩

end Graph

namespace Join

def Task.Awaits (g : Graph) (v w : Value) : Task → Prop
  | .join p q | .merge p q | .nodes p q =>
    p.Informative ∧ q.Informative ∧ g.BoundTo v p ∧ g.Same q w
  | .bind x c => g.Same v (.var x) ∧ g.Same c w
  | .takeOver _ _ => False

def Task.Expects (g : Graph) (task : Task) (v w : Value) : Prop :=
  g.BoundTo v w ∨ task.Awaits g v w

/-- Is `u` what joining `v` and `w` again would give? `bound` tells which variables hold which
values. -/
structure Recalled (g : Graph) (bound : Value → Value → Prop) (v w u : Value) : Prop where
  aliased : ∀ {x y}, v = .var x → w = .var y → g.Same v w ∧ g.Same u w
  left : ∀ {x}, v = .var x → w.Informative → g.Same u v ∧ bound v w
  right : ∀ {y}, w = .var y → v.Informative → g.Same u w ∧ bound w v

def Remembers (g : Graph) (bound : Value → Value → Prop)
    (joined : List ((Value × Value) × Value)) : Prop :=
  ∀ v w u, ((v, w), u) ∈ joined → Recalled g bound v w u

section Recalled

variable {g h : Graph} {bound bound' : Value → Value → Prop} {v w u : Value}

theorem Recalled.mono (same : ∀ {v w}, g.Same v w → h.Same v w)
    (keeps : ∀ {v w}, bound v w → bound' v w) (recalled : Recalled g bound v w u) :
    Recalled h bound' v w u where
  aliased hv hw := (recalled.aliased hv hw).imp same same
  left hv hw := (recalled.left hv hw).imp same keeps
  right hw hv := (recalled.right hw hv).imp same keeps

theorem recalled_of_notVar (hv : ∀ x, v ≠ .var x) (hw : ∀ y, w ≠ .var y) :
    Recalled g bound v w u :=
  ⟨fun h => absurd h (hv _), fun h => absurd h (hv _), fun h => absurd h (hw _)⟩

theorem Recalled.of_resolves (grows : g.GrowsTo h) {v' w' : Value} (left : g.Resolves v v')
    (right : g.Resolves w w') (recalled : Recalled h h.BoundTo v' w' u) :
    Recalled h h.BoundTo v w u where
  aliased := by
    rintro x y rfl rfl
    obtain ⟨x', rfl⟩ := Graph.path_var left.path
    obtain ⟨y', rfl⟩ := Graph.path_var right.path
    have ⟨same, same'⟩ := recalled.aliased rfl rfl
    have sameX := grows.same left.same
    have sameY := grows.same right.same
    exact ⟨(sameX.trans same).trans sameY.symm, same'.trans sameY.symm⟩
  left := by
    rintro x rfl hw
    obtain ⟨x', rfl⟩ := Graph.path_var left.path
    have ⟨same, bound⟩ := recalled.left rfl (right.informative_iff.2 hw)
    have sameX := grows.same left.same
    exact ⟨same.trans sameX.symm, bound.congr sameX (grows.same right.same)⟩
  right := by
    rintro y rfl hv
    obtain ⟨y', rfl⟩ := Graph.path_var right.path
    have ⟨same, bound⟩ := recalled.right rfl (left.informative_iff.2 hv)
    have sameY := grows.same right.same
    exact ⟨same.trans sameY.symm, bound.congr sameY (grows.same left.same)⟩

theorem Remembers.mono (same : ∀ {v w}, g.Same v w → h.Same v w)
    (keeps : ∀ {v w}, bound v w → bound' v w) {joined : List ((Value × Value) × Value)}
    (remembers : Remembers g bound joined) : Remembers h bound' joined :=
  fun v w u mem => (remembers v w u mem).mono same keeps

theorem Remembers.grow (grows : g.GrowsTo h) {joined : List ((Value × Value) × Value)}
    (remembers : Remembers g g.BoundTo joined) : Remembers h h.BoundTo joined :=
  remembers.mono grows.same (Graph.BoundTo.mono grows)

theorem Remembers.remember {st : JoinState} (remembers : Remembers g g.BoundTo st.joined)
    (recalled : Recalled g g.BoundTo v w u) : Remembers g g.BoundTo (st.remember v w u).joined := by
  intro v' w' u' mem
  rcases JoinState.mem_remember mem with new | old
  · cases new
    exact recalled
  · exact remembers v' w' u' old

theorem recalled_of_unspecified (nothing : v = .unspecified ∨ w = .unspecified) :
    Recalled g bound v w u := by
  rcases nothing with rfl | rfl
  · exact ⟨nofun, nofun, fun _ said => absurd rfl said⟩
  · exact ⟨nofun, fun _ said => absurd rfl said, nofun⟩

theorem recalled_of_same (left : g.Resolves v u) (right : g.Resolves w u) :
    Recalled g bound v w u where
  aliased _ _ := ⟨left.same.trans right.same.symm, right.same.symm⟩
  left := by
    rintro x rfl hw
    obtain ⟨y, rfl⟩ := Graph.path_var left.path
    exact (right.informative_iff.2 hw).elim
  right := by
    rintro y rfl hv
    obtain ⟨x, rfl⟩ := Graph.path_var right.path
    exact (left.informative_iff.2 hv).elim

end Recalled

section Expects

variable {r : Region} {g h : Graph} {p q v w : Value} {task : Task}

def Task.Joins (p q : Value) (task : Task) : Prop :=
  task = .join p q ∨ task = .merge p q ∨ task = .nodes p q

theorem Task.Expects.boundTo (joins : task.Joins p q)
    (same : p.Informative → q.Informative → g.Same p q) (expects : task.Expects g v w) :
    g.BoundTo v w := by
  cases expects with
  | inl bound => exact bound
  | inr awaits =>
    have ⟨hp, hq, bound, same'⟩ : p.Informative ∧ q.Informative ∧ g.BoundTo v p ∧ g.Same q w := by
      rcases joins with rfl | rfl | rfl <;> exact awaits
    exact bound.congr (.refl g v) (same'.symm.trans (same hp hq).symm)

theorem Task.Expects.nodes {p' q' : Value} (left : g.Resolves p p') (right : g.Resolves q q')
    (expects : (Task.merge p q).Expects g v w) : (Task.nodes p' q').Expects g v w := by
  cases expects with
  | inl bound => exact .inl bound
  | inr awaits =>
    obtain ⟨hp, hq, bound, same⟩ := awaits
    exact .inr ⟨left.informative_iff.2 hp, right.informative_iff.2 hq,
      bound.congr (.refl g v) left.same.symm, right.same.symm.trans same⟩

theorem Task.Expects.join {x root : VarId} {c : Value} (closed : r.Closed g)
    (has : r.Has (.var x)) (resolves : g.Resolves (.var x) (.var root))
    (held : g.content? (.var root) = some c) (informative : p.Informative)
    (expects : (Task.bind x p).Expects g v w) : (Task.join c p).Expects g v w := by
  cases expects with
  | inl bound => exact .inl bound
  | inr awaits =>
    have hasRoot := closed.has_of_path has resolves.path
    have said := (closed.content hasRoot held).2
    exact .inr ⟨said, informative, ⟨.var root, c, awaits.1.resolves resolves, held, .refl g c⟩,
      awaits.2⟩

theorem expects_of_boundTo {x y : VarId} {c : Value} (closed : r.Closed g) (has : r.Has (.var x))
    (held : g.content? (.var x) = some c) (bound : g.BoundTo v w) :
    (Task.bind y c).Expects (g.setBinding x (.link y)) v w := by
  have grows {a b : Value} (step : g.forward? a = some b) :
      (g.setBinding x (.link y)).forward? a = some b :=
    Graph.forward?_setBinding_of_root (Graph.forward?_of_content? held) _ step
  obtain ⟨root, d, resolves, held', same⟩ := bound
  have path := Relation.ReflTransGen.mono (r := g.Forwards)
    (p := (g.setBinding x (.link y)).Forwards) (fun _ _ step => grows step) _ _ resolves.path
  by_cases h : root = .var x
  · subst h
    cases held.symm.trans held'
    have linked := Graph.same_of_path (.single (closed.forward?_link has y))
    exact .inr ⟨(Graph.same_of_path path).trans linked, same.mono grows⟩
  · refine .inl ⟨root, d, ⟨path, ?_, resolves.contains.mono (by simp) (by simp)⟩, ?_,
      same.mono grows⟩
    · rw [Graph.forward?_setBinding, if_neg h, resolves.stops]
    · rw [Graph.content?_setBinding, if_neg h, held']

variable {joined : List ((Value × Value) × Value)}

theorem Remembers.settle (joins : task.Joins p q)
    (same : p.Informative → q.Informative → g.Same p q)
    (remembers : Remembers g (task.Expects g) joined) : Remembers g g.BoundTo joined :=
  remembers.mono id (Task.Expects.boundTo joins same)

theorem Remembers.start (task : Task) (remembers : Remembers g g.BoundTo joined) :
    Remembers g (task.Expects g) joined :=
  remembers.mono id .inl

theorem Remembers.settle_var {x : VarId} (one : p = .var x ∨ q = .var x)
    (remembers : Remembers g ((Task.nodes p q).Expects g) joined) :
    Remembers g g.BoundTo joined := by
  refine remembers.settle (.inr (.inr rfl)) fun hp hq => ?_
  rcases one with rfl | rfl
  · exact hp.elim
  · exact hq.elim

theorem Remembers.settle_takeOver {s : StructId} {entries : List (String × Value)}
    (remembers : Remembers g ((Task.takeOver s entries).Expects g) joined) :
    Remembers g g.BoundTo joined :=
  remembers.mono id fun expects => expects.resolve_right id

theorem Remembers.carry {x y : VarId} {c : Value} (closed : r.Closed g) (has : r.Has (.var x))
    (held : g.content? (.var x) = some c)
    (remembers : Remembers g ((Task.nodes (.var x) (.var y)).Expects g) joined) :
    Remembers (g.setBinding x (.link y))
      ((Task.bind y c).Expects (g.setBinding x (.link y))) joined :=
  (remembers.settle_var (.inl rfl)).mono
    (Graph.Same.mono (Graph.forward?_setBinding_of_root (Graph.forward?_of_content? held) _))
    (expects_of_boundTo closed has held)

/-- Whatever is awaited of two structures has come true when one has absorbed the other. -/
theorem Remembers.absorb {s t : StructId} (closed : r.Closed g) (has : r.Has (.struct t))
    (live : g.forward? (.struct t) = none)
    (remembers : Remembers g ((Task.nodes (.struct s) (.struct t)).Expects g) joined) :
    Remembers (g.absorb s t) (g.absorb s t).BoundTo joined := by
  have grows : g.GrowsTo (g.absorb s t) := .absorb live
  have same : (g.absorb s t).Same (.struct s) (.struct t) :=
    (Graph.same_of_path (.single (closed.forward?_absorb has s))).symm
  refine remembers.mono grows.same fun {v w} expects => ?_
  cases expects with
  | inl bound => exact bound.mono grows
  | inr awaits =>
    have ⟨_, _, bound, same'⟩ := awaits
    exact (bound.mono grows).congr (.refl _ v) ((grows.same same').symm.trans same.symm)

end Expects

def Task.Recalls (h : Graph) (u : Value) : Task → Prop
  | .join v w | .merge v w | .nodes v w => Recalled h h.BoundTo v w u
  | .bind _ _ | .takeOver _ _ => True

structure Recollected (task : Task) (u : Value) (st : JoinState) : Prop where
  remembers : Remembers st.graph st.graph.BoundTo st.joined
  recalls : task.Recalls st.graph u

def Recollects (r : Region) (task : Task) (st : JoinState) (out : Except Failure Value)
    (st' : JoinState) : Prop :=
  ∀ u, out = .ok u → Invariant r st → task.Ready r st.graph →
    Remembers st.graph (task.Expects st.graph) st.joined → Recollected task u st'

section Recollects

variable {r : Region} {st st' st₁ st₂ : JoinState} {out : Except Failure Value}

theorem recollects_hit {v w u : Value} (known : ((v, w), u) ∈ st.joined) :
    Recollects r (.join v w) st (.ok u) st := by
  rintro _ ⟨⟩ invariant _ remembers
  have blends := (invariant.joined known).2
  have same (hv : v.Informative) (hw : w.Informative) : st.graph.Same v w :=
    (blends.concrete hv hw).2.1.trans (blends.concrete hv hw).2.2.symm
  have settled := remembers.settle (.inl rfl) same
  exact ⟨settled, settled v w u known⟩

theorem recollects_miss {v w u : Value} (ih : Recollects r (.merge v w) st (.ok u) st') :
    Recollects r (.join v w) st (.ok u) (st'.remember v w u) := by
  rintro _ ⟨⟩ invariant ready remembers
  obtain ⟨remembers', recalls⟩ := ih u rfl invariant ready remembers
  constructor
  · rw [JoinState.graph_remember]
    exact remembers'.remember recalls
  · rw [JoinState.graph_remember]
    exact recalls

theorem recollects_still {p q : Value} {task : Task} {u : Value} (joins : task.Joins p q)
    (same : p.Informative → q.Informative → st.graph.Same p q)
    (recalls : task.Recalls st.graph u) : Recollects r task st (.ok u) st := by
  rintro _ ⟨⟩ _ _ remembers
  exact ⟨remembers.settle joins same, recalls⟩

theorem recollects_nodes {v w v' w' : Value} (hv : v ≠ .unspecified) (hw : w ≠ .unspecified)
    (left : st.graph.Resolves v v') (right : st.graph.Resolves w w') (ne : v' ≠ w')
    (run : Runs (.nodes v' w') st out st') (ih : Recollects r (.nodes v' w') st out st') :
    Recollects r (.merge v w) st out st' := by
  rintro u rfl invariant ready remembers
  have ready' := invariant.ready_nodes ready hv hw left right ne
  have success : Success r _ st u st' := run.keeps invariant ready'
  obtain ⟨remembers', recalls⟩ :=
    ih u rfl invariant ready' (remembers.mono id (Task.Expects.nodes left right))
  exact ⟨remembers', recalls.of_resolves success.grows left right⟩

theorem recollects_link {x y : VarId} (free : st.graph.content? (.var x) = none) :
    Recollects r (.nodes (.var x) (.var y)) st (.ok (.var y))
      (st.write (·.setBinding x (.link y))) := by
  rintro _ ⟨⟩ invariant ⟨hasX, _, _, _, rootX, _⟩ remembers
  refine ⟨(remembers.settle_var (.inl rfl)).grow (.link rootX free),
    fun _ _ => ⟨?_, .refl _ _⟩, fun _ h => h.elim, fun _ h => h.elim⟩
  exact Graph.same_of_path (.single (invariant.closed.forward?_link hasX y))

theorem recollects_carry {x y : VarId} {c : Value} (held : st.graph.content? (.var x) = some c)
    (run : Runs (.bind y c) (st.write (·.setBinding x (.link y))) out st')
    (ih : Recollects r (.bind y c) (st.write (·.setBinding x (.link y))) out st') :
    Recollects r (.nodes (.var x) (.var y)) st (out.map fun _ => .var y) st' := by
  intro u ok invariant ready remembers
  cases out with
  | error f => cases ok
  | ok b =>
    cases ok
    obtain ⟨invariant₁, ready₁⟩ := invariant.carry ready held
    have success : Success r _ _ b st' := run.keeps invariant₁ ready₁
    have remembers₁ := remembers.carry invariant.closed ready.1 held
    refine ⟨(ih b rfl invariant₁ ready₁ remembers₁).remembers, fun _ _ => ⟨?_, .refl _ _⟩,
      fun _ h => h.elim, fun _ h => h.elim⟩
    exact Graph.same_of_path
      (.single (success.grows.forward (invariant.closed.forward?_link ready.1 y)))

theorem Success.boundTo {x : VarId} {v u : Value} (success : Success r (.bind x v) st u st') :
    st'.graph.BoundTo (.var x) v := by
  obtain ⟨-, same, root, path, held⟩ := success.done
  have resolves : st'.graph.Resolves (.var x) (.var root) :=
    ⟨path, Graph.forward?_of_content? held, Graph.contains_of_content? held⟩
  exact ⟨.var root, u, resolves, held, same.symm⟩

theorem recollects_bindLeft {x : VarId} {v : Value} (notVar : ∀ y, v ≠ .var y)
    (run : Runs (.bind x v) st out st') (ih : Recollects r (.bind x v) st out st') :
    Recollects r (.nodes (.var x) v) st (out.map fun _ => .var x) st' := by
  intro u ok invariant ⟨hasX, hasV, _, hv, _⟩ remembers
  cases out with
  | error f => cases ok
  | ok b =>
    cases ok
    have ready' : (Task.bind x v).Ready r st.graph := ⟨hasX, hasV, informative_of_ready hv notVar⟩
    have remembers₁ := (remembers.settle_var (.inl rfl)).start (.bind x v)
    have success : Success r _ st b st' := run.keeps invariant ready'
    exact ⟨(ih b rfl invariant ready' remembers₁).remembers,
      fun _ h => absurd h (notVar _), fun _ _ => ⟨.refl _ _, success.boundTo⟩,
      fun h => absurd h (notVar _)⟩

theorem recollects_bindRight {y : VarId} {v : Value} (notVar : ∀ x, v ≠ .var x)
    (run : Runs (.bind y v) st out st') (ih : Recollects r (.bind y v) st out st') :
    Recollects r (.nodes v (.var y)) st (out.map fun _ => .var y) st' := by
  intro u ok invariant ⟨hasV, hasY, hv, _⟩ remembers
  cases out with
  | error f => cases ok
  | ok b =>
    cases ok
    have ready' : (Task.bind y v).Ready r st.graph := ⟨hasY, hasV, informative_of_ready hv notVar⟩
    have remembers₁ := (remembers.settle_var (.inr rfl)).start (.bind y v)
    have success : Success r _ st b st' := run.keeps invariant ready'
    exact ⟨(ih b rfl invariant ready' remembers₁).remembers,
      fun h => absurd h (notVar _), fun h => absurd h (notVar _),
      fun _ _ => ⟨.refl _ _, success.boundTo⟩⟩

theorem recollects_absorb {s t u : StructId} {m : NameMap Value}
    (found : st.graph.features? t = some m)
    (ih : Recollects r (.takeOver s m.entries) (st.write (·.absorb s t)) (.ok (.struct s)) st') :
    Recollects r (.nodes (.struct s) (.struct t)) st (.ok (.struct u)) st' := by
  rintro _ ⟨⟩ invariant ready remembers
  have ⟨hasS, hasT, _, _, _, liveT, _⟩ := ready
  have remembers₁ := remembers.absorb invariant.closed hasT liveT
  exact ⟨(ih _ rfl (invariant.absorb ready) (ready_takeOver invariant.closed hasS hasT found)
    (remembers₁.start _)).remembers, recalled_of_notVar (by simp) (by simp)⟩

theorem recollects_bindFree {x root : VarId} {v : Value}
    (resolves : st.graph.Resolves (.var x) (.var root))
    (free : st.graph.content? (.var root) = none) :
    Recollects r (.bind x v) st (.ok v) (st.write (·.setBinding root (.bound v))) := by
  rintro _ ⟨⟩ invariant ready remembers
  have run : Runs (.bind x v) st (.ok v) (st.write (·.setBinding root (.bound v))) :=
    .bindFree resolves free
  have success : Success r _ st v _ := run.keeps invariant ready
  refine ⟨remembers.mono success.grows.same fun {a b} expects => ?_, trivial⟩
  cases expects with
  | inl bound => exact bound.mono success.grows
  | inr awaits =>
    exact success.boundTo.congr (success.grows.same awaits.1) (success.grows.same awaits.2).symm

theorem recollects_bindBound {x root root' : VarId} {v c u : Value}
    (resolves : st.graph.Resolves (.var x) (.var root))
    (held : st.graph.content? (.var root) = some c) (run : Runs (.join c v) st (.ok u) st')
    (resolves' : st'.graph.Resolves (.var root) (.var root'))
    (ih : Recollects r (.join c v) st (.ok u) st') :
    Recollects r (.bind x v) st (.ok u) (st'.write (·.setBinding root' (.bound u))) := by
  rintro _ ⟨⟩ invariant ⟨hasX, hasV, informative⟩ remembers
  have hasRoot := invariant.closed.has_of_path hasX resolves.path
  obtain ⟨hasC, informative'⟩ := invariant.closed.content hasRoot held
  have success : Success r _ st u st' := run.keeps invariant ⟨hasC, hasV⟩
  have same := (success.done.1.concrete informative' informative).2.1
  have rebinds : st'.graph.GrowsTo (st'.graph.setBinding root' (.bound u)) :=
    .bind resolves'.stops fun c' held' => same_content success.grows held resolves' same held'
  have expects {a b : Value} (expects : (Task.bind x v).Expects st.graph a b) :
      (Task.join c v).Expects st.graph a b :=
    expects.join invariant.closed hasX resolves held informative
  have recollected := ih u rfl invariant ⟨hasC, hasV⟩ (remembers.mono id expects)
  exact ⟨recollected.remembers.grow rebinds, trivial⟩

theorem recollects_feature {s target target' : StructId} {name : String} {theirs u : Value}
    {rest : List (String × Value)} {m : NameMap Value}
    (resolves : st.graph.Resolves (.struct s) (.struct target))
    (found : st.graph.features? target = some m)
    (run : Runs (.join ((m.get? name).getD .unspecified) theirs) st (.ok u) st₁)
    (resolves' : st₁.graph.Resolves (.struct s) (.struct target'))
    (ih : Recollects r (.join ((m.get? name).getD .unspecified) theirs) st (.ok u) st₁)
    (ihRest : Recollects r (.takeOver s rest) (st₁.write (·.setFeature target' name u)) out st₂) :
    Recollects r (.takeOver s ((name, theirs) :: rest)) st out st₂ := by
  rintro u' rfl invariant ⟨has, entries⟩ remembers
  have hasTarget := invariant.closed.has_of_path has resolves.path
  have ready : (Task.join ((m.get? name).getD .unspecified) theirs).Ready r st.graph :=
    ⟨has_getD invariant.closed hasTarget found name, entries _ List.mem_cons_self⟩
  have success : Success r _ st u st₁ := run.keeps invariant ready
  have sets := Graph.GrowsTo.setFeature st₁.graph target' name u
  have invariant₁ : Invariant r (st₁.write (·.setFeature target' name u)) :=
    success.invariant.write (success.invariant.closed.setFeature
      (success.invariant.closed.has_of_path has resolves'.path) name success.has) sets.forward
  have settled := remembers.settle_takeOver
  have recollected := ih u rfl invariant ready (settled.start _)
  exact ⟨(ihRest u' rfl invariant₁ ⟨has, fun e mem => entries e (List.mem_cons_of_mem _ mem)⟩
    ((recollected.remembers.grow sets).start _)).remembers, trivial⟩

/-- Whatever a task does, what is remembered stays right. -/
theorem Runs.recollects {task : Task} (run : Runs task st out st') :
    Recollects r task st out st' := by
  induction run with
  | hit known => exact recollects_hit known
  | tooDeep => rintro _ ⟨⟩
  | miss _ ih => exact recollects_miss ih
  | abandon => rintro _ ⟨⟩
  | left =>
    exact recollects_still (.inr (.inl rfl)) (fun h => absurd rfl h)
      (recalled_of_unspecified (.inl rfl))
  | right =>
    exact recollects_still (.inr (.inl rfl)) (fun _ h => absurd rfl h)
      (recalled_of_unspecified (.inr rfl))
  | same _ _ left right =>
    exact recollects_still (.inr (.inl rfl)) (fun _ _ => left.same.trans right.same.symm)
      (recalled_of_same left right)
  | nodes hv hw left right ne run ih => exact recollects_nodes hv hw left right ne run ih
  | clash => rintro _ ⟨⟩
  | link free => exact recollects_link free
  | carry held run ih => exact recollects_carry held run ih
  | bindLeft notVar run ih => exact recollects_bindLeft notVar run ih
  | bindRight notVar run ih => exact recollects_bindRight notVar run ih
  | absorb found _ _ ih => exact recollects_absorb found ih
  | absorbFails => rintro _ ⟨⟩
  | bindFree resolves free => exact recollects_bindFree resolves free
  | bindBound resolves held run resolves' ih =>
    exact recollects_bindBound resolves held run resolves' ih
  | bindFails => rintro _ ⟨⟩
  | done =>
    rintro _ ⟨⟩ _ _ remembers
    exact ⟨remembers.settle_takeOver, trivial⟩
  | feature resolves found run resolves' _ ih ihRest =>
    exact recollects_feature resolves found run resolves' ih ihRest
  | featureFails => rintro _ ⟨⟩

end Recollects

end Join

end FeatureLogic
