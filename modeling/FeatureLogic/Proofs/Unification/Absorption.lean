import FeatureLogic.Proofs.Graph.Plainness
import FeatureLogic.Proofs.Join.Calls
import FeatureLogic.Proofs.Unification.Outcome

/-!
# Absorption loses nothing

When a structure absorbs another one, wherever in a unification, then both have one survivor in the
end, and the survivor has all features of both. Each stands for what it stood for before, joined
with what it was joined to, although the survivor may have changed, have got other features and have
met the same two structures again while the features were taken over. For the outcomes that are
known by then are true of the graph at the end, and in this graph no join takes back what an
equivalence that respects its pointers and bindings has identified.
-/

namespace FeatureLogic

open FeatureLogic.Graph Join

namespace Graph

/-- Do two values stand for the same thing: one atom, one structure as the survivor of what they
are, or one variable at the end of their aliases? A bound variable stands for what it is bound
to. -/
def Identifies (g : Graph) (v w : Value) : Prop := ∃ z, g.Settles v z ∧ g.Settles w z

/-- Does `new` stand for what `old` stands for, unless `old` is an atom that says nothing? -/
def Upholds (g : Graph) (old new : Value) : Prop :=
  (old.isNode → g.Identifies old new) ∧
    ∀ a, old = .atom a → a ≠ .unspecified → g.Settles new (.atom a)

/-- What the graph is like after `t` was absorbed by `s`, with `u` as the survivor. -/
structure Absorbed (before : Graph) (s t : StructId) (after : Graph) (u : StructId) : Prop where
  left : after.survivor? s = some u
  right : after.survivor? t = some u
  feature : ∀ {name old}, before.Feature s name old ∨ before.Feature t name old →
    ∃ new, after.Feature u name new ∧ after.Upholds old new
  identifies : ∀ {v w}, before.Contains v → before.Contains w → before.Identifies v w →
    after.Identifies v w

def Involves (g : Graph) (limit : Nat) (a b : Value) (scoping : Scoping) (call : Call) : Prop :=
  ∃ v w copied start, g.copyOperands a b scoping = some (v, w, copied, start) ∧
    Relation.ReflTransGen (Calls limit) ⟨limit, [], .join v w, { graph := start }⟩ call

variable {g h : Graph}

theorem Equates.identifies {r : Region} (closed : r.Closed h) {v w : Value} (has : r.Has v)
    (equates : h.Equates v w) : h.Identifies v w := by
  obtain ⟨z, settles⟩ := closed.exists_settles has
  exact ⟨z, settles, (equates z).1 settles⟩

theorem Identifies.of_growsTo {r : Region} (closed : r.Closed g) (closed' : r.Closed h)
    (grows : g.GrowsTo h) {v w : Value} (hasV : r.Has v) (hasW : r.Has w)
    (same : g.Identifies v w) : h.Identifies v w := by
  obtain ⟨z, left, right⟩ := same
  have equivalence := equates_equivalence h
  have respects := (respects_equates closed').of_growsTo equivalence closed closed' grows
  have toZ := respects.settles equivalence closed hasV left
  have toZ' := respects.settles equivalence closed hasW right
  exact (toZ.trans toZ'.symm).identifies closed' hasV

theorem exists_feature_of_carries {r : Region} (closed : r.Closed h) {s u : StructId}
    {name : String} {old : Value} (has : r.Has old) (survives : h.Resolves (.struct s) (.struct u))
    (carries : Carries h.Equates h s name old) :
    ∃ new, h.Feature u name new ∧ h.Upholds old new := by
  obtain ⟨u', new, path, live, feature, tells⟩ := carries
  obtain ⟨m, found, -⟩ := id feature
  cases survives.unique ⟨path, live, contains_of_features? found⟩
  refine ⟨new, feature, fun node => ?_, ?_⟩
  · have informs : old ≠ .unspecified := by
      rintro rfl
      cases node
    exact (tells informs).2.identifies closed has
  · rintro a rfl ne
    have informs : Value.atom a ≠ .unspecified := fun eq => ne (Value.atom.inj eq)
    exact ((tells informs).2 _).1 (Region.settles_atom h a)

/-- In the end the two structures are one, so that all that was foreseen has come true. -/
theorem known_of_runs {r : Region} {s t : StructId} {before after : JoinState} {u : Value}
    (invariant : Invariant r before)
    (ready : (Task.nodes (.struct s) (.struct t)).Ready r before.graph)
    (foreseen : Foreseen r (.nodes (.struct s) (.struct t)) before)
    (run : Runs (.nodes (.struct s) (.struct t)) before (.ok u) after) :
    Known after.graph.Equates before := by
  obtain ⟨invariant', -, grows, blends⟩ := run.keeps invariant ready
  have equivalence := equates_equivalence after.graph
  have respects := (respects_equates invariant'.closed).of_growsTo equivalence invariant.closed
    invariant'.closed grows
  obtain ⟨-, sameS, sameT⟩ := blends.concrete trivial trivial
  exact foreseen _ equivalence respects (sameS.equates.trans sameT.symm.equates)

theorem absorbed_of_sound {call : Call} (sound : call.Sound g.entirety) {s t : StructId}
    (task : call.task = .nodes (.struct s) (.struct t)) {limit : Nat} {result : Value}
    {st : JoinState}
    (ends : absorbStruct (joinWithin limit call.budget) call.path s t call.state = .ok result st) :
    (s ≠ t ∧ call.state.graph.survivor? s = some s ∧ call.state.graph.survivor? t = some t) ∧
      ∃ u, result = .struct u ∧ Absorbed call.state.graph s t st.graph u := by
  obtain ⟨budget, path, _, before⟩ := call
  obtain rfl : _ = Task.nodes (.struct s) (.struct t) := task
  obtain ⟨invariant, ready, foreseen⟩ := sound
  obtain ⟨hasS, hasT, -, -, liveS, liveT, ne⟩ := id ready
  have alone {x : StructId} (has : g.entirety.Has (.struct x))
      (live : before.graph.forward? (.struct x) = none) : before.graph.survivor? x = some x :=
    survivor?_eq_some_iff.2 ⟨.refl, live, invariant.closed.contains has⟩
  refine ⟨⟨fun eq => ne (congrArg Value.struct eq), alone hasS liveS, alone hasT liveT⟩, ?_⟩
  have absorbs : Executes g.entirety (.nodes (.struct s) (.struct t)) id
      (absorbStruct (joinWithin limit budget) path s t) :=
    executes_absorbStruct (executes_joinWithin limit budget) path s t
  obtain ⟨result', eq, run⟩ := absorbs.exists_run invariant ready ends
  obtain rfl : result = result' := eq
  obtain ⟨invariant', -, grows, blends⟩ := run.keeps invariant ready
  have closed := invariant'.closed
  have known := known_of_runs invariant ready foreseen run
  obtain ⟨-, transfers, -⟩ := run.unites (equates_equivalence _) _ rfl invariant ready
    (respects_equates closed) known
  cases run with
  | @absorb _ _ u _ _ _ _ _ survives =>
    obtain ⟨-, -, sameT⟩ := blends.concrete trivial trivial
    have survives' := sameT.resolves survives.self
    have carried {x : StructId} {name : String} {old : Value} (has : g.entirety.Has (.struct x))
        (live : before.graph.forward? (.struct x) = none)
        (survives : st.graph.Resolves (.struct x) (.struct u))
        (feature : before.graph.Feature x name old) :
        ∃ new, st.graph.Feature u name new ∧ st.graph.Upholds old new := by
      obtain ⟨m, found, holds⟩ := id feature
      exact exists_feature_of_carries closed (invariant.closed.feature has found holds) survives
        (transfers x name old has live feature)
    have has {v : Value} (inside : before.graph.Contains v) : g.entirety.Has v :=
      entirety_has.2 (inside.mono invariant.closed.structCount.le invariant.closed.varCount.le)
    refine ⟨u, rfl, survivor?_eq_some_iff.2 survives, survivor?_eq_some_iff.2 survives', ?_, ?_⟩
    · rintro name old (feature | feature)
      · exact carried hasS liveS survives feature
      · exact carried hasT liveT survives' feature
    · intro v w insideV insideW same
      exact same.of_growsTo invariant.closed closed grows (has insideV) (has insideW)

/-- A unification makes no call that it does not involve. A program that goes by the join in all
calls involved gives the same, whatever it does in any other call. -/
theorem unifyWith?_eq_of_goesBy {a b : Value} {scoping : Scoping} {limit : Nat} (p : Program)
    (goes : ∀ call, g.Involves limit a b scoping call → p.GoesBy limit call) :
    g.unifyWith? (p.join limit []) a b scoping = g.unify? limit a b scoping := by
  unfold unify? unifyWith?
  cases walked : g.copyOperands a b scoping with
  | none => rfl
  | some r =>
    obtain ⟨v, w, copied, start⟩ := r
    have same : p.join limit [] v w { graph := start } =
        joinWithin limit limit [] v w { graph := start } :=
      p.join_eq fun call made => goes call ⟨v, w, copied, start, walked, made⟩
    simp only [Option.bind_eq_bind, Option.bind_some, same]

/-- All calls that a unification involves are sound. -/
theorem WellFormed.sound_of_involves (wf : g.WellFormed) {a b : Value} (ha : g.Contains a)
    (hb : g.Contains b) {scoping : Scoping} (within : scoping.All (Scope.Within · g)) {limit : Nat}
    {call : Call} (involves : g.Involves limit a b scoping call) :
    ∃ start : Graph, call.Sound start.entirety := by
  obtain ⟨v, w, copied, start, walked, made⟩ := involves
  obtain ⟨v', w', copied', start', walked', copies⟩ := wf.exists_copyOperands ha hb within
  cases walked.symm.trans walked'
  refine ⟨start, sound_of_calls made ⟨copies.invariant_entirety, copies.ready_entirety, ?_⟩⟩
  intro R _ _ _ v w u mem
  cases mem

/-- Whenever a unification lets a structure absorb another one, each of the two stands for itself
and they are different. If that succeeds then they have one survivor, which has every feature of
both, with a value that stands for what the old value stands for now, and whatever stood for the
same thing before still does. -/
theorem WellFormed.absorbStruct_absorbs (wf : g.WellFormed) {a b : Value} (ha : g.Contains a)
    (hb : g.Contains b) {scoping : Scoping} (within : scoping.All (Scope.Within · g)) {limit : Nat}
    {call : Call} (involves : g.Involves limit a b scoping call) {s t : StructId}
    (task : call.task = .nodes (.struct s) (.struct t)) {result : Value} {st : JoinState}
    (ends : absorbStruct (joinWithin limit call.budget) call.path s t call.state = .ok result st) :
    (s ≠ t ∧ call.state.graph.survivor? s = some s ∧ call.state.graph.survivor? t = some t) ∧
      ∃ u, result = .struct u ∧ Absorbed call.state.graph s t st.graph u := by
  obtain ⟨start, sound⟩ := wf.sound_of_involves ha hb within involves
  exact absorbed_of_sound sound task ends

def spiral : Graph where
  structs := #[{ features := .ofList [("next", .struct ⟨1⟩), ("size", .atom (.int 1))] },
    { features := .ofList [("open", .var ⟨0⟩)] },
    { features := .ofList [("next", .struct ⟨2⟩), ("size", .var ⟨1⟩)] }]
  vars := #[{ name := "m" }, { name := "n" }]

/-- The first copy absorbs the last one, and is then absorbed itself by the copy between the two
when their common feature is taken over. The feature that it takes over next is written to this
one. -/
theorem spiral_absorbed : ∃ call st, spiral.Involves 8 (.struct ⟨0⟩) (.struct ⟨2⟩) .fresh call ∧
    call.task = .nodes (.struct ⟨3⟩) (.struct ⟨5⟩) ∧
    absorbStruct (joinWithin 8 call.budget) call.path ⟨3⟩ ⟨5⟩ call.state = .ok (.struct ⟨4⟩) st ∧
    Absorbed call.state.graph ⟨3⟩ ⟨5⟩ st.graph ⟨4⟩ := by
  have check : spiral.plainOn [.struct ⟨0⟩, .struct ⟨1⟩, .struct ⟨2⟩, .var ⟨0⟩, .var ⟨1⟩,
      .atom (.int 1)] := by decide +kernel
  have wf : spiral.WellFormed :=
    wellFormed_of_plainOn check (by decide +kernel) (by decide +kernel) (by decide +kernel)
  have copies : (spiral.copyOperands (.struct ⟨0⟩) (.struct ⟨2⟩) .fresh).map
      (fun r => (r.1, r.2.1, r.2.2.2.representative? r.1, r.2.2.2.representative? r.2.1,
        (absorbStruct (joinWithin 8 7) [] ⟨3⟩ ⟨5⟩).run' { graph := r.2.2.2 })) =
      some (.struct ⟨3⟩, .struct ⟨5⟩, some (.struct ⟨3⟩), some (.struct ⟨5⟩),
        some (.struct ⟨4⟩)) := by decide +kernel
  obtain ⟨⟨v, w, copied, start⟩, walked, eq⟩ := Option.map_eq_some_iff.1 copies
  simp only [Prod.mk.injEq] at eq
  obtain ⟨rfl, rfl, left, right, ends⟩ := eq
  have involves : spiral.Involves 8 (.struct ⟨0⟩) (.struct ⟨2⟩) .fresh
      ⟨7, [], .nodes (.struct ⟨3⟩) (.struct ⟨5⟩), { graph := start }⟩ :=
    ⟨_, _, copied, start, walked, .tail (.single (.merge rfl))
      (.nodes (by simp [Value.unspecified]) (by simp [Value.unspecified]) left right (by simp))⟩
  obtain ⟨st, ends⟩ := exists_ok_of_run' ends
  obtain ⟨-, u, eq, absorbed⟩ := wf.absorbStruct_absorbs (by decide) (by decide)
    (Scoping.within_fresh spiral) involves rfl ends
  cases eq
  exact ⟨_, st, involves, rfl, ends, absorbed⟩

end Graph

end FeatureLogic
