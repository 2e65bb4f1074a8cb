import FeatureLogic.Proofs.Join.Congruence
import FeatureLogic.Proofs.Join.Execution

/-!
# The calls made during a join

A join calls on itself, in states in which some of its work is still to be done: an alias may stand
already for a variable that has not got its value yet, and outcomes that rely on this value are
known. So what is known is true in prospect only. It is true in every equivalence that respects what
the graph says and identifies the operands of the call as well, and this is what each call hands on
to the calls that it makes.
-/

namespace FeatureLogic

namespace Join

/-- A task at the end of a path, with the state that it starts from. Joins may be nested `budget`
deep below it. -/
structure Call where
  budget : Nat
  path : List String
  task : Task
  state : JoinState

/-- Does the first call make the second one? There is one rule for each place where the program
calls on itself, with what it has read and written before. The features that are still to be taken
over count as a call of their own. -/
inductive Calls (limit : Nat) : Call → Call → Prop
  | merge {budget path v w st} : st.joined.lookup (v, w) = none →
      Calls limit ⟨budget + 1, path, .join v w, st⟩ ⟨budget, path, .merge v w, st⟩
  | nodes {budget path v w v' w' st} : v ≠ .unspecified → w ≠ .unspecified →
      st.graph.representative? v = some v' → st.graph.representative? w = some w' → v' ≠ w' →
      Calls limit ⟨budget, path, .merge v w, st⟩ ⟨budget, path, .nodes v' w', st⟩
  | carry {budget path x y name c st} : st.graph.var? x = some ⟨name, .bound c⟩ →
      Calls limit ⟨budget, path, .nodes (.var x) (.var y), st⟩
        ⟨budget, path, .bind y c, st.write (·.setBinding x (.link y))⟩
  | bindLeft {budget path x v st} : (∀ y, v ≠ .var y) →
      Calls limit ⟨budget, path, .nodes (.var x) v, st⟩ ⟨budget, path, .bind x v, st⟩
  | bindRight {budget path v y st} : (∀ x, v ≠ .var x) →
      Calls limit ⟨budget, path, .nodes v (.var y), st⟩ ⟨budget, path, .bind y v, st⟩
  | takeOver {budget path s t m st} : st.graph.features? t = some m →
      Calls limit ⟨budget, path, .nodes (.struct s) (.struct t), st⟩
        ⟨budget, path, .takeOver s m.entries, st.write (·.absorb s t)⟩
  | bound {budget path x root name c v st} : st.graph.root? x = some root →
      st.graph.var? root = some ⟨name, .bound c⟩ →
      Calls limit ⟨budget, path, .bind x v, st⟩ ⟨budget, path, .join c v, st⟩
  | feature {budget path s target name theirs rest m st} :
      st.graph.survivor? s = some target → st.graph.features? target = some m →
      Calls limit ⟨budget, path, .takeOver s ((name, theirs) :: rest), st⟩
        ⟨budget, path ++ [name], .join ((m.get? name).getD .unspecified) theirs, st⟩
  | rest {budget path s target target' name theirs u rest m st st'} :
      st.graph.survivor? s = some target → st.graph.features? target = some m →
      joinWithin limit budget (path ++ [name]) ((m.get? name).getD .unspecified) theirs st =
        .ok u st' →
      st'.graph.survivor? s = some target' →
      Calls limit ⟨budget, path, .takeOver s ((name, theirs) :: rest), st⟩
        ⟨budget, path, .takeOver s rest, st'.write (·.setFeature target' name u)⟩

section Imitation

/-! ### All calls are among these -/

variable {α β : Type} {st : JoinState}

theorem bind_congr_at {x y : Join α} {k l : α → Join β} (same : x st = y st)
    (rest : ∀ a st', y st = .ok a st' → k a st' = l a st') : (x >>= k) st = (y >>= l) st := by
  cases ran : y st with
  | ok a st' => rw [bind_of_ok (same.trans ran), bind_of_ok ran, rest a st' ran]
  | error e st' => rw [bind_of_error (same.trans ran), bind_of_error ran]

theorem of_look {read : Graph → Option α} {a : α} {st' : JoinState}
    (ran : look read st = .ok a st') : read st.graph = some a ∧ st' = st := by
  cases found : read st.graph with
  | none => cases (look_of_none found).symm.trans ran
  | some b =>
    cases (look_of_some found).symm.trans ran
    exact ⟨rfl, rfl⟩

/-- Does `join` do what the join does in all joins that the call makes? -/
def Imitates (limit : Nat) (join : Joiner) (c : Call) : Prop :=
  ∀ path v w st, Relation.TransGen (Calls limit) c ⟨c.budget, path, .join v w, st⟩ →
    join path v w st = joinWithin limit c.budget path v w st

variable {limit budget : Nat} {join : Joiner} {path : List String}

theorem bindVar_congr {x : VarId} {v : Value}
    (imitates : Imitates limit join ⟨budget, path, .bind x v, st⟩) :
    bindVar join path x v st = bindVar (joinWithin limit budget) path x v st := by
  unfold bindVar
  refine bind_congr_at rfl fun root st₁ ran => ?_
  obtain ⟨chased, rfl⟩ := of_look ran
  refine bind_congr_at rfl fun node st₂ ran => ?_
  obtain ⟨found, rfl⟩ := of_look ran
  obtain ⟨name, binding⟩ := node
  cases binding with
  | free => rfl
  | link y => rfl
  | bound c =>
    exact bind_congr_at (imitates path c v _ (.single (.bound chased found))) fun _ _ _ => rfl

theorem aliasVar_congr {x y : VarId}
    (imitates : Imitates limit join ⟨budget, path, .nodes (.var x) (.var y), st⟩) :
    aliasVar join path x y st = aliasVar (joinWithin limit budget) path x y st := by
  unfold aliasVar
  refine bind_congr_at rfl fun node st₁ ran => ?_
  obtain ⟨found, rfl⟩ := of_look ran
  obtain ⟨name, binding⟩ := node
  rw [bind_of_ok (update_apply _), bind_of_ok (update_apply _)]
  cases binding with
  | free => rfl
  | link z => rfl
  | bound c =>
    refine bind_congr_at (bindVar_congr fun path v w st made => ?_) fun _ _ _ => rfl
    exact imitates path v w st (.head (.carry found) made)

theorem takeOver_congr {s : StructId} {entries : List (String × Value)}
    (imitates : Imitates limit join ⟨budget, path, .takeOver s entries, st⟩) :
    takeOver join path s entries st = takeOver (joinWithin limit budget) path s entries st := by
  induction entries generalizing st with
  | nil => rfl
  | cons e rest ih =>
    obtain ⟨name, theirs⟩ := e
    unfold takeOver
    refine bind_congr_at rfl fun target st₁ ran => ?_
    obtain ⟨survives, rfl⟩ := of_look ran
    refine bind_congr_at rfl fun m st₂ ran => ?_
    obtain ⟨found, rfl⟩ := of_look ran
    refine bind_congr_at (imitates _ _ _ _ (.single (.feature survives found)))
      fun u st₁ joins => ?_
    refine bind_congr_at rfl fun target' st₂ ran => ?_
    obtain ⟨survives', rfl⟩ := of_look ran
    rw [bind_of_ok (update_apply _), bind_of_ok (update_apply _)]
    exact ih fun path v w st made =>
      imitates path v w st (.head (.rest survives found joins survives') made)

theorem absorbStruct_congr {s t : StructId}
    (imitates : Imitates limit join ⟨budget, path, .nodes (.struct s) (.struct t), st⟩) :
    absorbStruct join path s t st = absorbStruct (joinWithin limit budget) path s t st := by
  unfold absorbStruct
  refine bind_congr_at rfl fun m st₁ ran => ?_
  obtain ⟨found, rfl⟩ := of_look ran
  rw [bind_of_ok (update_apply _), bind_of_ok (update_apply _)]
  refine bind_congr_at (takeOver_congr fun path v w st made => ?_) fun _ _ _ => rfl
  exact imitates path v w st (.head (.takeOver found) made)

theorem joinNodes_congr {v w : Value}
    (imitates : Imitates limit join ⟨budget, path, .nodes v w, st⟩) :
    joinNodes join path v w st = joinNodes (joinWithin limit budget) path v w st := by
  have left {x : VarId} (notVar : ∀ y, w ≠ .var y) (eq : v = .var x) :
      bindVar join path x w st = bindVar (joinWithin limit budget) path x w st := by
    subst eq
    exact bindVar_congr fun path v w st made =>
      imitates path v w st (.head (.bindLeft notVar) made)
  have right {y : VarId} (notVar : ∀ x, v ≠ .var x) (eq : w = .var y) :
      bindVar join path y v st = bindVar (joinWithin limit budget) path y v st := by
    subst eq
    exact bindVar_congr fun path v w st made =>
      imitates path v w st (.head (.bindRight notVar) made)
  cases v with
  | var x =>
    cases w with
    | var y => exact aliasVar_congr imitates
    | atom b => exact bind_congr_at (left (by simp) rfl) fun _ _ _ => rfl
    | struct t => exact bind_congr_at (left (by simp) rfl) fun _ _ _ => rfl
  | atom a =>
    cases w with
    | var y => exact bind_congr_at (right (by simp) rfl) fun _ _ _ => rfl
    | atom b => rfl
    | struct t => rfl
  | struct s =>
    cases w with
    | var y => exact bind_congr_at (right (by simp) rfl) fun _ _ _ => rfl
    | atom b => rfl
    | struct t => exact absorbStruct_congr imitates

/-- What becomes of two values, given what is done with two of which each stands for itself. -/
def joinBy (nodes : Value → Value → Join Value) (v w : Value) : Join Value := do
  if v = .unspecified then return w
  else if w = .unspecified then return v
  else
    let v ← look (·.representative? v)
    let w ← look (·.representative? w)
    if v = w then return v else nodes v w

theorem joinBy_congr {nodes : Value → Value → Join Value} {v w : Value}
    (same : ∀ v' w', Calls limit ⟨budget, path, .merge v w, st⟩ ⟨budget, path, .nodes v' w', st⟩ →
      nodes v' w' st = joinNodes (joinWithin limit budget) path v' w' st) :
    joinBy nodes v w st = joinValues (joinWithin limit budget) path v w st := by
  unfold joinBy joinValues
  split
  · rfl
  · next hv =>
    split
    · rfl
    · next hw =>
      refine bind_congr_at rfl fun v' st₁ ran => ?_
      obtain ⟨left, rfl⟩ := of_look ran
      refine bind_congr_at rfl fun w' st₂ ran => ?_
      obtain ⟨right, rfl⟩ := of_look ran
      split
      · rfl
      · next ne => exact same v' w' (.nodes hv hw left right ne)

structure Program where
  join : Nat → Joiner
  nodes : Nat → Joiner

def Program.level (p : Program) (limit : Nat) : Nat → Joiner
  | 0, path, v, w => reuse v w (throw (.failure (.tooDeep limit path)))
  | budget + 1, path, v, w =>
    reuse v w do
      let u ← joinBy (p.nodes budget path) v w
      record v w u
      return u

/-- Does the program do in this call what the join does that calls on the program? -/
def Program.GoesBy (p : Program) (limit : Nat) (c : Call) : Prop :=
  match c.task with
  | .join v w => p.join c.budget c.path v w c.state = p.level limit c.budget c.path v w c.state
  | .nodes v w =>
    p.nodes c.budget c.path v w c.state = joinNodes (p.join c.budget) c.path v w c.state
  | _ => True

/-- No call is made but those that come of the first one by the rules. A program does what the join
does if it goes by the join in all of them, whatever it does elsewhere. -/
theorem Program.join_eq (p : Program) {v w : Value}
    (goes : ∀ c, Relation.ReflTransGen (Calls limit) ⟨budget, path, .join v w, st⟩ c →
      p.GoesBy limit c) :
    p.join budget path v w st = joinWithin limit budget path v w st := by
  -- by induction on the budget, as joins nested in this one have a smaller one
  induction budget generalizing path v w st with
  | zero => exact goes _ .refl
  | succ budget ih =>
    have first : p.join (budget + 1) path v w st = reuse v w (do
        let u ← joinBy (p.nodes budget path) v w
        record v w u
        return u) st := goes _ .refl
    rw [first, joinWithin]
    cases known : st.joined.lookup (v, w) with
    | some u => rw [reuse_of_known known, reuse_of_known known]
    | none =>
      rw [reuse_of_unknown known, reuse_of_unknown known]
      refine bind_congr_at (joinBy_congr fun v' w' made => ?_) fun _ _ _ => rfl
      have reached := (Relation.ReflTransGen.single (Calls.merge known)).tail made
      have step : p.nodes budget path v' w' st = joinNodes (p.join budget) path v' w' st :=
        goes _ reached
      refine step.trans (joinNodes_congr fun path v w st nested => ih fun c later => ?_)
      exact goes c (reached.trans (nested.to_reflTransGen.trans later))

end Imitation

/-- Are the operands of a task identified? A structure that takes over features has absorbed the one
that they are from. -/
def Task.Supposes (R : Value → Value → Prop) : Task → Prop
  | .join v w => R v w
  | .merge v w => R v w
  | .nodes v w => R v w
  | .bind x v => R (.var x) v
  | .takeOver _ _ => True

/-- Are the known outcomes true in every equivalence that respects the graph and identifies the
operands of the task? -/
def Foreseen (r : Region) (task : Task) (st : JoinState) : Prop :=
  ∀ R : Value → Value → Prop, Equivalence R → Respects r R st.graph → task.Supposes R → Known R st

structure Call.Sound (r : Region) (c : Call) : Prop where
  invariant : Invariant r c.state
  ready : c.task.Ready r c.state.graph
  foreseen : Foreseen r c.task c.state

section Steps

variable {r : Region} {R : Value → Value → Prop} {st st' : JoinState}

theorem Foreseen.nodes {v w v' w' : Value} (foreseen : Foreseen r (.merge v w) st)
    (closed : r.Closed st.graph) (hasV : r.Has v) (hasW : r.Has w)
    (left : st.graph.Resolves v v') (right : st.graph.Resolves w w') :
    Foreseen r (.nodes v' w') st := by
  intro R equivalence respects same
  refine foreseen R equivalence respects ?_
  have same : R v' w' := same
  exact equivalence.trans (respects.path equivalence closed hasV left.path)
    (equivalence.trans same
      (equivalence.symm (respects.path equivalence closed hasW right.path)))

/-- The alias no longer says what it was bound to, but it is identified with the variable that is
about to be. -/
theorem Foreseen.carry {x y : VarId} {c : Value} (invariant : Invariant r st)
    (ready : (Task.nodes (.var x) (.var y)).Ready r st.graph)
    (held : st.graph.content? (.var x) = some c)
    (foreseen : Foreseen r (.nodes (.var x) (.var y)) st) :
    Foreseen r (.bind y c) (st.write (·.setBinding x (.link y))) := by
  intro R equivalence respects same
  obtain ⟨hasX, -, -, -, rootX, -⟩ := ready
  have linked : R (.var x) (.var y) :=
    respects.forward hasX (invariant.closed.forward?_link hasX y)
  refine foreseen R equivalence ⟨fun has step => ?_, fun {v d} has holds => ?_⟩ linked
  · exact respects.forward has (Graph.forward?_setBinding_of_root rootX _ step)
  · by_cases eq : v = .var x
    · subst eq
      cases held.symm.trans holds
      exact equivalence.trans linked same
    · refine respects.content has ?_
      rw [JoinState.graph_write, Graph.content?_setBinding, if_neg eq]
      exact holds

theorem Foreseen.takeOver {s t : StructId} {entries : List (String × Value)}
    (invariant : Invariant r st) (ready : (Task.nodes (.struct s) (.struct t)).Ready r st.graph)
    (foreseen : Foreseen r (.nodes (.struct s) (.struct t)) st) :
    Foreseen r (.takeOver s entries) (st.write (·.absorb s t)) := by
  intro R equivalence respects _
  obtain ⟨-, hasT, -, -, -, liveT, -⟩ := ready
  have absorbs : st.graph.GrowsTo (st.graph.absorb s t) := .absorb liveT
  refine foreseen R equivalence ⟨fun has step => ?_, fun has holds => ?_⟩ ?_
  · exact respects.forward has (absorbs.forward step)
  · exact respects.content has (by simpa using holds)
  · exact equivalence.symm (respects.forward hasT (invariant.closed.forward?_absorb hasT s))

theorem Foreseen.bound {x root : VarId} {c v : Value} (closed : r.Closed st.graph)
    (has : r.Has (.var x)) (resolves : st.graph.Resolves (.var x) (.var root))
    (held : st.graph.content? (.var root) = some c) (foreseen : Foreseen r (.bind x v) st) :
    Foreseen r (.join c v) st := by
  intro R equivalence respects same
  refine foreseen R equivalence respects ?_
  have toRoot := respects.path equivalence closed has resolves.path
  have toContent := respects.content (closed.has_of_path has resolves.path) held
  exact equivalence.trans toRoot (equivalence.trans toContent same)

/-- What a join has found out is true wherever the features are respected that are taken over after
it. -/
theorem Foreseen.rest {s target : StructId} {name : String} {v w u : Value}
    {entries rest : List (String × Value)} (invariant : Invariant r st)
    (ready : (Task.join v w).Ready r st.graph) (run : Runs (.join v w) st (.ok u) st')
    (foreseen : Foreseen r (.takeOver s entries) st) :
    Foreseen r (.takeOver s rest) (st'.write (·.setFeature target name u)) := by
  intro R equivalence respects _
  have success : Success r _ st u st' := run.keeps invariant ready
  have respects' : Respects r R st'.graph :=
    ⟨fun has step => respects.forward has (by simpa using step),
      fun has held => respects.content has (by simpa using held)⟩
  have respects₀ := respects'.of_growsTo equivalence invariant.closed success.invariant.closed
    success.grows
  exact (run.unites equivalence u rfl invariant ready respects'
    (foreseen R equivalence respects₀ trivial)).known

end Steps

/-- A call that is sound makes only sound calls. -/
theorem Calls.sound {r : Region} {limit : Nat} {c d : Call} (calls : Calls limit c d)
    (sound : c.Sound r) : d.Sound r := by
  obtain ⟨invariant, ready, foreseen⟩ := sound
  cases calls with
  | merge unknown => exact ⟨invariant, ready, foreseen⟩
  | nodes hv hw left right ne =>
    rw [Graph.representative?_eq_some_iff] at left right
    exact ⟨invariant, invariant.ready_nodes ready hv hw left right ne,
      foreseen.nodes invariant.closed ready.1 ready.2 left right⟩
  | @carry _ _ x _ _ c _ found =>
    have held := Graph.content?_var_eq_some.2 ⟨_, found, rfl⟩
    obtain ⟨invariant', ready'⟩ := invariant.carry ready held
    exact ⟨invariant', ready', foreseen.carry invariant ready held⟩
  | bindLeft notVar =>
    obtain ⟨hasX, hasV, -, hv, -⟩ := ready
    exact ⟨invariant, ⟨hasX, hasV, informative_of_ready hv notVar⟩, foreseen⟩
  | bindRight notVar =>
    obtain ⟨hasV, hasY, hv, -⟩ := ready
    refine ⟨invariant, ⟨hasY, hasV, informative_of_ready hv notVar⟩,
      fun R equivalence respects same => ?_⟩
    exact foreseen R equivalence respects (equivalence.symm same)
  | takeOver found =>
    exact ⟨invariant.absorb ready, ready_takeOver invariant.closed ready.1 ready.2.1 found,
      foreseen.takeOver invariant ready⟩
  | bound chased found =>
    obtain ⟨hasX, hasV, -⟩ := ready
    have resolves := Graph.root?_eq_some_iff.1 chased
    have held := Graph.content?_var_eq_some.2 ⟨_, found, rfl⟩
    have hasRoot := invariant.closed.has_of_path hasX resolves.path
    exact ⟨invariant, ⟨(invariant.closed.content hasRoot held).1, hasV⟩,
      foreseen.bound invariant.closed hasX resolves held⟩
  | feature survives found =>
    obtain ⟨has, entries⟩ := ready
    have resolves := Graph.survivor?_eq_some_iff.1 survives
    have hasTarget := invariant.closed.has_of_path has resolves.path
    exact ⟨invariant, ⟨has_getD invariant.closed hasTarget found _,
      entries _ List.mem_cons_self⟩, fun R equivalence respects _ =>
        foreseen R equivalence respects trivial⟩
  | @rest budget path s target target' name theirs u _ m st st' survives found joins survives' =>
    obtain ⟨has, entries⟩ := ready
    have resolves := Graph.survivor?_eq_some_iff.1 survives
    have hasTarget := invariant.closed.has_of_path has resolves.path
    have readyJoin : (Task.join ((m.get? name).getD .unspecified) theirs).Ready r st.graph :=
      ⟨has_getD invariant.closed hasTarget found _, entries _ List.mem_cons_self⟩
    obtain ⟨u', eq, run⟩ :=
      (executes_joinWithin limit budget _ _ _).exists_run invariant readyJoin joins
    obtain rfl : u = u' := eq
    have success : Success r _ st u st' := run.keeps invariant readyJoin
    have hasTarget' := success.invariant.closed.has_of_path has
      (Graph.survivor?_eq_some_iff.1 survives').path
    have sets := Graph.GrowsTo.setFeature st'.graph target' name u
    have invariant' : Invariant r (st'.write (·.setFeature target' name u)) :=
      success.invariant.write
        (success.invariant.closed.setFeature hasTarget' name success.has) sets.forward
    exact ⟨invariant', ⟨has, fun e mem => entries e (List.mem_cons_of_mem _ mem)⟩,
      foreseen.rest invariant readyJoin run⟩

theorem sound_of_calls {r : Region} {limit : Nat} {c d : Call}
    (made : Relation.ReflTransGen (Calls limit) c d) (sound : c.Sound r) : d.Sound r := by
  induction made with
  | refl => exact sound
  | tail _ calls ih => exact calls.sound ih

end Join

end FeatureLogic
