import FeatureLogic.Proofs.Copy.Owned
import FeatureLogic.Proofs.Copy.Substituting
import FeatureLogic.Proofs.Description.Freshness
import FeatureLogic.Proofs.Graph.Plainness
import FeatureLogic.Proofs.Unification.Privacy

/-!
# One scope for many calls

When calls share a scope, what a call finds out about a name holds in the next one. A variable that
is left unbound in the result of a call has a name without an entry, unless a variable of this name
lay below a structure that the scope had before the call. Where no such name gets an entry, the
result is what a substitution makes of it. Below an older structure, though, a variable keeps its
name when the scope learns what this name stands for.
-/

namespace FeatureLogic

namespace Graph

open Join

variable {g h k : Graph} {scope start after : Scope} {a b r : Value}

theorem PartOf.conceals (part : g.PartOf h) (plain : scope.Plain g)
    {name : String} (conceals : scope.Conceals h name) : scope.Conceals g name := by
  obtain ⟨x, ⟨key, s, listed, below⟩, called⟩ := conceals
  have before := (part.retains.below_iff (plain key _ listed)).1 below
  exact ⟨x, ⟨key, s, listed, before⟩,
    (part.name?_eq ((plain key _ listed).contains before)).symm.trans called⟩

/-- In the normal form an unbound variable below the result has a name without an entry, or a name
that the scope concealed before. -/
theorem NormalForm.unlisted_of_below {u : Value} {joined final : Graph} {m : Copying}
    {visited : List StructId} (owned : g.Owned start h m)
    (form : NormalForm g h joined u (.common (m.scope.map m.images.apply)) r (.common after)
      final visited)
    (names : ∀ x, joined.name? x = h.name? x) {x : VarId} {name : String}
    (below : final.Below r (.var x)) (called : final.name? x = some name) :
    after.get? name = none ∨ start.Conceals g name := by
  have joinedName : joined.name? x = some name :=
    (form.normal.settling.reshapes.name x).symm.trans called
  obtain ⟨key, own, listed | conceals⟩ := owned.own (form.added_of_below below)
  · cases own.symm.trans ((names x).symm.trans joinedName)
    have self : m.nameless.images.apply (.var x) = .var x :=
      owned.aligned.apply_of_added (form.added_of_below below)
    have copied : (m.scope.map m.images.apply).get? name = some (.var x) := by
      rw [NameMap.get?_map, listed]
      exact congrArg some self
    -- the entry is the variable itself, so that it says nothing and is dropped
    obtain ⟨z, settles, -, ⟨-, telling⟩ | ⟨dropped, -⟩⟩ :=
      Region.ScopeSettles.present form.scopes copied
    · cases settles.unique (form.settles_of_below below).2.1
      exact absurd joinedName (telling x rfl)
    · exact .inl dropped
  · cases own.symm.trans ((names x).symm.trans joinedName)
    exact .inr conceals

theorem unify?_unlisted {limit : Nat} (wf : g.WellFormed) (ha : g.Plain a) (hb : g.Plain b)
    (plain : scope.Plain g)
    (ok : g.unify? limit a b (.common scope) = some (.ok (r, .common after), h)) {x : VarId}
    {name : String} (below : h.Below r (.var x)) (called : h.name? x = some name) :
    after.get? name = none ∨ scope.Conceals g name := by
  obtain ⟨v, w, k, m, walked, copies, owned⟩ := wf.exists_ownedOperands ha hb plain
  obtain ⟨out, st, ends, run⟩ := executes_joinWithin limit limit [] v w { graph := k }
    copies.invariant copies.ready
  cases out with
  | error f => cases (copies.unify?_of_error walked ends run).symm.trans ok
  | ok u =>
    obtain ⟨result, scoping, final, visited, done, form⟩ :=
      copies.exists_unify?_of_ok walked ends run
    cases done.symm.trans ok
    have names := (run.keeps copies.invariant copies.ready).grows.name
    exact form.unlisted_of_below owned names ((below_forgetAbsorbed _).1 below) called

/-- The two structures that a call reads are plain, in a graph that has all nodes from before. -/
theorem Call.exists_operands (wf : g.WellFormed) (call : g.Call scope r h after) :
    ∃ k a b limit, g.PartOf k ∧ k.Plain a ∧ k.Plain b ∧
      k.unify? limit a b (.common scope) = some (.ok (r, .common after), h) := by
  obtain ⟨text, text', a, b, k, k', limit, first, second, ok⟩ := call
  obtain ⟨part, plain⟩ := wf.plain_of_readStruct first
  obtain ⟨part', plain'⟩ := part.wellFormed.plain_of_readStruct second
  exact ⟨k', a, b, limit, part.trans part', part'.retains.plain plain, plain', ok⟩

/-- A call leaves a well-formed graph. Its result is plain, and so are the entries of the scope. -/
theorem Call.plain (wf : g.WellFormed) (plain : scope.Plain g) (call : g.Call scope r h after) :
    h.WellFormed ∧ h.Plain r ∧ after.Plain h := by
  obtain ⟨k, a, b, limit, part, ha, hb, ok⟩ := call.exists_operands wf
  have within : (Scoping.common scope).All (Scope.Within · k) :=
    (plain.retained part.retains).within
  exact part.wellFormed.plain_unify (ha.contains .refl) (hb.contains .refl) within ok

/-- An unbound variable below the result of a call has a name without an entry, or a name that the
scope concealed before the call. -/
theorem Call.unlisted (wf : g.WellFormed) (plain : scope.Plain g) (call : g.Call scope r h after)
    {x : VarId} {name : String} (below : h.Below r (.var x)) (called : h.name? x = some name) :
    after.get? name = none ∨ scope.Conceals g name := by
  obtain ⟨k, a, b, limit, part, ha, hb, ok⟩ := call.exists_operands wf
  exact (unify?_unlisted part.wellFormed ha hb (plain.retained part.retains) ok below
    called).imp_right (part.conceals plain)

/-- After any series of calls the graph is well-formed and the entries of the scope are plain. -/
theorem Series.plain (series : Series g scope) : g.WellFormed ∧ scope.Plain g := by
  induction series with
  | start wf => exact ⟨wf, fun name v found => by cases found⟩
  | call _ call ih =>
    obtain ⟨wf, -, plain⟩ := call.plain ih.1 ih.2
    exact ⟨wf, plain⟩

/-- After every call of a series that shares one scope, an unbound variable of the result has a name
without an entry, unless the scope concealed its name before the call. If no such name has an entry
either, then a substitution by the scope copies the result as it is. -/
theorem Series.substitute?_call (series : Series g scope) (call : g.Call scope r h after) :
    (∀ {x name}, h.Below r (.var x) → h.name? x = some name →
      after.get? name = none ∨ scope.Conceals g name) ∧
    ((∀ {x name}, h.Below r (.var x) → h.name? x = some name → scope.Conceals g name →
      after.get? name = none) →
    ∃ t k, after.substitute? h r = some (t, k) ∧ k.isomorphic? t r = some true) := by
  obtain ⟨wf, plain⟩ := series.plain
  obtain ⟨wf', plainResult, plainAfter⟩ := call.plain wf plain
  refine ⟨fun below called => call.unlisted wf plain below called, fun concealed => ?_⟩
  have silent : after.Silent h (h.Below r) := fun x name below called =>
    (call.unlisted wf plain below called).elim id (concealed below called)
  exact (silent.still plainResult).substitute? wf' plainAfter.within plainResult

theorem call_of_readStruct {text text' : String} {limit : Nat}
    (first : (g.readStruct text).1 = .ok a)
    (second : ((g.readStruct text).2.readStruct text').1 = .ok b)
    (ok : ((g.readStruct text).2.readStruct text').2.unify? limit a b (.common scope) =
      some (.ok (r, .common after), h)) : g.Call scope r h after :=
  ⟨text, text', a, b, _, _, limit, Prod.ext first rfl, Prod.ext second rfl, ok⟩

/-- The graph after a first call, which has found out that `x` is a structure with a variable
`y`. -/
def nested : Graph where
  structs := #[{ features := .ofList [("f", .var ⟨0⟩)] },
    { features := .ofList [("f", .struct ⟨2⟩)] }, { features := .ofList [("g", .var ⟨1⟩)] },
    { features := .ofList [("f", .struct ⟨5⟩)] }, { features := .ofList [("f", .struct ⟨5⟩)] },
    { features := .ofList [("g", .var ⟨3⟩)] }]
  vars := #[{ name := "x" }, { name := "y" }, { name := "x", binding := .bound (.struct ⟨5⟩) },
    { name := "y" }]

theorem call_nested : (∅ : Graph).Call ∅ (.struct ⟨3⟩) nested (.ofList [("x", .struct ⟨5⟩)]) :=
  @call_of_readStruct _ _ _ _ (.struct ⟨0⟩) (.struct ⟨1⟩) _ "[f=?x]" "[f=[g=?y]]" 50
    (by decide +kernel) (by decide +kernel) (by decide +kernel)

theorem series_nested : nested.Series (.ofList [("x", .struct ⟨5⟩)]) :=
  (Series.start wellFormed_empty).call call_nested

/-- The graph after a second call, with `x` and another variable, which has become a number. -/
def resumed (name : String) : Graph where
  structs := nested.structs ++ #[{ features := .ofList [("k", .var ⟨4⟩), ("l", .var ⟨5⟩)] },
    { features := .ofList [("l", .atom (.int 5))] },
    { features := .ofList [("k", .struct ⟨9⟩), ("l", .atom (.int 5))] },
    { features := .ofList [("g", .var ⟨6⟩)] }, { features := .ofList [("l", .atom (.int 5))] }]
  vars := nested.vars ++ #[{ name := "x" }, { name }, { name := "y" },
    { name, binding := .bound (.atom (.int 5)) }]

theorem call_resumed {name : String} (h : name = "y" ∨ name = "z") :
    nested.Call (.ofList [("x", .struct ⟨5⟩)]) (.struct ⟨8⟩) (resumed name)
      (.ofList [("x", .struct ⟨9⟩), (name, .atom (.int 5))]) := by
  rcases h with rfl | rfl
  · exact @call_of_readStruct _ _ _ _ (.struct ⟨6⟩) (.struct ⟨7⟩) _ "[k=?x, l=?y]" "[l=5]" 50
      (by decide +kernel) (by decide +kernel) (by decide +kernel)
  · exact @call_of_readStruct _ _ _ _ (.struct ⟨6⟩) (.struct ⟨7⟩) _ "[k=?x, l=?z]" "[l=5]" 50
      (by decide +kernel) (by decide +kernel) (by decide +kernel)

/-- Where the other variable is none of those below `x`, nothing is left to be substituted. -/
theorem resumed_substituted : ∃ t k,
    Scope.substitute? (.ofList [("x", .struct ⟨9⟩), ("z", .atom (.int 5))]) (resumed "z")
        (.struct ⟨8⟩) = some (t, k) ∧
      k.isomorphic? t (.struct ⟨8⟩) = some true := by
  refine (series_nested.substitute?_call (call_resumed (.inr rfl))).2
    fun {x name} below called _ => ?_
  have check : (resumed "z").plainOn
      [.struct ⟨8⟩, .struct ⟨9⟩, .var ⟨6⟩, .atom (.int 5)] := by decide +kernel
  obtain rfl : x = ⟨6⟩ := by simpa using mem_of_below check (by simp) below
  obtain rfl : "y" = name := Option.some.inj called
  rfl

/-- Where it is one of them, the variable below `x` still bears the name that has become a
number. -/
theorem exists_stale : ¬ ∀ {g h : Graph} {scope after : Scope} {r : Value}, g.Series scope →
    g.Call scope r h after →
      ∃ t k, after.substitute? h r = some (t, k) ∧ k.isomorphic? t r = some true := by
  intro substituted
  obtain ⟨t, k, done, isomorphic⟩ := substituted series_nested (call_resumed (.inl rfl))
  have differs : (Scope.substitute? (.ofList [("x", .struct ⟨9⟩), ("y", .atom (.int 5))])
      (resumed "y") (.struct ⟨8⟩)).map (fun r => r.2.isomorphic? r.1 (.struct ⟨8⟩)) =
        some (some false) := by decide +kernel
  rw [done, Option.map_some, isomorphic] at differs
  cases differs

end Graph

end FeatureLogic
