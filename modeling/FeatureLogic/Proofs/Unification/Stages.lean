import FeatureLogic.Proofs.Copy.Plain
import FeatureLogic.Proofs.Join.Execution
import FeatureLogic.Proofs.NormalForm.Normalization

/-!
# The stages of a unification

The unification of plain operands under an empty common scope always ends. It either fails in the
join and leaves the graph alone, or goes through all of its stages: copies, join, normal form.
-/

namespace FeatureLogic

namespace Graph

variable {g h : Graph} {D : Value → Prop} {m : Copying}

theorem Copies.forward?_eq_none (copies : g.Copies D h m) {v : Value} (has : (g.added h).Has v) :
    h.forward? v = none := by
  cases v with
  | atom a => rfl
  | struct t =>
    obtain ⟨features, found⟩ := copies.unabsorbed has
    simp [forward?, found]
  | var y =>
    obtain ⟨name, found, -⟩ := copies.named has
    simp [forward?, found, Binding.alias?]

theorem Copies.content?_eq_none (copies : g.Copies D h m) {v : Value} (has : (g.added h).Has v) :
    h.content? v = none := by
  cases v with
  | atom a => rfl
  | struct t => rfl
  | var y =>
    obtain ⟨name, found, -⟩ := copies.named has
    simp [content?, found, Binding.value?]

theorem Copies.closed (copies : g.Copies D h m)
    (complete : ∀ t, (g.added h).Has (.struct t) → Complete g D (h, m) t) :
    (g.added h).Closed h where
  structCount := rfl
  varCount := rfl
  frames := copies.frames
  feature {t f name v} has found holds := by
    obtain ⟨s, features, -, -, -, found', imaged⟩ := complete t has
    cases found.symm.trans found'
    rw [NameMap.get?_map, Option.map_eq_some_iff] at holds
    obtain ⟨v, holds, rfl⟩ := holds
    exact copies.has_apply (imaged name v holds)
  forward has step := by
    rw [copies.forward?_eq_none has] at step
    cases step
  content has held := by
    rw [copies.content?_eq_none has] at held
    cases held
  grounded {v} has := by
    refine ⟨v, .refl, copies.forward?_eq_none has, ?_⟩
    cases v with
    | atom a => trivial
    | struct t => exact has.2
    | var y => exact has.2

end Graph

open FeatureLogic.Graph Join

structure CopiedOperands (g : Graph) (a b : Value) where
  graph : Graph
  memory : Copying
  source : g.Source (g.Operands a b)
  copies : g.Copies (g.Operands a b) graph memory
  complete : ∀ t, (g.added graph).Has (.struct t) →
    Complete g (g.Operands a b) (graph, memory) t
  imagedLeft : Imaged memory a
  imagedRight : Imaged memory b

namespace CopiedOperands

variable {g : Graph} {a b : Value} (c : CopiedOperands g a b)

def region : Region := g.added c.graph

def image (v : Value) : Value := c.memory.images.apply v

def start : JoinState := { graph := c.graph }

theorem closed : c.region.Closed c.graph := c.copies.closed c.complete

theorem invariant : Invariant c.region c.start := ⟨c.closed, fun mem => by cases mem⟩

theorem ready : (Task.join (c.image a) (c.image b)).Ready c.region c.start.graph :=
  ⟨c.copies.has_apply c.imagedLeft, c.copies.has_apply c.imagedRight⟩

theorem has_scope (name : String) (v : Value) (found : c.memory.scope.get? name = some v) :
    c.region.Has v := by
  obtain ⟨y, rfl, has, -⟩ := c.copies.scope found
  exact has

end CopiedOperands

/-- What a unification has gone through when it succeeds. -/
structure Stages (g : Graph) (a b : Value) extends CopiedOperands g a b where
  joined : JoinState
  outcome : Value
  run : Runs (.join (toCopiedOperands.image a) (toCopiedOperands.image b))
    toCopiedOperands.start (.ok outcome) joined
  final : Graph
  visited : List StructId
  result : Value
  scope : Scope
  settles : joined.graph.Settles outcome result
  normal : toCopiedOperands.region.Normal joined.graph final visited result
  scopeSettles : Region.ScopeSettles joined.graph visited memory.scope scope

namespace Stages

variable {g : Graph} {a b : Value}

def after (stages : Stages g a b) : Graph := stages.final.forgetAbsorbed g.structCount

theorem success (stages : Stages g a b) :
    Success stages.region (.join (stages.image a) (stages.image b)) stages.start stages.outcome
      stages.joined :=
  stages.run.keeps stages.invariant stages.ready

end Stages

namespace Graph

inductive Ends (g : Graph) (a b : Value) :
    Except Failure (Value × Scoping) × Graph → Prop where
  | fails (c : CopiedOperands g a b) {f : Failure} {st : JoinState} :
      Runs (.join (c.image a) (c.image b)) c.start (.error f) st → Ends g a b (.error f, g)
  | succeeds (stages : Stages g a b) :
      Ends g a b (.ok (stages.result, .common stages.scope), stages.after)

/-- The unification of plain operands always ends. -/
theorem Plain.exists_ends {g : Graph} {a b : Value} (ha : g.Plain a) (hb : g.Plain b)
    (limit : Nat) :
    ∃ result, g.unify? limit a b (.common ∅) = some result ∧ g.Ends a b result := by
  obtain ⟨h, m, copied, copies, complete, known, known'⟩ := ha.exists_copyOperands hb
  let c : CopiedOperands g a b := ⟨h, m, ha.source hb, copies, complete, known, known'⟩
  obtain ⟨out, st, ends, run⟩ :=
    executes_joinWithin limit limit [] (c.image a) (c.image b) c.start c.invariant c.ready
  have joined : joinWithin limit limit [] (m.images.apply a) (m.images.apply b) { graph := h } =
      ending (out.map id) st := ends
  cases out with
  | error f =>
    have frames : c.region.Frames st.graph := run.keeps c.invariant c.ready
    have truncated : st.graph.truncate g.structCount g.varCount = g := frames.truncate
    have failed : g.unify? limit a b (.common ∅) =
        some (.error f, st.graph.truncate g.structCount g.varCount) := by
      simp [unify?, unifyWith?, copied, joined, ending, Except.map]
    exact ⟨(.error f, g), by rw [failed, truncated], .fails c run⟩
  | ok u =>
    have success := run.keeps c.invariant c.ready
    have inside : (Scoping.common m.scope).All fun scope =>
        ∀ name v, scope.get? name = some v → c.region.Has v := c.has_scope
    obtain ⟨w, scoping, k, visited, normalized, settles, normal, related⟩ :=
      Region.exists_normalize success.invariant.closed success.has inside
    cases scoping with
    | separate => exact related.elim
    | common scope =>
      let stages : Stages g a b :=
        { c with joined := st, outcome := u, run, final := k, visited, result := w, scope, settles,
                 normal, scopeSettles := related }
      refine ⟨_, ?_, .succeeds stages⟩
      simp [unify?, unifyWith?, copied, joined, ending, Except.map, normalized, stages,
        Stages.after]

end Graph

end FeatureLogic
