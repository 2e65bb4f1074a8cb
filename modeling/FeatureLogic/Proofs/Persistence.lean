import FeatureLogic.Proofs.Graph.Legibility
import FeatureLogic.Proofs.Graph.Persistence
import FeatureLogic.Proofs.History
import FeatureLogic.Proofs.Join.Execution

/-!
# Values are persistent

No operation changes what a value from before it stands for. All operations but unification only
add nodes. A unification joins copies, and its normal form walks through old nodes only to write
values that settle to the same node. What settles to an old node stands for it: an old structure is
never absorbed, and none of the added structures survives as an old one.
-/

namespace FeatureLogic

open FeatureLogic.Graph

/-- Values that are plain and settled at the end of a join are left as they are by the walks of its
normal form. -/
theorem Region.Reshapes.retains {r : Region} {g joined final : Graph}
    (reshapes : r.Reshapes joined final) (before : g.Retains joined)
    (has : ∀ {v}, g.Contains v → r.Has v) (settled : ∀ {v}, g.Plain v → joined.Settles v v)
    (start : Nat) : g.Retains (final.forgetAbsorbed start) where
  features {s} plain := by
    obtain ⟨m, found⟩ := exists_features_of_contains (plain.contains .refl)
    rw [features?_forgetAbsorbed, found]
    exact reshapes.features?_eq (has (plain.contains .refl)) ((before.features plain).trans found)
      fun held => settled (plain.of_below (.feature .refl found held))
  var {x} plain := by
    obtain ⟨name, found⟩ := plain.free .refl
    have before : joined.var? x = some { name } := (before.var plain).trans found
    have hasX := has (plain.contains .refl)
    obtain ⟨⟨name', binding⟩, after⟩ := reshapes.closed.exists_var hasX
    have named : final.name? x = some name := by
      rw [reshapes.name, name?, before]
      rfl
    have root : final.forward? (.var x) = none := by
      rw [reshapes.forward, forward?, before]
      rfl
    have empty : final.content? (.var x) = none :=
      reshapes.empty hasX (by rw [content?, before]; rfl)
    rw [var?_forgetAbsorbed, found, after]
    simp only [name?, forward?, content?, after, Option.map_some, Option.some.injEq,
      Option.bind_some] at named root empty
    cases binding with
    | free => rw [named]
    | link y => cases root
    | bound v => cases empty

namespace Graph

variable {g h k : Graph}

namespace NormalForm

variable {joined final : Graph} {u result : Value} {copied scoping : Scoping}
  {visited : List StructId}

theorem forward?_of_contains (form : NormalForm g h joined u copied result scoping final visited)
    (wf : g.WellFormed) {s : StructId} (old : g.Contains (.struct s)) :
    joined.forward? (.struct s) = none := by
  rw [forward?, form.added.frames.struct old]
  exact wf.forward?_struct s

theorem deref?_of_settles (form : NormalForm g h joined u copied result scoping final visited)
    (wf : g.WellFormed) {v w : Value} (has : h.entirety.Has v) (settles : joined.Settles v w)
    (old : g.Contains w) : final.deref? v = some w := by
  have reshapes := form.normal.settling.reshapes
  have settles' : final.Settles v w := (reshapes.settles form.whole has).2 settles
  obtain ⟨w', reads, hasW', same, settled⟩ := reshapes.closed.exists_deref has
  rw [reads]
  by_cases struct : ∃ s, w' = .struct s
  · obtain ⟨s, rfl⟩ := struct
    have resolves : joined.Resolves (.struct s) w := (reshapes.resolves form.whole).1
      ((settles_iff_of_informative (v := .struct s) trivial).1 ((same w).1 settles'))
    obtain ⟨t, rfl⟩ := path_struct resolves.path
    by_cases before : g.Contains (.struct s)
    · have self : joined.Resolves (.struct s) (.struct s) :=
        ⟨.refl, form.forward?_of_contains wf before, form.whole.contains hasW'⟩
      rw [resolves.unique self]
    · -- an added structure resolves to an added one
      have added : (g.added h).Has (.struct s) := ⟨Nat.le_of_not_lt before, hasW'.2⟩
      exact absurd (form.added.has_of_path added resolves.path) (not_added_of_contains old rfl)
  · rw [(settled fun s eq => struct ⟨s, eq⟩).unique settles']

theorem settles_of_deref? (form : NormalForm g h joined u copied result scoping final visited)
    (wf : g.WellFormed) {v w : Value} (has : h.entirety.Has v) (old : g.Contains w)
    (reads : g.deref? v = some w) : joined.Settles v w := by
  obtain ⟨w', reads', hasW, same, settled⟩ := form.whole.exists_deref has
  cases (form.added.frames.deref?_eq_some reads).symm.trans reads'
  by_cases struct : ∃ s, w = .struct s
  · obtain ⟨s, rfl⟩ := struct
    have stops := form.forward?_of_contains wf old
    exact (same _).2 ((settles_iff_of_informative (v := .struct s) trivial).2
      ⟨.refl, stops, form.whole.contains hasW⟩)
  · exact settled fun s eq => struct ⟨s, eq⟩

/-- What a normal form puts in the place of an old value stands for the same in the end. -/
theorem deref?_of_equates (form : NormalForm g h joined u copied result scoping final visited)
    (wf : g.WellFormed) {v v' w : Value} (has : h.entirety.Has v) (inside : g.Contains v)
    (reads : g.deref? v = some w) (has' : h.entirety.Has v') (same : joined.Equates v v') :
    final.deref? v' = some w := by
  obtain ⟨w', reads', old⟩ := wf.exists_deref inside
  cases reads.symm.trans reads'
  exact form.deref?_of_settles wf has' ((same w).1 (form.settles_of_deref? wf has old reads)) old

theorem features_map_eq (form : NormalForm g h joined u copied result scoping final visited)
    (wf : g.WellFormed) (has : ∀ {v}, g.Contains v → h.entirety.Has v) {s : StructId}
    {m n : NameMap Value} (found : g.features? s = some m) (found' : final.features? s = some n) :
    n.map final.deref? = m.map g.deref? := by
  have reshapes := form.normal.settling.reshapes
  have inside := contains_of_features? found
  have before := form.added.frames.features?_eq_some found
  refine NameMap.ext fun name => ?_
  rw [NameMap.get?_map, NameMap.get?_map]
  cases held : m.get? name with
  | none =>
    cases held' : n.get? name with
    | none => rfl
    | some v' =>
      obtain ⟨v, ⟨m', stored, holds⟩, -⟩ := reshapes.origin (has inside) ⟨n, found', held'⟩
      cases before.symm.trans stored
      cases held.symm.trans holds
  | some v =>
    obtain ⟨v', ⟨n', stored, holds⟩, updates⟩ := reshapes.kept (has inside) ⟨m, before, held⟩
    cases found'.symm.trans stored
    obtain ⟨node, present, rfl⟩ := Option.map_eq_some_iff.1 found
    have insideV := wf.feature present held
    obtain ⟨w, reads, -⟩ := wf.exists_deref insideV
    rw [holds, Option.map_some, Option.map_some, reads,
      form.deref?_of_equates wf (has insideV) insideV reads
        (reshapes.closed.feature (has inside) found' holds) updates.same]

/-- A normal form that walks through old nodes leaves what they stand for. -/
theorem persists (form : NormalForm g h joined u copied result scoping final visited)
    (wf : g.WellFormed) (structs : g.structCount ≤ h.structCount)
    (vars : g.varCount ≤ h.varCount) : g.Persists (final.forgetAbsorbed g.structCount) := by
  have reshapes := form.normal.settling.reshapes
  have has {v : Value} (inside : g.Contains v) : h.entirety.Has v :=
    entirety_has.2 (inside.mono structs vars)
  have reads : (final.forgetAbsorbed g.structCount).deref? = final.deref? :=
    funext (deref?_forgetAbsorbed _)
  constructor
  case structs =>
    rw [structCount_forgetAbsorbed, reshapes.closed.structCount]
    exact structs
  case vars =>
    rw [varCount_forgetAbsorbed, reshapes.closed.varCount]
    exact vars
  case name =>
    intro x inside
    rw [name?_forgetAbsorbed, reshapes.name, name?, form.added.frames.var inside, name?]
    rfl
  case deref =>
    intro v inside
    obtain ⟨w, before, -⟩ := wf.exists_deref inside
    rw [reads, before,
      form.deref?_of_equates wf (has inside) inside before (has inside) (.refl _ v)]
  case features =>
    intro s m found
    obtain ⟨n, found'⟩ := reshapes.closed.exists_features (has (contains_of_features? found))
    exact ⟨n, by rw [features?_forgetAbsorbed, found'],
      reads ▸ form.features_map_eq wf has found found'⟩

/-- What is below an old plain value is settled, so that a normal form leaves it as it is. -/
theorem retains (form : NormalForm g h joined u copied result scoping final visited)
    (wf : g.WellFormed) (structs : g.structCount ≤ h.structCount)
    (vars : g.varCount ≤ h.varCount) : g.Retains (final.forgetAbsorbed g.structCount) := by
  have has {v : Value} (inside : g.Contains v) : h.entirety.Has v :=
    entirety_has.2 (inside.mono structs vars)
  refine form.normal.settling.reshapes.retains ⟨fun plain => ?_, fun plain => ?_⟩ has
    (fun plain => ?_) _
  · obtain ⟨m, found⟩ := exists_features_of_contains (plain.contains .refl)
    rw [form.added.frames.features?_eq_some found, found]
  · exact form.added.frames.var (plain.contains .refl)
  · have old := plain.contains .refl
    exact form.settles_of_deref? wf (has old) old plain.deref?

end NormalForm

/-- How an operation may change a graph: it adds nodes, or it brings joined copies of nodes into
normal form. -/
inductive Alters (g : Graph) : Graph → Prop where
  | adds {h : Graph} : g.PartOf h → Alters g h
  | unifies {h joined final : Graph} {v w u result : Value} {copied scoping : Scoping}
      {visited : List StructId} : g.OperandCopies h v w copied →
      NormalForm g h joined u copied result scoping final visited →
      Alters g (final.forgetAbsorbed g.structCount)

theorem Alters.persists (wf : g.WellFormed) (alters : g.Alters h) : g.Persists h := by
  cases alters with
  | adds part => exact .of_partOf wf part
  | unifies copies form => exact form.persists wf copies.structs copies.vars

theorem Alters.retains (wf : g.WellFormed) (alters : g.Alters h) : g.Retains h := by
  cases alters with
  | adds part => exact part.retains
  | unifies copies form => exact form.retains wf copies.structs copies.vars

theorem WellFormed.alters_unify (wf : g.WellFormed) {limit : Nat} {a b : Value}
    (ha : g.Contains a) (hb : g.Contains b) {scoping : Scoping}
    (within : scoping.All (Scope.Within · g)) {out : Except Failure (Value × Scoping)}
    (ends : g.unify? limit a b scoping = some (out, h)) : g.Alters h := by
  obtain ⟨result, ends', how⟩ := wf.exists_concludes limit ha hb within
  cases ends'.symm.trans ends
  cases how with
  | fails => exact .adds (.refl wf)
  | succeeds _ copies _ form => exact .unifies copies form

theorem WellFormed.alters_unifyCached (wf : g.WellFormed) {limit : Nat} {a b : Value}
    (ha : g.Contains a) (hb : g.Contains b) {scoping : Scoping}
    (within : scoping.All (Scope.Within · g)) {cache cache' : Cache}
    {out : Except Failure (Value × Scoping)}
    (ends : g.unifyCached? limit a b scoping cache = some (out, h, cache')) : g.Alters h := by
  cases known : cache.get? a b with
  | some entry =>
    obtain ⟨out', same⟩ := unifyCached?_of_some known
    cases ends.symm.trans same
    exact .adds (.refl wf)
  | none =>
    obtain ⟨out', h', unified, -⟩ := wf.exists_unify limit ha hb within
    cases ends.symm.trans (unifyCached?_of_none known unified)
    exact wf.alters_unify ha hb within unified

theorem WellFormed.alters_subsumes (wf : g.WellFormed) {v w : Value} (hv : g.Contains v)
    (hw : g.Contains w) {answer : Except Failure Bool}
    (ends : g.subsumes? v w = some (answer, h)) : g.Alters h := by
  obtain ⟨out, unified⟩ := unify?_of_subsumes? ends
  exact wf.alters_unify hv hw (Scoping.within_fresh g) unified

theorem Receives.alters (wf : g.WellFormed) {result : Except SyntaxError Value × Graph}
    (receives : g.Receives result) : g.Alters result.2 := by
  obtain ⟨result, h⟩ := result
  cases result with
  | error e =>
    cases receives
    exact .adds (.refl wf)
  | ok v => exact .adds receives.1

/-- No operation does anything else to a graph. -/
theorem WellFormed.alters_perform (wf : g.WellFormed) {op : Operation} (within : op.Within g)
    (performed : g.perform? op = some h) : g.Alters h := by
  cases op with
  | readStruct text =>
    cases performed
    exact Receives.alters wf (wf.receives_readStruct text)
  | readValue text =>
    cases performed
    exact Receives.alters wf (wf.receives_readValue text)
  | newStruct features =>
    cases performed
    exact .adds (wf.partOf_newStruct within)
  | newVar name? =>
    cases performed
    exact .adds ((PartOf.refl wf).addVar _)
  | copyVar x =>
    obtain ⟨y, h', copied, part, -⟩ := wf.exists_copyVar within
    rw [perform?, copied] at performed
    cases performed
    exact .adds part
  | rename v replaced used =>
    obtain ⟨w, replaced', h', renamed, part, -⟩ := wf.exists_rename within.1 within.2 used
    rw [perform?, renamed] at performed
    cases performed
    exact .adds part
  | substitute scope v =>
    obtain ⟨w, h', substituted, part, -⟩ := Scope.exists_substitute wf within.1 within.2
    rw [perform?, substituted] at performed
    cases performed
    exact .adds part
  | subsumes general specific =>
    obtain ⟨⟨answer, h'⟩, ends, rfl⟩ := Option.map_eq_some_iff.1 performed
    exact wf.alters_subsumes within.1 within.2 ends
  | unify limit v w scoping cache =>
    obtain ⟨⟨out, h', cache'⟩, ends, rfl⟩ := Option.map_eq_some_iff.1 performed
    exact wf.alters_unifyCached within.1 within.2.1 within.2.2 ends

/-- Does an operation on handles of `g` lead to `h`? -/
def Becomes (g h : Graph) : Prop := ∃ op : Operation, op.Within g ∧ g.perform? op = some h

/-- Whatever is done to a graph, it stays well-formed, its values persist and its plain values are
retained. -/
theorem WellFormed.persists_run (wf : g.WellFormed) (run : Relation.ReflTransGen Becomes g h) :
    h.WellFormed ∧ g.Persists h ∧ g.Retains h := by
  induction run with
  | refl => exact ⟨wf, .refl g, .refl g⟩
  | @tail h k _ step ih =>
    obtain ⟨op, within, performed⟩ := step
    obtain ⟨wf', persists, retains⟩ := ih
    obtain ⟨k', performed', wf''⟩ := wf'.exists_perform within
    cases performed.symm.trans performed'
    have alters := wf'.alters_perform within performed
    exact ⟨wf'', persists.trans (alters.persists wf'), retains.trans (alters.retains wf')⟩

/-- Values are persistent. Every value of a graph that came of operations on the empty one has the
same text, the same value on every path and the same comparisons with every other one after any
further operations, whether they fail or not. -/
theorem values_persist {g h : Graph} (reached : g.Reached)
    (run : Relation.ReflTransGen Becomes g h) {v : Value} (inside : g.Contains v) :
    (∃ text, g.text? v = some text ∧ h.text? v = some text) ∧
      (∀ path, ∃ found, g.path? v path = some found ∧ h.path? v path = some found) ∧
      ∀ {w}, g.Contains w →
        (∃ answer, g.equal? v w = some answer ∧ h.equal? v w = some answer) ∧
          ∃ answer, g.isomorphic? v w = some answer ∧ h.isomorphic? v w = some answer := by
  have wf := reached.wellFormed
  obtain ⟨-, persists, -⟩ := wf.persists_run run
  refine ⟨?_, fun path => ?_, fun {w} insideW => ⟨?_, ?_⟩⟩
  · obtain ⟨text, written⟩ := wf.closed.legible.exists_text (entirety_has.2 inside)
    exact ⟨text, written, persists.text?_eq_some inside written⟩
  · obtain ⟨found, leads⟩ := wf.exists_path inside path
    exact ⟨found, leads, persists.path?_eq_some (persists.deref inside) leads⟩
  · obtain ⟨answer, compared, -⟩ := wf.equal?_iff inside insideW
    exact ⟨answer, compared, persists.correspond?_eq_some inside insideW compared⟩
  · obtain ⟨answer, compared, -⟩ := wf.isomorphic?_iff inside insideW
    exact ⟨answer, compared, persists.correspond?_eq_some inside insideW compared⟩

/-- A graph in which a unification has bound a variable, with a structure made of that later on. -/
def remembering : Graph where
  structs := #[{ features := .ofList [("f", .var ⟨0⟩)] },
    { features := .ofList [("f", .atom (.int 5))] },
    { features := .ofList [("f", .atom (.int 5))] },
    { features := .ofList [("f", .atom (.int 5))] },
    { features := .ofList [("h", .var ⟨1⟩)] }]
  vars := #[{ name := "n" }, { name := "n", binding := .bound (.atom (.int 5)) }]

theorem reached_remembering : remembering.Reached := by
  have named := Reached.start.step (.newVar (some "n")) trivial rfl
  have asking := named.step (.newStruct [("f", .var ⟨0⟩)])
    (by simp [Operation.Within]; decide) rfl
  have known := asking.step (.newStruct [("f", .atom (.int 5))])
    (by simp [Operation.Within]; decide) rfl
  have unified := known.step (.unify 50 (.struct ⟨0⟩) (.struct ⟨1⟩) .fresh ∅)
    ⟨by decide, by decide, by decide, by decide⟩ rfl
  exact unified.step (.newStruct [("h", .var ⟨1⟩)]) (by simp [Operation.Within]; decide) rfl

/-- A scope names the last structure of this graph when its second one is unified with itself. The
value of the variable is then put in its place. -/
theorem remembering_persists : ∃ h : Graph, Relation.ReflTransGen Becomes remembering h ∧
    h.features? ⟨4⟩ = some (.ofList [("h", .atom (.int 5))]) ∧
    (∃ text, remembering.text? (.struct ⟨4⟩) = some text ∧ h.text? (.struct ⟨4⟩) = some text) ∧
      (∀ path, ∃ found, remembering.path? (.struct ⟨4⟩) path = some found ∧
        h.path? (.struct ⟨4⟩) path = some found) ∧
      ∀ {w}, remembering.Contains w →
        (∃ answer, remembering.equal? (.struct ⟨4⟩) w = some answer ∧
          h.equal? (.struct ⟨4⟩) w = some answer) ∧
          ∃ answer, remembering.isomorphic? (.struct ⟨4⟩) w = some answer ∧
            h.isomorphic? (.struct ⟨4⟩) w = some answer := by
  let again : Operation := .unify 50 (.struct ⟨1⟩) (.struct ⟨1⟩)
    (.common (.ofList [("m", .struct ⟨4⟩)])) ∅
  have performed : ∃ h, remembering.perform? again = some h ∧
      h.features? ⟨4⟩ = some (.ofList [("h", .atom (.int 5))]) := ⟨_, rfl, rfl⟩
  obtain ⟨h, performed, rewritten⟩ := performed
  have within : (Scoping.common (.ofList [("m", .struct ⟨4⟩)])).All
      (Scope.Within · remembering) := by
    show Scope.Within _ remembering
    decide +kernel
  have run : Relation.ReflTransGen Becomes remembering h :=
    .single ⟨again, ⟨by decide, by decide, within⟩, performed⟩
  exact ⟨h, run, rewritten, values_persist reached_remembering run (by decide)⟩

end Graph

end FeatureLogic
