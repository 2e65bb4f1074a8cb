import FeatureLogic.Proofs.Copy.Senses
import FeatureLogic.Proofs.Graph.Plainness
import FeatureLogic.Proofs.Persistence
import FeatureLogic.Proofs.Scope.Rendering

/-!
# Substituting by unifying with nothing

To unify a value with the atom that says nothing is to copy it under the scope. Where the entries
of the scope are atoms and free variables whose chains do not come back, the copy is what a
substitution makes, up to isomorphism.
-/

namespace FeatureLogic

open FeatureLogic.Graph

variable {g h k : Graph} {v w r : Value} {scope : Scope} {limit : Nat}

theorem Join.exists_joinWithin_unspecified {st : JoinState}
    (unknown : st.joined.lookup (v, .unspecified) = none) (limit budget : Nat)
    (path : List String) : ∃ st', joinWithin limit (budget + 1) path v .unspecified st = .ok v st' ∧
      st'.graph = st.graph := by
  have joins : joinValues (joinWithin limit budget) path v .unspecified st = .ok v st := by
    by_cases hv : v = .unspecified
    · simp only [joinValues, hv, ite_true]
      rfl
    · simp only [joinValues, hv, ite_true, ite_false]
      rfl
  refine ⟨st.remember v .unspecified v, ?_, JoinState.graph_remember ..⟩
  rw [joinWithin, reuse_of_unknown unknown, bind_of_ok joins, bind_of_ok (record_apply _ _ _)]
  rfl

namespace Graph

theorem Plain.settles (wf : g.WellFormed) (plain : g.Plain v) : g.Settles v v := by
  have inside := plain.contains .refl
  have stops : g.forward? v = none := by
    cases v with
    | atom a => rfl
    | struct s => exact wf.forward?_struct s
    | var x =>
      obtain ⟨name, found⟩ := plain.free .refl
      simp [forward?, found, Binding.alias?]
  have empty : g.content? v = none := by
    cases v with
    | atom a => rfl
    | struct s => rfl
    | var x =>
      obtain ⟨name, found⟩ := plain.free .refl
      simp [content?, found, Binding.value?]
  have self : g.Resolves v v := ⟨.refl, stops, inside⟩
  exact ⟨v, self, by rwa [empty]⟩

/-- To unify with the value that says nothing is to copy. -/
theorem WellFormed.exists_unify_unspecified (wf : g.WellFormed) (inside : g.Contains v)
    {scoping copied : Scoping} (within : scoping.All (Scope.Within · g))
    (walked : g.copyOperands v .unspecified scoping = some (r, .unspecified, copied, h))
    (plain : h.Plain r) (enough : 1 ≤ limit) :
    ∃ after k, g.unify? limit v .unspecified scoping = some (.ok (r, after), k) ∧ h.Retains k := by
  obtain ⟨_, _, _, _, walked', copies⟩ :=
    wf.exists_copyOperands (w := .unspecified) inside trivial within
  cases walked.symm.trans walked'
  obtain ⟨budget, rfl⟩ := Nat.exists_eq_add_of_le' enough
  have unknown : (JoinState.mk h []).joined.lookup (r, .unspecified) = none := rfl
  obtain ⟨st, joins, same⟩ :=
    Join.exists_joinWithin_unspecified unknown (budget + 1) budget []
  obtain ⟨out, st', ends, run⟩ := Join.executes_joinWithin (budget + 1) (budget + 1) [] r
    .unspecified { graph := h } copies.invariant copies.ready
  cases out with
  | error f => cases ends.symm.trans joins
  | ok u =>
    cases ends.symm.trans joins
    obtain ⟨result, after, final, visited, done, form⟩ :=
      copies.exists_unify?_of_ok walked joins run
    have wfH : h.WellFormed := copies.wellFormed
    have settles := form.settles
    rw [same] at settles
    cases (plain.settles wfH).unique settles
    refine ⟨after, _, done, form.normal.settling.reshapes.retains ?_ entirety_has.2 ?_ _⟩
    · rw [same]
      exact .refl h
    · rw [same]
      exact fun plain => plain.settles wfH

/-- To unify with nothing renders a value. -/
theorem Plain.exists_unify_renders (wf : g.WellFormed) (plain : g.Plain v)
    (chained : scope.Chained g) (enough : 1 ≤ limit) :
    ∃ r after h, g.unify? limit v .unspecified (.common scope) = some (.ok (r, after), h) ∧
      scope.Renders g v h r ∧ h.Plain r ∧ g.Retains h ∧ h.WellFormed := by
  obtain ⟨h, m, walked, copy⟩ := plain.exists_sensedCopy wf chained
  have inside := plain.contains .refl
  have within : (Scoping.common scope).All (Scope.Within · g) := chained.plain.within
  have copied : g.copyOperands v .unspecified (.common scope) =
      some (m.images.apply v, .unspecified, .common (m.scope.map m.images.apply), h) := by
    simp only [copyOperands, walked, Option.bind_eq_bind, Option.bind_some]
    rfl
  obtain ⟨after, k, unified, retains⟩ :=
    wf.exists_unify_unspecified inside within copied copy.plain enough
  have renders := (copy.renders wf plain chained).retained chained.plain plain (.refl g) copy.plain
    retains
  have alters := wf.alters_unify (b := .unspecified) inside trivial within unified
  obtain ⟨out, k', unified', leaves⟩ :=
    wf.exists_unify limit (b := .unspecified) inside trivial within
  cases unified.symm.trans unified'
  exact ⟨_, after, k, unified, renders, retains.plain copy.plain, alters.retains wf,
    leaves.wellFormed wf⟩

end Graph

theorem Scope.Renders.isomorphic?_eq_true (wf : h.WellFormed) (plain : h.Plain w)
    (plain' : h.Plain r) (first : scope.Renders g v h w) (second : scope.Renders g v h r) :
    h.isomorphic? w r = some true := by
  obtain ⟨answer, compared, iff⟩ :=
    wf.isomorphic?_iff (plain.contains .refl) (plain'.contains .refl)
  rw [compared, iff.2 (first.isomorphic second)]

/-- To substitute in a value and to unify it with nothing come to the same, whichever is done first,
where the entries of the scope are atoms and free variables whose chains do not come back. -/
theorem Scope.Chained.substitute?_unify? (chained : scope.Chained g) (wf : g.WellFormed)
    (plain : g.Plain v) (enough : 1 ≤ limit) :
    (∃ w h r after k, scope.substitute? g v = some (w, h) ∧
      h.unify? limit v .unspecified (.common scope) = some (.ok (r, after), k) ∧
      k.isomorphic? w r = some true) ∧
    ∃ r after h w k, g.unify? limit v .unspecified (.common scope) = some (.ok (r, after), h) ∧
      scope.substitute? h v = some (w, k) ∧ k.isomorphic? w r = some true := by
  have substitution {g : Graph} (chained : scope.Chained g) (wf : g.WellFormed)
      (plain : g.Plain v) : ∃ w h, scope.substitute? g v = some (w, h) ∧
        scope.Renders g v h w ∧ h.Plain w ∧ g.PartOf h := by
    have entries := chained.plain
    obtain ⟨w, h, copies, substituted, part, contains, substitutes⟩ :=
      exists_substitutes wf entries.within (entries.territory wf plain)
    exact ⟨w, h, substituted, substitutes.renders part entries plain,
      substitutes.plain part contains entries plain, part⟩
  constructor
  · obtain ⟨w, h, substituted, renders, plainW, part⟩ := substitution chained wf plain
    have retains := part.retains
    obtain ⟨r, after, k, unified, renders', plainR, later, wfK⟩ :=
      (retains.plain plain).exists_unify_renders part.wellFormed (chained.retained retains)
        enough
    have renders := renders.retained chained.plain plain retains plainW later
    exact ⟨w, h, r, after, k, substituted, unified,
      renders.isomorphic?_eq_true wfK (later.plain plainW) plainR renders'⟩
  · obtain ⟨r, after, h, unified, renders', plainR, retains, wfH⟩ :=
      plain.exists_unify_renders wf chained enough
    obtain ⟨w, k, substituted, renders, plainW, part⟩ :=
      substitution (chained.retained retains) wfH (retains.plain plain)
    have later := part.retains
    have renders' := renders'.retained chained.plain plain retains plainR later
    exact ⟨r, after, h, w, k, unified, substituted,
      renders.isomorphic?_eq_true part.wellFormed plainW (later.plain plainR) renders'⟩

namespace Graph

/-- A structure that holds itself and five variables. -/
def winding : Graph where
  structs := #[{ features := .ofList [("f", .struct ⟨0⟩), ("g", .var ⟨0⟩), ("h", .var ⟨1⟩),
    ("k", .var ⟨2⟩), ("l", .var ⟨3⟩), ("m", .var ⟨4⟩)] }]
  vars := #[{ name := "x" }, { name := "y" }, { name := "z" }, { name := "n" }, { name := "o" }]

/-- A chain of two aliases, a name that stands for itself, and one that says nothing. -/
def windings : Scope :=
  .ofList [("x", .var ⟨1⟩), ("y", .var ⟨2⟩), ("n", .var ⟨3⟩), ("o", .unspecified)]

theorem plainOn_winding : winding.plainOn
    [.struct ⟨0⟩, .var ⟨0⟩, .var ⟨1⟩, .var ⟨2⟩, .var ⟨3⟩, .var ⟨4⟩] := by decide +kernel

theorem wellFormed_winding : winding.WellFormed :=
  wellFormed_of_plainOn plainOn_winding (by decide +kernel) (by decide +kernel) (by decide +kernel)

theorem chained_windings : windings.Chained winding := by
  have entry {name : String} {v : Value} (listed : windings.get? name = some v) :
      v = .unspecified ∨ ∃ x next, v = .var x ∧ winding.var? x = some { name := next } ∧
        (name, next) ∈ [("x", "y"), ("y", "z"), ("n", "n")] := by
    have mem := NameMap.mem_of_get?_ofList listed
    simp only [List.mem_cons, Prod.mk.injEq, List.not_mem_nil, or_false] at mem
    rcases mem with ⟨rfl, rfl⟩ | ⟨rfl, rfl⟩ | ⟨rfl, rfl⟩ | ⟨rfl, rfl⟩
    · exact .inr ⟨_, _, rfl, rfl, by simp⟩
    · exact .inr ⟨_, _, rfl, rfl, by simp⟩
    · exact .inr ⟨_, _, rfl, rfl, by simp⟩
    · exact .inl rfl
  have tied {name next : String} (tie : windings.Alias winding name next) :
      (name, next) ∈ [("x", "y"), ("y", "z"), ("n", "n")] := by
    obtain ⟨x, listed⟩ := tie.exists_entry
    rcases entry listed with eq | ⟨y, other, eq, found, mem⟩
    · cases eq
    · cases eq
      cases (Scope.alias_of_entry listed found).unique tie
      exact mem
  have chain {name last : String}
      (chain : Relation.TransGen (windings.Alias winding) name last) :
      (name, last) ∈ [("x", "y"), ("y", "z"), ("n", "n"), ("x", "z")] := by
    induction chain with
    | single tie =>
      have mem := tied tie
      simp only [List.mem_cons, List.not_mem_nil, or_false] at mem ⊢
      tauto
    | tail _ tie ih =>
      have mem := tied tie
      simp only [List.mem_cons, Prod.mk.injEq, List.not_mem_nil, or_false] at mem ih ⊢
      rcases mem with ⟨rfl, rfl⟩ | ⟨rfl, rfl⟩ | ⟨rfl, rfl⟩ <;> simp_all
  refine ⟨fun listed => ?_, fun {name} cycle => ?_⟩
  · rcases entry listed with rfl | ⟨x, next, eq, found, -⟩
    · exact .inl ⟨_, rfl⟩
    · exact .inr ⟨x, next, eq, found⟩
  · have mem := chain cycle
    obtain rfl : name = "n" := by
      simp only [List.mem_cons, Prod.mk.injEq, List.not_mem_nil, or_false] at mem
      rcases mem with ⟨rfl, eq⟩ | ⟨rfl, eq⟩ | ⟨rfl, -⟩ | ⟨rfl, eq⟩ <;> first | rfl | simp at eq
    exact Scope.alias_of_entry (x := ⟨3⟩) rfl rfl

theorem winding_rendered :
    (∃ w h r after k, windings.substitute? winding (.struct ⟨0⟩) = some (w, h) ∧
      h.unify? 1 (.struct ⟨0⟩) .unspecified (.common windings) = some (.ok (r, after), k) ∧
      k.isomorphic? w r = some true) ∧
    ∃ r after h w k,
      winding.unify? 1 (.struct ⟨0⟩) .unspecified (.common windings) = some (.ok (r, after), h) ∧
      windings.substitute? h (.struct ⟨0⟩) = some (w, k) ∧ k.isomorphic? w r = some true :=
  chained_windings.substitute?_unify? wellFormed_winding
    (plain_of_plainOn plainOn_winding (by simp)) (Nat.le_refl 1)

end Graph

end FeatureLogic
