import FeatureLogic.Proofs.Graph.Comparing
import FeatureLogic.Proofs.Graph.Grounding
import FeatureLogic.Proofs.Join.Limit
import FeatureLogic.Proofs.Persistence
import FeatureLogic.Proofs.Unification.Privacy
import FeatureLogic.Proofs.Unification.Universality

/-!
# Unification is associative

Up to isomorphism, embedding is a partial order on ground values, and the unification of two ground
values that share nothing gives their least upper bound, or finds that they have no upper bound. The
result shares nothing with any value from before. So three values can be unified in either order: it
is their common upper bounds that decide whether this succeeds, and the least of them is the result.
-/

namespace FeatureLogic

open FeatureLogic.Graph Join

namespace Graph

variable {g h k : Graph} {a b c r u v w z : Value} {limit : Nat}

section Fresh

theorem Copies.scope_eq_empty {m : Copying} (copies : g.Copies (g.Operands a b) h m)
    (ha : g.Ground a) (hb : g.Ground b) : m.scope = ∅ := by
  refine NameMap.ext fun name => ?_
  cases listed : m.scope.get? name with
  | none => rfl
  | some v =>
    obtain ⟨y, -, has, -⟩ := copies.scope listed
    obtain ⟨x, below, -⟩ := copies.originVar has
    exact absurd below (not_or.2 ⟨ha.noVar x, hb.noVar x⟩)

theorem Ground.exists_copyOperands (ha : g.Ground a) (hb : g.Ground b) :
    ∃ v w h, g.copyOperands a b (.common ∅) = some (v, w, .common ∅, h) ∧
      g.copyOperands a b .fresh = some (v, w, .fresh, h) := by
  have source := ha.plain.source hb.plain
  obtain ⟨⟨g₁, m₁⟩, walked, copied, -⟩ := copyScoped_copies (W := (g, {})) source
    (show g.Operands a b a from .inl .refl) (copies_start g _)
  obtain ⟨⟨g₂, m₂⟩, walked', copied', -⟩ := copyScoped_copies (W := (g₁, m₁)) source
    (show g.Operands a b b from .inr .refl) copied.kept
  have empty : m₁.scope = ∅ := copied.kept.scope_eq_empty ha hb
  have empty' : m₂.scope = ∅ := copied'.kept.scope_eq_empty ha hb
  have same : { m₁ with scope := ∅ } = m₁ := by
    rw [← empty]
  refine ⟨m₁.images.apply a, m₂.images.apply b, g₂, ?_, ?_⟩
  · simp only [copyOperands, walked, walked', Option.bind_eq_bind, Option.bind_some, empty']
    rfl
  · simp only [copyOperands, Scoping.fresh, walked, same, walked', Option.bind_eq_bind,
      Option.bind_some, empty, empty']
    rfl

theorem normalize_fresh (g : Graph) (u : Value) :
    g.normalize u .fresh = (g.normalize u (.common ∅)).map fun (v, _, h) => (v, .fresh, h) := by
  unfold normalize
  cases redirectValue u (g, []) with
  | none => rfl
  | some redirected =>
    obtain ⟨v, h, visited⟩ := redirected
    show (settleValue v (h, []) >>= _) = Option.map _ (settleValue v (h, []) >>= _)
    cases settleValue v (h, []) with
    | none => rfl
    | some settled => rfl

theorem Ground.unify?_fresh (ha : g.Ground a) (hb : g.Ground b) (limit : Nat) :
    g.unify? limit a b .fresh = (g.unify? limit a b (.common ∅)).map fun (out, h) =>
      (out.map fun (u, _) => (u, .fresh), h) := by
  obtain ⟨v, w, start, copied, copied'⟩ := ha.exists_copyOperands hb
  simp only [unify?, unifyWith?, copied, copied', Option.bind_eq_bind, Option.bind_some]
  cases joinWithin limit limit [] v w { graph := start } with
  | ok u st =>
    simp only [normalize_fresh]
    cases st.graph.normalize u (.common ∅) with
    | none => rfl
    | some result => rfl
  | error e st =>
    cases e with
    | failure f => rfl
    | dangling => rfl

end Fresh

/-- How something may end that looks for a least one among the ground values with a property:
with that value, with the finding that no value has the property, or for want of depth. -/
inductive Supremum (above : Graph → Value → Prop) : Except Failure Value → Graph → Prop where
  | least {r : Value} {h : Graph} : h.Ground r → above h r →
      (∀ {k z}, above k z → h.EmbedsIn r k z) → Supremum above (.ok r) h
  | unbounded {f : Failure} {h : Graph} : (∀ {k z}, ¬ above k z) → Supremum above (.error f) h
  | tooDeep {limit : Nat} {path : List String} {h : Graph} :
      Supremum above (.error (.tooDeep limit path)) h

namespace Supremum

variable {above above' : Graph → Value → Prop} {out out' : Except Failure Value}

theorem congr (supremum : Supremum above out h) (iff : ∀ {k z}, above' k z ↔ above k z) :
    Supremum above' out h := by
  cases supremum with
  | least ground bound least => exact .least ground (iff.2 bound) fun other => least (iff.1 other)
  | unbounded none => exact .unbounded fun other => none (iff.1 other)
  | tooDeep => exact .tooDeep

/-- If one search succeeds, so does every other one that does not end for want of depth. -/
theorem exists_ok (supremum : Supremum above (.ok r) h) (other : Supremum above out k)
    (unmet : ¬ MeetsLimit out) : ∃ r', out = .ok r' := by
  cases other with
  | least => exact ⟨_, rfl⟩
  | unbounded none =>
    cases supremum with
    | least _ bound _ => exact absurd bound none
  | tooDeep => exact absurd (meetsLimit_tooDeep _ _) unmet

theorem ground (supremum : Supremum above (.ok r) h) : h.Ground r := by
  cases supremum with
  | least ground => exact ground

/-- Two successful searches for the same have isomorphic results. -/
theorem isomorphic {r' : Value} (supremum : Supremum above (.ok r) h)
    (other : Supremum above (.ok r') k) {l l' : Graph} (retains : h.Retains l)
    (retains' : k.Retains l') : l.Isomorphic r l' r' := by
  cases supremum with
  | least ground bound least =>
    cases other with
    | least ground' bound' least' =>
      refine isomorphic_of_embedsIn (retains.ground ground) (retains'.ground ground') ?_ ?_
      · exact (retains.embedsIn_iff ground).2
          ((least bound').retains_target ground'.plain retains')
      · exact (retains'.embedsIn_iff ground').2
          ((least' bound).retains_target ground.plain retains)

end Supremum

theorem becomes_unify (ha : g.Contains a) (hb : g.Contains b) {scoping : Scoping}
    (within : scoping.All (Scope.Within · g)) {out : Except Failure (Value × Scoping)}
    (ends : g.unify? limit a b scoping = some (out, h)) : g.Becomes h :=
  ⟨.unify limit a b scoping ∅, ⟨ha, hb, within⟩,
    by rw [perform?, unifyCached?_of_none rfl ends, Option.map_some]⟩

/-- The unification of two ground values that share nothing gives their least upper bound. -/
theorem Ground.supremum_unify (ha : g.Ground a) (hb : g.Ground b) (unshared : g.Unshared a b)
    (limit : Nat) :
    ∃ out h, g.unify? limit a b .fresh = some (out, h) ∧
      Supremum (fun k z => g.EmbedsIn a k z ∧ g.EmbedsIn b k z) (out.map Prod.fst) h := by
  obtain ⟨⟨out, h⟩, ends, how⟩ := ha.plain.exists_ends hb.plain limit
  refine ⟨out.map fun (u, _) => (u, .fresh), h, ?_, ?_⟩
  · rw [ha.unify?_fresh hb, ends, Option.map_some]
  cases how with
  | @fails c f st run =>
    cases f with
    | tooDeep limit path => exact .tooDeep
    | mismatch path left right =>
      refine .unbounded fun {k z} bound => ?_
      obtain ⟨⟨e, left⟩, e', right⟩ := bound
      obtain ⟨e₀, left', right'⟩ := left.exists_common right ha hb unshared
      cases CopiedOperands.isFatal_of_fails left' right' run
  | succeeds stages =>
    obtain ⟨e, universal⟩ := stages.exists_universal
    have noVar (y : VarId) (below : stages.after.Below stages.result (.var y)) : False := by
      obtain ⟨x, -, operand, -⟩ := universal.var below
      exact operand.elim (ha.noVar x) (hb.noVar x)
    refine .least ⟨fun {v} below => ?_, noVar⟩ ⟨⟨e, universal.left⟩, e, universal.right⟩
      fun {k z} bound => ?_
    · cases v with
      | atom a => trivial
      | struct t =>
        obtain ⟨m, found⟩ := universal.features below
        exact contains_of_features? found
      | var y => exact (noVar y below).elim
    · obtain ⟨⟨e₁, left⟩, e₂, right⟩ := bound
      obtain ⟨e₀, left', right'⟩ := left.exists_common right ha hb unshared
      obtain ⟨e', embeds, -⟩ := universal.factors left' right'
      exact ⟨e', embeds⟩

/-- A result shares nothing with a plain value from before. -/
theorem WellFormed.unshared_unify (wf : g.WellFormed) (ha : g.Contains a) (hb : g.Contains b)
    {scoping after : Scoping} (within : scoping.All (Scope.Within · g))
    (ok : g.unify? limit a b scoping = some (.ok (r, after), h)) (hc : g.Plain c) :
    h.Unshared r c := by
  obtain ⟨joined, -, added, -⟩ := unify?_private wf ha hb within ok
  have retains := (wf.alters_unify ha hb within ok).retains wf
  intro u node below below'
  have old := hc.contains ((retains.below_iff hc).1 below')
  exact not_added_of_contains old node (added below)

/-- Unifies `a` and `b`, and their result with what `next` puts beside it, on the one side or on
the other. -/
def unifyTwice? (g : Graph) (limit limit' : Nat) (a b : Value) (next : Value → Value × Value) :
    Option (Except Failure Value × Graph) :=
  match g.unify? limit a b .fresh with
  | none => none
  | some (.error f, h) => some (.error f, h)
  | some (.ok (u, _), h) =>
    (h.unify? limit' (next u).1 (next u).2 .fresh).map fun (out, k) => (out.map Prod.fst, k)

def unifyLeft? (g : Graph) (limit limit' : Nat) (a b c : Value) :
    Option (Except Failure Value × Graph) :=
  g.unifyTwice? limit limit' a b fun u => (u, c)

def unifyRight? (g : Graph) (limit limit' : Nat) (a b c : Value) :
    Option (Except Failure Value × Graph) :=
  g.unifyTwice? limit limit' b c fun u => (a, u)

/-- Two unifications in a row give the least upper bound of three values. -/
theorem WellFormed.supremum_unifyTwice (wf : g.WellFormed) (ha : g.Ground a) (hb : g.Ground b)
    (hc : g.Ground c) (unshared : g.Unshared a b) {next : Value → Value × Value}
    (order : (∀ u, next u = (u, c)) ∨ ∀ u, next u = (c, u)) (limit limit' : Nat) :
    ∃ out h, g.unifyTwice? limit limit' a b next = some (out, h) ∧
      Relation.ReflTransGen Becomes g h ∧
      Supremum (fun k z => g.EmbedsIn a k z ∧ g.EmbedsIn b k z ∧ g.EmbedsIn c k z) out h := by
  have fresh (g : Graph) := Scoping.within_fresh g
  obtain ⟨out, h, ends, supremum⟩ := ha.supremum_unify hb unshared limit
  have step : g.Becomes h :=
    becomes_unify (ha.contains .refl) (hb.contains .refl) (fresh g) ends
  unfold unifyTwice?
  rw [ends]
  cases out with
  | error f =>
    refine ⟨.error f, h, rfl, .single step, ?_⟩
    cases supremum with
    | unbounded none => exact .unbounded fun bound => none ⟨bound.1, bound.2.1⟩
    | tooDeep => exact .tooDeep
  | ok result =>
    obtain ⟨u, after⟩ := result
    cases supremum with
    | least hu bound least =>
      obtain ⟨wf', -, retains⟩ := wf.persists_run (.single step)
      have hc' := retains.ground hc
      have apart := wf.unshared_unify (ha.contains .refl) (hb.contains .refl) (fresh g) ends
        hc.plain
      have iff {k : Graph} {z : Value} :
          g.EmbedsIn a k z ∧ g.EmbedsIn b k z ∧ g.EmbedsIn c k z ↔
            h.EmbedsIn u k z ∧ h.EmbedsIn c k z := by
        rw [retains.embedsIn_iff hc]
        constructor
        · exact fun above => ⟨least ⟨above.1, above.2.1⟩, above.2.2⟩
        · exact fun above => ⟨bound.1.trans above.1 ha hu.plain, bound.2.trans above.1 hb hu.plain,
            above.2⟩
      cases order with
      | inl order =>
        obtain ⟨out, k, ends', supremum⟩ := hu.supremum_unify hc' apart limit'
        refine ⟨out.map Prod.fst, k, by simp only [order, ends', Option.map_some], ?_,
          supremum.congr iff⟩
        exact .tail (.single step)
          (becomes_unify (hu.contains .refl) (hc'.contains .refl) (fresh h) ends')
      | inr order =>
        have apart' : h.Unshared c u := fun v node below below' => apart v node below' below
        obtain ⟨out, k, ends', supremum⟩ := hc'.supremum_unify hu apart' limit'
        refine ⟨out.map Prod.fst, k, by simp only [order, ends', Option.map_some], ?_,
          supremum.congr (iff.trans and_comm)⟩
        exact .tail (.single step)
          (becomes_unify (hc'.contains .refl) (hu.contains .refl) (fresh h) ends')

theorem Retains.unshared (retains : g.Retains h) (ha : g.Plain a) (hb : g.Plain b)
    (unshared : g.Unshared a b) : h.Unshared a b := by
  intro u node below below'
  exact unshared u node ((retains.below_iff ha).1 below) ((retains.below_iff hb).1 below')

/-- Unification is associative on ground values where those unified first share nothing. In whatever
graphs that come of `g` three values are unified in the one order and in the other, and under
whatever limits: both orders end, and if no limit is met, both succeed or none, and their results
are isomorphic, which the comparison finds in every graph that comes of both. -/
theorem WellFormed.unify?_assoc (wf : g.WellFormed) (ha : g.Ground a) (hb : g.Ground b)
    (hc : g.Ground c) (hab : g.Unshared a b) (hbc : g.Unshared b c) {g₁ g₂ : Graph}
    (first : Relation.ReflTransGen Becomes g g₁) (second : Relation.ReflTransGen Becomes g g₂)
    (limit₁ limit₂ limit₃ limit₄ : Nat) :
    ∃ out h out' k, g₁.unifyLeft? limit₁ limit₂ a b c = some (out, h) ∧
      g₂.unifyRight? limit₃ limit₄ a b c = some (out', k) ∧
      Relation.ReflTransGen Becomes g₁ h ∧ Relation.ReflTransGen Becomes g₂ k ∧
      (¬ MeetsLimit out → ¬ MeetsLimit out' →
        ((∃ r, out = .ok r) ↔ ∃ r', out' = .ok r') ∧
        ∀ r r', out = .ok r → out' = .ok r' → h.Isomorphic r k r' ∧
          ∀ l, Relation.ReflTransGen Becomes h l → Relation.ReflTransGen Becomes k l →
            l.isomorphic? r r' = some true) := by
  let above (k : Graph) (z : Value) : Prop :=
    g.EmbedsIn a k z ∧ g.EmbedsIn b k z ∧ g.EmbedsIn c k z
  obtain ⟨wf₁, -, retains₁⟩ := wf.persists_run first
  obtain ⟨wf₂, -, retains₂⟩ := wf.persists_run second
  obtain ⟨out, h, ends, run, supremum⟩ := wf₁.supremum_unifyTwice (retains₁.ground ha)
    (retains₁.ground hb) (retains₁.ground hc) (retains₁.unshared ha.plain hb.plain hab)
    (.inl fun _ => rfl) limit₁ limit₂
  obtain ⟨out', k, ends', run', supremum'⟩ := wf₂.supremum_unifyTwice (retains₂.ground hb)
    (retains₂.ground hc) (retains₂.ground ha) (retains₂.unshared hb.plain hc.plain hbc)
    (.inr fun _ => rfl) limit₃ limit₄
  have left : Supremum above out h := supremum.congr (by
    intro k z
    rw [retains₁.embedsIn_iff ha, retains₁.embedsIn_iff hb, retains₁.embedsIn_iff hc])
  have right : Supremum above out' k := supremum'.congr (by
    intro k z
    rw [retains₂.embedsIn_iff ha, retains₂.embedsIn_iff hb, retains₂.embedsIn_iff hc]
    exact ⟨fun ⟨a, b, c⟩ => ⟨b, c, a⟩, fun ⟨b, c, a⟩ => ⟨a, b, c⟩⟩)
  obtain ⟨wfh, -, -⟩ := wf₁.persists_run run
  obtain ⟨wfk, -, -⟩ := wf₂.persists_run run'
  refine ⟨out, h, out', k, ends, ends', run, run', fun unmet unmet' => ⟨⟨?_, ?_⟩, ?_⟩⟩
  · rintro ⟨r, rfl⟩
    exact left.exists_ok right unmet'
  · rintro ⟨r', rfl⟩
    exact right.exists_ok left unmet
  · rintro r r' rfl rfl
    refine ⟨left.isomorphic right (.refl h) (.refl k), fun l evolves evolves' => ?_⟩
    obtain ⟨wfl, -, retains⟩ := wfh.persists_run evolves
    obtain ⟨-, -, retains'⟩ := wfk.persists_run evolves'
    have contains := (retains.ground left.ground).contains .refl
    have contains' := (retains'.ground right.ground).contains .refl
    obtain ⟨answer, compared, iff⟩ := wfl.isomorphic?_iff contains contains'
    rw [compared, iff.2 (left.isomorphic right retains retains')]

/-- Three values without variables: a structure that leads to itself, two structures that lead to
each other, on one side by two features, and another structure that leads to itself. -/
def rings : Graph where
  structs := #[{ features := .ofList [("next", .struct ⟨0⟩), ("rank", .atom (.int 1))] },
    { features := .ofList [("next", .struct ⟨2⟩), ("other", .struct ⟨2⟩)] },
    { features := .ofList [("next", .struct ⟨1⟩)] },
    { features := .ofList [("other", .struct ⟨3⟩), ("rank", .atom (.int 1))] }]

theorem ground_of_plainOn (values : List Value) (check : g.plainOn values)
    (noVar : ∀ x, .var x ∉ values) (mem : v ∈ values) : g.Ground v where
  contains := (plain_of_plainOn check mem).contains
  noVar x below := noVar x (mem_of_below check mem below)

theorem plainOn_rings : rings.plainOn
    [.struct ⟨0⟩, .struct ⟨1⟩, .struct ⟨2⟩, .struct ⟨3⟩, .atom (.int 1)] := by decide +kernel

theorem ground_rings {s : StructId} (inside : rings.Contains (.struct s)) :
    rings.Ground (.struct s) := by
  have listed : ∀ i < rings.structCount,
      Value.struct ⟨i⟩ ∈ [Value.struct ⟨0⟩, .struct ⟨1⟩, .struct ⟨2⟩, .struct ⟨3⟩,
        .atom (.int 1)] := by decide +kernel
  exact ground_of_plainOn _ plainOn_rings (by simp) (listed s.index inside)

theorem wellFormed_rings : rings.WellFormed :=
  wellFormed_of_plainOn plainOn_rings (by decide +kernel) (by decide +kernel) (by decide +kernel)

/-- The rings unified in one order and then, in the same graph, in the other. -/
theorem rings_assoc : ∃ (h k : Graph) (r r' : Value),
    rings.unifyLeft? 50 50 (.struct ⟨0⟩) (.struct ⟨1⟩) (.struct ⟨3⟩) = some (.ok r, h) ∧
      h.unifyRight? 50 50 (.struct ⟨0⟩) (.struct ⟨1⟩) (.struct ⟨3⟩) = some (.ok r', k) ∧
      k.isomorphic? r r' = some true := by
  have hab : rings.Unshared (.struct ⟨0⟩) (.struct ⟨1⟩) :=
    unshared_of_plainOn [.struct ⟨0⟩, .atom (.int 1)] [.struct ⟨1⟩, .struct ⟨2⟩] (by decide +kernel)
      (by decide +kernel) (by decide) (by simp) (by simp)
  have hbc : rings.Unshared (.struct ⟨1⟩) (.struct ⟨3⟩) :=
    unshared_of_plainOn [.struct ⟨1⟩, .struct ⟨2⟩] [.struct ⟨3⟩, .atom (.int 1)] (by decide +kernel)
      (by decide +kernel) (by decide) (by simp) (by simp)
  have assoc {g : Graph} (run : Relation.ReflTransGen Becomes rings g) :=
    wellFormed_rings.unify?_assoc (ground_rings (s := ⟨0⟩) (by decide))
      (ground_rings (s := ⟨1⟩) (by decide)) (ground_rings (s := ⟨3⟩) (by decide)) hab hbc .refl run
      50 50 50 50
  obtain ⟨out, h, -, -, left, -, run, -⟩ := assoc .refl
  obtain ⟨_, _, out', k, left', right, -, run', alike⟩ := assoc run
  cases left.symm.trans left'
  have succeeds : (rings.unifyLeft? 50 50 (.struct ⟨0⟩) (.struct ⟨1⟩) (.struct ⟨3⟩)).map
      (fun o => o.1.toBool) = some true := by decide +kernel
  have succeeds' : ((rings.unifyLeft? 50 50 (.struct ⟨0⟩) (.struct ⟨1⟩) (.struct ⟨3⟩)).bind
      fun o => o.2.unifyRight? 50 50 (.struct ⟨0⟩) (.struct ⟨1⟩) (.struct ⟨3⟩)).map
      (fun o => o.1.toBool) = some true := by decide +kernel
  rw [left, Option.map_some] at succeeds
  rw [left, Option.bind_some, right, Option.map_some] at succeeds'
  cases out with
  | error f => cases succeeds
  | ok r =>
    cases out' with
    | error f => cases succeeds'
    | ok r' =>
      have alike := (alike (not_meetsLimit_ok r) (not_meetsLimit_ok r')).2 r r' rfl rfl
      exact ⟨h, k, r, r', left, right, alike.2 k run' .refl⟩

end Graph

end FeatureLogic
