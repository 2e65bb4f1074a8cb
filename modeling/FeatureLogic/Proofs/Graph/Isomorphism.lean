import FeatureLogic.Graph.Isomorphism
import FeatureLogic.Proofs.Graph.Observation

/-!
# The comparison decides isomorphism

Values are isomorphic when a one-to-one relation between structures pairs them. Between the
structures that paths lead to, such a relation is total on both sides: a path that leads to a
structure leads to its partner from the other value. So it is a correspondence of all structures
below the two values, and the comparison that keeps its assumptions one-to-one decides whether there
is one.
-/

namespace FeatureLogic.Graph

variable {g h : Graph} {v w : Value}

theorem LeadsTo.feature (wf : g.WellFormed) {s t : StructId} (leads : g.LeadsTo v s)
    {m : NameMap Value} {name : String} {u : Value} (found : g.features? s = some m)
    (holds : m.get? name = some u) (reads : g.deref? u = some (.struct t)) : g.LeadsTo v t := by
  obtain ⟨path, leads⟩ := leads
  have step : g.Leads (.struct s) [name] (.struct t) :=
    leads_cons.2 ⟨s, m, u, rfl, found, holds, leads_nil.2 reads⟩
  exact ⟨path ++ [name], wf.leads_append leads step⟩

namespace Matching

variable {e : g.Matching v h w}

theorem biUnique_pairing (e : g.Matching v h w) : Relator.BiUnique e.pairing.structs := by
  constructor
  · rintro s s' t ⟨leads, reaches⟩ ⟨leads', reaches'⟩
    have same : e ⟨s, leads⟩ = e ⟨s', leads'⟩ := Subtype.ext (reaches.trans reaches'.symm)
    exact congrArg Subtype.val (e.injective same)
  · rintro s t t' ⟨leads, rfl⟩ ⟨leads', rfl⟩
    rfl

theorem IsIsomorphism.isomorphic (iso : e.IsIsomorphism) : g.Isomorphic v h w :=
  ⟨_, e.biUnique_pairing, iso.features, iso.roots⟩

end Matching

section Partners

variable {structs : StructId → StructId → Prop} (oneToOne : Relator.BiUnique structs)
  (closed : Pairing.Closed ⟨structs, SameName g h⟩ g h)
  (pairs : Pairing.Pairs ⟨structs, SameName g h⟩ g h v w)

include closed pairs

theorem LeadsTo.exists_partner {s : StructId} (leads : g.LeadsTo v s) :
    ∃ t, h.LeadsTo w t ∧ structs s t := by
  obtain ⟨path, leads⟩ := leads
  obtain ⟨w', leads', related⟩ := closed.exists_leads pairs leads
  cases w' with
  | atom a => exact related.elim
  | struct t => exact ⟨t, ⟨path, leads'⟩, related⟩
  | var x => exact related.elim

include oneToOne

/-- A one-to-one relation that pairs two values is a correspondence of all structures that paths
lead to from them. -/
theorem exists_matching : ∃ e : g.Matching v h w, ∀ s, structs s.1 (e s).1 := by
  have closed' : Pairing.Closed ⟨fun t s => structs s t, SameName h g⟩ h g :=
    flip_sameName g h structs ▸ closed.flip
  have pairs' : Pairing.Pairs ⟨fun t s => structs s t, SameName h g⟩ h g w v :=
    flip_sameName g h structs ▸ pairs.flip
  have there (s : { s // g.LeadsTo v s }) : ∃ t : { t // h.LeadsTo w t }, structs s t := by
    obtain ⟨t, leads, partners⟩ := s.2.exists_partner closed pairs
    exact ⟨⟨t, leads⟩, partners⟩
  have back (t : { t // h.LeadsTo w t }) : ∃ s : { s // g.LeadsTo v s }, structs s t := by
    obtain ⟨s, leads, partners⟩ := t.2.exists_partner closed' pairs'
    exact ⟨⟨s, leads⟩, partners⟩
  choose partner partners using there
  choose origin origins using back
  let e : g.Matching v h w :=
    { toFun := partner
      invFun := origin
      left_inv := fun s => Subtype.ext (oneToOne.1 (origins (partner s)) (partners s))
      right_inv := fun t => Subtype.ext (oneToOne.2 (partners (origin t)) (origins t)) }
  exact ⟨e, partners⟩

end Partners

/-- Values are isomorphic exactly if there is an isomorphism. -/
theorem WellFormed.isomorphic_iff (wf : g.WellFormed) :
    g.Isomorphic v h w ↔ ∃ e : g.Matching v h w, e.IsIsomorphism := by
  refine ⟨?there, fun ⟨e, iso⟩ => iso.isomorphic⟩
  rintro ⟨structs, oneToOne, closed, pairs⟩
  obtain ⟨e, partners⟩ := exists_matching oneToOne closed pairs
  have same {s t : StructId} (leads : g.LeadsTo v s) (related : structs s t) :
      e.pairing.structs s t := ⟨leads, oneToOne.2 (partners ⟨s, leads⟩) related⟩
  -- values that stand for structures are paired if a path leads to the first of these
  have keeps {u u' : Value} (related : Pairing.Pairs ⟨structs, SameName g h⟩ g h u u')
      (led : ∀ s, g.deref? u = some (.struct s) → g.LeadsTo v s) : e.pairing.Pairs g h u u' := by
    obtain ⟨z, z', reads, reads', related⟩ := related
    refine ⟨z, z', reads, reads', ?_⟩
    cases z <;> cases z' <;> first | exact related.elim | exact related | skip
    exact same (led _ reads) related
  refine ⟨e, keeps pairs fun s reads => ⟨[], leads_nil.2 reads⟩, ?_⟩
  rintro s t ⟨leads, rfl⟩
  obtain ⟨m, n, found, found', keys, each⟩ := closed (partners ⟨s, leads⟩)
  refine ⟨m, n, found, found', keys, fun {name u u'} holds holds' => ?_⟩
  exact keeps (each holds holds') fun t reads => leads.feature wf found holds reads

theorem WellFormed.isomorphic?_eq_true_iff (wf : g.WellFormed) (insideV : g.Contains v)
    (insideW : g.Contains w) : g.isomorphic? v w = some true ↔ g.Isomorphic v g w := by
  obtain ⟨answer, compared, iff⟩ := wf.isomorphic?_iff insideV insideW
  rw [compared, Option.some.injEq, iff]

/-- The comparison of two values with their sharing always ends, and accepts exactly those that have
an isomorphism. So it is an equivalence of values, and isomorphic values are equal. -/
theorem WellFormed.isomorphic?_decides_isomorphism (wf : g.WellFormed) :
    (∀ {v w}, g.Contains v → g.Contains w → ∃ answer, g.isomorphic? v w = some answer ∧
      (answer = true ↔ ∃ e : g.Matching v g w, e.IsIsomorphism)) ∧
    (Equivalence fun v w : { v // g.Contains v } => g.isomorphic? v w = some true) ∧
    ∀ {v w}, g.Contains v → g.Contains w → g.isomorphic? v w = some true →
      g.equal? v w = some true := by
  refine ⟨fun {v w} insideV insideW => ?decides, ⟨?refl, ?symm, ?trans⟩,
    fun {v w} insideV insideW same => ?equal⟩
  case decides =>
    obtain ⟨answer, compared, iff⟩ := wf.isomorphic?_iff insideV insideW
    exact ⟨answer, compared, iff.trans wf.isomorphic_iff⟩
  case refl =>
    intro v
    exact (wf.isomorphic?_eq_true_iff v.2 v.2).2 (wf.isomorphic_refl v.2)
  case symm =>
    intro v w same
    have iso := (wf.isomorphic?_eq_true_iff v.2 w.2).1 same
    exact (wf.isomorphic?_eq_true_iff w.2 v.2).2 iso.symm
  case trans =>
    intro u v w first second
    have iso := (wf.isomorphic?_eq_true_iff u.2 v.2).1 first
    have iso' := (wf.isomorphic?_eq_true_iff v.2 w.2).1 second
    exact (wf.isomorphic?_eq_true_iff u.2 w.2).2 (iso.trans iso')
  case equal =>
    have iso := (wf.isomorphic?_eq_true_iff insideV insideW).1 same
    obtain ⟨answer, compared, iff⟩ := wf.equal?_iff insideV insideW
    rw [compared, iff.2 iso.alike]

/-- The two structures that lead to each other take each other's place. The one that leads to itself
is equal to them, but has no partner for the second one. -/
theorem turns_isomorphism : turns.WellFormed ∧
    (∃ e : turns.Matching (.struct ⟨1⟩) turns (.struct ⟨2⟩), e.IsIsomorphism) ∧
    turns.equal? (.struct ⟨0⟩) (.struct ⟨2⟩) = some true ∧
    ¬ ∃ e : turns.Matching (.struct ⟨0⟩) turns (.struct ⟨2⟩), e.IsIsomorphism := by
  obtain ⟨decides, -, -⟩ := wellFormed_turns.isomorphic?_decides_isomorphism
  have swapped : turns.isomorphic? (.struct ⟨1⟩) (.struct ⟨2⟩) = some true := by decide +kernel
  have shrunk : turns.isomorphic? (.struct ⟨0⟩) (.struct ⟨2⟩) = some false := by decide +kernel
  have same : turns.equal? (.struct ⟨0⟩) (.struct ⟨2⟩) = some true := by decide +kernel
  obtain ⟨answer, compared, iff⟩ := decides (v := .struct ⟨1⟩) (w := .struct ⟨2⟩)
    (by decide) (by decide)
  obtain ⟨answer', compared', iff'⟩ := decides (v := .struct ⟨0⟩) (w := .struct ⟨2⟩)
    (by decide) (by decide)
  cases swapped.symm.trans compared
  cases shrunk.symm.trans compared'
  refine ⟨wellFormed_turns, iff.1 rfl, same, fun isomorphism => ?_⟩
  exact Bool.false_ne_true (iff'.2 isomorphism)

end FeatureLogic.Graph
