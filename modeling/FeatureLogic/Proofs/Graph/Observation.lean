import FeatureLogic.Proofs.Graph.Alikeness
import FeatureLogic.Proofs.Graph.Comparing

/-!
# Values that no path tells apart

Two values are indiscernible when every feature path leads nowhere from both of them, or to two
values of one kind. On a well-formed graph these are the values that look alike, where the values
that one path leads to are partners. So the comparison of values, which walks through finitely many
pairs of structures, decides a property of infinitely many paths.
-/

namespace FeatureLogic.Graph

variable {g : Graph} {v w : Value}

def SameFeatures (g : Graph) (s t : StructId) : Prop :=
  ∃ m n, g.features? s = some m ∧ g.features? t = some n ∧
    ∀ name, name ∈ m.keys ↔ name ∈ n.keys

def SameKind (g : Graph) : Value → Value → Prop
  | .atom a, .atom b => a = b
  | .var x, .var y => g.SameName g x y
  | .struct s, .struct t => g.SameFeatures s t
  | _, _ => False

/-- Does every path lead nowhere from both values, or to values of one kind? -/
def Indiscernible (g : Graph) (v w : Value) : Prop :=
  ∀ path, (g.path? v path = some none ∧ g.path? w path = some none) ∨
    ∃ v' w', g.Leads v path v' ∧ g.Leads w path w' ∧ g.SameKind v' w'

theorem Alike.sameKind (alike : g.Alike v g w) (left : g.deref? v = some v)
    (right : g.deref? w = some w) : g.SameKind v w := by
  obtain ⟨structs, closed, v', w', reads, reads', related⟩ := alike
  cases left.symm.trans reads
  cases right.symm.trans reads'
  cases v <;> cases w <;> first | exact related.elim | exact related | skip
  obtain ⟨m, n, found, found', keys, -⟩ := closed related
  exact ⟨m, n, found, found', fun name => by rw [keys]⟩

theorem Indiscernible.sameKind (same : g.Indiscernible v w) {path : List String} {v' w' : Value}
    (left : g.Leads v path v') (right : g.Leads w path w') : g.SameKind v' w' := by
  obtain ⟨nowhere, -⟩ | ⟨u, u', left', right', kind⟩ := same path
  · cases nowhere.symm.trans left
  · cases left.unique left'
    cases right.unique right'
    exact kind

theorem Alike.indiscernible (wf : g.WellFormed) (insideV : g.Contains v)
    (insideW : g.Contains w) (alike : g.Alike v g w) : g.Indiscernible v w := by
  intro path
  obtain ⟨found, leads⟩ := wf.exists_path insideV path
  cases found with
  | some v' =>
    obtain ⟨w', leads', alike'⟩ := alike.exists_leads wf wf leads
    exact .inr ⟨v', w', leads, leads',
      alike'.sameKind (wf.deref?_of_leads leads) (wf.deref?_of_leads leads')⟩
  | none =>
    obtain ⟨found', leads'⟩ := wf.exists_path insideW path
    cases found' with
    | none => exact .inl ⟨leads, leads'⟩
    | some w' =>
      obtain ⟨v', back, -⟩ := alike.symm.exists_leads wf wf leads'
      cases leads.symm.trans back

theorem Indiscernible.alike (wf : g.WellFormed) (insideV : g.Contains v)
    (insideW : g.Contains w) (same : g.Indiscernible v w) : g.Alike v g w := by
  let reached (s t : StructId) : Prop :=
    ∃ path, g.Leads v path (.struct s) ∧ g.Leads w path (.struct t)
  have related {path : List String} {v' w' : Value} (left : g.Leads v path v')
      (right : g.Leads w path w') : (g.byName reached).Relates v' w' := by
    have kind := same.sameKind left right
    cases v' <;> cases w' <;> first | exact kind.elim | exact kind | skip
    exact ⟨path, left, right⟩
  refine ⟨reached, ?closed, ?pairs⟩
  case closed =>
    rintro s t ⟨path, left, right⟩
    obtain ⟨m, n, found, found', keys⟩ := same.sameKind left right
    refine ⟨m, n, found, found', NameMap.keys_eq_of_mem_iff keys, ?_⟩
    intro name u u' holds holds'
    -- a value under the feature stands for what the path leads to once the feature is added to it
    have reads {r : StructId} {l : NameMap Value} {z : Value} (found : g.features? r = some l)
        (holds : l.get? name = some z) : ∃ z', g.deref? z = some z' ∧
          g.Leads (.struct r) [name] z' := by
      obtain ⟨node, stored, rfl⟩ := Option.map_eq_some_iff.1 found
      obtain ⟨z', reads, -⟩ := wf.exists_deref (wf.feature stored holds)
      exact ⟨z', reads, leads_cons.2 ⟨r, _, z, rfl, found, holds, leads_nil.2 reads⟩⟩
    obtain ⟨z, readsU, step⟩ := reads found holds
    obtain ⟨z', readsU', step'⟩ := reads found' holds'
    exact ⟨z, z', readsU, readsU', related (wf.leads_append left step)
      (wf.leads_append right step')⟩
  case pairs =>
    obtain ⟨v', reads, -⟩ := wf.exists_deref insideV
    obtain ⟨w', reads', -⟩ := wf.exists_deref insideW
    exact ⟨v', w', reads, reads', related (leads_nil.2 reads) (leads_nil.2 reads')⟩

theorem WellFormed.equal?_eq_true_iff (wf : g.WellFormed) (insideV : g.Contains v)
    (insideW : g.Contains w) : g.equal? v w = some true ↔ g.Alike v g w := by
  obtain ⟨answer, compared, iff⟩ := wf.equal?_iff insideV insideW
  rw [compared, Option.some.injEq, iff]

/-- The comparison of two values always ends, and accepts exactly those that no path tells apart.
So it is an equivalence of values. -/
theorem WellFormed.equal?_decides_indiscernible (wf : g.WellFormed) :
    (∀ {v w}, g.Contains v → g.Contains w →
      ∃ answer, g.equal? v w = some answer ∧ (answer = true ↔ g.Indiscernible v w)) ∧
    Equivalence fun v w : { v // g.Contains v } => g.equal? v w = some true := by
  refine ⟨fun {v w} insideV insideW => ?decides, ?refl, ?symm, ?trans⟩
  case decides =>
    obtain ⟨answer, compared, iff⟩ := wf.equal?_iff insideV insideW
    exact ⟨answer, compared, iff.trans
      ⟨Alike.indiscernible wf insideV insideW, Indiscernible.alike wf insideV insideW⟩⟩
  case refl =>
    intro v
    exact (wf.equal?_eq_true_iff v.2 v.2).2 (wf.alike_refl v.2)
  case symm =>
    intro v w same
    have alike := (wf.equal?_eq_true_iff v.2 w.2).1 same
    exact (wf.equal?_eq_true_iff w.2 v.2).2 alike.symm
  case trans =>
    intro u v w first second
    have alike := (wf.equal?_eq_true_iff u.2 v.2).1 first
    have alike' := (wf.equal?_eq_true_iff v.2 w.2).1 second
    exact (wf.equal?_eq_true_iff u.2 w.2).2 (alike.trans alike')

/-- A structure that leads to itself, and two structures that lead to each other, on one side
through a bound variable. -/
def turns : Graph where
  structs := #[{ features := .ofList [("next", .struct ⟨0⟩)] },
    { features := .ofList [("next", .struct ⟨2⟩)] },
    { features := .ofList [("next", .var ⟨0⟩)] }]
  vars := #[{ name := "x", binding := .bound (.struct ⟨1⟩) }]

theorem wellFormed_turns : turns.WellFormed :=
  wellFormed_of_admits (by decide +kernel) (by decide +kernel) (by decide +kernel)

theorem indiscernible_turns : turns.WellFormed ∧ turns.Contains (.struct ⟨0⟩) ∧
    turns.Contains (.struct ⟨2⟩) ∧ turns.equal? (.struct ⟨0⟩) (.struct ⟨2⟩) = some true ∧
    turns.Indiscernible (.struct ⟨0⟩) (.struct ⟨2⟩) := by
  obtain ⟨decides, -⟩ := wellFormed_turns.equal?_decides_indiscernible
  have inside : turns.Contains (.struct ⟨0⟩) := by decide
  have inside' : turns.Contains (.struct ⟨2⟩) := by decide
  have compared : turns.equal? (.struct ⟨0⟩) (.struct ⟨2⟩) = some true := by decide +kernel
  obtain ⟨answer, compared', iff⟩ := decides inside inside'
  cases compared.symm.trans compared'
  exact ⟨wellFormed_turns, inside, inside', compared, iff.1 rfl⟩

end FeatureLogic.Graph
