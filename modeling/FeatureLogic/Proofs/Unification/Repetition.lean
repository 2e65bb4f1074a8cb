import FeatureLogic.Proofs.Copy.Concert
import FeatureLogic.Proofs.Unification.Privacy
import FeatureLogic.Proofs.Unification.Renumbering

/-!
# Unifications made again

What a unification does depends on what lies below its operands and below the entries of its scopes,
and on nothing else. If all this is plain, and retained in another graph, the same unification there
has a counterpart of the outcome.
-/

namespace FeatureLogic

def Pairing.plain (g : Graph) : Pairing where
  structs s t := s = t ∧ g.Plain (.struct s)
  vars x y := x = y ∧ g.Plain (.var x)

namespace Graph

open Join

variable {g h k : Graph} {v w a b u u' : Value} {scoping after after' : Scoping} {q : Pairing}

theorem Plain.relates (plain : g.Plain v) : (Pairing.plain g).Relates v v := by
  cases v with
  | atom a => rfl
  | struct s => exact ⟨rfl, plain⟩
  | var x => exact ⟨rfl, plain⟩

theorem maps_plain {m : NameMap Value} (plain : ∀ name v, m.get? name = some v → g.Plain v) :
    (Pairing.plain g).Maps m m := by
  intro name
  cases found : m.get? name with
  | none => exact .none
  | some v => exact .some (plain name v found).relates

theorem related_plain (plain : scoping.All (Scope.Plain · g)) :
    scoping.Related (Pairing.plain g).Maps scoping := by
  cases scoping with
  | common scope => exact maps_plain plain
  | separate left right => exact ⟨maps_plain plain.1, maps_plain plain.2⟩

namespace Retains

variable (retains : g.Retains h)

include retains

theorem mirrors (wf : g.WellFormed) (wf' : h.WellFormed) : (Pairing.plain g).Mirrors g h where
  struct {s _} := by
    rintro ⟨rfl, plain⟩
    obtain ⟨node, found⟩ := exists_struct_of_contains (plain.contains .refl)
    obtain ⟨node', found'⟩ := exists_struct_of_contains ((retains.plain plain).contains .refl)
    have same : h.features? s = g.features? s := retains.features plain
    simp only [features?, found, found', Option.map_some, Option.some.injEq] at same
    refine ⟨node, node', found, found', ?_, ?_⟩
    · rw [same]
      refine maps_plain fun name v holds => plain.of_below (.feature .refl ?_ holds)
      simp [features?, found]
    · rw [wf.unabsorbed found, wf'.unabsorbed found']
      exact .none
  var {x _} := by
    rintro ⟨rfl, plain⟩
    obtain ⟨name, found⟩ := plain.free .refl
    exact ⟨_, _, found, (retains.var plain).trans found, trivial⟩

theorem named : (Pairing.plain g).Named g h := by
  rintro x _ ⟨rfl, plain⟩
  rw [name?, name?, retains.var plain]

theorem pairs (plain : g.Plain v) (pairs : q.Pairs g k v w) :
    (q.within g.Plain fun _ => True).Pairs h k v w := by
  obtain ⟨v', w', left, right, related⟩ := pairs
  cases plain.deref?.symm.trans left
  exact ⟨v, w', (retains.plain plain).deref?, right, related.within plain trivial⟩

theorem couples (plain : g.Plain u) (plainAfter : after.All (Scope.Plain · g))
    (couples : q.Couples g u after k u' after') :
    (q.within g.Plain fun _ => True).Couples h u after k u' after' where
  structs := couples.structs.mono And.left
  vars := couples.vars.mono And.left
  named := by
    rintro x y ⟨partners, plain, -⟩
    obtain ⟨name, left, right⟩ := couples.named partners
    exact ⟨name, by rw [name?, retains.var plain, ← name?, left], right⟩
  closed := by
    rintro s t ⟨partners, plain, -⟩
    obtain ⟨m, n, found, found', keys, values⟩ := couples.closed partners
    refine ⟨m, n, (retains.features plain).trans found, found', keys, fun {name v w} hv hw => ?_⟩
    exact retains.pairs (plain.of_below (.feature .refl found hv)) (values hv hw)
  result := retains.pairs plain couples.result
  scopes := by
    refine .imp (fun {scope scope'} plain related name => ?_) plainAfter couples.scopes
    have pairs := related name
    cases listed : scope.get? name with
    | none =>
      rw [listed] at pairs
      generalize scope'.get? name = entry at pairs
      cases pairs
      exact .none
    | some v =>
      rw [listed] at pairs
      generalize scope'.get? name = entry at pairs
      cases pairs with
      | some pairs => exact .some (retains.pairs (plain name v listed) pairs)

/-- A unification of plain operands in plain scopes has a counterpart where these are retained. -/
theorem exists_counterparts (wf : g.WellFormed) (wf' : h.WellFormed) (ha : g.Plain a)
    (hb : g.Plain b) (plain : scoping.All (Scope.Plain · g)) (limit : Nat) :
    ∃ out k out' k', g.unify? limit a b scoping = some (out, k) ∧
      h.unify? limit a b scoping = some (out', k') ∧ k.Counterparts k' out out' := by
  have within : scoping.All (Scope.Within · g) := plain.imp fun _ plain => plain.within
  have within' : scoping.All (Scope.Within · h) :=
    plain.imp fun _ plain => (plain.retained retains).within
  obtain ⟨v, w, copied, l, walked, copies⟩ :=
    wf.exists_copyOperands (ha.contains .refl) (hb.contains .refl) within
  obtain ⟨v', w', copied', l', walked', copies'⟩ := wf'.exists_copyOperands
    ((retains.plain ha).contains .refl) ((retains.plain hb).contains .refl) within'
  obtain ⟨q, -, mirrored⟩ := concur_copyOperands (Relator.biUnique_eq.mono And.left)
    (Relator.biUnique_eq.mono And.left) (retains.mirrors wf wf') retains.named ha.relates hb.relates
    (related_plain plain) _ _ walked walked'
  obtain ⟨_, _, ends, ends', alike⟩ := copies.exists_concludesAlike
    (M := Measure.exact mirrored.structs)
    (Pairing.biUnique_relates mirrored.structs mirrored.vars) walked copies' walked'
    mirrored.mirrors mirrored.named mirrored.left mirrored.right limit
  refine ⟨_, _, _, _, ends, ends', ?_⟩
  cases alike with
  | fails same =>
    cases same
    exact .failure
  | succeeds form form' mirrors named outcomes =>
    exact .success (form.couples form' mirrors mirrored.structs mirrored.vars named outcomes
      mirrored.scopes)

end Retains

end Graph

end FeatureLogic
