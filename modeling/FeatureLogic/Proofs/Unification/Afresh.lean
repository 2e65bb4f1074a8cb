import FeatureLogic.Proofs.Join.Afresh
import FeatureLogic.Proofs.Join.Limit
import FeatureLogic.Proofs.Unification.Renumbering

/-!
# Unification with and without a memory

Looking outcomes up only saves work. What a unification gives that joins every pair of values
afresh, without meeting its limit, is given with a memory as well: a mismatch at the same place, or
the same result with the same scopes, once the nodes are renumbered.
-/

namespace FeatureLogic

def Pairing.self : Pairing := ⟨Eq, Eq⟩

theorem Pairing.relates_self (v : Value) : Pairing.self.Relates v v := by
  cases v <;> rfl

namespace Graph

open Join

variable {g h : Graph} {a b : Value} {scoping : Scoping}

theorem Parallels.settledBy (parallels : g.Parallels h) :
    Pairing.self.SettledBy g.Same g h where
  features := by
    rintro s _ rfl m n left right
    exact parallels.sameMaps left right
  settles same left right := by
    cases parallels.settles_eq same left right
    exact Pairing.relates_self _

theorem related_same (g : Graph) (scoping : Scoping) :
    scoping.Related (fun scope scope' => g.SameMaps scope scope') scoping := by
  have same (scope : Scope) : g.SameMaps scope scope := fun name => rel_same_refl g _
  cases scoping with
  | common scope => exact same scope
  | separate left right => exact ⟨same left, same right⟩

/-- Joins that end in identified values and parallel graphs have the same outcome, once the nodes
are renumbered. -/
theorem NormalForm.exists_couples {start joined joined' final final' : Graph}
    {u u' result result' : Value} {copied after after' : Scoping} {visited visited' : List StructId}
    (form : NormalForm g start joined u copied result after final visited)
    (form' : NormalForm g start joined' u' copied result' after' final' visited')
    (grows : start.GrowsTo joined) (grows' : start.GrowsTo joined')
    (parallels : joined.Parallels joined') (same : joined.Same u u') :
    ∃ q : Pairing, q.Couples (final.forgetAbsorbed g.structCount) result after
      (final'.forgetAbsorbed g.structCount) result' after' := by
  have named : Pairing.self.Named joined joined' := by
    rintro x _ rfl
    exact (grows.name x).trans (grows'.name x).symm
  exact ⟨_, form.couples_of_settledBy form' parallels.settledBy Relator.biUnique_eq
    Relator.biUnique_eq named same (related_same joined copied)⟩

/-- A unification that looks outcomes up gives what one gives that looks nothing up, unless the
latter meets its limit. -/
theorem WellFormed.unify?_of_unifyAfresh (wf : g.WellFormed) (ha : g.Contains a)
    (hb : g.Contains b) (within : scoping.All (Scope.Within · g)) (limit : Nat) :
    ∃ out h plain k, g.unify? limit a b scoping = some (out, h) ∧
      g.unifyAfresh? limit a b scoping = some (plain, k) ∧
      (¬ MeetsLimit plain →
        (∃ path left right left' right', out = .error (.mismatch path left right) ∧
          plain = .error (.mismatch path left' right')) ∨
        ∃ u after u' after', out = .ok (u, after) ∧ plain = .ok (u', after') ∧
          ∃ q : Pairing, q.Couples h u after k u' after') := by
  obtain ⟨v, w, copied, start, walked, copies⟩ := wf.exists_copyOperands ha hb within
  have abreast : Abreast (g.added start) (.join v w) { graph := start } { graph := start } :=
    ⟨copies.invariant, copies.ready, (fun _ _ _ mem => by cases mem), .refl start⟩
  have beside := beside_joinWithin limit limit [] abreast (.refl start v) (.refl start w)
  obtain ⟨out, st, ends, run⟩ := executes_joinWithin limit limit [] v w { graph := start }
    copies.invariant copies.ready
  obtain ⟨plain, st', ends', run'⟩ := executes_joinAfresh limit limit [] v w { graph := start }
    copies.invariant copies.ready
  rw [ends, ends'] at beside
  cases out with
  | error f =>
    have failed := copies.unify?_of_error walked ends run
    cases plain with
    | error f' =>
      have failed' := copies.unifyWith?_of_error walked ends' run'
      refine ⟨_, _, _, _, failed, failed', fun unmet => .inl ?_⟩
      cases beside with
      | mismatch => exact ⟨_, _, _, _, _, rfl, rfl⟩
      | tooDeep => exact absurd (meetsLimit_tooDeep _ _) unmet
    | ok u' => cases beside
  | ok u =>
    obtain ⟨result, after, final, visited, done, form⟩ := copies.exists_unify?_of_ok walked ends run
    cases plain with
    | error f' =>
      have failed' := copies.unifyWith?_of_error walked ends' run'
      refine ⟨_, _, _, _, done, failed', fun unmet => ?_⟩
      cases beside with
      | tooDeep => exact absurd (meetsLimit_tooDeep _ _) unmet
    | ok u' =>
      obtain ⟨result', after', final', visited', done', form'⟩ :=
        copies.exists_unifyWith?_of_ok walked ends' run'
      refine ⟨_, _, _, _, done, done', fun _ => .inr ⟨_, _, _, _, rfl, rfl, ?_⟩⟩
      cases beside with
      | ok follows =>
        exact form.exists_couples form' (run.keeps copies.invariant copies.ready).grows
          (run'.keeps copies.invariant copies.ready).grows follows.2 follows.1

/-- A structure that leads to itself, with one variable under two names, and another one with one
structure under both names. -/
def doubles : Graph :=
  let nodes := (((∅ : Graph).addStruct ∅).addStruct ∅).addStruct ∅
  let vars := (nodes.addVar { name := "both" }).addVar { name := "rest" }
  let left := (vars.setFeature ⟨0⟩ "left" (.var ⟨0⟩)).setFeature ⟨1⟩ "left" (.struct ⟨2⟩)
  let right := (left.setFeature ⟨0⟩ "right" (.var ⟨0⟩)).setFeature ⟨1⟩ "right" (.struct ⟨2⟩)
  (right.setFeature ⟨0⟩ "next" (.struct ⟨0⟩)).setFeature ⟨1⟩ "rest" (.var ⟨1⟩)

theorem wellFormed_doubles : doubles.WellFormed :=
  wellFormed_of_admits (by decide +kernel) (by decide +kernel) (by decide +kernel)

/-- The second feature of the doubles is looked up on one side and joined again on the other. -/
theorem doubles_unify?_of_unifyAfresh : ∃ u after h u' after' k,
    doubles.unify? 3 (.struct ⟨0⟩) (.struct ⟨1⟩) (.common ∅) = some (.ok (u, after), h) ∧
    doubles.unifyAfresh? 3 (.struct ⟨0⟩) (.struct ⟨1⟩) (.common ∅) = some (.ok (u', after'), k) ∧
    ∃ q : Pairing, q.Couples h u after k u' after' := by
  have within : (Scoping.common ∅).All (Scope.Within · doubles) := fun _ _ found => by cases found
  obtain ⟨out, h, plain, k, ends, ends', alike⟩ := wellFormed_doubles.unify?_of_unifyAfresh
    (a := .struct ⟨0⟩) (b := .struct ⟨1⟩) (by decide) (by decide) within 3
  have succeeds : (doubles.unifyAfresh? 3 (.struct ⟨0⟩) (.struct ⟨1⟩) (.common ∅)).map
      (fun o => o.1.toBool) = some true := by decide +kernel
  rw [ends', Option.map_some] at succeeds
  cases plain with
  | error f => cases succeeds
  | ok result =>
    rcases alike (not_meetsLimit_ok result) with failed | succeeded
    · obtain ⟨_, _, _, _, _, _, ⟨⟩⟩ := failed
    · obtain ⟨u, after, u', after', rfl, same, couples⟩ := succeeded
      cases same
      exact ⟨u, after, h, u', after', k, ends, ends', couples⟩

end Graph

end FeatureLogic
