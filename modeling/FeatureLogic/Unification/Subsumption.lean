import FeatureLogic.Graph.Comparison
import FeatureLogic.Unification

/-!
# Subsumption

A value subsumes another when it carries no information that the other lacks.
-/

namespace FeatureLogic.Graph

/-- Does `general` subsume `specific`? If so, unifying them gives `specific` again. A failure that
shows the two to be incompatible is a negative answer, any other one is passed on. -/
def subsumes? (g : Graph) (general specific : Value) : Option (Except Failure Bool × Graph) := do
  match ← g.unify? defaultLimit general specific .fresh with
  | (.ok (u, _), g) => return (.ok (← g.equal? u specific), g)
  | (.error f, g) => return (if f.isFatal then .error f else .ok false, g)

variable {g h : Graph} {general specific : Value}

theorem subsumes?_of_error {f : Failure}
    (failed : g.unify? defaultLimit general specific .fresh = some (.error f, h)) :
    g.subsumes? general specific = some (if f.isFatal then .error f else .ok false, h) := by
  rw [subsumes?, failed]
  rfl

theorem subsumes?_of_ok {u : Value} {after : Scoping} {answer : Bool}
    (unified : g.unify? defaultLimit general specific .fresh = some (.ok (u, after), h))
    (compared : h.equal? u specific = some answer) :
    g.subsumes? general specific = some (.ok answer, h) := by
  rw [subsumes?, unified]
  simp [compared]

theorem unify?_of_subsumes? {answer : Except Failure Bool}
    (answered : g.subsumes? general specific = some (answer, h)) :
    ∃ out, g.unify? defaultLimit general specific .fresh = some (out, h) := by
  obtain ⟨⟨out, h'⟩, unified, rest⟩ := Option.bind_eq_some_iff.1 answered
  cases out with
  | error f =>
    cases rest
    exact ⟨_, unified⟩
  | ok result =>
    obtain ⟨equal, -, last⟩ := Option.bind_eq_some_iff.1 rest
    cases last
    exact ⟨_, unified⟩

end FeatureLogic.Graph
