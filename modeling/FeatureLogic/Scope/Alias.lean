import FeatureLogic.Graph.Reachability
import FeatureLogic.Scope
import Mathlib.Logic.Relation

/-!
# Names tied by a scope

The entry of a name may be a free variable of another name. The two names then stand for the same
thing, and so do all names further along this chain.
-/

namespace FeatureLogic

/-- Is a value an atom that says something, a free variable or an alias of one, or a structure
below which there is no variable? -/
def Graph.Simple (g : Graph) : Value → Prop
  | .atom a => a ≠ .unspecified
  | .var x => ∃ root, g.deref? (.var x) = some (.var root)
  | .struct s => g.Plain (.struct s) ∧ ∀ x, ¬ g.Below (.struct s) (.var x)

namespace Scope

def Simple (scope : Scope) (g : Graph) : Prop :=
  ∀ name v, scope.get? name = some v → g.Simple v

/-- Is the entry of `name` a free variable called `next`, or an alias of one? -/
def Alias (scope : Scope) (g : Graph) (name next : String) : Prop :=
  ∃ entry y, scope.get? name = some entry ∧ g.deref? entry = some (.var y) ∧ g.name? y = some next

def Ties (scope : Scope) (g : Graph) : String → String → Prop :=
  Relation.ReflTransGen (scope.Alias g)

variable {scope : Scope} {g : Graph} {name next : String}

theorem Alias.unique {next' : String} (h : scope.Alias g name next)
    (h' : scope.Alias g name next') : next = next' := by
  obtain ⟨entry, y, found, reads, called⟩ := h
  obtain ⟨entry', y', found', reads', called'⟩ := h'
  cases found.symm.trans found'
  cases reads.symm.trans reads'
  exact Option.some.inj (called.symm.trans called')

theorem Alias.exists_entry (h : scope.Alias g name next) :
    ∃ x, scope.get? name = some (.var x) := by
  obtain ⟨entry, y, found, reads, -⟩ := h
  cases entry with
  | atom a => cases reads
  | struct s => cases reads
  | var x => exact ⟨x, found⟩

end Scope

namespace Graph

theorem contains_of_deref? {g : Graph} {x : VarId} {w : Value}
    (reads : g.deref? (.var x) = some w) : g.Contains (.var x) := by
  simp only [deref?, root?, chase, Option.bind_eq_bind, Option.bind_eq_some_iff] at reads
  obtain ⟨root, chased, -⟩ := reads
  cases found : g.var? x with
  | none => simp [found] at chased
  | some node => exact contains_of_var? found

theorem Simple.contains {g : Graph} {v : Value} (simple : g.Simple v) : g.Contains v := by
  cases v with
  | atom a => trivial
  | struct s => exact simple.1.contains .refl
  | var x =>
    obtain ⟨root, reads⟩ := simple
    exact contains_of_deref? reads

end Graph

end FeatureLogic
