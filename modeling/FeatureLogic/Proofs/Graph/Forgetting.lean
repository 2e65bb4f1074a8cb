import FeatureLogic.Graph.Absorption
import FeatureLogic.Graph.Reachability

/-!
# Forgetting what was absorbed

When a unification is over, nothing tells any more which structures were absorbed. Features and
variables stay as they are.
-/

namespace FeatureLogic.Graph

variable (g : Graph) (start : Nat)

@[simp] theorem var?_forgetAbsorbed (x : VarId) : (g.forgetAbsorbed start).var? x = g.var? x := rfl

@[simp] theorem name?_forgetAbsorbed (x : VarId) :
    (g.forgetAbsorbed start).name? x = g.name? x := rfl

@[simp] theorem structCount_forgetAbsorbed :
    (g.forgetAbsorbed start).structCount = g.structCount := by
  simp [forgetAbsorbed, structCount]

@[simp] theorem varCount_forgetAbsorbed : (g.forgetAbsorbed start).varCount = g.varCount := rfl

@[simp] theorem features?_forgetAbsorbed (s : StructId) :
    (g.forgetAbsorbed start).features? s = g.features? s := by
  simp only [features?, struct?_forgetAbsorbed]
  split
  · cases g.struct? s <;> rfl
  · rfl

variable {g}

theorem deref?_congr {h : Graph} (vars : h.vars = g.vars) (v : Value) :
    h.deref? v = g.deref? v := by
  have var (x : VarId) : h.var? x = g.var? x := by rw [var?, var?, vars]
  have chase (fuel : Nat) (x : VarId) : h.chase fuel x = g.chase fuel x := by
    induction fuel generalizing x with
    | zero => rfl
    | succ fuel ih =>
      rw [Graph.chase, Graph.chase, var]
      split <;> simp_all
  have count : h.varCount = g.varCount := by rw [varCount, varCount, vars]
  cases v with
  | atom a => rfl
  | struct s => rfl
  | var x => simp only [deref?, root?, chase, count, var]

@[simp] theorem deref?_forgetAbsorbed (v : Value) :
    (g.forgetAbsorbed start).deref? v = g.deref? v :=
  deref?_congr (show (g.forgetAbsorbed start).vars = g.vars from rfl) v

theorem below_forgetAbsorbed {v w : Value} : (g.forgetAbsorbed start).Below v w ↔ g.Below v w := by
  constructor
  · intro below
    induction below with
    | refl => exact .refl
    | feature _ found holds ih => exact ih.feature (by simpa using found) holds
  · intro below
    induction below with
    | refl => exact .refl
    | feature _ found holds ih => exact ih.feature (by simpa using found) holds

end FeatureLogic.Graph
