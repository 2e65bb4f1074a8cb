import FeatureLogic.Graph

/-!
# Dereferencing

A bound variable stands for its value, a free one for the end of its chain of aliases. Feature
paths are followed through bound variables.
-/

namespace FeatureLogic

def Binding.value? : Binding → Option Value
  | .bound v => some v
  | _ => none

namespace Graph

/-- Goes along the aliases from `x`, over fewer than `fuel` of them. -/
def chase (g : Graph) : Nat → VarId → Option VarId
  | 0, _ => none
  | fuel + 1, x =>
    match g.var? x with
    | none => none
    | some ⟨_, .link y⟩ => g.chase fuel y
    | some _ => some x

/-- The variable at the end of the chain of aliases, where a shared value is kept. A chain that
does not return to itself has fewer aliases than there are variables. -/
def root? (g : Graph) (x : VarId) : Option VarId := g.chase (g.varCount + 1) x

/-- The value that a variable is bound to, and `some none` for a free variable. -/
def binding? (g : Graph) (x : VarId) : Option (Option Value) := do
  let root ← g.root? x
  let node ← g.var? root
  return node.binding.value?

def deref? (g : Graph) : Value → Option Value
  | .var x => do
    let root ← g.root? x
    let node ← g.var? root
    return node.binding.value?.getD (.var root)
  | v => some v

/-- The value at the end of a feature path, dereferenced at every step, and `some none` where the
path leads nowhere. -/
def path? (g : Graph) (v : Value) : List String → Option (Option Value)
  | [] => (g.deref? v).map some
  | name :: path =>
    match g.deref? v with
    | none => none
    | some (.struct s) =>
      match g.features? s with
      | none => none
      | some features =>
        match features.get? name with
        | none => some none
        | some child => g.path? child path
    | some _ => some none

def copyVar? (g : Graph) (x : VarId) : Option (VarId × Graph) := do
  let node ← g.var? x
  let binding ← g.binding? x
  return (g.nextVar, g.addVar { node with binding := binding.elim .free .bound })

@[simp] theorem deref?_atom (g : Graph) (a : Atom) : g.deref? (.atom a) = some (.atom a) := rfl

@[simp] theorem deref?_struct (g : Graph) (s : StructId) :
    g.deref? (.struct s) = some (.struct s) := rfl

theorem chase_ends {g : Graph} {fuel : Nat} {x root : VarId} (h : g.chase fuel x = some root) :
    ∃ node, g.var? root = some node ∧ ∀ y, node.binding ≠ .link y := by
  fun_induction chase g fuel x with
  | case1 => cases h
  | case2 => cases h
  | case3 _ _ _ _ _ ih => exact ih h
  | case4 _ _ node notAlias found =>
    cases h
    exact ⟨node, found, fun y holds => notAlias node.name y (holds ▸ rfl)⟩

theorem chase_of_ends {g : Graph} {fuel : Nat} {x : VarId} {node : Variable}
    (found : g.var? x = some node) (notAlias : ∀ y, node.binding ≠ .link y) :
    g.chase (fuel + 1) x = some x := by
  obtain ⟨name, binding⟩ := node
  cases binding with
  | link y => exact absurd rfl (notAlias y)
  | free => simp [chase, found]
  | bound v => simp [chase, found]

theorem root?_root? {g : Graph} {x root : VarId} (h : g.root? x = some root) :
    g.root? root = some root := by
  obtain ⟨node, found, notAlias⟩ := chase_ends h
  exact chase_of_ends found notAlias

theorem deref?_of_free {g : Graph} {x : VarId} {name : String}
    (found : g.var? x = some { name }) : g.deref? (.var x) = some (.var x) := by
  have self : g.root? x = some x := chase_of_ends found (by simp)
  simp [deref?, self, found, Binding.value?]

theorem deref?_of_bound {g : Graph} {x : VarId} {node : Variable} {v : Value}
    (found : g.var? x = some node) (holds : node.binding = .bound v) :
    g.deref? (.var x) = some v := by
  have self : g.root? x = some x := chase_of_ends found (by simp [holds])
  simp [deref?, self, found, holds, Binding.value?]

theorem copyVar?_of_free {g : Graph} {x : VarId} {name : String}
    (found : g.var? x = some { name }) :
    g.copyVar? x = some (g.nextVar, g.addVar { name }) := by
  have self : g.root? x = some x := chase_of_ends found (by simp)
  simp [copyVar?, binding?, self, found, Binding.value?]

theorem path?_nil (g : Graph) (v : Value) : g.path? v [] = (g.deref? v).map some := rfl

theorem path?_cons_struct {g : Graph} {v : Value} {s : StructId} {features : NameMap Value}
    (hv : g.deref? v = some (.struct s)) (hs : g.features? s = some features) (name : String)
    (path : List String) :
    g.path? v (name :: path) =
      match features.get? name with
      | none => some none
      | some child => g.path? child path := by
  simp only [path?, hv, hs]

end Graph

end FeatureLogic
