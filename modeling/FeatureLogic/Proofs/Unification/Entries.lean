import FeatureLogic.Proofs.Unification.Separation

/-!
# What entries of separate scopes say

When plain operands are unified in empty scopes of their own, an entry of a scope tells what the
variables of its name have become. If that is a free variable, its name comes from the operand
whose variable has survived, which need not be the operand of the scope. So the entry ties the two
names in that operand, and not always in its own.
-/

namespace FeatureLogic

open FeatureLogic.Graph Join

/-- Is there a variable called `name` in `v`, and is `w` in `r` wherever one is in `v`? -/
def Graph.NameBecomes (g : Graph) (v : Value) (name : String) (g' : Graph) (r w : Value) : Prop :=
  (∃ path x, g.Leads v path (.var x) ∧ g.name? x = some name) ∧
    ∀ path x, g.Leads v path (.var x) → g.name? x = some name → g'.Leads r path w

/-- What a scope for the operand `v` says after a unification of `a` and `b`: if an entry is a free
variable, then the variables of the entry's name in `v` have become that one, and so have those of
the variable's own name in one of the two operands. -/
def Scope.Tells (scope : Scope) (g : Graph) (a b v : Value) (g' : Graph) (r : Value) : Prop :=
  ∀ name x other, scope.get? name = some (.var x) → g'.name? x = some other →
    g.NameBecomes v name g' r (.var x) ∧
      (g.NameBecomes a other g' r (.var x) ∨ g.NameBecomes b other g' r (.var x))

namespace SplitPassage

variable {g : Graph} {a b : Value} (passage : SplitPassage g a b)

/-- What the first scope lists under a name was copied from variables of the first operand. -/
theorem nameBecomes_left (wf : g.WellFormed) {name : String} {v w : Value}
    (listed : passage.leftScope.get? name = some v) (settles : passage.joined.graph.Settles v w) :
    g.NameBecomes a name passage.after passage.result w := by
  constructor
  · obtain ⟨x, below, called, -⟩ := passage.split.originLeft listed
    obtain ⟨path, leads⟩ := passage.left.exists_leads wf below
    exact ⟨path, x, leads, called⟩
  · intro path x leads called
    have below := passage.left.below_of_leads leads
    have image := (passage.listed_image (.inl below) called).1 below
    cases listed.symm.trans image
    exact Passage.leads_result (.inl leads) settles

/-- What the second scope lists under a name was copied from variables of the second operand. -/
theorem nameBecomes_right (wf : g.WellFormed) (apart : g.Unshared a b) {name : String}
    {v w : Value} (listed : passage.rightScope.get? name = some v)
    (settles : passage.joined.graph.Settles v w) :
    g.NameBecomes b name passage.after passage.result w := by
  constructor
  · obtain ⟨x, below, called, -⟩ := passage.split.originRight listed
    obtain ⟨path, leads⟩ := passage.right.exists_leads wf below
    exact ⟨path, x, leads, called⟩
  · intro path x leads called
    have below := passage.right.below_of_leads leads
    have other : ¬ g.Below a (.var x) := fun first => apart (.var x) rfl first below
    have image := (passage.listed_image (.inr below) called).2 other
    cases listed.symm.trans image
    exact Passage.leads_result (.inr leads) settles

theorem name?_after (x : VarId) : passage.after.name? x = passage.graph.name? x := by
  have success := passage.run.keeps passage.operands.invariant_entirety
    passage.operands.ready_entirety
  rw [Passage.after, name?_forgetAbsorbed, passage.form.normal.settling.reshapes.name,
    success.grows.name]

/-- A variable that has survived is what the variables of its name in one of the operands have
become. -/
theorem nameBecomes_survivor (wf : g.WellFormed) (apart : g.Unshared a b) {x : VarId}
    {name : String} (added : (g.added passage.graph).Has (.var x))
    (settles : passage.joined.graph.Settles (.var x) (.var x))
    (called : passage.after.name? x = some name) :
    g.NameBecomes a name passage.after passage.result (.var x) ∨
      g.NameBecomes b name passage.after passage.result (.var x) := by
  rw [passage.name?_after] at called
  -- the name under which the variable is listed is its own
  have own {key : String} (present : ∃ y, Value.var x = .var y ∧
      passage.graph.var? y = some { name := key }) : key = name := by
    obtain ⟨_, ⟨⟩, present⟩ := present
    simpa [name?, present] using called
  obtain ⟨key, listed | listed⟩ := passage.split.named added
  · cases own (passage.split.ownLeft key _ listed)
    exact .inl (passage.nameBecomes_left wf listed settles)
  · cases own (passage.split.ownRight key _ listed)
    exact .inr (passage.nameBecomes_right wf apart listed settles)

/-- An entry of either scope that is a variable is an added one that stands for itself. -/
theorem survives {before after : Scope} {name : String} {x : VarId}
    (kept : Region.ScopeSettles passage.joined.graph passage.visited before after)
    (origin : ∀ {v}, before.get? name = some v →
      ∃ z, g.Operands a b (.var z) ∧ passage.memory.images.vars.lookup z = some v)
    (entry : after.get? name = some (.var x)) :
    ∃ v, before.get? name = some v ∧ passage.joined.graph.Settles v (.var x) ∧
      (g.added passage.graph).Has (.var x) ∧ passage.joined.graph.Settles (.var x) (.var x) := by
  obtain ⟨v, listed, settles, -⟩ := kept.exists_of_get? entry
  obtain ⟨z, hz, copied⟩ := origin listed
  have image : passage.memory.images.apply (.var z) = v := by simp [Images.apply, copied]
  have has : (g.added passage.graph).Has v :=
    image ▸ passage.aligned.has_apply (passage.imaged hz)
  exact ⟨v, listed, settles, (passage.form.added.settled has settles).has,
    passage.form.added.settles_self has settles⟩

end SplitPassage

namespace Graph

/-- When plain operands that share no node have been unified in empty scopes of their own, the
entries of both scopes tell what has become of the names. -/
theorem unify?_tells {g g' : Graph} {a b r : Value} {left right : Scope} {limit : Nat}
    (wf : g.WellFormed) (ha : g.Plain a) (hb : g.Plain b) (apart : g.Unshared a b)
    (ok : g.unify? limit a b .fresh = some (.ok (r, .separate left right), g')) :
    left.Tells g a b a g' r ∧ right.Tells g a b b g' r := by
  obtain ⟨passage, rfl, scoping, rfl⟩ := ha.exists_splitPassage wf hb ok
  have scopes := passage.form.scopes
  rw [scoping, passage.scopes] at scopes
  constructor
  · intro name x other entry called
    obtain ⟨v, listed, settles, added, stands⟩ := passage.survives scopes.1
      (fun found => by
        obtain ⟨z, below, -, copied⟩ := passage.split.originLeft found
        exact ⟨z, .inl below, copied⟩) entry
    exact ⟨passage.nameBecomes_left wf listed settles,
      passage.nameBecomes_survivor wf apart added stands called⟩
  · intro name x other entry called
    obtain ⟨v, listed, settles, added, stands⟩ := passage.survives scopes.2
      (fun found => by
        obtain ⟨z, below, -, copied⟩ := passage.split.originRight found
        exact ⟨z, .inr below, copied⟩) entry
    exact ⟨passage.nameBecomes_right wf apart listed settles,
      passage.nameBecomes_survivor wf apart added stands called⟩

/-- A structure with two variables, and one with another variable called like the second of
them. -/
def crossed : Graph where
  structs := #[{ features := .ofList [("f", .var ⟨0⟩), ("g", .var ⟨1⟩)] },
    { features := .ofList [("f", .var ⟨2⟩)] }]
  vars := #[{ name := "x" }, { name := "y" }, { name := "y" }]

theorem reached_crossed : crossed.Reached := by
  have first := Reached.start.step (.newVar (some "x")) trivial rfl
  have second := first.step (.newVar (some "y")) trivial rfl
  have third := second.step (.newVar (some "y")) trivial rfl
  have left := third.step (.newStruct [("f", .var ⟨0⟩), ("g", .var ⟨1⟩)])
    (by simp [Operation.Within]; decide) rfl
  exact left.step (.newStruct [("f", .var ⟨2⟩)]) (by simp [Operation.Within]; decide) rfl

theorem plain_crossed {s : StructId} (h : s = ⟨0⟩ ∨ s = ⟨1⟩) : crossed.Plain (.struct s) := by
  have check : crossed.plainOn [.struct ⟨0⟩, .struct ⟨1⟩, .var ⟨0⟩, .var ⟨1⟩, .var ⟨2⟩] := by
    decide +kernel
  refine plain_of_plainOn check ?_
  rcases h with rfl | rfl <;> simp

theorem unshared_crossed : crossed.Unshared (.struct ⟨0⟩) (.struct ⟨1⟩) := by
  have first : crossed.plainOn [.struct ⟨0⟩, .var ⟨0⟩, .var ⟨1⟩] := by decide +kernel
  have second : crossed.plainOn [.struct ⟨1⟩, .var ⟨2⟩] := by decide +kernel
  intro u node left right
  have inFirst := mem_of_below first (by simp) left
  have inSecond := mem_of_below second (by simp) right
  simp only [List.mem_cons, List.not_mem_nil, or_false] at inFirst inSecond
  rcases inFirst with rfl | rfl | rfl <;> simp at inSecond

/-- The variable of the second structure survives, under a name that both structures have. -/
theorem unify?_crossed : ∃ (r : Value) (left right : Scope) (g' : Graph),
    crossed.unify? 50 (.struct ⟨0⟩) (.struct ⟨1⟩) .fresh =
      some (.ok (r, .separate left right), g') ∧
    left.get? "x" = some (.var ⟨5⟩) ∧ g'.name? ⟨5⟩ = some "y" ∧
    g'.Leads r ["f"] (.var ⟨5⟩) ∧ g'.Leads r ["g"] (.var ⟨4⟩) :=
  ⟨_, _, _, _, rfl, rfl, rfl, rfl, rfl⟩

/-- The entry of the first name is what the two structures have at `f`. -/
theorem crossed_tells : ∃ (r : Value) (left right : Scope) (g' : Graph),
    crossed.unify? 50 (.struct ⟨0⟩) (.struct ⟨1⟩) .fresh =
      some (.ok (r, .separate left right), g') ∧
    left.get? "x" = some (.var ⟨5⟩) ∧ g'.Leads r ["f"] (.var ⟨5⟩) ∧
      (crossed.NameBecomes (.struct ⟨0⟩) "y" g' r (.var ⟨5⟩) ∨
        crossed.NameBecomes (.struct ⟨1⟩) "y" g' r (.var ⟨5⟩)) := by
  obtain ⟨r, left, right, g', ok, entry, called, -⟩ := unify?_crossed
  have tells := unify?_tells reached_crossed.wellFormed (plain_crossed (.inl rfl))
    (plain_crossed (.inr rfl)) unshared_crossed ok
  obtain ⟨⟨-, everywhere⟩, survivor⟩ := tells.1 "x" ⟨5⟩ "y" entry called
  exact ⟨r, left, right, g', ok, entry, everywhere ["f"] ⟨0⟩ rfl rfl, survivor⟩

/-- In the operand of its own scope, an entry may miss the variables of the name it leads to. -/
theorem exists_mistaken : ¬ ∀ {g g' : Graph} {a b r : Value} {left right : Scope} {limit : Nat},
    g.Reached → g.Plain a → g.Plain b → g.Unshared a b →
      g.unify? limit a b .fresh = some (.ok (r, .separate left right), g') →
      ∀ name x other, left.get? name = some (.var x) → g'.name? x = some other →
        ∀ path y, g.Leads a path (.var y) → g.name? y = some other →
          g'.Leads r path (.var x) := by
  intro tied
  obtain ⟨r, left, right, g', ok, entry, called, -, leads⟩ := unify?_crossed
  have same := tied reached_crossed (plain_crossed (.inl rfl)) (plain_crossed (.inr rfl))
    unshared_crossed ok "x" ⟨5⟩ "y" entry called ["g"] ⟨1⟩ rfl rfl
  cases leads.symm.trans same

end Graph

end FeatureLogic
