import FeatureLogic.Scope

/-!
# The scopes of two operands
-/

namespace FeatureLogic

/-- The scopes in which two operands are read: one for both, so that a name is the same variable on
either side, or one for each. -/
inductive Scoping where
  | common (scope : Scope)
  | separate (left right : Scope)
deriving DecidableEq

namespace Scoping

def left : Scoping → Scope
  | .common scope => scope
  | .separate left _ => left

def right : Scoping → Scope
  | .common scope => scope
  | .separate _ right => right

def fresh : Scoping := .separate ∅ ∅

/-- Updates each scope in turn, the left one first. -/
def update {σ : Type} (f : Scope → σ → Option (Scope × σ)) :
    Scoping → σ → Option (Scoping × σ)
  | .common scope, walk => do
    let (scope, walk) ← f scope walk
    return (.common scope, walk)
  | .separate left right, walk => do
    let (left, walk) ← f left walk
    let (right, walk) ← f right walk
    return (.separate left right, walk)

/-- The same kind of scoping with other scopes. A common scope becomes the left one. -/
def replace : Scoping → Scope → Scope → Scoping
  | .common _, left, _ => .common left
  | .separate _ _, left, right => .separate left right

def All (p : Scope → Prop) : Scoping → Prop
  | .common scope => p scope
  | .separate left right => p left ∧ p right

def Related (p : Scope → Scope → Prop) : Scoping → Scoping → Prop
  | .common scope, .common scope' => p scope scope'
  | .separate left right, .separate left' right' => p left left' ∧ p right right'
  | _, _ => False

theorem All.left {p : Scope → Prop} {scoping : Scoping} (all : scoping.All p) : p scoping.left := by
  cases scoping with
  | common scope => exact all
  | separate left right => exact all.1

theorem All.right {p : Scope → Prop} {scoping : Scoping} (all : scoping.All p) :
    p scoping.right := by
  cases scoping with
  | common scope => exact all
  | separate left right => exact all.2

theorem All.imp {p q : Scope → Prop} (imp : ∀ scope, p scope → q scope) {scoping : Scoping}
    (all : scoping.All p) : scoping.All q := by
  cases scoping with
  | common scope => exact imp scope all
  | separate left right => exact ⟨imp left all.1, imp right all.2⟩

theorem Related.imp_all {p : Scope → Scope → Prop} {q r : Scope → Prop}
    (imp : ∀ before after, p before after → q before → r after) {scoping scoping' : Scoping}
    (related : scoping.Related p scoping') (all : scoping.All q) : scoping'.All r := by
  cases scoping with
  | common before =>
    cases scoping' with
    | common after => exact imp before after related all
    | separate => exact related.elim
  | separate left right =>
    cases scoping' with
    | common => exact related.elim
    | separate left' right' =>
      exact ⟨imp left left' related.1 all.1, imp right right' related.2 all.2⟩

theorem Related.imp {p q : Scope → Scope → Prop} {has : Scope → Prop}
    (imp : ∀ {s t}, has s → p s t → q s t) {before after : Scoping} (inside : before.All has)
    (related : before.Related p after) : before.Related q after := by
  cases before <;> cases after <;> first | exact related.elim | skip
  · exact imp inside related
  · exact ⟨imp inside.1 related.1, imp inside.2 related.2⟩

theorem Related.square {before before' after after' : Scoping} {p p' q r : Scope → Scope → Prop}
    {has has' : Scope → Prop}
    (imp : ∀ {s s' t t'}, has s → has' s' → p s t → p' s' t' → q s s' → r t t')
    (inside : before.All has) (inside' : before'.All has') (left : before.Related p after)
    (right : before'.Related p' after') (across : before.Related q before') :
    after.Related r after' := by
  cases before <;> cases before' <;> cases after <;> cases after' <;>
    first | exact left.elim | exact right.elim | exact across.elim | skip
  · exact imp inside inside' left right across
  · exact ⟨imp inside.1 inside'.1 left.1 right.1 across.1,
      imp inside.2 inside'.2 left.2 right.2 across.2⟩

end Scoping

end FeatureLogic
