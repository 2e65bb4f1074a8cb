import FeatureLogic.Proofs.Copy.Apart
import FeatureLogic.Proofs.Graph.Plainness
import FeatureLogic.Proofs.History
import FeatureLogic.Proofs.Unification.Passage

/-!
# Names in separate scopes

When plain operands are unified in empty scopes of their own, all variables of a name in the first
operand become one value, and so do all those that only the second operand has. A variable that
both operands have is read in the scope of the first one only, so that in the second operand the
same name can mean two things.
-/

namespace FeatureLogic

open FeatureLogic.Graph Join

/-- What plain operands have gone through when they were unified in empty scopes of their own. -/
structure SplitPassage (g : Graph) (a b : Value) extends Passage g a b where
  leftScope : Scope
  rightScope : Scope
  split : g.SplitOperands a b graph memory leftScope rightScope
  scopes : copied = .separate leftScope rightScope

namespace SplitPassage

variable {g : Graph} {a b : Value} (passage : SplitPassage g a b)

theorem exists_listed (name : String) : ∃ w w',
    (∀ v, passage.leftScope.get? name = some v → passage.graph.entirety.Has v →
      passage.joined.graph.Settles v w) ∧
    ∀ v, passage.rightScope.get? name = some v → passage.graph.entirety.Has v →
      passage.joined.graph.Settles v w' := by
  have stands (scope : Scope) : ∃ w, ∀ v, scope.get? name = some v →
      passage.graph.entirety.Has v → passage.joined.graph.Settles v w := by
    by_cases listed : ∃ v, scope.get? name = some v ∧ passage.graph.entirety.Has v
    · obtain ⟨v, found, has⟩ := listed
      obtain ⟨w, settles⟩ := passage.whole.exists_settles has
      refine ⟨w, fun v' found' _ => ?_⟩
      cases found.symm.trans found'
      exact settles
    · exact ⟨.unspecified, fun v found has => absurd ⟨v, found, has⟩ listed⟩
  obtain ⟨w, left⟩ := stands passage.leftScope
  obtain ⟨w', right⟩ := stands passage.rightScope
  exact ⟨w, w', left, right⟩

/-- The copy of a variable of the first operand is listed under its name in the first scope, and
that of another variable of the second operand in the second scope. -/
theorem listed_image {x : VarId} {name : String} (hx : g.Operands a b (.var x))
    (called : g.name? x = some name) :
    (g.Below a (.var x) → passage.leftScope.get? name = some (passage.image (.var x))) ∧
      (¬ g.Below a (.var x) → passage.rightScope.get? name = some (passage.image (.var x))) := by
  obtain ⟨v, copied⟩ := passage.imaged hx
  have image : passage.image (.var x) = v := by simp [Passage.image, Images.apply, copied]
  obtain ⟨name', y, called', -, -, first, second⟩ := passage.split.exists_image hx copied
  cases called.symm.trans called'
  exact image ▸ ⟨first, second⟩

end SplitPassage

namespace Graph

/-- A successful unification of plain operands in empty scopes of their own. -/
theorem Plain.exists_splitPassage {g g' : Graph} {a b r : Value} {after : Scoping} {limit : Nat}
    (wf : g.WellFormed) (ha : g.Plain a) (hb : g.Plain b)
    (ok : g.unify? limit a b .fresh = some (.ok (r, after), g')) :
    ∃ passage : SplitPassage g a b,
      passage.result = r ∧ passage.scoping = after ∧ passage.after = g' := by
  obtain ⟨h, m, left, right, walked, split, operands⟩ := ha.exists_readyOperands wf hb
  obtain ⟨out, st, ends, run⟩ := executes_joinWithin limit limit [] (m.images.apply a)
    (m.images.apply b) { graph := h } operands.invariant_entirety operands.ready_entirety
  cases out with
  | error f => cases (operands.unify?_of_error walked ends run).symm.trans ok
  | ok u =>
    obtain ⟨result, scoping, final, visited, done, form⟩ :=
      operands.exists_unify?_of_ok walked ends run
    cases done.symm.trans ok
    let passage : Passage g a b :=
      { left := ha, right := hb, domain := g.Operands a b, inside := (ha.source hb).contains
        start := ∅, graph := h, memory := m, aligned := split.aligned
        complete := split.complete, imagedLeft := split.imagedLeft
        imagedRight := split.imagedRight
        telling := fun hx copied => by
          obtain ⟨_, _, _, rfl, -⟩ := split.exists_image hx copied
          simp [Value.unspecified]
        copied := .separate left right, operands := operands, outcome := u, joined := st
        run := run, result := r, scoping := after, final := final, visited := visited
        form := form }
    exact ⟨⟨passage, left, right, split, rfl⟩, rfl, rfl, rfl⟩

/-- When plain operands have been unified in empty scopes of their own, every name stands for two
values. The result has the first of them wherever a variable of the name was in the first operand.
Where one was in the second operand, it has the first value if the first operand has that variable
too, and the second value if not. -/
theorem unify?_separates {g g' : Graph} {a b r : Value} {after : Scoping} {limit : Nat}
    (wf : g.WellFormed) (ha : g.Plain a) (hb : g.Plain b)
    (ok : g.unify? limit a b .fresh = some (.ok (r, after), g')) (name : String) :
    ∃ w w', (∀ {path x}, g.Leads a path (.var x) → g.name? x = some name →
        g'.Leads r path w) ∧
      ∀ {path x}, g.Leads b path (.var x) → g.name? x = some name →
        (g.Below a (.var x) → g'.Leads r path w) ∧
          (¬ g.Below a (.var x) → g'.Leads r path w') := by
  obtain ⟨passage, rfl, rfl, rfl⟩ := ha.exists_splitPassage wf hb ok
  obtain ⟨w, w', left, right⟩ := passage.exists_listed name
  refine ⟨w, w', fun {path x} leads called => ?_, fun {path x} leads called => ?_⟩
  · have below := ha.below_of_leads leads
    have hx : g.Operands a b (.var x) := .inl below
    exact Passage.leads_result (.inl leads)
      (left _ ((passage.listed_image hx called).1 below) (passage.has_image (passage.imaged hx)))
  · have hx : g.Operands a b (.var x) := .inr (hb.below_of_leads leads)
    have has := passage.has_image (passage.imaged hx)
    obtain ⟨first, second⟩ := passage.listed_image hx called
    exact ⟨fun below => Passage.leads_result (.inr leads) (left _ (first below) has),
      fun other => Passage.leads_result (.inr leads) (right _ (second other) has)⟩

/-- Two variables of one name, a structure with the first of them and a structure with both. -/
def twins : Graph where
  structs := #[{ features := .ofList [("f", .var ⟨0⟩)] },
    { features := .ofList [("f", .atom (.int 5)), ("g", .var ⟨0⟩), ("h", .var ⟨1⟩)] }]
  vars := #[{ name := "n" }, { name := "n" }]

theorem reached_twins : twins.Reached := by
  have first := Reached.start.step (.newVar (some "n")) trivial rfl
  have second := first.step (.newVar (some "n")) trivial rfl
  have left := second.step (.newStruct [("f", .var ⟨0⟩)])
    (by simp [Operation.Within]; decide) rfl
  exact left.step (.newStruct [("f", .atom (.int 5)), ("g", .var ⟨0⟩), ("h", .var ⟨1⟩)])
    (by simp [Operation.Within]; decide) rfl

theorem plain_twins {s : StructId} (h : s = ⟨0⟩ ∨ s = ⟨1⟩) : twins.Plain (.struct s) := by
  have check : twins.plainOn
      [.struct ⟨0⟩, .struct ⟨1⟩, .var ⟨0⟩, .var ⟨1⟩, .atom (.int 5)] := by decide +kernel
  refine plain_of_plainOn check ?_
  rcases h with rfl | rfl <;> simp

theorem unify?_twins : ∃ (r : Value) (after : Scoping) (g' : Graph),
    twins.unify? 50 (.struct ⟨0⟩) (.struct ⟨1⟩) .fresh = some (.ok (r, after), g') ∧
      g'.Leads r ["g"] (.atom (.int 5)) ∧ g'.Leads r ["h"] (.var ⟨3⟩) :=
  ⟨_, _, _, rfl, rfl, rfl⟩

/-- The first variable is in both structures, and the second one only in the second structure. -/
theorem twins_separated : ∃ (r : Value) (after : Scoping) (g' : Graph),
    twins.unify? 50 (.struct ⟨0⟩) (.struct ⟨1⟩) .fresh = some (.ok (r, after), g') ∧
      ∃ w w', g'.Leads r ["f"] w ∧ g'.Leads r ["g"] w ∧ g'.Leads r ["h"] w' := by
  obtain ⟨r, after, g', ok, -⟩ := unify?_twins
  obtain ⟨w, w', left, right⟩ := unify?_separates reached_twins.wellFormed
    (plain_twins (.inl rfl)) (plain_twins (.inr rfl)) ok "n"
  have feature : twins.features? ⟨0⟩ = some (.ofList [("f", .var ⟨0⟩)]) := rfl
  have below : twins.Below (.struct ⟨0⟩) (.var ⟨0⟩) :=
    .feature .refl feature (show NameMap.get? _ "f" = _ from rfl)
  have other : ¬ twins.Below (.struct ⟨0⟩) (.var ⟨1⟩) := by
    intro below
    have check : twins.plainOn [.struct ⟨0⟩, .var ⟨0⟩] := by decide +kernel
    simpa using mem_of_below check (by simp) below
  have f : twins.Leads (.struct ⟨0⟩) ["f"] (.var ⟨0⟩) := rfl
  have g : twins.Leads (.struct ⟨1⟩) ["g"] (.var ⟨0⟩) := rfl
  have h : twins.Leads (.struct ⟨1⟩) ["h"] (.var ⟨1⟩) := rfl
  exact ⟨r, after, g', ok, w, w', left f rfl, (right g rfl).1 below, (right h rfl).2 other⟩

/-- In the second operand, two variables of one name may become different values. -/
theorem exists_untied : ¬ ∀ {g g' : Graph} {a b r : Value} {after : Scoping} {limit : Nat},
    g.Reached → g.Plain a → g.Plain b → g.unify? limit a b .fresh = some (.ok (r, after), g') →
      ∀ {p q x y}, g.Leads b p (.var x) → g.Leads b q (.var y) → g.name? x = g.name? y →
        ∃ w, g'.Leads r p w ∧ g'.Leads r q w := by
  intro tied
  obtain ⟨r, after, g', ok, leadsG, leadsH⟩ := unify?_twins
  obtain ⟨w, sameG, sameH⟩ :=
    tied reached_twins (plain_twins (.inl rfl)) (plain_twins (.inr rfl)) ok
    (p := ["g"]) (q := ["h"]) (x := ⟨0⟩) (y := ⟨1⟩) rfl rfl rfl
  cases leadsG.symm.trans sameG
  cases leadsH.symm.trans sameH

end Graph

end FeatureLogic
