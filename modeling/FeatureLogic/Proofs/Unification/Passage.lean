import FeatureLogic.Proofs.Copy.Tied
import FeatureLogic.Proofs.Unification.Outcome

/-!
# From the operands to the result

A successful unification of plain operands takes each of their values to its copy, and the copy to
what it settles to. So a path that leads to a variable in an operand leads in the result to what the
copy of the variable has become, whatever scopes the operands were read in.
-/

namespace FeatureLogic

namespace Graph

open Join

theorem OperandCopies.congruent {g h : Graph} {v w u : Value} {copied : Scoping} {st : JoinState}
    (copies : g.OperandCopies h v w copied) (closed : h.entirety.Closed st.graph)
    (run : Runs (.join v w) { graph := h } (.ok u) st) :
    Congruent h.entirety st.graph.Equates (.join v w) { graph := h } u st :=
  run.unites (equates_equivalence _) u rfl copies.invariant_entirety copies.ready_entirety
    (respects_equates closed) (fun _ _ _ mem => by cases mem)

end Graph

open FeatureLogic.Graph Join

/-- What plain operands have gone through in a successful unification. Values in `domain` were
copied, the names as they stood at the `start`. -/
structure Passage (g : Graph) (a b : Value) where
  left : g.Plain a
  right : g.Plain b
  domain : Value → Prop
  inside : ∀ {v}, domain v → g.Contains v
  start : Scope
  graph : Graph
  memory : Copying
  aligned : g.Aligned start graph memory
  complete : ∀ t, (g.added graph).Has (.struct t) → Complete g domain (graph, memory) t
  imagedLeft : Imaged memory a
  imagedRight : Imaged memory b
  telling : ∀ {x v}, g.Operands a b (.var x) → memory.images.vars.lookup x = some v →
    v ≠ .unspecified
  copied : Scoping
  operands : g.OperandCopies graph (memory.images.apply a) (memory.images.apply b) copied
  outcome : Value
  joined : JoinState
  run : Runs (.join (memory.images.apply a) (memory.images.apply b)) { graph } (.ok outcome) joined
  result : Value
  scoping : Scoping
  final : Graph
  visited : List StructId
  form : NormalForm g graph joined.graph outcome copied result scoping final visited

namespace Passage

variable {g : Graph} {a b : Value} (passage : Passage g a b)

def image (v : Value) : Value := passage.memory.images.apply v

def after : Graph := passage.final.forgetAbsorbed g.structCount

theorem whole : passage.graph.entirety.Closed passage.joined.graph := passage.form.whole

theorem congruent : Congruent passage.graph.entirety passage.joined.graph.Equates
    (.join (passage.image a) (passage.image b)) { graph := passage.graph } passage.outcome
      passage.joined :=
  passage.operands.congruent passage.whole passage.run

variable {passage}

theorem has_image {v : Value} (imaged : Imaged passage.memory v) :
    passage.graph.entirety.Has (passage.image v) :=
  entirety_has.2 (contains_of_added (passage.aligned.has_apply imaged))

theorem imaged_of_below {v w : Value} (plain : g.Plain v) (imaged : Imaged passage.memory v)
    (below : g.Below v w) : Imaged passage.memory w :=
  passage.aligned.imaged_of_below passage.complete passage.inside plain imaged below

theorem imaged {v : Value} (hv : g.Operands a b v) : Imaged passage.memory v :=
  hv.elim (imaged_of_below passage.left passage.imagedLeft)
    (imaged_of_below passage.right passage.imagedRight)

theorem deref?_of_settles {v w : Value} (has : passage.graph.entirety.Has v)
    (settles : passage.joined.graph.Settles v w) : passage.after.deref? w = some w := by
  rw [after, deref?_forgetAbsorbed]
  exact passage.form.deref?_self (passage.whole.settled has settles).has
    (passage.whole.settles_self has settles)

/-- A path that leads from a value of an operand leads from what its copy settles to, and to what
the copy of its end settles to, unless that says nothing. -/
theorem exists_leads {path : List String} {v u q : Value} (hv : g.Operands a b v)
    (plain : g.Plain v) (leads : g.Leads v path u)
    (settles : passage.image v ≠ .unspecified → passage.joined.graph.Settles (passage.image v) q)
    (has : passage.graph.entirety.Has q) (settled : passage.joined.graph.Settles q q)
    (reached : ∀ t, q = .struct t → t ∈ passage.visited) :
    ∃ w, passage.after.Leads q path w ∧ (passage.image u ≠ .unspecified →
      passage.joined.graph.Settles (passage.image u) w) := by
  induction path generalizing v q with
  | nil =>
    cases plain.deref?.symm.trans (leads_nil.1 leads)
    exact ⟨q, leads_nil.2 (deref?_of_settles has settled), settles⟩
  | cons name path ih =>
    obtain ⟨s, features, child, reads, found, holds, rest⟩ := leads_cons.1 leads
    cases plain.deref?.symm.trans reads
    obtain ⟨t, copied⟩ := passage.imaged hv
    obtain ⟨filled, -⟩ := passage.aligned.features?_copy passage.complete passage.inside
      (plain.contains .refl) copied found
    have imageS : passage.image (.struct s) = .struct t := by simp [image, Images.apply, copied]
    have settles := settles (by simp [imageS, Value.unspecified])
    rw [imageS] at settles
    have hasT : passage.graph.entirety.Has (.struct t) :=
      entirety_has.2 (contains_of_added (passage.aligned.confines.image copied))
    obtain ⟨q, rfl⟩ : ∃ q', q = .struct q' :=
      path_struct ((settles_iff_of_informative (v := .struct t) trivial).1 settles).path
    -- the feature goes through the join and through the normal form
    have carries := passage.congruent.transfers t name (passage.image child) hasT
      (passage.operands.wellFormed.forward?_struct t) ⟨_, filled, by simp [holds, image]⟩
    obtain ⟨q', ⟨features', found', holds'⟩, settled', becomes, reached'⟩ :=
      passage.form.normal.exists_feature passage.whole hasT carries settles (reached q rfl)
    have belowChild : g.Below (.struct s) child := .feature .refl found holds
    have hc : g.Operands a b child := hv.imp (·.trans belowChild) (·.trans belowChild)
    obtain ⟨w, leads', ends⟩ := ih hc (plain.of_below belowChild) rest becomes
      (passage.form.normal.settling.reshapes.closed.feature has found' holds') settled' reached'
    refine ⟨w, leads_cons.2 ⟨q, features', q', rfl, ?_, holds', leads'⟩, ends⟩
    rw [after, features?_forgetAbsorbed, found']

variable (passage) in
/-- A path of an operand leads in the result to what the copy of its end settles to. -/
theorem exists_leads_result {path : List String} {u : Value}
    (leads : g.Leads a path u ∨ g.Leads b path u) :
    ∃ w, passage.after.Leads passage.result path w ∧ (passage.image u ≠ .unspecified →
      passage.joined.graph.Settles (passage.image u) w) := by
  have hasOutcome := entirety_has.2 (contains_of_added passage.form.hasOutcome)
  have has := (passage.whole.settled hasOutcome passage.form.settles).has
  have settled := passage.whole.settles_self hasOutcome passage.form.settles
  have reached := passage.form.normal.reached
  rcases leads with leads | leads
  · exact passage.exists_leads (.inl .refl) passage.left leads
      (fun informs => (passage.congruent.identifies.1 informs _).2 passage.form.settles) has settled
      reached
  · exact passage.exists_leads (.inr .refl) passage.right leads
      (fun informs => (passage.congruent.identifies.2 informs _).2 passage.form.settles) has settled
      reached

theorem leads_result {path : List String} {x : VarId} {w : Value}
    (leads : g.Leads a path (.var x) ∨ g.Leads b path (.var x))
    (becomes : passage.joined.graph.Settles (passage.image (.var x)) w) :
    passage.after.Leads passage.result path w := by
  have hx : g.Operands a b (.var x) :=
    leads.imp passage.left.below_of_leads passage.right.below_of_leads
  obtain ⟨v, copied⟩ := passage.imaged hx
  have informs : passage.image (.var x) ≠ .unspecified := by
    simpa [image, Images.apply, copied] using passage.telling hx copied
  obtain ⟨w', leads', ends⟩ := passage.exists_leads_result leads
  exact (ends informs).unique becomes ▸ leads'

end Passage

end FeatureLogic
