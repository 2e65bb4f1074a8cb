import FeatureLogic.Proofs.Description.Distinction
import FeatureLogic.Proofs.Description.RoundTrip
import FeatureLogic.Proofs.Graph.Isomorphism
import FeatureLogic.Proofs.Graph.Persistence
import FeatureLogic.Proofs.Graph.Wording

/-!
# The text of a value is its canonical form

Isomorphic values have the same text, because the walks that write them meet partners in the same
order. Conversely a text is written for one description only, and what is built from a description
is isomorphic to every value that it depicts, so that values with the same text are isomorphic to
one and the same third.
-/

namespace FeatureLogic

mutual

theorem Description.map_map_of_leftInverse {τ σ : Type} {f : τ → σ} {f' : σ → τ}
    (inverse : Function.LeftInverse f' f) (d : Description τ) : (d.map f).map f' = d := by
  match d with
  | .atom a => rfl
  | .var name => rfl
  | .struct tag features =>
    rw [Description.map, Description.map, Option.map_map, inverse.id, Option.map_id, id,
      features.map_map_of_leftInverse inverse]

theorem Features.map_map_of_leftInverse {τ σ : Type} {f : τ → σ} {f' : σ → τ}
    (inverse : Function.LeftInverse f' f) (features : Features τ) :
    (features.map f).map f' = features := by
  match features with
  | .nil => rfl
  | .assign name tag d rest =>
    rw [Features.map, Features.map, Option.map_map, inverse.id, Option.map_id, id,
      d.map_map_of_leftInverse inverse, rest.map_map_of_leftInverse inverse]
  | .refer name tag rest =>
    rw [Features.map, Features.map, inverse, rest.map_map_of_leftInverse inverse]

end

namespace Graph

variable {g : Graph} {v w : Value}

theorem WellFormed.isomorphic?_of_describe? (wf : g.WellFormed) (insideV : g.Contains v)
    (insideW : g.Contains w) {d : Description Nat} (described : g.describe? v = some d)
    (described' : g.describe? w = some d) : g.isomorphic? v w = some true := by
  obtain ⟨v', l, reads, depicts⟩ := describe?_depicts described
  obtain ⟨w', l', reads', depicts'⟩ := describe?_depicts described'
  let tagged : Description Tag := d.map fun id => ⟨id, 0, 0⟩
  have same : tagged.map Tag.id = d := d.map_map_of_leftInverse fun _ => rfl
  rw [← same] at depicts depicts'
  obtain ⟨u, st, built, restored, restores⟩ := tagged.exists_build depicts (listed_start g)
  obtain ⟨u', st', built', restored', restores'⟩ := tagged.exists_build depicts' (listed_start g)
  cases built.symm.trans built'
  have received := wf.receives_build tagged
  rw [build, built] at received
  obtain ⟨part, -⟩ : g.Receives (.ok u, st.graph) := received
  have first : st.graph.Isomorphic v st.graph u :=
    isomorphic_of_restores part (fun s mem => restored.mirrors s mem (by simp)) reads restores
  have second : st.graph.Isomorphic w st.graph u :=
    isomorphic_of_restores part (fun s mem => restored'.mirrors s mem (by simp)) reads' restores'
  have larger : st.graph.isomorphic? v w = some true :=
    (part.wellFormed.isomorphic?_eq_true_iff (part.contains insideV) (part.contains insideW)).2
      (first.trans second.symm)
  obtain ⟨answer, compared, -⟩ := wf.isomorphic?_iff insideV insideW
  have kept := (Persists.of_partOf wf part).correspond?_eq_some insideV insideW compared
  cases larger.symm.trans kept
  exact compared

/-- Every value has a text, and if names can be told from what is written around them, two values
have the same text exactly if the comparison with their sharing accepts them. -/
theorem WellFormed.text?_canonical (wf : g.WellFormed) (insideV : g.Contains v)
    (insideW : g.Contains w) (clear : g.Spelled Grammar.IsClear Grammar.IsIdentifier v)
    (clear' : g.Spelled Grammar.IsClear Grammar.IsIdentifier w) :
    ∃ text text' answer, g.text? v = some text ∧ g.text? w = some text' ∧
      g.isomorphic? v w = some answer ∧ (text = text' ↔ answer = true) := by
  obtain ⟨d, described⟩ := wf.closed.legible.exists_description (entirety_has.2 insideV)
  obtain ⟨d', described'⟩ := wf.closed.legible.exists_description (entirety_has.2 insideW)
  obtain ⟨answer, compared, iff⟩ := wf.isomorphic?_iff insideV insideW
  have written : g.text? v = some (String.ofList d.written) := by
    rw [text?, described, Option.map_some]
  have written' : g.text? w = some (String.ofList d'.written) := by
    rw [text?, described', Option.map_some]
  refine ⟨_, _, answer, written, written', compared, fun same => ?same, fun accepted => ?accepted⟩
  case same =>
    obtain ⟨v', l, reads, depicts⟩ := describe?_depicts described
    obtain ⟨w', l', reads', depicts'⟩ := describe?_depicts described'
    have ends : Grammar.Ends [] := Text.avoids_nil _
    obtain ⟨rfl, -⟩ := Description.unique (d.spelled_of_depicts clear reads depicts)
      (d'.spelled_of_depicts clear' reads' depicts') ends ends (by
        rw [String.ofList_injective same])
    have accepted := wf.isomorphic?_of_describe? insideV insideW described described'
    cases compared.symm.trans accepted
    rfl
  case accepted => exact (iff.1 accepted).text_eq written written'

/-- The two structures that lead to each other have one text, and the one that leads to itself has
another. -/
theorem turns_text?_canonical : turns.WellFormed ∧
    turns.text? (.struct ⟨1⟩) = some "(1)[next=[next->(1)]]" ∧
    turns.text? (.struct ⟨2⟩) = some "(1)[next=[next->(1)]]" ∧
    turns.text? (.struct ⟨0⟩) ≠ turns.text? (.struct ⟨2⟩) := by
  have clear (v : Value) : turns.Spelled Grammar.IsClear Grammar.IsIdentifier v :=
    spelled_of_stored (by decide) (by decide) v
  have swapped : turns.isomorphic? (.struct ⟨1⟩) (.struct ⟨2⟩) = some true := by decide +kernel
  have shrunk : turns.isomorphic? (.struct ⟨0⟩) (.struct ⟨2⟩) = some false := by decide +kernel
  have shown : turns.text? (.struct ⟨1⟩) = some "(1)[next=[next->(1)]]" := by decide +kernel
  obtain ⟨text, text', answer, written, written', compared, iff⟩ :=
    wellFormed_turns.text?_canonical (v := .struct ⟨1⟩) (w := .struct ⟨2⟩) (by decide)
      (by decide) (clear _) (clear _)
  obtain ⟨other, text'', answer', written'', again, compared', iff'⟩ :=
    wellFormed_turns.text?_canonical (v := .struct ⟨0⟩) (w := .struct ⟨2⟩) (by decide)
      (by decide) (clear _) (clear _)
  cases swapped.symm.trans compared
  cases shrunk.symm.trans compared'
  cases written.symm.trans shown
  obtain rfl := iff.2 rfl
  refine ⟨wellFormed_turns, shown, written', fun same => ?_⟩
  rw [written'', again] at same
  exact Bool.false_ne_true (iff'.1 (Option.some.inj same))

end Graph

end FeatureLogic
