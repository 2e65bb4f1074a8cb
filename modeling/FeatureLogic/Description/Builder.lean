import FeatureLogic.Description.Denotation
import FeatureLogic.Graph.WellFormed

/-!
# One builder for many descriptions

Descriptions that are built one after another with the tags of those before. A failed one gives up
its nodes, but leaves the tags that it had introduced until then.
-/

namespace FeatureLogic

mutual

def Description.ids : Description Tag → List Nat
  | .atom _ => []
  | .var _ => []
  | .struct tag features => (tag.map Tag.id).toList ++ features.ids

def Features.ids : Features Tag → List Nat
  | .nil => []
  | .assign _ tag value rest => (tag.map Tag.id).toList ++ value.ids ++ rest.ids
  | .refer _ tag rest => tag.id :: rest.ids

end

namespace BuildState

abbrev start (g : Graph) : BuildState := { graph := g }

def outcome (st : BuildState) (d : Description Tag) : Except SyntaxError Value × Graph :=
  ((st.graph.build st.introduced d).1, (st.graph.build st.introduced d).2.2)

def after (st : BuildState) (d : Description Tag) : BuildState :=
  ⟨(st.graph.build st.introduced d).2.2, (st.graph.build st.introduced d).2.1⟩

def afterAll (st : BuildState) (ds : List (Description Tag)) : BuildState := ds.foldl after st

def Builds (st : BuildState) (d : Description Tag) : Prop := (st.outcome d).1.isOk

instance (st : BuildState) (d : Description Tag) : Decidable (st.Builds d) :=
  inferInstanceAs (Decidable (_ = _))

def successes : BuildState → List (Description Tag) → List (Description Tag)
  | _, [] => []
  | st, d :: ds => if st.Builds d then d :: (st.after d).successes ds else (st.after d).successes ds

/-- Is no tag that a failed description leaves introduced mentioned by those after it? -/
def Undisturbed : BuildState → List (Description Tag) → Prop
  | _, [] => True
  | st, d :: ds =>
    (st.Builds d ∨ ∀ d' ∈ ds, ∀ id ∈ d'.ids,
      (st.after d).introduced.lookup id = st.introduced.lookup id) ∧ (st.after d).Undisturbed ds

instance decidableUndisturbed : (st : BuildState) → (ds : List (Description Tag)) →
    Decidable (st.Undisturbed ds)
  | _, [] => isTrue trivial
  | st, d :: ds =>
    have := decidableUndisturbed (st.after d) ds
    inferInstanceAs (Decidable (_ ∧ _))

/-- Does the description get built, with a node that `v` leads to? -/
def Introduces (st : BuildState) (d : Description Tag) (v : Value) : Prop :=
  st.Builds d ∧ ¬ st.graph.Contains v ∧ (st.after d).graph.Contains v

end BuildState

end FeatureLogic
