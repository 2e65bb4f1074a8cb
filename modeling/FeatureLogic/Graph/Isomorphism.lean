import FeatureLogic.Graph.Correspondence
import Mathlib.Logic.Equiv.Defs

/-!
# Isomorphisms

An isomorphism of two values is a one-to-one correspondence between all structures that feature
paths lead to from the one and all that they lead to from the other. It keeps the names of features
and what they hold: corresponding structures, equal atoms, or free variables of one name.
-/

namespace FeatureLogic.Graph

variable {g h : Graph} {v w : Value}

def LeadsTo (g : Graph) (v : Value) (s : StructId) : Prop := ∃ path, g.Leads v path (.struct s)

/-- A one-to-one correspondence between the structures that paths lead to from two values. -/
abbrev Matching (g : Graph) (v : Value) (h : Graph) (w : Value) : Type :=
  { s // g.LeadsTo v s } ≃ { t // h.LeadsTo w t }

namespace Matching

def pairing (e : g.Matching v h w) : Pairing where
  structs s t := ∃ leads, (e ⟨s, leads⟩ : StructId) = t
  vars := SameName g h

/-- Does the correspondence relate the roots, and keep features with what they hold? -/
structure IsIsomorphism (e : g.Matching v h w) : Prop where
  roots : e.pairing.Pairs g h v w
  features : e.pairing.Closed g h

end Matching

end FeatureLogic.Graph
