import FeatureLogic.Graph.Reachability

/-!
# Embeddings

A value is more specific than another when the other one embeds into it: structures go to
structures that have at least their features, variables of one name go to one value, and an atom
that says something goes to itself.
-/

namespace FeatureLogic

/-- Where the structures and the variable names below a value go. -/
structure Embedding where
  structs : StructId → StructId
  names : String → Value

namespace Embedding

def Sends (e : Embedding) (g : Graph) (v w : Value) : Prop :=
  match v with
  | .atom a => a = .unspecified ∨ w = .atom a
  | .struct s => w = .struct (e.structs s)
  | .var x => ∃ name, g.name? x = some name ∧ w = e.names name

structure Embeds (e : Embedding) (g : Graph) (v : Value) (h : Graph) (c : Value) : Prop where
  root : ∃ w, h.deref? c = some w ∧ e.Sends g v w
  feature : ∀ {s m}, g.Below v (.struct s) → g.features? s = some m →
    ∃ n, h.features? (e.structs s) = some n ∧ ∀ {name u}, m.get? name = some u →
      ∃ c' w, n.get? name = some c' ∧ h.deref? c' = some w ∧ e.Sends g u w

end Embedding

end FeatureLogic
