import FeatureLogic.Graph.Reachability

/-!
# Conflicts

Two values clash if they cannot be unified whatever is below them: they are different atoms that
both say something, or one of them is a structure and the other such an atom. Two values conflict
at a path that leads from both of them, to values that clash. Paths are compared name by name.
-/

namespace FeatureLogic

/-- Does the path `p` come no later than `q`, the names compared one by one? -/
def PathLE (p q : List String) : Prop := p = q ∨ List.Lex (· < ·) p q

namespace PathLE

variable {p q : List String} {name name' : String}

theorem nil : ∀ q, PathLE [] q
  | [] => .inl rfl
  | _ :: _ => .inr .nil

theorem cons (le : PathLE p q) : PathLE (name :: p) (name :: q) :=
  le.imp (congrArg _) .cons

theorem of_lt (lt : name < name') : PathLE (name :: p) (name' :: q) := .inr (.rel lt)

end PathLE

/-- Can two dereferenced values, none of them a variable, not be unified for what they are? -/
def Value.Clashes : Value → Value → Prop
  | .atom a, .atom b => a ≠ b ∧ a ≠ .unspecified ∧ b ≠ .unspecified
  | .atom a, .struct _ => a ≠ .unspecified
  | .struct _, .atom b => b ≠ .unspecified
  | _, _ => False

instance : DecidableRel Value.Clashes
  | .atom a, .atom b => inferInstanceAs (Decidable (a ≠ b ∧ a ≠ .unspecified ∧ b ≠ .unspecified))
  | .atom a, .struct _ => inferInstanceAs (Decidable (a ≠ .unspecified))
  | .struct _, .atom b => inferInstanceAs (Decidable (b ≠ .unspecified))
  | .atom _, .var _ | .var _, _ | .struct _, .struct _ | .struct _, .var _ => .isFalse id

namespace Graph

structure ClashesAt (g : Graph) (v w : Value) (path : List String) (u z : Value) : Prop where
  left : g.Leads v path u
  right : g.Leads w path z
  clash : u.Clashes z

def Conflict (g : Graph) (v w : Value) (path : List String) : Prop :=
  ∃ u z, g.ClashesAt v w path u z

variable {g : Graph} {v w u z : Value} {a b : Atom} {s t : StructId} {path : List String}

theorem leads_atom_iff : g.Leads (.atom a) path u ↔ path = [] ∧ u = .atom a := by
  cases path with
  | nil => simp [leads_nil, eq_comm]
  | cons name path => simp [leads_cons]

theorem Leads.feature {m : NameMap Value} {name : String} (found : g.features? s = some m)
    (holds : m.get? name = some v) (leads : g.Leads v path u) :
    g.Leads (.struct s) (name :: path) u :=
  leads_cons.2 ⟨s, m, v, rfl, found, holds, leads⟩

theorem leads_struct_nil_iff : g.Leads (.struct s) [] u ↔ u = .struct s := by
  rw [leads_nil, deref?_struct, Option.some.injEq, eq_comm]

theorem leads_struct_cons_iff {m : NameMap Value} (found : g.features? s = some m)
    {name : String} : g.Leads (.struct s) (name :: path) u ↔
      ∃ v, m.get? name = some v ∧ g.Leads v path u := by
  constructor
  · intro leads
    obtain ⟨_, _, v, reads, found', holds, rest⟩ := leads_cons.1 leads
    cases reads
    cases found.symm.trans found'
    exact ⟨v, holds, rest⟩
  · rintro ⟨v, holds, rest⟩
    exact .feature found holds rest

theorem not_clashesAt_unspecified_left : ¬ g.ClashesAt .unspecified w path u z := by
  rintro ⟨leads, -, clash⟩
  obtain ⟨-, rfl⟩ := leads_atom_iff.1 leads
  cases z with
  | atom b => exact clash.2.1 rfl
  | struct t => exact clash rfl
  | var y => exact clash

theorem not_clashesAt_unspecified_right : ¬ g.ClashesAt v .unspecified path u z := by
  rintro ⟨-, leads, clash⟩
  obtain ⟨-, rfl⟩ := leads_atom_iff.1 leads
  cases u with
  | atom b => exact clash.2.2 rfl
  | struct t => exact clash rfl
  | var y => exact clash

theorem clashesAt_struct_iff {m n : NameMap Value} (hs : g.features? s = some m)
    (ht : g.features? t = some n) : g.ClashesAt (.struct s) (.struct t) path u z ↔
      ∃ name v w rest, path = name :: rest ∧ m.get? name = some v ∧ n.get? name = some w ∧
        g.ClashesAt v w rest u z := by
  constructor
  · rintro ⟨left, right, clash⟩
    cases path with
    | nil =>
      cases leads_struct_nil_iff.1 left
      cases leads_struct_nil_iff.1 right
      exact clash.elim
    | cons name rest =>
      obtain ⟨v, hv, left⟩ := (leads_struct_cons_iff hs).1 left
      obtain ⟨w, hw, right⟩ := (leads_struct_cons_iff ht).1 right
      exact ⟨name, v, w, rest, rfl, hv, hw, left, right, clash⟩
  · rintro ⟨name, v, w, rest, rfl, hv, hw, left, right, clash⟩
    exact ⟨left.feature hs hv, right.feature ht hw, clash⟩

end Graph

end FeatureLogic
