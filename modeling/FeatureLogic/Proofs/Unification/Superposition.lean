import FeatureLogic.Proofs.Graph.Isomorphism
import FeatureLogic.Proofs.Unification.Preorder

/-!
# Unifying isomorphic values

A value and an isomorphic one that shares no node with it are never incompatible, and their result
is isomorphic to both. Each of the two has room for the other, so the result looks like them. It
keeps structures apart as well. A join identifies only copies that go to one place in every target,
and here the places can be taken as fine as the structures of the second value: each goes to itself,
and those of the first value go to their partners.
-/

namespace FeatureLogic

open FeatureLogic.Graph Join

/-- What a value is in itself, where a variable is no more than its name. -/
inductive Spot where
  | atom (a : Atom)
  | struct (s : StructId)
  | name (name : Option String)

namespace Graph

variable {g h : Graph} {a b : Value} {structs : StructId → StructId → Prop}

def spot (g : Graph) : Value → Spot
  | .atom a => .atom a
  | .struct s => .struct s
  | .var x => .name (g.name? x)

/-- Are `a` and `b` plain values without a common node that `structs` makes isomorphic? -/
structure Superposes (g : Graph) (a b : Value) (structs : StructId → StructId → Prop) : Prop where
  wellFormed : g.WellFormed
  left : g.Plain a
  right : g.Plain b
  apart : g.Unshared a b
  oneToOne : Relator.BiUnique structs
  closed : (g.byName structs).Closed g g
  pairs : (g.byName structs).Pairs g g a b

/-- Does `v` go to `p`? The copy of a value goes to what the value faces in `b`. -/
def Lands (g : Graph) (a b : Value) (m : Copying) (v : Value) (p : Spot) : Prop :=
  v = .unspecified ∨ ∃ u w, g.Faces a b u w ∧ m.images.apply u = v ∧ p = g.spot w

namespace Superposes

variable (overlay : g.Superposes a b structs) {u u' w w' : Value}

include overlay

theorem exists_partner {path : List String} (leads : g.Leads a path u) :
    ∃ w, g.Leads b path w ∧ (g.byName structs).Relates u w :=
  Pairing.Closed.exists_leads overlay.closed overlay.pairs leads

theorem encloses : g.Encloses b a where
  wellFormed := overlay.wellFormed
  inner := overlay.left
  outer := overlay.right
  covers path u leads := by
    obtain ⟨w, leads', related⟩ := overlay.exists_partner leads
    exact ⟨w, leads', u.fits_self.partner related⟩
  room :=
    { shared := by
        intro p q u u' leads leads' same
        obtain ⟨w, ends, related⟩ := overlay.exists_partner leads
        obtain ⟨w', ends', related'⟩ := overlay.exists_partner leads'
        refine ⟨w, w', ends, ends', ?_⟩
        cases u <;> cases u' <;> first | exact same.elim | skip
        all_goals cases w <;> first | exact related.elim | skip
        all_goals cases w' <;> first | exact related'.elim | skip
        · cases same
          cases overlay.oneToOne.2 related related'
          have below := overlay.right.below_of_leads ends
          exact overlay.wellFormed.alike_refl (overlay.right.contains below)
        · exact alike_of_sameName (overlay.wellFormed.deref?_of_leads ends)
            (overlay.wellFormed.deref?_of_leads ends')
            ((sameName_comm.1 related).trans (same.trans related'))
      common := by
        intro p q u node leads leads'
        exact absurd (overlay.right.below_of_leads leads')
          (overlay.apart u node (overlay.left.below_of_leads leads)) }

theorem namesakes : g.Namesakes a b := by
  intro path x y leads leads'
  obtain ⟨w, ends, related⟩ := overlay.exists_partner leads
  cases leads'.unique ends
  exact related

theorem cases_of_faces (faces : g.Faces a b u w) :
    u = w ∧ g.Below b w ∨ g.Below a u ∧ (g.byName structs).Relates u w := by
  obtain ⟨path, leads | leads, ends⟩ := faces
  · obtain ⟨w', ends', related⟩ := overlay.exists_partner leads
    cases ends.unique ends'
    exact .inr ⟨overlay.left.below_of_leads leads, related⟩
  · cases leads.unique ends
    exact .inl ⟨rfl, overlay.right.below_of_leads leads⟩

theorem eq_atom_iff {e : Atom} (faces : g.Faces a b u w) : g.spot w = .atom e ↔ u = .atom e := by
  rcases overlay.cases_of_faces faces with ⟨rfl, -⟩ | ⟨-, related⟩
  · cases u <;> simp [spot]
  · cases u <;> cases w <;> first | exact related.elim | skip
    · cases (show _ = _ from related)
      simp [spot]
    · simp [spot]
    · simp [spot]

theorem spot_of_faces_var {x : VarId} (faces : g.Faces a b (.var x) w) :
    g.spot w = .name (g.name? x) := by
  rcases overlay.cases_of_faces faces with ⟨rfl, -⟩ | ⟨-, related⟩
  · rfl
  · cases w <;> first | exact related.elim | skip
    obtain ⟨name, called, called'⟩ := related
    exact congrArg Spot.name (called'.trans called.symm)

theorem eq_of_faces_struct {s : StructId} (faces : g.Faces a b (.struct s) w)
    (faces' : g.Faces a b (.struct s) w') : w = w' := by
  have not_both (below : g.Below a (.struct s)) (below' : g.Below b (.struct s)) : False :=
    overlay.apart (.struct s) rfl below below'
  rcases overlay.cases_of_faces faces with ⟨rfl, below⟩ | ⟨below, related⟩ <;>
    rcases overlay.cases_of_faces faces' with ⟨rfl, below'⟩ | ⟨below', related'⟩
  · rfl
  · exact (not_both below' below).elim
  · exact (not_both below below').elim
  · cases w <;> first | exact related.elim | skip
    cases w' <;> first | exact related'.elim | skip
    exact congrArg Value.struct (overlay.oneToOne.2 related related')

theorem spot_eq (faces : g.Faces a b u w) (faces' : g.Faces a b u w') :
    g.spot w = g.spot w' := by
  cases u with
  | atom e =>
    exact ((overlay.eq_atom_iff faces).2 rfl).trans ((overlay.eq_atom_iff faces').2 rfl).symm
  | struct s => exact congrArg g.spot (overlay.eq_of_faces_struct faces faces')
  | var x => exact (overlay.spot_of_faces_var faces).trans (overlay.spot_of_faces_var faces').symm

theorem eq_atom_of_lands {m : Copying} {v : Value} {e : Atom} (informs : v ≠ .unspecified)
    (lands : g.Lands a b m v (.atom e)) : v = .atom e := by
  obtain ⟨u, w, faces, rfl, same⟩ := lands.resolve_left informs
  rw [(overlay.eq_atom_iff faces).1 same.symm]
  rfl

section Copies

variable {m : Copying} {left right : Scope} (split : g.SplitOperands a b h m left right)

include split

theorem spot_eq_of_image_eq (faces : g.Faces a b u w) (faces' : g.Faces a b u' w')
    (same : m.images.apply u = m.images.apply u') : g.spot w = g.spot w' := by
  have hu := overlay.encloses.operands_of_faces faces
  have hu' := overlay.encloses.operands_of_faces faces'
  rcases split.cases_of_image_eq overlay.left overlay.right hu hu' same with
    rfl | ⟨x, x', rfl, rfl, -, named⟩
  · exact overlay.spot_eq faces faces'
  · rw [overlay.spot_of_faces_var faces, overlay.spot_of_faces_var faces', named]

theorem cases_of_lands {v : Value} {p : Spot} (informs : v ≠ .unspecified)
    (lands : g.Lands a b m v p) :
    (∃ e, p = .atom e) ∨ (∃ s, v = .struct s) ∨ ∃ x, v = .var x := by
  obtain ⟨u, w, faces, rfl, rfl⟩ := lands.resolve_left informs
  have hu := overlay.encloses.operands_of_faces faces
  cases u with
  | atom e => exact .inl ⟨e, (overlay.eq_atom_iff faces).2 rfl⟩
  | struct s =>
    obtain ⟨t, -, image⟩ := split.exists_image_struct overlay.left overlay.right hu
    exact .inr (.inl ⟨t, image⟩)
  | var x =>
    obtain ⟨y, -, image⟩ := split.exists_image_var overlay.left overlay.right hu
    exact .inr (.inr ⟨y, image⟩)

def target : Target Spot where
  Sends := g.Lands a b m
  Feature p name p' := ∃ t w, p = .struct t ∧ g.Leads (.struct t) [name] w ∧ p' = g.spot w
  silent _ := .inl rfl
  unique {v p p'} informs lands lands' := by
    obtain ⟨u, w, faces, rfl, rfl⟩ := lands.resolve_left informs
    obtain ⟨u', w', faces', same, rfl⟩ := lands'.resolve_left informs
    exact overlay.spot_eq_of_image_eq split faces faces' same.symm
  feature_unique := by
    rintro _ name _ _ ⟨t, w, rfl, leads, rfl⟩ ⟨_, w', ⟨⟩, leads', rfl⟩
    rw [leads.unique leads']
  clash {v v' p} informs informs' ne notVar notVar' lands lands' := by
    rcases overlay.cases_of_lands split informs lands with ⟨e, rfl⟩ | ⟨s, rfl⟩ | ⟨x, rfl⟩
    · exact absurd ((overlay.eq_atom_of_lands informs lands).trans
        (overlay.eq_atom_of_lands informs' lands').symm) ne
    · rcases overlay.cases_of_lands split informs' lands' with ⟨e, rfl⟩ | ⟨t, rfl⟩ | ⟨y, rfl⟩
      · cases overlay.eq_atom_of_lands informs lands
      · exact ⟨s, t, rfl, rfl⟩
      · exact absurd rfl (notVar' y)
    · exact absurd rfl (notVar x)

theorem solves (wf : h.WellFormed) : Solves (g.added h) (overlay.target split) h where
  feature {t n name v p} has found holds lands := by
    obtain ⟨u, w, faces, image, rfl⟩ := lands.resolve_left (by simp [Value.unspecified])
    obtain ⟨s, features, rfl, stored, rfl⟩ := overlay.encloses.exists_original split
      (overlay.encloses.operands_of_faces faces) image found
    rw [NameMap.get?_map, Option.map_eq_some_iff] at holds
    obtain ⟨child, holds, rfl⟩ := holds
    obtain ⟨t', rfl⟩ := overlay.encloses.fits_of_faces faces
    obtain ⟨w', leads, faces'⟩ := overlay.encloses.exists_faces faces stored holds
    exact ⟨g.spot w', ⟨t', w', rfl, leads, rfl⟩, .inr ⟨child, w', faces', rfl, rfl⟩⟩
  forward has step := by
    rw [split.forward?_eq_none wf has] at step
    cases step
  content has held := by
    rw [split.content?_eq_none has] at held
    cases held

theorem meets : (Task.join (m.images.apply a) (m.images.apply b)).Meets
    (overlay.target split) (g.spot b) := by
  have self : g.Leads b [] b := leads_nil.2 overlay.right.deref?
  have root : g.Leads a [] a := leads_nil.2 overlay.left.deref?
  exact ⟨.inr ⟨a, b, ⟨[], .inl root, self⟩, rfl, rfl⟩,
    .inr ⟨b, b, ⟨[], .inr self, self⟩, rfl, rfl⟩⟩

end Copies

theorem solves_joined (passage : SplitPassage g a b) :
    Solves (g.added passage.graph) (overlay.target passage.split) passage.joined.graph :=
  (passage.run.fulfils (g.spot b) passage.operands.invariant passage.operands.ready
    (overlay.solves passage.split passage.operands.wellFormed) (fun _ _ _ mem => by cases mem)
    (overlay.meets passage.split)).1

/-- No structure of the result is the partner of two structures of `b`. -/
theorem biUnique_partner (passage : SplitPassage g a b) : Relator.BiUnique passage.Partner := by
  constructor
  · rintro s s' t ⟨-, settles, -⟩ ⟨-, settles', -⟩
    cases settles.unique settles'
    rfl
  · rintro s t t' ⟨below, settles, -⟩ ⟨below', settles', -⟩
    have lands {t : StructId} (below : g.Below b (.struct t))
        (settles : passage.joined.graph.Settles (passage.image (.struct t)) (.struct s)) :
        g.Lands a b passage.memory (.struct s) (.struct t) :=
      ((overlay.solves_joined passage).settles passage.form.added (passage.has_added (.inr below))
        settles _).1 (.inr ⟨_, _, overlay.encloses.faces_self below, rfl, rfl⟩)
    cases (overlay.target passage.split).unique (by simp [Value.unspecified]) (lands below settles)
      (lands below' settles')
    rfl

/-- The result is isomorphic to `b`. -/
theorem isomorphic (passage : SplitPassage g a b) :
    passage.after.Isomorphic passage.result passage.after b := by
  have encloses := overlay.encloses
  have wf := passage.wellFormed_after overlay.wellFormed
  obtain ⟨reached, sub, closed, pairs⟩ := exists_byName wf wf (passage.closed_partner encloses)
    (passage.pairs_partner encloses)
    (fun left right => passage.namesakes_after encloses overlay.namesakes left right)
  exact ⟨reached, (overlay.biUnique_partner passage).mono sub, closed, pairs⟩

end Superposes

/-- Unifying a value with an isomorphic one that shares no node with it changes nothing. The two are
never incompatible, and if the unification succeeds then its result is isomorphic to both. -/
theorem WellFormed.unify?_isomorphic (wf : g.WellFormed) (ha : g.Plain a) (hb : g.Plain b)
    (apart : g.Unshared a b) (same : g.isomorphic? a b = some true) (limit : Nat) :
    ∃ out k, g.unify? limit a b .fresh = some (out, k) ∧
      (∀ path left right, out ≠ .error (.mismatch path left right)) ∧
      ∀ r after, out = .ok (r, after) →
        k.isomorphic? r a = some true ∧ k.isomorphic? r b = some true := by
  have insideA := ha.contains .refl
  have insideB := hb.contains .refl
  obtain ⟨structs, oneToOne, closed, pairs⟩ :=
    (wf.isomorphic?_eq_true_iff insideA insideB).1 same
  have overlay : g.Superposes a b structs := ⟨wf, ha, hb, apart, oneToOne, closed, pairs⟩
  obtain ⟨out, k, ends, leaves⟩ :=
    wf.exists_unify limit insideA insideB (Scoping.within_fresh g)
  refine ⟨out, k, ends, ?mismatch, ?result⟩
  case mismatch =>
    rintro path left right rfl
    cases overlay.encloses.isFatal ends
  case result =>
    rintro r after rfl
    obtain ⟨passage, rfl, rfl, rfl⟩ := ha.exists_splitPassage wf hb ends
    have wf' := passage.wellFormed_after wf
    have persists := passage.persists wf
    have insideA' := insideA.mono persists.structs persists.vars
    have insideB' := insideB.mono persists.structs persists.vars
    have still : passage.after.isomorphic? a b = some true :=
      persists.correspond?_eq_some insideA insideB same
    have operands := (wf'.isomorphic?_eq_true_iff insideA' insideB').1 still
    have result := overlay.isomorphic passage
    exact ⟨(wf'.isomorphic?_eq_true_iff leaves.contains insideA').2 (result.trans operands.symm),
      (wf'.isomorphic?_eq_true_iff leaves.contains insideB').2 result⟩

/-- Two rings of two structures each, where a structure is there under two names and variables of
one name are in several places. -/
def ringed : Graph where
  structs := #[{ features := .ofList [("first", .struct ⟨1⟩), ("last", .struct ⟨1⟩),
      ("seal", .var ⟨0⟩)] },
    { features := .ofList [("next", .struct ⟨0⟩), ("seal", .var ⟨1⟩), ("size", .atom (.int 1))] },
    { features := .ofList [("first", .struct ⟨3⟩), ("last", .struct ⟨3⟩), ("seal", .var ⟨2⟩)] },
    { features := .ofList [("next", .struct ⟨2⟩), ("seal", .var ⟨2⟩), ("size", .atom (.int 1))] }]
  vars := #[{ name := "n" }, { name := "n" }, { name := "n" }]

/-- The two rings become one that is isomorphic to each of them. -/
theorem ringed_superposed : ∃ r after k,
    ringed.unify? 8 (.struct ⟨0⟩) (.struct ⟨2⟩) .fresh = some (.ok (r, after), k) ∧
      k.isomorphic? r (.struct ⟨0⟩) = some true ∧ k.isomorphic? r (.struct ⟨2⟩) = some true := by
  have left : ringed.plainOn [.struct ⟨0⟩, .struct ⟨1⟩, .var ⟨0⟩, .var ⟨1⟩, .atom (.int 1)] := by
    decide +kernel
  have right : ringed.plainOn [.struct ⟨2⟩, .struct ⟨3⟩, .var ⟨2⟩, .atom (.int 1)] := by
    decide +kernel
  have all : ringed.plainOn [.struct ⟨0⟩, .struct ⟨1⟩, .var ⟨0⟩, .var ⟨1⟩, .atom (.int 1),
      .struct ⟨2⟩, .struct ⟨3⟩, .var ⟨2⟩] := by decide +kernel
  have wf : ringed.WellFormed :=
    wellFormed_of_plainOn all (by decide +kernel) (by decide +kernel) (by decide +kernel)
  have ha : ringed.Plain (.struct ⟨0⟩) := plain_of_plainOn left (by simp)
  have hb : ringed.Plain (.struct ⟨2⟩) := plain_of_plainOn right (by simp)
  have apart : ringed.Unshared (.struct ⟨0⟩) (.struct ⟨2⟩) :=
    unshared_of_plainOn _ _ left right (by decide) (by simp) (by simp)
  have same : ringed.isomorphic? (.struct ⟨0⟩) (.struct ⟨2⟩) = some true := by decide +kernel
  obtain ⟨out, k, ends, -, result⟩ := wf.unify?_isomorphic ha hb apart same 8
  have succeeds : (ringed.unify? 8 (.struct ⟨0⟩) (.struct ⟨2⟩) .fresh).map
      (fun ended => ended.1.isOk) = some true := by decide +kernel
  rw [ends] at succeeds
  cases out with
  | error f => cases succeeds
  | ok result' =>
    obtain ⟨r, after⟩ := result'
    exact ⟨r, after, k, ends, result r after rfl⟩

end Graph

end FeatureLogic
