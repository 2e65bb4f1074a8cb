import FeatureLogic.Proofs.Join.Trees
import FeatureLogic.Proofs.Unification.Associativity
import FeatureLogic.Proofs.Unification.Images

/-!
# What the unification of two trees reports

Isomorphic values conflict at the same paths, at places that have the same texts. The copies of two
trees that share nothing are such trees again. So unifying two trees fails exactly if some path
leads from them to values that clash, and the failure tells the first such path, with the texts of
the operands' own values.
-/

namespace FeatureLogic

open FeatureLogic.Graph Join

namespace Graph

variable {g h : Graph} {a b u v w z : Value} {path : List String}

section Isomorphic

theorem Isomorphic.exists_leads (wf : g.WellFormed) (wf' : h.WellFormed) (iso : g.Isomorphic v h w)
    (leads : g.Leads v path u) : ∃ z, h.Leads w path z ∧ g.Isomorphic u h z := by
  obtain ⟨structs, oneToOne, closed, pairs⟩ := iso
  obtain ⟨z, leads', related⟩ := closed.exists_leads pairs leads
  exact ⟨z, leads', structs, oneToOne, closed, u, z, wf.deref?_of_leads leads,
    wf'.deref?_of_leads leads', related⟩

theorem Isomorphic.tree (iso : g.Isomorphic v h w) (tree : g.Tree v) (ground : h.Ground w) :
    h.Tree w where
  toGround := ground
  single {p q t} leads leads' := by
    obtain ⟨structs, oneToOne, closed, pairs⟩ := iso.symm
    obtain ⟨u, first, related⟩ := closed.exists_leads pairs leads
    obtain ⟨z, second, related'⟩ := closed.exists_leads pairs leads'
    cases u <;> first | exact related.elim | skip
    cases z <;> first | exact related'.elim | skip
    cases oneToOne.2 related related'
    exact tree.single first second

theorem Isomorphic.exists_clashesAt (wf : g.WellFormed) (wf' : h.WellFormed)
    (left : g.Isomorphic a h v) (right : g.Isomorphic b h w) (clash : g.ClashesAt a b path u z) :
    ∃ u' z', h.ClashesAt v w path u' z' ∧ g.Isomorphic u h u' ∧ g.Isomorphic z h z' := by
  obtain ⟨u', leads, isoLeft⟩ := left.exists_leads wf wf' clash.left
  obtain ⟨z', leads', isoRight⟩ := right.exists_leads wf wf' clash.right
  refine ⟨u', z', ⟨leads, leads', ?_⟩, isoLeft, isoRight⟩
  have related := isoLeft.alike.relates (wf.deref?_of_leads clash.left) (wf'.deref?_of_leads leads)
  have related' :=
    isoRight.alike.relates (wf.deref?_of_leads clash.right) (wf'.deref?_of_leads leads')
  have clashes := clash.clash
  cases u <;> cases u' <;> first | exact related.elim | skip
  all_goals cases z <;> cases z' <;> first | exact related'.elim | exact clashes.elim | skip
  · cases related
    cases related'
    exact clashes
  · cases related
    exact clashes
  · cases related'
    exact clashes

theorem Isomorphic.conflict_iff (wf : g.WellFormed) (wf' : h.WellFormed)
    (left : g.Isomorphic a h v) (right : g.Isomorphic b h w) :
    h.Conflict v w path ↔ g.Conflict a b path := by
  constructor
  · rintro ⟨u, z, clash⟩
    obtain ⟨u', z', clash', -⟩ := left.symm.exists_clashesAt wf' wf right.symm clash
    exact ⟨u', z', clash'⟩
  · rintro ⟨u, z, clash⟩
    obtain ⟨u', z', clash', -⟩ := left.exists_clashesAt wf wf' right clash
    exact ⟨u', z', clash'⟩

theorem Isomorphic.text?_of_ground (iso : g.Isomorphic v h w) (ground : g.Ground v) {text : String}
    (written : h.text? w = some text) : g.text? v = some text := by
  obtain ⟨text', written'⟩ := (ground.legible fun _ => rfl).exists_text .refl
  rw [written', iso.text_eq written' written]

end Isomorphic

end Graph

namespace CopiedOperands

variable {g : Graph} {a b : Value} (c : CopiedOperands g a b)

theorem ground_image (ha : g.Ground a) (hb : g.Ground b) {v : Value} (hv : g.Operands a b v) :
    c.graph.Ground (c.image v) := by
  have operand {w : Value} (below : g.Below v w) : g.Operands a b w :=
    (c.imaged_of_below hv (c.imaged hv) below).1
  constructor
  · intro u below
    obtain ⟨w, lower, rfl⟩ := c.exists_of_below_image hv below
    exact contains_of_added (c.has_image (operand lower))
  · intro y below
    obtain ⟨w, lower, copy⟩ := c.exists_of_below_image hv below
    have hw := operand lower
    cases w with
    | atom a => cases copy
    | struct s =>
      obtain ⟨t, copied⟩ := c.imaged hw
      cases copy.trans (c.image_struct copied)
    | var x => exact hw.elim (ha.noVar x) (hb.noVar x)

theorem unshared_image (ha : g.Ground a) (hb : g.Ground b) (apart : g.Unshared a b) :
    c.graph.Unshared (c.image a) (c.image b) := by
  intro u node below below'
  obtain ⟨v, belowA, rfl⟩ := c.exists_of_below_image (.inl .refl) below
  obtain ⟨w, belowB, same⟩ := c.exists_of_below_image (.inr .refl) below'
  cases v with
  | atom a => cases node
  | var x => exact ha.noVar x belowA
  | struct s =>
    obtain ⟨t, copied⟩ := c.imaged (.inl belowA)
    rw [c.image_struct copied] at same
    cases w with
    | atom b => cases same
    | var y => exact hb.noVar y belowB
    | struct s' =>
      obtain ⟨t', copied'⟩ := c.imaged (.inr belowB)
      cases same.trans (c.image_struct copied')
      cases c.copies.injective (.inl belowA) (.inr belowB) copied copied'
      exact apart _ rfl belowA belowB

/-- The copies of two trees that share nothing are such trees again, as deep as the trees. -/
theorem pending_image {limit : Nat} (wf : g.WellFormed) (wf' : c.graph.WellFormed) (ha : g.Tree a)
    (hb : g.Tree b) (apart : g.Unshared a b)
    (deep : ∀ {path u}, g.Leads b path u → path.length < limit) :
    Pending c.graph limit (c.image a) (c.image b) c.start where
  left := (c.isomorphic_image (.inl .refl)).tree ha
    (c.ground_image ha.toGround hb.toGround (.inl .refl))
  right := (c.isomorphic_image (.inr .refl)).tree hb
    (c.ground_image ha.toGround hb.toGround (.inr .refl))
  apart := c.unshared_image ha.toGround hb.toGround apart
  deep leads := by
    obtain ⟨z, leads', -⟩ := (c.isomorphic_image (.inr .refl)).symm.exists_leads wf' wf leads
    exact deep leads'
  untouched := ⟨fun _ => rfl, fun mem => by cases mem⟩

end CopiedOperands

namespace Graph

variable {g : Graph} {a b : Value} {limit : Nat}

/-- How the unification of two trees ends: in a mismatch at the first path at which they conflict,
or with a result if there is no such path. -/
inductive Reports (g : Graph) (a b : Value) : Except Failure (Value × Scoping) → Prop where
  | mismatch {path : List String} {u z : Value} {left right : String} :
    g.ClashesAt a b path u z → (∀ q, g.Conflict a b q → PathLE path q) → g.text? u = some left →
    g.text? z = some right → Reports g a b (.error (.mismatch path left right))
  | result {r : Value} {after : Scoping} :
    (∀ path, ¬ g.Conflict a b path) → Reports g a b (.ok (r, after))

theorem Tree.exists_reports (wf : g.WellFormed) (ha : g.Tree a) (hb : g.Tree b)
    (apart : g.Unshared a b) (deep : ∀ {path u}, g.Leads b path u → path.length < limit) :
    ∃ out h, g.unify? limit a b .fresh = some (out, h) ∧ g.Reports a b out := by
  have plain := ha.toGround.plain
  have plain' := hb.toGround.plain
  have within : (Scoping.common ∅).All (Scope.Within · g) := fun _ _ found => by cases found
  obtain ⟨h, m, walked, copies, complete, known, known'⟩ := plain.exists_copyOperands plain'
  let c : CopiedOperands g a b := ⟨h, m, plain.source plain', copies, complete, known, known'⟩
  obtain ⟨_, _, _, _, walked', operands⟩ :=
    wf.exists_copyOperands (plain.contains .refl) (plain'.contains .refl) within
  cases walked.symm.trans walked'
  have isoA : g.Isomorphic a h (c.image a) := c.isomorphic_image (.inl .refl)
  have isoB : g.Isomorphic b h (c.image b) := c.isomorphic_image (.inr .refl)
  have conflict {path : List String} (conflict : g.Conflict a b path) :
      h.Conflict (c.image a) (c.image b) path :=
    (isoA.conflict_iff wf operands.wellFormed isoB).2 conflict
  -- the join works on the copies: where it ends and the texts that it tells are theirs
  have verdict := joinsTrees_joinWithin operands.wellFormed limit limit [] _ _ _
    (c.pending_image wf operands.wellFormed ha hb apart deep)
  obtain ⟨out, st, ends, run⟩ :=
    executes_joinWithin limit limit [] (c.image a) (c.image b) c.start c.invariant c.ready
  rw [ends] at verdict
  rw [ha.toGround.unify?_fresh hb.toGround]
  cases out with
  | ok r =>
    cases verdict with
    | agrees none _ =>
    obtain ⟨result, after, final, visited, done, -⟩ := operands.exists_unify?_of_ok walked ends run
    rw [done, Option.map_some]
    refine ⟨_, _, rfl, .result fun path at' => ?_⟩
    obtain ⟨u, z, clash⟩ := conflict at'
    exact none path u z clash
  | error f =>
    cases verdict with
    | @clashes p u z left right _ clash least writtenLeft writtenRight =>
    rw [operands.unify?_of_error walked ends run, Option.map_some]
    obtain ⟨u', z', clash', isoLeft, isoRight⟩ :=
      isoA.symm.exists_clashesAt operands.wellFormed wf isoB.symm clash
    -- the same path leads to the originals of the values that clash, which have the same texts
    refine ⟨_, _, rfl, .mismatch clash' (fun q at' => ?_) ?_ ?_⟩
    · obtain ⟨u, z, clash⟩ := conflict at'
      exact least q u z clash
    · exact isoLeft.symm.text?_of_ground (ha.toGround.of_below (plain.below_of_leads clash'.left))
        writtenLeft
    · exact isoRight.symm.text?_of_ground
        (hb.toGround.of_below (plain'.below_of_leads clash'.right)) writtenRight

/-- Unifying two trees that share nothing and are less deep than the limit fails exactly if they
conflict somewhere. The failure is a mismatch at the first path at which they do, and it tells the
texts of the operands' own values there. -/
theorem Tree.unify?_conflict (wf : g.WellFormed) (ha : g.Tree a) (hb : g.Tree b)
    (apart : g.Unshared a b)
    (deep : ∀ path u, g.Leads a path u ∨ g.Leads b path u → path.length + 1 < limit) :
    ∃ out h, g.unify? limit a b .fresh = some (out, h) ∧
      ((∃ f, out = .error f) ↔ ∃ path, g.Conflict a b path) ∧
      ∀ f, out = .error f → ∃ path u z left right, f = .mismatch path left right ∧
        g.ClashesAt a b path u z ∧ (∀ q, g.Conflict a b q → PathLE path q) ∧
        g.text? u = some left ∧ g.text? z = some right := by
  obtain ⟨out, h, ends, reports⟩ := ha.exists_reports wf hb apart
    fun leads => Nat.lt_of_succ_lt (deep _ _ (.inr leads))
  refine ⟨out, h, ends, ?_⟩
  cases reports with
  | @mismatch path u z left right clash least written written' =>
    have conflict : g.Conflict a b path := ⟨u, z, clash⟩
    refine ⟨⟨fun _ => ⟨path, conflict⟩, fun _ => ⟨_, rfl⟩⟩, fun f eq => ?_⟩
    cases eq
    exact ⟨path, u, z, left, right, rfl, clash, least, written, written'⟩
  | result none =>
    refine ⟨⟨?_, fun ⟨path, conflict⟩ => absurd conflict (none path)⟩, ?_⟩
    · rintro ⟨f, eq⟩
      cases eq
    · rintro f eq
      cases eq

def phrases : Graph where
  structs := #[{ features := .ofList [("agr", .struct ⟨1⟩), ("cat", .atom (.str "np"))] },
    { features := .ofList [("num", .atom (.str "sg")), ("per", .atom (.int 3))] },
    { features := .ofList [("agr", .struct ⟨3⟩), ("cat", .atom (.str "vp"))] },
    { features := .ofList [("num", .atom (.str "pl")), ("per", .atom (.int 3))] }]

theorem plainOn_phrases : phrases.plainOn [.struct ⟨0⟩, .struct ⟨1⟩, .struct ⟨2⟩, .struct ⟨3⟩,
    .atom (.str "np"), .atom (.str "sg"), .atom (.int 3), .atom (.str "vp"),
    .atom (.str "pl")] := by decide +kernel

theorem wellFormed_phrases : phrases.WellFormed :=
  wellFormed_of_plainOn plainOn_phrases (by decide +kernel) (by decide +kernel) (by decide +kernel)

/-- The phrases are told to differ in number, although they differ in category as well. -/
theorem phrases_conflict : ∃ h, phrases.unify? 4 (.struct ⟨0⟩) (.struct ⟨2⟩) .fresh =
      some (.error (.mismatch ["agr", "num"] "\"sg\"" "\"pl\""), h) ∧
    phrases.Conflict (.struct ⟨0⟩) (.struct ⟨2⟩) ["agr", "num"] ∧
    (∀ q, phrases.Conflict (.struct ⟨0⟩) (.struct ⟨2⟩) q → PathLE ["agr", "num"] q) ∧
    phrases.Conflict (.struct ⟨0⟩) (.struct ⟨2⟩) ["cat"] := by
  let noun : List (List String × Value) := [([], .struct ⟨0⟩), (["agr"], .struct ⟨1⟩),
    (["agr", "num"], .atom (.str "sg")), (["agr", "per"], .atom (.int 3)),
    (["cat"], .atom (.str "np"))]
  let verb : List (List String × Value) := [([], .struct ⟨2⟩), (["agr"], .struct ⟨3⟩),
    (["agr", "num"], .atom (.str "pl")), (["agr", "per"], .atom (.int 3)),
    (["cat"], .atom (.str "vp"))]
  have checkNoun : phrases.placesOn noun := by decide +kernel
  have checkVerb : phrases.placesOn verb := by decide +kernel
  have apart : phrases.Unshared (.struct ⟨0⟩) (.struct ⟨2⟩) := by
    intro u node below below'
    obtain ⟨p, mem⟩ := exists_place_of_below checkNoun List.mem_cons_self below
    obtain ⟨q, mem'⟩ := exists_place_of_below checkVerb List.mem_cons_self below'
    have differ : ∀ e ∈ noun, ∀ e' ∈ verb, e.2.isNode → e.2 ≠ e'.2 := by decide +kernel
    exact differ _ mem _ mem' node rfl
  have short : ∀ e ∈ noun ++ verb, e.1.length + 1 < 4 := by decide +kernel
  obtain ⟨out, h, ends, -, reports⟩ := Tree.unify?_conflict wellFormed_phrases
    (tree_of_placesOn checkNoun List.mem_cons_self (by decide +kernel))
    (tree_of_placesOn checkVerb List.mem_cons_self (by decide +kernel)) apart
    fun path u leads => short (path, u) (List.mem_append.2 (leads.imp
      (mem_of_leads checkNoun List.mem_cons_self) (mem_of_leads checkVerb List.mem_cons_self)))
  have fails : (phrases.unify? 4 (.struct ⟨0⟩) (.struct ⟨2⟩) .fresh).map Prod.fst =
      some (.error (.mismatch ["agr", "num"] "\"sg\"" "\"pl\"")) := by decide +kernel
  rw [ends, Option.map_some] at fails
  cases fails
  obtain ⟨path, u, z, left, right, ⟨⟩, clash, least, -⟩ := reports _ rfl
  refine ⟨h, ends, ⟨u, z, clash⟩, least, .atom (.str "np"), .atom (.str "vp"), ?_, ?_, by decide⟩
  · exact (rfl : phrases.path? (.struct ⟨0⟩) ["cat"] = some (some (.atom (.str "np"))))
  · exact (rfl : phrases.path? (.struct ⟨2⟩) ["cat"] = some (some (.atom (.str "vp"))))

end Graph

end FeatureLogic
