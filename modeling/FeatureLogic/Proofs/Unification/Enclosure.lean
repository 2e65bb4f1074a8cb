import FeatureLogic.Proofs.Join.Solution
import FeatureLogic.Proofs.Unification.Containment

/-!
# Values with room for another one

If a value has all the paths of another one and room for what that one shares, their unification
cannot find them incompatible, and its result looks like the value with room, but for names. The
places that the copies go to are those of this value: what lies on a path of an operand goes to the
place of what the value has there.
-/

namespace FeatureLogic

open FeatureLogic.Graph Join

namespace Graph

variable {g h : Graph} {a c : Value}

/-- Are `a` and `c` plain, and does `c` have all the paths of `a` and room for what it shares? -/
structure Encloses (g : Graph) (c a : Value) : Prop where
  wellFormed : g.WellFormed
  inner : g.Plain a
  outer : g.Plain c
  covers : g.Covers a c
  room : g.Accommodates c a

def Namesakes (g : Graph) (v w : Value) : Prop :=
  ∀ ⦃path : List String⦄ ⦃x y : VarId⦄, g.Leads v path (.var x) → g.Leads w path (.var y) →
    g.SameName g x y

/-- Is `u` in one of the operands where `w` is in `c`? -/
def Faces (g : Graph) (a c u w : Value) : Prop :=
  ∃ path, (g.Leads a path u ∨ g.Leads c path u) ∧ g.Leads c path w

theorem alike_of_sameName {x y : VarId} (hx : g.deref? (.var x) = some (.var x))
    (hy : g.deref? (.var y) = some (.var y)) (same : g.SameName g x y) :
    g.Alike (.var x) g (.var y) :=
  ⟨fun _ _ => False, fun partners => partners.elim, .var x, .var y, hx, hy, same⟩

namespace Encloses

variable (encloses : g.Encloses c a) {u u' w w' : Value}

include encloses

theorem below_of_faces (faces : g.Faces a c u w) : g.Below c w := by
  obtain ⟨path, -, leads⟩ := faces
  exact encloses.outer.below_of_leads leads

theorem operands_of_faces (faces : g.Faces a c u w) : g.Operands a c u := by
  obtain ⟨path, leads, -⟩ := faces
  exact leads.imp encloses.inner.below_of_leads encloses.outer.below_of_leads

theorem fits_of_faces (faces : g.Faces a c u w) : u.Fits w := by
  obtain ⟨path, leads | leads, leads'⟩ := faces
  · obtain ⟨w', ends, fits⟩ := encloses.covers leads
    exact ends.unique leads' ▸ fits
  · exact leads.unique leads' ▸ Value.fits_self u

theorem faces_self (below : g.Below c w) : g.Faces a c w w := by
  obtain ⟨path, leads⟩ := encloses.outer.exists_leads encloses.wellFormed below
  exact ⟨path, .inr leads, leads⟩

theorem alike_self (below : g.Below c w) : g.Alike w g w :=
  encloses.wellFormed.alike_refl (encloses.outer.contains below)

theorem alike_of_node (node : u.isNode) (same : g.Coincide u u) (faces : g.Faces a c u w)
    (faces' : g.Faces a c u w') : g.Alike w g w' := by
  obtain ⟨p, leads | leads, ends⟩ := faces
  · obtain ⟨q, leads' | leads', ends'⟩ := faces'
    · obtain ⟨v, v', ends₁, ends₁', alike⟩ := encloses.room.shared leads leads' same
      cases ends₁.unique ends
      cases ends₁'.unique ends'
      exact alike
    · obtain ⟨v, ends₁, alike⟩ := encloses.room.common node leads leads'
      cases ends₁.unique ends
      cases leads'.unique ends'
      exact alike
  · cases leads.unique ends
    obtain ⟨q, leads' | leads', ends'⟩ := faces'
    · obtain ⟨v, ends₁, alike⟩ := encloses.room.common node leads' leads
      cases ends₁.unique ends'
      exact alike.symm
    · cases leads'.unique ends'
      exact encloses.alike_self (encloses.outer.below_of_leads leads)

theorem exists_name {x : VarId} (hx : g.Operands a c (.var x)) :
    ∃ name, g.name? x = some name := by
  obtain ⟨name, found⟩ := hx.elim encloses.inner.free encloses.outer.free
  exact ⟨name, by simp [name?, found]⟩

theorem alike_of_faces (informs : u ≠ .unspecified) (faces : g.Faces a c u w)
    (faces' : g.Faces a c u w') : g.Alike w g w' := by
  have fits := encloses.fits_of_faces faces
  have fits' := encloses.fits_of_faces faces'
  cases u with
  | atom e =>
    have tells : e ≠ .unspecified := fun eq => informs (congrArg Value.atom eq)
    cases fits.resolve_left tells
    cases fits'.resolve_left tells
    exact encloses.alike_self (encloses.below_of_faces faces)
  | struct s => exact encloses.alike_of_node (u := .struct s) rfl rfl faces faces'
  | var x =>
    obtain ⟨name, called⟩ := encloses.exists_name (encloses.operands_of_faces faces)
    have same : g.SameName g x x := ⟨name, called, called⟩
    exact encloses.alike_of_node (u := .var x) rfl same faces faces'

theorem exists_faces {s : StructId} {w v : Value} {features : NameMap Value} {name : String}
    (faces : g.Faces a c (.struct s) w) (found : g.features? s = some features)
    (holds : features.get? name = some v) :
    ∃ w', g.Leads w [name] w' ∧ g.Faces a c v w' := by
  have wf := encloses.wellFormed
  obtain ⟨path, leads, leadsW⟩ := faces
  have step {x : Value} (plain : g.Plain x) (leads : g.Leads x path (.struct s)) :
      g.Leads x (path ++ [name]) v := by
    have below := (plain.below_of_leads leads).feature found holds
    exact wf.leads_append leads (leads_cons.2
      ⟨s, features, v, rfl, found, holds, leads_nil.2 (plain.of_below below).deref?⟩)
  rcases leads with leads | leads
  · obtain ⟨w', ends, -⟩ := encloses.covers (step encloses.inner leads)
    exact ⟨w', (wf.leads_append_iff leadsW).1 ends, path ++ [name],
      .inl (step encloses.inner leads), ends⟩
  · have ends := step encloses.outer leads
    exact ⟨v, (wf.leads_append_iff leadsW).1 ends, path ++ [name], .inr ends, ends⟩

theorem alike_of_image_eq {h : Graph} {m : Copying} {left right : Scope}
    (split : g.SplitOperands a c h m left right) (faces : g.Faces a c u w)
    (faces' : g.Faces a c u' w') (same : m.images.apply u = m.images.apply u')
    (informs : m.images.apply u ≠ .unspecified) : g.Alike w g w' := by
  have hu := encloses.operands_of_faces faces
  have hu' := encloses.operands_of_faces faces'
  rcases split.cases_of_image_eq encloses.inner encloses.outer hu hu' same with
    rfl | ⟨x, x', rfl, rfl, kind, named⟩
  · refine encloses.alike_of_faces ?_ faces faces'
    rintro rfl
    exact informs rfl
  · have ne (x : VarId) : Value.var x ≠ .unspecified := by simp [Value.unspecified]
    obtain ⟨name, called⟩ := encloses.exists_name hu
    have sameName : g.SameName g x x' := ⟨name, called, named.symm.trans called⟩
    by_cases below : g.Below a (.var x)
    · -- both are variables of the value inside, which the other has room for
      obtain ⟨p, leads⟩ := encloses.inner.exists_leads encloses.wellFormed below
      obtain ⟨q, leads'⟩ := encloses.inner.exists_leads encloses.wellFormed (kind.1 below)
      obtain ⟨v, v', ends, ends', alike⟩ := encloses.room.shared leads leads' sameName
      exact (encloses.alike_of_faces (ne x) faces ⟨p, .inl leads, ends⟩).trans
        (alike.trans (encloses.alike_of_faces (ne x') ⟨q, .inl leads', ends'⟩ faces'))
    · have outer := hu.resolve_left below
      have outer' := hu'.resolve_left fun first => below (kind.2 first)
      exact (encloses.alike_of_faces (ne x) faces (encloses.faces_self outer)).trans
        ((alike_of_sameName (encloses.outer.of_below outer).deref?
            (encloses.outer.of_below outer').deref? sameName).trans
          (encloses.alike_of_faces (ne x') (encloses.faces_self outer') faces'))

end Encloses

/-- Does `v` go to `place`? The copy of a value goes to the place of what the value faces. -/
def Goes (g : Graph) (a c : Value) (m : Copying) (v : Value) (place : Value → Prop) : Prop :=
  v = .unspecified ∨ ∃ u w, g.Faces a c u w ∧ m.images.apply u = v ∧ place = g.looks w

namespace Encloses

variable {h : Graph} {m : Copying} {left right : Scope} {copied : Scoping} {u : Value}
  (encloses : g.Encloses c a)
  (split : g.SplitOperands a c h m left right)

include encloses split

theorem fits_of_goes {v w : Value} (below : g.Below c w) (goes : g.Goes a c m v (g.looks w)) :
    v.Fits w := by
  rcases goes with rfl | ⟨u, w', faces, rfl, same⟩
  · exact .inl rfl
  · have below' := encloses.below_of_faces faces
    have plain := encloses.outer.of_below below
    have plain' := encloses.outer.of_below below'
    have fits := split.fits_image encloses.inner encloses.outer (encloses.operands_of_faces faces)
      (encloses.fits_of_faces faces)
    have alike := encloses.wellFormed.alike_of_looks (plain'.contains .refl) same
    exact fits.partner (alike.symm.relates plain'.deref? plain.deref?)

def target : Target (Value → Prop) where
  Sends := g.Goes a c m
  Feature place name place' := ∃ w w', g.Below c w ∧ place = g.looks w ∧ g.Leads w [name] w' ∧
    place' = g.looks w'
  silent _ := .inl rfl
  unique {v place place'} hv goes goes' := by
    obtain ⟨u, w, faces, rfl, rfl⟩ := goes.resolve_left hv
    obtain ⟨u', w', faces', same, rfl⟩ := goes'.resolve_left hv
    exact looks_eq (encloses.alike_of_image_eq split faces faces' same.symm hv)
  feature_unique := by
    rintro _ name _ _ ⟨w, v, below, rfl, leads, rfl⟩ ⟨w', v', below', same, leads', rfl⟩
    have wf := encloses.wellFormed
    have alike := wf.alike_of_looks (encloses.outer.contains below') same
    obtain ⟨u, leads'', alike'⟩ := alike.exists_leads wf wf leads
    cases leads'.unique leads''
    exact looks_eq alike'
  clash {v v' place} hv hv' ne notVar notVar' goes goes' := by
    obtain ⟨u, w, faces, -, rfl⟩ := goes.resolve_left hv
    have below := encloses.below_of_faces faces
    exact (encloses.fits_of_goes split below goes).clash (encloses.fits_of_goes split below goes')
      hv hv' ne notVar notVar'

theorem exists_original (hu : g.Operands a c u) {t : StructId}
    (image : m.images.apply u = .struct t) {n : NameMap Value} (found : h.features? t = some n) :
    ∃ s features, u = .struct s ∧ g.features? s = some features ∧
      n = features.map m.images.apply := by
  cases u with
  | atom e => cases image
  | var x =>
    obtain ⟨y, -, image'⟩ := split.exists_image_var encloses.inner encloses.outer hu
    cases image.symm.trans image'
  | struct s =>
    obtain ⟨t', copied, image'⟩ := split.exists_image_struct encloses.inner encloses.outer hu
    cases image.symm.trans image'
    have source := encloses.inner.source encloses.outer
    obtain ⟨features, stored⟩ := exists_features_of_contains (source.contains hu)
    have copy := (split.aligned.features?_copy split.complete source.contains
      (source.contains hu) copied stored).1
    exact ⟨s, features, rfl, stored, Option.some.inj (found.symm.trans copy)⟩

theorem solves (wf : h.WellFormed) :
    Solves (g.added h) (encloses.target split) h where
  feature {t n name v place} has found holds goes := by
    obtain ⟨u, w, faces, image, rfl⟩ := goes.resolve_left (by simp [Value.unspecified])
    obtain ⟨s, features, rfl, stored, rfl⟩ :=
      encloses.exists_original split (encloses.operands_of_faces faces) image found
    rw [NameMap.get?_map, Option.map_eq_some_iff] at holds
    obtain ⟨child, holds, rfl⟩ := holds
    obtain ⟨w', leads, faces'⟩ := encloses.exists_faces faces stored holds
    exact ⟨g.looks w', ⟨w, w', encloses.below_of_faces faces, rfl, leads, rfl⟩,
      .inr ⟨child, w', faces', rfl, rfl⟩⟩
  forward has step := by
    rw [split.forward?_eq_none wf has] at step
    cases step
  content has held := by
    rw [split.content?_eq_none has] at held
    cases held

theorem meets : (Task.join (m.images.apply a) (m.images.apply c)).Meets
    (encloses.target split) (g.looks c) := by
  have self : g.Leads c [] c := leads_nil.2 encloses.outer.deref?
  have root : g.Leads a [] a := leads_nil.2 encloses.inner.deref?
  exact ⟨.inr ⟨a, c, ⟨[], .inl root, self⟩, rfl, rfl⟩, .inr ⟨c, c, ⟨[], .inr self, self⟩, rfl, rfl⟩⟩

/-- A join of the copies cannot fail for another reason than its limit, and keeps all copies at
their places. -/
theorem solved (copies : g.OperandCopies h (m.images.apply a) (m.images.apply c) copied)
    {st : JoinState} {out : Except Failure Value}
    (run : Runs (.join (m.images.apply a) (m.images.apply c)) { graph := h } out st) :
    match out with
    | .ok u => Solves (g.added h) (encloses.target split) st.graph ∧ g.Goes a c m u (g.looks c)
    | .error f => f.isFatal := by
  have guarantee := run.fulfils (g.looks c) copies.invariant copies.ready
    (encloses.solves split copies.wellFormed) (fun _ _ _ mem => by cases mem)
    (encloses.meets split)
  cases out with
  | ok u => exact ⟨guarantee.1, guarantee.2.2⟩
  | error f => exact guarantee

end Encloses

end Graph

namespace SplitPassage

variable {g : Graph} {a c : Value} (passage : SplitPassage g a c)

def Partner (s t : StructId) : Prop :=
  g.Below c (.struct t) ∧
    passage.joined.graph.Settles (passage.image (.struct t)) (.struct s) ∧ s ∈ passage.visited

theorem has_added {v : Value} (hv : g.Operands a c v) :
    (g.added passage.graph).Has (passage.image v) :=
  passage.aligned.has_apply (passage.imaged hv)

theorem exists_feature_of_partner {s t : StructId} (partner : passage.Partner s t)
    {m : NameMap Value} (found : g.features? t = some m) {name : String} {w : Value}
    (holds : m.get? name = some w) :
    ∃ v, passage.final.Feature s name v ∧
      (passage.image w ≠ .unspecified → passage.joined.graph.Settles (passage.image w) v) ∧
      ∀ s, v = .struct s → s ∈ passage.visited := by
  obtain ⟨below, settles, entered⟩ := partner
  have ht : g.Operands a c (.struct t) := .inr below
  obtain ⟨t', copied, image⟩ := passage.split.exists_image_struct passage.left passage.right ht
  have copy := (passage.aligned.features?_copy passage.complete passage.inside
    (passage.right.contains below) copied found).1
  have hasT : passage.graph.entirety.Has (.struct t') :=
    image ▸ passage.has_image (passage.imaged ht)
  have carries := passage.congruent.transfers t' name (passage.image w) hasT
    (passage.operands.wellFormed.forward?_struct t')
    ⟨_, copy, by simp [holds, Passage.image]⟩
  rw [Passage.image, image] at settles
  obtain ⟨v, feature, -, becomes, reached⟩ :=
    passage.form.normal.exists_feature passage.whole hasT carries settles entered
  exact ⟨v, feature, becomes, reached⟩

variable (encloses : g.Encloses c a)

include encloses

theorem solves : Solves (g.added passage.graph) (encloses.target passage.split)
    passage.joined.graph :=
  (encloses.solved passage.split passage.operands passage.run).1

theorem goes_iff {v w : Value} (has : (g.added passage.graph).Has v)
    (settles : passage.joined.graph.Settles v w) (place : Value → Prop) :
    g.Goes a c passage.memory v place ↔ g.Goes a c passage.memory w place :=
  (passage.solves encloses).settles passage.form.added has settles place

/-- A feature of what a copy has become goes to the place of a feature of the original. -/
theorem exists_origin_of_partner {s t : StructId} (partner : passage.Partner s t)
    {m : NameMap Value} (found : g.features? t = some m) {name : String} {v : Value}
    (feature : passage.final.Feature s name v) :
    ∃ w, m.get? name = some w ∧ g.Goes a c passage.memory v (g.looks w) := by
  obtain ⟨below, settles, entered⟩ := partner
  have wf := encloses.wellFormed
  have hasT := passage.has_added (.inr below)
  have hasS := (passage.form.added.settled hasT settles).has
  have goes : g.Goes a c passage.memory (.struct s) (g.looks (.struct t)) :=
    (passage.goes_iff encloses hasT settles _).1
      (.inr ⟨_, _, encloses.faces_self below, rfl, rfl⟩)
  -- the feature was there when the join ended
  have whole := entirety_has.2 (contains_of_added hasS)
  obtain ⟨v₀, ⟨n, stored, holds⟩, updates⟩ :=
    passage.form.normal.settling.reshapes.origin whole feature
  obtain ⟨place, ⟨w, w', below', same, leads, rfl⟩, goes₀⟩ :=
    (passage.solves encloses).feature hasS stored holds goes
  have settled := (passage.form.normal.tidy s entered name v feature).1
  have hasV₀ := passage.form.added.feature hasS stored holds
  have goesV := (passage.goes_iff encloses hasV₀ ((updates.same v).2 settled) _).1 goes₀
  -- what looks like the original has that feature as well
  have alike := wf.alike_of_looks (encloses.outer.contains below') same
  obtain ⟨u, leads', alike'⟩ := alike.symm.exists_leads wf wf leads
  obtain ⟨_, m', child, ⟨⟩, found', holds', rest⟩ := leads_cons.1 leads'
  cases found.symm.trans found'
  have plain := encloses.outer.of_below (below.feature found holds')
  cases plain.deref?.symm.trans (leads_nil.1 rest)
  exact ⟨u, holds', looks_eq alike' ▸ goesV⟩

/-- What a copy settles to is a partner of the original, if it goes to the place of it. -/
theorem relates_of_goes {v w : Value} (below : g.Below c w)
    (becomes : passage.image w ≠ .unspecified →
      passage.joined.graph.Settles (passage.image w) v)
    (goes : g.Goes a c passage.memory v (g.looks w))
    (reached : ∀ s, v = .struct s → s ∈ passage.visited) :
    Pairing.Relates ⟨passage.Partner, fun _ _ => True⟩ v w := by
  have fits := encloses.fits_of_goes passage.split below goes
  have hw : g.Operands a c w := .inr below
  cases w with
  | atom e =>
    by_cases nothing : e = .unspecified
    · subst nothing
      cases v with
      | atom e' => exact fits.elim id fun eq => (Value.atom.inj eq).symm
      | struct s => obtain ⟨t, ⟨⟩⟩ := fits
      | var x => exact absurd rfl fits
    · have settles := becomes fun eq => nothing (Value.atom.inj eq)
      cases settles.unique (Region.settles_atom _ e)
      exact rfl
  | struct t =>
    have settles := becomes (passage.image_ne_unspecified hw rfl)
    obtain ⟨t', -, image⟩ := passage.split.exists_image_struct passage.left passage.right hw
    have becomes' := settles
    rw [Passage.image, image] at becomes'
    obtain ⟨s, rfl⟩ :=
      path_struct ((settles_iff_of_informative (v := .struct t') trivial).1 becomes').path
    exact ⟨below, settles, reached s rfl⟩
  | var y =>
    have settles := becomes (passage.image_ne_unspecified hw rfl)
    obtain ⟨y', -, image⟩ := passage.split.exists_image_var passage.left passage.right hw
    have has := passage.has_image (passage.imaged hw)
    rw [Passage.image, image] at settles has
    have informs := passage.whole.ne_unspecified_of_settles has settles
    cases v with
    | atom e =>
      rcases fits with rfl | eq
      · exact absurd rfl informs
      · cases eq
    | struct s => obtain ⟨t, ⟨⟩⟩ := fits
    | var x => trivial

theorem closed_partner :
    Pairing.Closed ⟨passage.Partner, fun _ _ => True⟩ passage.after passage.after := by
  intro s t partner
  have wf := encloses.wellFormed
  have plain := passage.right.of_below partner.1
  obtain ⟨m, found⟩ := exists_features_of_contains (plain.contains .refl)
  have hasT := passage.has_image (passage.imaged (.inr partner.1))
  have hasS := (passage.whole.settled hasT partner.2.1).has
  obtain ⟨n, stored⟩ := passage.form.normal.settling.reshapes.closed.exists_features hasS
  have after : passage.after.features? s = some n := by
    rw [Passage.after, features?_forgetAbsorbed, stored]
  have before : passage.after.features? t = some m :=
    ((passage.retains wf).features plain).trans found
  have keys : n.keys = m.keys := by
    refine NameMap.keys_eq_of_mem_iff fun name => ?_
    rw [n.mem_keys_iff, m.mem_keys_iff]
    constructor
    · rintro ⟨v, holds⟩
      obtain ⟨w, holds', -⟩ :=
        passage.exists_origin_of_partner encloses partner found ⟨n, stored, holds⟩
      exact ⟨w, holds'⟩
    · rintro ⟨w, holds⟩
      obtain ⟨v, ⟨n', stored', holds'⟩, -⟩ := passage.exists_feature_of_partner partner found holds
      cases stored.symm.trans stored'
      exact ⟨v, holds'⟩
  refine ⟨n, m, after, before, keys, fun {name v w} holds holds' => ?_⟩
  have feature : passage.final.Feature s name v := ⟨n, stored, holds⟩
  obtain ⟨v', ⟨n', stored', held⟩, becomes, reached⟩ :=
    passage.exists_feature_of_partner partner found holds'
  cases stored.symm.trans stored'
  cases holds.symm.trans held
  obtain ⟨w', held', goes⟩ := passage.exists_origin_of_partner encloses partner found feature
  cases holds'.symm.trans held'
  have hasV := passage.form.normal.settling.reshapes.closed.feature hasS stored holds
  have settled := (passage.form.normal.tidy s partner.2.2 name v feature).1
  have below := partner.1.feature found holds'
  have stands := ((passage.retains wf).plain (passage.right.of_below below)).deref?
  exact ⟨v, w, Passage.deref?_of_settles hasV settled, stands,
    passage.relates_of_goes encloses below becomes goes reached⟩

theorem pairs_partner : Pairing.Pairs ⟨passage.Partner, fun _ _ => True⟩ passage.after passage.after
    passage.result c := by
  have form := passage.form
  have hasOutcome := entirety_has.2 (contains_of_added form.hasOutcome)
  have goes := (encloses.solved passage.split passage.operands passage.run).2
  have related := passage.relates_of_goes encloses .refl
    (fun informs => (passage.congruent.identifies.2 informs _).2 form.settles)
    ((passage.goes_iff encloses form.hasOutcome form.settles _).1 goes) form.normal.reached
  exact ⟨passage.result, c, Passage.deref?_of_settles hasOutcome form.settles,
    ((passage.retains encloses.wellFormed).plain passage.right).deref?, related⟩

/-- The result looks like the value with room, but for names. -/
theorem alikeButNames :
    passage.after.AlikeButNames passage.result passage.after c :=
  ⟨passage.Partner, passage.closed_partner encloses, passage.pairs_partner encloses⟩

/-- A variable copied to `x` faces a variable called like `y`, if `x` goes to the place of `y`. -/
theorem exists_sameName {x y z : VarId} {w : Value} (below : g.Below c (.var y))
    (goes : g.Goes a c passage.memory (.var x) (g.looks (.var y))) (faces : g.Faces a c (.var z) w)
    (copied : passage.memory.images.vars.lookup z = some (.var x)) :
    ∃ z', w = .var z' ∧ g.SameName g z' y := by
  have image : passage.memory.images.apply (.var z) = .var x := by simp [Images.apply, copied]
  have goes' : g.Goes a c passage.memory (.var x) (g.looks w) := .inr ⟨_, _, faces, image, rfl⟩
  have same : g.looks w = g.looks (.var y) :=
    (encloses.target passage.split).unique (by simp [Value.unspecified]) goes' goes
  have alike := encloses.wellFormed.alike_of_looks (passage.right.contains below) same
  have related := alike.relates
    (passage.right.of_below (encloses.below_of_faces faces)).deref?
    (passage.right.of_below below).deref?
  cases w with
  | atom e => exact related.elim
  | struct s => exact related.elim
  | var z' => exact ⟨z', rfl, related⟩

/-- An added variable that goes to the place of `y` is called like `y`, if the operands have the
same names on the same paths. -/
theorem sameName_of_goes (namesakes : g.Namesakes a c) {x y : VarId} (below : g.Below c (.var y))
    (has : (g.added passage.graph).Has (.var x))
    (goes : g.Goes a c passage.memory (.var x) (g.looks (.var y))) :
    SameName passage.graph g x y := by
  have own {scope : Scope} {name : String} (lists : ListsOwn passage.graph scope)
      (listed : scope.get? name = some (.var x)) : passage.graph.name? x = some name := by
    obtain ⟨_, ⟨⟩, found⟩ := lists name _ listed
    simp [name?, found]
  have sameName {z : VarId} {name : String} (called : g.name? z = some name)
      (own : passage.graph.name? x = some name) (same : g.SameName g z y) :
      SameName passage.graph g x y := SameName.trans (g := passage.graph) ⟨name, own, called⟩ same
  obtain ⟨name, listed | listed⟩ := passage.split.named has
  · obtain ⟨z, belowZ, called, copied⟩ := passage.split.originLeft listed
    obtain ⟨path, leads⟩ := passage.left.exists_leads encloses.wellFormed belowZ
    obtain ⟨w, ends, -⟩ := encloses.covers leads
    obtain ⟨z', rfl, same⟩ :=
      passage.exists_sameName encloses below goes ⟨path, .inl leads, ends⟩ copied
    exact sameName called (own passage.split.ownLeft listed) ((namesakes leads ends).trans same)
  · obtain ⟨z, belowZ, called, copied⟩ := passage.split.originRight listed
    obtain ⟨_, ⟨⟩, same⟩ :=
      passage.exists_sameName encloses below goes (encloses.faces_self belowZ) copied
    exact sameName called (own passage.split.ownRight listed) same

/-- Variables on the same path of the result and of the value with room have one name. -/
theorem namesakes_after (namesakes : g.Namesakes a c) :
    passage.after.Namesakes passage.result c := by
  intro path x y left right
  have leads := ((passage.retains encloses.wellFormed).leads_iff passage.right).1 right
  have below := passage.right.below_of_leads leads
  obtain ⟨w, leads', becomes⟩ := passage.exists_leads_result (.inr leads)
  cases leads'.unique left
  have settles := becomes (passage.image_ne_unspecified (.inr below) rfl)
  have has := passage.has_added (.inr below)
  have goes := (passage.goes_iff encloses has settles _).1
    (.inr ⟨_, _, encloses.faces_self below, rfl, rfl⟩)
  obtain ⟨name, hx, hy⟩ := passage.sameName_of_goes encloses namesakes below
    (passage.form.added.settled has settles).has goes
  exact ⟨name, (passage.name?_after x).trans hx,
    ((passage.persists encloses.wellFormed).name (passage.right.contains below)).trans hy⟩

end SplitPassage

end FeatureLogic
