import FeatureLogic.Proofs.Graph.Alikeness
import FeatureLogic.Proofs.Persistence
import FeatureLogic.Proofs.Unification.Entries

/-!
# What a positive answer about subsumption says

If one value subsumes another, then every path of the general value is there in the specific one,
with a value that fits. Moreover the specific value has room for the sharing of the general one: on
two paths that unification has to bring to one node it looks the same already.
-/

namespace FeatureLogic

open FeatureLogic.Graph Join

/-- Can the second value be what became of the first one? A value that says nothing can become
anything, a variable anything that says something. -/
def Value.Fits : Value → Value → Prop
  | .atom a, w => a = .unspecified ∨ w = .atom a
  | .struct _, w => ∃ t, w = .struct t
  | .var _, w => w ≠ .unspecified

theorem Value.fits_self : ∀ u : Value, u.Fits u
  | .atom _ => .inr rfl
  | .struct s => ⟨s, rfl⟩
  | .var _ => by simp [Fits, unspecified]

theorem Value.Fits.trans {u v w : Value} (first : u.Fits v) (second : v.Fits w) : u.Fits w := by
  cases u with
  | atom a =>
    rcases first with nothing | rfl
    · exact .inl nothing
    · exact second
  | struct s =>
    obtain ⟨t, rfl⟩ := first
    exact second
  | var x =>
    cases v with
    | atom b =>
      have tells : b ≠ .unspecified := fun eq => first (congrArg Value.atom eq)
      rw [second.resolve_left tells]
      exact first
    | struct t =>
      obtain ⟨t', rfl⟩ := second
      simp [Fits, unspecified]
    | var y => exact second

/-- Two values that one value fits are structures, if they differ and are no variables. -/
theorem Value.Fits.clash {v v' w : Value} (fits : v.Fits w) (fits' : v'.Fits w)
    (hv : v ≠ .unspecified) (hv' : v' ≠ .unspecified) (ne : v ≠ v') (notVar : ∀ x, v ≠ .var x)
    (notVar' : ∀ x, v' ≠ .var x) : ∃ s t, v = .struct s ∧ v' = .struct t := by
  have only {a : Atom} (ha : Value.atom a ≠ .unspecified) (fits : Fits (.atom a) w) :
      w = .atom a := fits.resolve_left fun eq => ha (congrArg Value.atom eq)
  cases v with
  | var x => exact absurd rfl (notVar x)
  | atom a =>
    have hw := only hv fits
    cases v' with
    | var x => exact absurd rfl (notVar' x)
    | atom b => exact absurd (hw.symm.trans (only hv' fits')) ne
    | struct t =>
      obtain ⟨t', eq⟩ := fits'
      cases hw.symm.trans eq
  | struct s =>
    obtain ⟨s', hw⟩ := fits
    cases v' with
    | var x => exact absurd rfl (notVar' x)
    | atom b => cases hw.symm.trans (only hv' fits')
    | struct t => exact ⟨s, t, rfl, rfl⟩

theorem Value.Fits.partner {r : Pairing} {u v w : Value} (fits : u.Fits v)
    (related : r.Relates v w) : u.Fits w := by
  cases v with
  | atom a =>
    cases w with
    | atom b =>
      cases (show a = b from related)
      exact fits
    | struct t => exact related.elim
    | var y => exact related.elim
  | struct s =>
    cases w with
    | atom b => exact related.elim
    | var y => exact related.elim
    | struct t => exact fits.trans (v := .struct s) ⟨t, rfl⟩
  | var x =>
    cases w with
    | atom b => exact related.elim
    | struct t => exact related.elim
    | var y => exact fits.trans (v := .var x) (by simp [Fits, unspecified])

namespace Graph

variable {g h : Graph} {a b c : Value}

/-- Is every path of `general` one of `specific`, with a value at its end that fits? -/
def Covers (g : Graph) (general specific : Value) : Prop :=
  ∀ ⦃path : List String⦄ ⦃u : Value⦄, g.Leads general path u →
    ∃ w, g.Leads specific path w ∧ u.Fits w

theorem Covers.trans (first : g.Covers a b) (second : g.Covers b c) : g.Covers a c := by
  intro path u leads
  obtain ⟨v, leads', fits⟩ := first leads
  obtain ⟨w, leads'', fits'⟩ := second leads'
  exact ⟨w, leads'', fits.trans fits'⟩

theorem Retains.covers_iff (retains : g.Retains h) (ha : g.Plain a) (hb : g.Plain b) :
    h.Covers a b ↔ g.Covers a b := by
  simp only [Covers, retains.leads_iff ha, retains.leads_iff hb]

def Coincide (g : Graph) : Value → Value → Prop
  | .struct s, .struct t => s = t
  | .var x, .var y => g.SameName g x y
  | _, _ => False

/-- Is there room for `general` in `specific`? On paths that lead to one structure or to variables
of one name in `general`, and on paths that lead to one node in the one and in the other, `specific`
has values that look alike. -/
structure Accommodates (g : Graph) (specific general : Value) : Prop where
  shared : ∀ {p q : List String} {u u' : Value}, g.Leads general p u → g.Leads general q u' →
    g.Coincide u u' → ∃ w w', g.Leads specific p w ∧ g.Leads specific q w' ∧ g.Alike w g w'
  common : ∀ {p q : List String} {u : Value}, u.isNode → g.Leads general p u →
    g.Leads specific q u → ∃ w, g.Leads specific p w ∧ g.Alike w g u

theorem Persists.alike_iff (persists : g.Persists h) (wf : g.WellFormed) (wf' : h.WellFormed)
    {v w : Value} (hv : g.Contains v) (hw : g.Contains w) : h.Alike v h w ↔ g.Alike v g w := by
  obtain ⟨answer, compared, iff⟩ := wf.equal?_iff hv hw
  obtain ⟨answer', compared', iff'⟩ := wf'.equal?_iff (hv.mono persists.structs persists.vars)
    (hw.mono persists.structs persists.vars)
  cases (persists.correspond?_eq_some hv hw compared).symm.trans compared'
  rw [← iff, ← iff']

theorem Persists.coincide_iff (persists : g.Persists h) {u u' : Value} (hu : g.Contains u)
    (hu' : g.Contains u') : h.Coincide u u' ↔ g.Coincide u u' := by
  cases u with
  | atom a => rfl
  | struct s => cases u' <;> rfl
  | var x =>
    cases u' with
    | atom a => rfl
    | struct s => rfl
    | var x' => simp only [Coincide, SameName, persists.name hu, persists.name hu']

/-- Where paths lead to the same values as in another graph, there is room if there is in that. -/
theorem Accommodates.carry (room : g.Accommodates b a)
    (general : ∀ {path u}, h.Leads a path u ↔ g.Leads a path u)
    (specific : ∀ {path u}, h.Leads b path u ↔ g.Leads b path u)
    (coincide : ∀ {p q u u'}, g.Leads a p u → g.Leads a q u' → h.Coincide u u' → g.Coincide u u')
    (alike : ∀ {p q w w'}, g.Leads b p w → g.Leads b q w' → g.Alike w g w' → h.Alike w h w') :
    h.Accommodates b a where
  shared leads leads' same := by
    rw [general] at leads leads'
    obtain ⟨w, w', ends, ends', related⟩ := room.shared leads leads' (coincide leads leads' same)
    exact ⟨w, w', specific.2 ends, specific.2 ends', alike ends ends' related⟩
  common node leads leads' := by
    rw [general] at leads
    rw [specific] at leads'
    obtain ⟨w, ends, related⟩ := room.common node leads leads'
    exact ⟨w, specific.2 ends, alike ends leads' related⟩

theorem Persists.accommodates_iff (persists : g.Persists h) (retains : g.Retains h)
    (wf : g.WellFormed) (wf' : h.WellFormed) (ha : g.Plain a) (hb : g.Plain b) :
    h.Accommodates b a ↔ g.Accommodates b a := by
  have inside {v : Value} {path : List String} (plain : g.Plain v) {u : Value}
      (leads : g.Leads v path u) : g.Contains u := plain.contains (plain.below_of_leads leads)
  have coincide {p q : List String} {u u' : Value} (leads : g.Leads a p u)
      (leads' : g.Leads a q u') : h.Coincide u u' ↔ g.Coincide u u' :=
    persists.coincide_iff (inside ha leads) (inside ha leads')
  have alike {p q : List String} {w w' : Value} (leads : g.Leads b p w)
      (leads' : g.Leads b q w') : h.Alike w h w' ↔ g.Alike w g w' :=
    persists.alike_iff wf wf' (inside hb leads) (inside hb leads')
  constructor
  · intro room
    refine room.carry (retains.leads_iff ha).symm (retains.leads_iff hb).symm
      (fun leads leads' => ?_) fun leads leads' => ?_
    · exact (coincide ((retains.leads_iff ha).1 leads) ((retains.leads_iff ha).1 leads')).2
    · exact (alike ((retains.leads_iff hb).1 leads) ((retains.leads_iff hb).1 leads')).1
  · intro room
    exact room.carry (retains.leads_iff ha) (retains.leads_iff hb)
      (fun leads leads' => (coincide leads leads').1) fun leads leads' => (alike leads leads').2

end Graph

namespace Graph.SplitOperands

variable {g h : Graph} {a b : Value} {m : Copying} {left right : Scope}
  (split : g.SplitOperands a b h m left right)

include split

theorem imaged (ha : g.Plain a) (hb : g.Plain b) {u : Value} (hu : g.Operands a b u) :
    Imaged m u := by
  have inside {s : StructId} (hs : g.Operands a b (.struct s)) := (ha.source hb).contains hs
  rcases hu with below | below
  · exact split.aligned.imaged_of_below split.complete inside ha split.imagedLeft below
  · exact split.aligned.imaged_of_below split.complete inside hb split.imagedRight below

theorem exists_image_struct (ha : g.Plain a) (hb : g.Plain b) {s : StructId}
    (hs : g.Operands a b (.struct s)) :
    ∃ t, m.images.structs.lookup s = some t ∧ m.images.apply (.struct s) = .struct t := by
  obtain ⟨t, copied⟩ := split.imaged ha hb hs
  exact ⟨t, copied, by simp [Images.apply, copied]⟩

theorem exists_image_var (ha : g.Plain a) (hb : g.Plain b) {x : VarId}
    (hx : g.Operands a b (.var x)) :
    ∃ y, m.images.vars.lookup x = some (.var y) ∧ m.images.apply (.var x) = .var y := by
  obtain ⟨v, copied⟩ := split.imaged ha hb hx
  obtain ⟨-, y, -, rfl, -⟩ := split.exists_image hx copied
  exact ⟨y, copied, by simp [Images.apply, copied]⟩

theorem forward?_eq_none (wf : h.WellFormed) {v : Value} (has : (g.added h).Has v) :
    h.forward? v = none := by
  cases v with
  | atom e => rfl
  | struct s => exact wf.forward?_struct s
  | var y =>
    obtain ⟨name, found⟩ := split.exists_free has
    simp [forward?, found, Binding.alias?]

theorem content?_eq_none {v : Value} (has : (g.added h).Has v) : h.content? v = none := by
  cases v with
  | atom e => rfl
  | struct s => rfl
  | var y =>
    obtain ⟨name, found⟩ := split.exists_free has
    simp [content?, found, Binding.value?]

theorem fits_image (ha : g.Plain a) (hb : g.Plain b) {u w : Value} (hu : g.Operands a b u)
    (fits : u.Fits w) : Value.Fits (m.images.apply u) w := by
  cases u with
  | atom e => exact fits
  | struct s =>
    obtain ⟨t, -, image⟩ := split.exists_image_struct ha hb hu
    rw [image]
    exact fits
  | var x =>
    obtain ⟨y, -, image⟩ := split.exists_image_var ha hb hu
    rw [image]
    exact fits

theorem cases_of_image_eq (ha : g.Plain a) (hb : g.Plain b) {u u' : Value}
    (hu : g.Operands a b u) (hu' : g.Operands a b u')
    (same : m.images.apply u = m.images.apply u') :
    u = u' ∨ ∃ x x', u = .var x ∧ u' = .var x' ∧
      (g.Below a (.var x) ↔ g.Below a (.var x')) ∧ g.name? x = g.name? x' := by
  -- copying keeps the kind of a value
  cases u with
  | atom e =>
    cases u' with
    | atom e' => exact .inl same
    | struct s' =>
      obtain ⟨t', -, image⟩ := split.exists_image_struct ha hb hu'
      cases same.trans image
    | var x' =>
      obtain ⟨y', -, image⟩ := split.exists_image_var ha hb hu'
      cases same.trans image
  | struct s =>
    obtain ⟨t, copied, image⟩ := split.exists_image_struct ha hb hu
    cases u' with
    | atom e' => cases image.symm.trans same
    | struct s' =>
      obtain ⟨t', copied', image'⟩ := split.exists_image_struct ha hb hu'
      cases image.symm.trans (same.trans image')
      exact .inl (congrArg Value.struct (split.aligned.injective ((ha.source hb).contains hu)
        ((ha.source hb).contains hu') copied copied'))
    | var x' =>
      obtain ⟨y', -, image'⟩ := split.exists_image_var ha hb hu'
      cases image.symm.trans (same.trans image')
  | var x =>
    obtain ⟨y, copied, image⟩ := split.exists_image_var ha hb hu
    cases u' with
    | atom e' => cases image.symm.trans same
    | struct s' =>
      obtain ⟨t', -, image'⟩ := split.exists_image_struct ha hb hu'
      cases image.symm.trans (same.trans image')
    | var x' =>
      obtain ⟨y', copied', image'⟩ := split.exists_image_var ha hb hu'
      cases image.symm.trans (same.trans image')
      exact .inr ⟨x, x', rfl, rfl, (split.image_eq_iff hu hu' copied copied').1 rfl⟩

theorem image_eq (ha : g.Plain a) (hb : g.Plain b) {x x' : VarId}
    (hx : g.Operands a b (.var x)) (hx' : g.Operands a b (.var x'))
    (kind : g.Below a (.var x) ↔ g.Below a (.var x')) (same : g.name? x = g.name? x') :
    m.images.apply (.var x) = m.images.apply (.var x') := by
  obtain ⟨y, copied, image⟩ := split.exists_image_var ha hb hx
  obtain ⟨y', copied', image'⟩ := split.exists_image_var ha hb hx'
  rw [image, image']
  exact (split.image_eq_iff hx hx' copied copied').2 ⟨kind, same⟩

end Graph.SplitOperands

namespace SplitPassage

variable {g : Graph} {a b : Value} (passage : SplitPassage g a b)

theorem wellFormed_after (wf : g.WellFormed) : passage.after.WellFormed :=
  (passage.form.yields wf passage.operands).wellFormed

theorem persists (wf : g.WellFormed) : g.Persists passage.after :=
  passage.form.persists wf passage.operands.structs passage.operands.vars

theorem retains (wf : g.WellFormed) : g.Retains passage.after :=
  passage.form.retains wf passage.operands.structs passage.operands.vars

theorem image_ne_unspecified {u : Value} (hu : g.Operands a b u) (node : u.isNode) :
    passage.image u ≠ .unspecified := by
  cases u with
  | atom e => cases node
  | struct s =>
    obtain ⟨t, -, image⟩ := passage.split.exists_image_struct passage.left passage.right hu
    simp [Passage.image, image, Value.unspecified]
  | var x =>
    obtain ⟨y, -, image⟩ := passage.split.exists_image_var passage.left passage.right hu
    simp [Passage.image, image, Value.unspecified]

theorem exists_fits {path : List String} {u : Value} (leads : g.Leads a path u) :
    ∃ w, passage.after.Leads passage.result path w ∧ u.Fits w := by
  obtain ⟨w, leads', ends⟩ := passage.exists_leads_result (.inl leads)
  refine ⟨w, leads', ?_⟩
  have hu : g.Operands a b u := .inl (passage.left.below_of_leads leads)
  cases u with
  | atom e =>
    by_cases nothing : e = .unspecified
    · exact .inl nothing
    · have settles := ends fun eq => nothing (Value.atom.inj eq)
      exact .inr (settles.unique (Region.settles_atom _ e))
  | struct s =>
    obtain ⟨t, -, image⟩ := passage.split.exists_image_struct passage.left passage.right hu
    have settles := ends (passage.image_ne_unspecified hu rfl)
    rw [Passage.image, image] at settles
    exact path_struct ((settles_iff_of_informative (v := .struct t) trivial).1 settles).path
  | var x =>
    obtain ⟨y, -, image⟩ := passage.split.exists_image_var passage.left passage.right hu
    have has := passage.has_image (passage.imaged hu)
    have settles := ends (passage.image_ne_unspecified hu rfl)
    rw [Passage.image, image] at settles has
    exact passage.whole.ne_unspecified_of_settles has settles

theorem exists_meet {p q : List String} {u u' : Value} (first : g.Leads a p u ∨ g.Leads b p u)
    (second : g.Leads a q u' ∨ g.Leads b q u') (same : passage.image u = passage.image u')
    (informs : passage.image u ≠ .unspecified) :
    ∃ w, passage.after.Leads passage.result p w ∧ passage.after.Leads passage.result q w := by
  obtain ⟨w, leads, ends⟩ := passage.exists_leads_result first
  obtain ⟨w', leads', ends'⟩ := passage.exists_leads_result second
  cases (ends informs).unique (same ▸ ends' (same ▸ informs))
  exact ⟨w, leads, leads'⟩

/-- What looks like the result has a value that fits wherever the first operand has one. -/
theorem covers (wf : g.WellFormed)
    (alike : passage.after.Alike passage.result passage.after b) : g.Covers a b := by
  intro path u leads
  have wf' := passage.wellFormed_after wf
  obtain ⟨w, leads', fits⟩ := passage.exists_fits leads
  obtain ⟨w', leads'', alike'⟩ := alike.exists_leads wf' wf' leads'
  have related := alike'.relates (wf'.deref?_of_leads leads') (wf'.deref?_of_leads leads'')
  exact ⟨w', ((passage.retains wf).leads_iff passage.right).1 leads'', fits.partner related⟩

/-- What looks like the result looks alike on paths that lead to one value in the result. -/
theorem exists_alike (wf : g.WellFormed)
    (alike : passage.after.Alike passage.result passage.after b) {p q : List String} {u u' : Value}
    (first : g.Leads a p u ∨ g.Leads b p u) (second : g.Leads a q u' ∨ g.Leads b q u')
    (same : passage.image u = passage.image u') (informs : passage.image u ≠ .unspecified) :
    ∃ w w', g.Leads b p w ∧ g.Leads b q w' ∧ g.Alike w g w' := by
  have wf' := passage.wellFormed_after wf
  have retains := passage.retains wf
  obtain ⟨v, leads, leads'⟩ := passage.exists_meet first second same informs
  obtain ⟨w, ends, alikeW⟩ := alike.exists_leads wf' wf' leads
  obtain ⟨w', ends', alikeW'⟩ := alike.exists_leads wf' wf' leads'
  have old := (retains.leads_iff passage.right).1 ends
  have old' := (retains.leads_iff passage.right).1 ends'
  have inside := passage.right.contains (passage.right.below_of_leads old)
  have inside' := passage.right.contains (passage.right.below_of_leads old')
  exact ⟨w, w', old, old', ((passage.persists wf).alike_iff wf wf' inside inside').1
    (alikeW.symm.trans alikeW')⟩

theorem accommodates (wf : g.WellFormed)
    (alike : passage.after.Alike passage.result passage.after b) : g.Accommodates b a where
  shared {p q u u'} leads leads' coincide := by
    have hu : g.Operands a b u := .inl (passage.left.below_of_leads leads)
    have hu' : g.Operands a b u' := .inl (passage.left.below_of_leads leads')
    cases u with
    | atom e => exact coincide.elim
    | struct s =>
      cases u' with
      | atom e => exact coincide.elim
      | var x => exact coincide.elim
      | struct s' =>
        cases coincide
        exact passage.exists_alike wf alike (.inl leads) (.inl leads') rfl
          (passage.image_ne_unspecified hu rfl)
    | var x =>
      cases u' with
      | atom e => exact coincide.elim
      | struct s => exact coincide.elim
      | var x' =>
        obtain ⟨name, called, called'⟩ := coincide
        have same := passage.split.image_eq passage.left passage.right hu hu'
          (iff_of_true (passage.left.below_of_leads leads) (passage.left.below_of_leads leads'))
          (called.trans called'.symm)
        exact passage.exists_alike wf alike (.inl leads) (.inl leads') same
          (passage.image_ne_unspecified hu rfl)
  common {p q u} node leads leads' := by
    have hu : g.Operands a b u := .inl (passage.left.below_of_leads leads)
    obtain ⟨w, w', ends, ends', alikeW⟩ := passage.exists_alike wf alike (.inl leads)
      (.inr leads') rfl (passage.image_ne_unspecified hu node)
    cases ends'.unique leads'
    exact ⟨w, ends, alikeW⟩

end SplitPassage

namespace Graph

variable {g : Graph} {a b : Value}

/-- How the question whether `a` subsumes `b` is answered: from the kind of the failure if they
cannot be unified, and else by comparing the result with `b`. -/
inductive Answers (g : Graph) (a b : Value) : Except Failure Bool × Graph → Prop where
  | fails {f : Failure} : g.unify? defaultLimit a b .fresh = some (.error f, g) →
      Answers g a b (if f.isFatal then .error f else .ok false, g)
  | compares (passage : SplitPassage g a b) {answer : Bool} :
      g.unify? defaultLimit a b .fresh =
        some (.ok (passage.result, passage.scoping), passage.after) →
      (answer = true ↔ passage.after.Alike passage.result passage.after b) →
      Answers g a b (.ok answer, passage.after)

theorem Plain.exists_answers (wf : g.WellFormed) (ha : g.Plain a) (hb : g.Plain b) :
    ∃ result, g.subsumes? a b = some result ∧ g.Answers a b result := by
  obtain ⟨out, g', ends, leaves⟩ :=
    wf.exists_unify defaultLimit (ha.contains .refl) (hb.contains .refl) (Scoping.within_fresh g)
  cases out with
  | error f =>
    cases leaves
    exact ⟨_, subsumes?_of_error ends, .fails ends⟩
  | ok result =>
    obtain ⟨r, after⟩ := result
    obtain ⟨passage, rfl, rfl, rfl⟩ := ha.exists_splitPassage wf hb ends
    have insideB : passage.after.Contains b := (hb.contains .refl).mono leaves.structs leaves.vars
    obtain ⟨answer, compared, iff⟩ := (leaves.wellFormed wf).equal?_iff leaves.contains insideB
    exact ⟨_, subsumes?_of_ok ends compared, .compares passage ends iff⟩

/-- A value that another one subsumes has all of its paths and room for what it shares. -/
theorem subsumes?_covers (wf : g.WellFormed) (ha : g.Plain a) (hb : g.Plain b) {h : Graph}
    (ok : g.subsumes? a b = some (.ok true, h)) : g.Covers a b ∧ g.Accommodates b a := by
  obtain ⟨result, answered, how⟩ := ha.exists_answers wf hb
  cases answered.symm.trans ok
  generalize eq : (Except.ok true, h) = result at how
  cases how with
  | @fails f ends =>
    cases fatal : f.isFatal <;> simp [fatal] at eq
  | compares passage _ iff =>
    cases eq
    have alike := iff.1 rfl
    exact ⟨passage.covers wf alike, passage.accommodates wf alike⟩

end Graph

end FeatureLogic
