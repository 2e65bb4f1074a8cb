import FeatureLogic.Proofs.Copy.Apart
import FeatureLogic.Proofs.Graph.Matching

/-!
# Copies of operands that look alike

Two pairs of plain operands look alike when a one-to-one pairing of what is below them respects
their features, and tells of any two variables of one operand whether they have the same name. When
all four operands are copied in empty scopes of their own, the copies of partners are partners, and
the two graphs that were copied to are mirrored.
-/

namespace FeatureLogic.Pairing

open FeatureLogic.Graph Copying

variable {r r' : Pairing} {g g' h h' : Graph} {a b a' b' : Value} {m m' : Copying}
  {left right left' right' : Scope}

def either (r r' : Pairing) : Pairing where
  structs s t := r.structs s t ∨ r'.structs s t
  vars x y := r.vars x y ∨ r'.vars x y

structure Likens (r : Pairing) (g : Graph) (a b : Value) (g' : Graph) (a' b' : Value) : Prop where
  structs : Relator.BiUnique r.structs
  left : r.Relates a a'
  right : r.Relates b b'
  struct : ∀ {s s'}, r.structs s s' → g.Operands a b (.struct s) ∧ g'.Operands a' b' (.struct s')
  var : ∀ {x x'}, r.vars x x' → g.Operands a b (.var x) ∧ g'.Operands a' b' (.var x')
  features : ∀ {s s'}, r.structs s s' → ∃ f f', g.features? s = some f ∧
    g'.features? s' = some f' ∧ r.Maps f f'
  kind : ∀ {x x'}, r.vars x x' → (g.Below a (.var x) ↔ g'.Below a' (.var x'))
  name : ∀ {x y x' y'}, r.vars x x' → r.vars y y' → (g.Below a (.var x) ↔ g.Below a (.var y)) →
    (g.name? x = g.name? y ↔ g'.name? x' = g'.name? y')

theorem name_eq_iff {rename : String → String} (injective : Function.Injective rename)
    {x y x' y' : VarId} (hx : NamedBy rename g g' x x') (hy : NamedBy rename g g' y y') :
    g.name? x = g.name? y ↔ g'.name? x' = g'.name? y' := by
  obtain ⟨name, called, called'⟩ := hx
  obtain ⟨other, calledOther, calledOther'⟩ := hy
  rw [called, called', calledOther, calledOther', Option.some.injEq, Option.some.injEq,
    injective.eq_iff]

/-- Operands that match one by one look alike as a pair, if both pairs share no node and the names
of either operand are changed injectively. -/
theorem Matches.likens (first : r.Matches g a g' a') (second : r'.Matches g b g' b')
    (unshared : g.Unshared a b) (unshared' : g'.Unshared a' b') {rename rename' : String → String}
    (injective : Function.Injective rename) (injective' : Function.Injective rename')
    (names : ∀ {x x'}, r.vars x x' → NamedBy rename g g' x x')
    (names' : ∀ {x x'}, r'.vars x x' → NamedBy rename' g g' x x') :
    (r.either r').Likens g a b g' a' b' := by
  -- what is below a second operand is not below a first one
  have other {x x' : VarId} (hx : r'.vars x x') :
      ¬ g.Below a (.var x) ∧ ¬ g'.Below a' (.var x') :=
    ⟨fun below => unshared _ rfl below (second.var hx).1,
      fun below => unshared' _ rfl below (second.var hx).2⟩
  constructor
  case structs =>
    exact biUnique_or first.structs second.structs
      (fun hs hs' => unshared _ rfl (first.struct hs).1 (second.struct hs').1)
      fun hs hs' => unshared' _ rfl (first.struct hs).2 (second.struct hs').2
  case left => exact first.root.mono .inl .inl
  case right => exact second.root.mono .inr .inr
  case struct =>
    rintro s s' (hs | hs)
    · exact (first.struct hs).imp .inl .inl
    · exact (second.struct hs).imp .inr .inr
  case var =>
    rintro x x' (hx | hx)
    · exact (first.var hx).imp .inl .inl
    · exact (second.var hx).imp .inr .inr
  case features =>
    rintro s s' (hs | hs)
    · obtain ⟨f, f', found, found', maps⟩ := first.features hs
      exact ⟨f, f', found, found', maps.mono Or.inl Or.inl⟩
    · obtain ⟨f, f', found, found', maps⟩ := second.features hs
      exact ⟨f, f', found, found', maps.mono Or.inr Or.inr⟩
  case kind =>
    rintro x x' (hx | hx)
    · exact iff_of_true (first.var hx).1 (first.var hx).2
    · exact iff_of_false (other hx).1 (other hx).2
  case name =>
    rintro x y x' y' (hx | hx) (hy | hy) kind
    · exact name_eq_iff injective (names hx) (names hy)
    · exact absurd (kind.1 (first.var hx).1) (other hy).1
    · exact absurd (kind.2 (first.var hy).1) (other hx).1
    · exact name_eq_iff injective' (names' hx) (names' hy)

def copies (r : Pairing) (m m' : Copying) : Pairing where
  structs t t' := ∃ s s', r.structs s s' ∧ m.images.structs.lookup s = some t ∧
    m'.images.structs.lookup s' = some t'
  vars y y' := ∃ x x', r.vars x x' ∧ m.images.vars.lookup x = some (.var y) ∧
    m'.images.vars.lookup x' = some (.var y')

namespace Likens

variable (likens : r.Likens g a b g' a' b') (split : g.SplitOperands a b h m left right)
  (split' : g'.SplitOperands a' b' h' m' left' right')

include likens split split'

theorem relates_copies {v v' : Value} (related : r.Relates v v') (imaged : Imaged m v)
    (imaged' : Imaged m' v') :
    (r.copies m m').Relates (m.images.apply v) (m'.images.apply v') := by
  cases v <;> cases v' <;> first | exact related.elim | skip
  · exact related
  · obtain ⟨t, copied⟩ := imaged
    obtain ⟨t', copied'⟩ := imaged'
    simp only [Images.apply, copied, copied', Option.elim_some]
    exact ⟨_, _, related, copied, copied'⟩
  · obtain ⟨u, copied⟩ := imaged
    obtain ⟨u', copied'⟩ := imaged'
    obtain ⟨hx, hx'⟩ := likens.var related
    obtain ⟨-, y, -, rfl, -⟩ := split.exists_image hx copied
    obtain ⟨-, y', -, rfl, -⟩ := split'.exists_image hx' copied'
    simp only [Images.apply, copied, copied', Option.getD_some]
    exact ⟨_, _, related, copied, copied'⟩

variable (ha : g.Plain a) (hb : g.Plain b) (ha' : g'.Plain a') (hb' : g'.Plain b')

include ha hb ha' hb'

theorem biUnique_copies : Relator.BiUnique (r.copies m m').Relates := by
  have source := ha.source hb
  have source' := ha'.source hb'
  refine biUnique_relates ⟨?_, ?_⟩ ⟨?_, ?_⟩
  · rintro t₁ t₂ t ⟨s₁, s, partners, copied₁, copied⟩ ⟨s₂, s', partners', copied₂, copied'⟩
    cases split'.aligned.injective (source'.contains (likens.struct partners).2)
      (source'.contains (likens.struct partners').2) copied copied'
    cases likens.structs.1 partners partners'
    exact Option.some.inj (copied₁.symm.trans copied₂)
  · rintro t t₁ t₂ ⟨s, s₁, partners, copied, copied₁⟩ ⟨s', s₂, partners', copied', copied₂⟩
    cases split.aligned.injective (source.contains (likens.struct partners).1)
      (source.contains (likens.struct partners').1) copied copied'
    cases likens.structs.2 partners partners'
    exact Option.some.inj (copied₁.symm.trans copied₂)
  · rintro y₁ y₂ y ⟨x₁, x, partners, copied₁, copied⟩ ⟨x₂, x', partners', copied₂, copied'⟩
    obtain ⟨hx₁, hx⟩ := likens.var partners
    obtain ⟨hx₂, hx'⟩ := likens.var partners'
    obtain ⟨kind, called⟩ := (split'.image_eq_iff hx hx' copied copied').1 rfl
    rw [← likens.kind partners, ← likens.kind partners'] at kind
    exact Value.var.inj ((split.image_eq_iff hx₁ hx₂ copied₁ copied₂).2
      ⟨kind, (likens.name partners partners' kind).2 called⟩)
  · rintro y y₁ y₂ ⟨x, x₁, partners, copied, copied₁⟩ ⟨x', x₂, partners', copied', copied₂⟩
    obtain ⟨hx, hx₁⟩ := likens.var partners
    obtain ⟨hx', hx₂⟩ := likens.var partners'
    obtain ⟨kind, called⟩ := (split.image_eq_iff hx hx' copied copied').1 rfl
    refine Value.var.inj ((split'.image_eq_iff hx₁ hx₂ copied₁ copied₂).2 ⟨?_, ?_⟩)
    · rw [← likens.kind partners, ← likens.kind partners', kind]
    · exact (likens.name partners partners' kind).1 called

/-- The graphs with the copies are mirrored. -/
theorem mirrors_copies (wf : h.WellFormed) (wf' : h'.WellFormed) :
    (r.copies m m').Mirrors h h' where
  struct {t t'} := by
    rintro ⟨s, s', partners, copied, copied'⟩
    have source := ha.source hb
    have source' := ha'.source hb'
    obtain ⟨hs, hs'⟩ := likens.struct partners
    obtain ⟨f, f', found, found', maps⟩ := likens.features partners
    obtain ⟨filled, imaged⟩ := split.aligned.features?_copy split.complete source.contains
      (source.contains hs) copied found
    obtain ⟨filled', imaged'⟩ := split'.aligned.features?_copy split'.complete source'.contains
      (source'.contains hs') copied' found'
    obtain ⟨node, present, eq⟩ := Option.map_eq_some_iff.1 filled
    obtain ⟨node', present', eq'⟩ := Option.map_eq_some_iff.1 filled'
    refine ⟨node, node', present, present', fun name => ?_, ?_⟩
    · rw [eq, eq', NameMap.get?_map, NameMap.get?_map]
      have related := maps name
      generalize held : f.get? name = u at related
      generalize held' : f'.get? name = u' at related
      cases related with
      | none => exact .none
      | some related =>
        exact .some (likens.relates_copies split split' related (imaged _ _ held)
          (imaged' _ _ held'))
    · rw [wf.unabsorbed present, wf'.unabsorbed present']
      exact .none
  var {y y'} := by
    rintro ⟨x, x', partners, copied, copied'⟩
    obtain ⟨hx, hx'⟩ := likens.var partners
    obtain ⟨name, _, -, ⟨⟩, found, -⟩ := split.exists_image hx copied
    obtain ⟨name', _, -, ⟨⟩, found', -⟩ := split'.exists_image hx' copied'
    exact ⟨_, _, found, found', trivial⟩

end Likens

end FeatureLogic.Pairing
