import FeatureLogic.Proofs.Graph.Mirroring

/-!
# Matching plain values

Two plain values match under a pairing of what is below them that respects features. A pairing that
makes them isomorphic does so once it is restricted to what is below the two values.
-/

namespace FeatureLogic.Pairing

variable {r r' : Pairing} {P P' : Value → Prop} {v w : Value}

def within (r : Pairing) (P P' : Value → Prop) : Pairing where
  structs s t := r.structs s t ∧ P (.struct s) ∧ P' (.struct t)
  vars x y := r.vars x y ∧ P (.var x) ∧ P' (.var y)

theorem Relates.within (related : r.Relates v w) (hv : P v) (hw : P' w) :
    (r.within P P').Relates v w := by
  cases v <;> cases w <;> first | exact related.elim | skip
  · exact related
  · exact ⟨related, hv, hw⟩
  · exact ⟨related, hv, hw⟩

theorem Relates.mono (structs : ∀ {s t}, r.structs s t → r'.structs s t)
    (vars : ∀ {x y}, r.vars x y → r'.vars x y) (related : r.Relates v w) : r'.Relates v w := by
  cases v <;> cases w <;> first | exact related.elim | skip
  · exact related
  · exact structs related
  · exact vars related

theorem Maps.mono (structs : ∀ {s t}, r.structs s t → r'.structs s t)
    (vars : ∀ {x y}, r.vars x y → r'.vars x y) {m n : NameMap Value} (maps : r.Maps m n) :
    r'.Maps m n :=
  fun name => rel_imp (fun related => related.mono structs vars) (maps name)

structure Matches (r : Pairing) (g : Graph) (v : Value) (h : Graph) (w : Value) : Prop where
  structs : Relator.BiUnique r.structs
  root : r.Relates v w
  struct : ∀ {s t}, r.structs s t → g.Below v (.struct s) ∧ h.Below w (.struct t)
  var : ∀ {x y}, r.vars x y → g.Below v (.var x) ∧ h.Below w (.var y)
  features : ∀ {s t}, r.structs s t → ∃ m n, g.features? s = some m ∧ h.features? t = some n ∧
    r.Maps m n

theorem Matches.exists_partner {g h : Graph} {u' : Value} (matched : r.Matches g v h w)
    (below : h.Below w u') : ∃ u, g.Below v u ∧ r.Relates u u' := by
  induction below with
  | refl => exact ⟨v, .refl, matched.root⟩
  | @feature t features name u' _ found holds ih =>
    obtain ⟨u, below, related⟩ := ih
    cases u with
    | atom a => exact related.elim
    | var x => exact related.elim
    | struct s =>
      obtain ⟨m, n, hm, hn, maps⟩ := matched.features related
      cases found.symm.trans hn
      have related := maps name
      cases left : m.get? name with
      | none => rw [left, holds] at related; cases related
      | some u =>
        rw [left, holds] at related
        cases related with
        | some related => exact ⟨u, .feature below hm left, related⟩

theorem matches_within {g h : Graph} (hv : g.Plain v) (hw : h.Plain w)
    (unique : Relator.BiUnique r.structs) (closed : r.Closed g h) (pairs : r.Pairs g h v w) :
    (r.within (g.Below v) (h.Below w)).Matches g v h w where
  structs := unique.mono And.left
  root := by
    obtain ⟨v', w', left, right, related⟩ := pairs
    cases hv.deref?.symm.trans left
    cases hw.deref?.symm.trans right
    exact related.within .refl .refl
  struct partners := partners.2
  var partners := partners.2
  features {s t} partners := by
    obtain ⟨partners, belowS, belowT⟩ := partners
    obtain ⟨m, n, hm, hn, keys, values⟩ := closed partners
    refine ⟨m, n, hm, hn, NameMap.rel_of_keys keys fun {name u u'} left right => ?_⟩
    have belowU : g.Below v u := .feature belowS hm left
    have belowU' : h.Below w u' := .feature belowT hn right
    obtain ⟨z, z', reads, reads', related⟩ := values left right
    cases (hv.of_below belowU).deref?.symm.trans reads
    cases (hw.of_below belowU').deref?.symm.trans reads'
    exact related.within belowU belowU'

/-- Values match if all partners have features that are partners in turn. -/
theorem matches_of_maps {g h : Graph} (unique : Relator.BiUnique r.structs) (root : r.Relates v w)
    (features : ∀ {s t}, r.structs s t →
      ∃ m n, g.features? s = some m ∧ h.features? t = some n ∧ r.Maps m n) :
    (r.within (g.Below v) (h.Below w)).Matches g v h w where
  structs := unique.mono And.left
  root := root.within .refl .refl
  struct partners := partners.2
  var partners := partners.2
  features {s t} partners := by
    obtain ⟨partners, belowS, belowT⟩ := partners
    obtain ⟨m, n, found, found', maps⟩ := features partners
    refine ⟨m, n, found, found', fun name => ?_⟩
    have related := maps name
    cases left : m.get? name with
    | none =>
      cases right : n.get? name with
      | none => exact .none
      | some u' => rw [left, right] at related; cases related
    | some u =>
      cases right : n.get? name with
      | none => rw [left, right] at related; cases related
      | some u' =>
        rw [left, right] at related
        cases related with
        | some related =>
          exact .some (related.within (.feature belowS found left) (.feature belowT found' right))

end FeatureLogic.Pairing
