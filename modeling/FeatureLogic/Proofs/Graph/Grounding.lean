import FeatureLogic.Graph.Correspondence
import FeatureLogic.Graph.Embedding
import FeatureLogic.Proofs.Graph.Part

/-!
# Ground values and the order of embedding

Below a ground value there is no variable. An embedding of ground values can be followed by
another one, and an embedding of a ground value into itself moves nothing. So two ground values that
embed into each other are isomorphic: up to isomorphism, embedding is a partial order.
-/

namespace FeatureLogic

namespace Graph

structure Ground (g : Graph) (v : Value) : Prop where
  contains : ∀ {w}, g.Below v w → g.Contains w
  noVar : ∀ x, ¬ g.Below v (.var x)

/-- Does `v` in `g` embed into `z` in `k` somehow? -/
def EmbedsIn (g : Graph) (v : Value) (k : Graph) (z : Value) : Prop :=
  ∃ e : Embedding, e.Embeds g v k z

variable {g g' h h' k : Graph} {u v w z : Value}

namespace Ground

theorem plain (ground : g.Ground v) : g.Plain v where
  contains := ground.contains
  free below := absurd below (ground.noVar _)

theorem of_below (ground : g.Ground v) (below : g.Below v w) : g.Ground w where
  contains lower := ground.contains (below.trans lower)
  noVar x lower := ground.noVar x (below.trans lower)

end Ground

theorem Retains.ground (retains : g.Retains h) (ground : g.Ground v) : h.Ground v where
  contains := (retains.plain ground.plain).contains
  noVar x below := ground.noVar x ((retains.below_iff ground.plain).1 below)

end Graph

namespace Embedding

open FeatureLogic.Graph

variable {g g' h h' k : Graph} {u v w z : Value} {e e' : Embedding}

/-- Without variables, where a value goes is independent of the graph and of the names. -/
theorem sends_iff_of_notVar (notVar : ∀ x, w ≠ .var x)
    (structs : ∀ s, w = .struct s → e'.structs s = e.structs s) :
    e'.Sends g' w z ↔ e.Sends g w z := by
  cases w with
  | atom a => rfl
  | struct s => rw [Sends, Sends, structs s rfl]
  | var x => exact absurd rfl (notVar x)

theorem embeds_congr (below : ∀ {w}, g'.Below v w ↔ g.Below v w) (ground : g.Ground v)
    (features : ∀ {s}, g.Below v (.struct s) → g'.features? s = g.features? s)
    (structs : ∀ {s}, g.Below v (.struct s) → e'.structs s = e.structs s) :
    e'.Embeds g' v k z ↔ e.Embeds g v k z := by
  have sends {w w' : Value} (lower : g.Below v w) : e'.Sends g' w w' ↔ e.Sends g w w' :=
    sends_iff_of_notVar (fun x eq => ground.noVar x (eq ▸ lower)) fun s eq => structs (eq ▸ lower)
  constructor
  · intro embeds
    constructor
    · obtain ⟨w, reads, sent⟩ := embeds.root
      exact ⟨w, reads, (sends .refl).1 sent⟩
    · intro s m lower found
      obtain ⟨n, found', values⟩ := embeds.feature (below.2 lower) ((features lower).trans found)
      refine ⟨n, structs lower ▸ found', fun {name u} holds => ?_⟩
      obtain ⟨c, w, holds', reads, sent⟩ := values holds
      exact ⟨c, w, holds', reads, (sends (lower.feature found holds)).1 sent⟩
  · intro embeds
    constructor
    · obtain ⟨w, reads, sent⟩ := embeds.root
      exact ⟨w, reads, (sends .refl).2 sent⟩
    · intro s m lower' found'
      have lower := below.1 lower'
      have found := (features lower).symm.trans found'
      obtain ⟨n, found', values⟩ := embeds.feature lower found
      refine ⟨n, (structs lower).symm ▸ found', fun {name u} holds => ?_⟩
      obtain ⟨c, w, holds', reads, sent⟩ := values holds
      exact ⟨c, w, holds', reads, (sends (lower.feature found holds)).2 sent⟩

namespace Embeds

theorem exists_below (embeds : e.Embeds g v h u) (plain : h.Plain u) (below : g.Below v w) :
    ∃ w', h.Below u w' ∧ e.Sends g w w' := by
  induction below with
  | refl =>
    obtain ⟨w', reads, sends⟩ := embeds.root
    cases plain.deref?.symm.trans reads
    exact ⟨u, .refl, sends⟩
  | feature below found holds ih =>
    obtain ⟨_, below', ⟨⟩⟩ := ih
    obtain ⟨n, found', values⟩ := embeds.feature below found
    obtain ⟨c, w', holds', reads, sends⟩ := values holds
    have lower := below'.feature found' holds'
    cases (plain.of_below lower).deref?.symm.trans reads
    exact ⟨c, lower, sends⟩

theorem below_struct (embeds : e.Embeds g v h u) (plain : h.Plain u) {s : StructId}
    (below : g.Below v (.struct s)) : h.Below u (.struct (e.structs s)) := by
  obtain ⟨_, below', ⟨⟩⟩ := embeds.exists_below plain below
  exact below'

theorem trans (first : e.Embeds g v h u) (second : e'.Embeds h u k z) (ground : g.Ground v)
    (plain : h.Plain u) :
    Embeds ⟨e'.structs ∘ e.structs, fun _ => .unspecified⟩ g v k z := by
  have sends {w w' w'' : Value} (below : g.Below v w) (sent : e.Sends g w w')
      (sent' : e'.Sends h w' w'') :
      Sends ⟨e'.structs ∘ e.structs, fun _ => .unspecified⟩ g w w'' := by
    cases w with
    | atom a =>
      cases sent with
      | inl nothing => exact .inl nothing
      | inr same =>
        subst same
        exact sent'
    | struct s =>
      cases (show w' = .struct (e.structs s) from sent)
      exact sent'
    | var x => exact absurd below (ground.noVar x)
  constructor
  · obtain ⟨w', reads, sent⟩ := first.root
    obtain ⟨w'', reads', sent'⟩ := second.root
    cases plain.deref?.symm.trans reads
    exact ⟨w'', reads', sends .refl sent sent'⟩
  · intro s m below found
    obtain ⟨n, found', values⟩ := first.feature below found
    have below' := first.below_struct plain below
    obtain ⟨o, found'', values'⟩ := second.feature below' found'
    refine ⟨o, found'', fun {name w} holds => ?_⟩
    obtain ⟨c, w', holds', reads, sent⟩ := values holds
    obtain ⟨c', w'', holds'', reads', sent'⟩ := values' holds'
    cases (plain.of_below (below'.feature found' holds')).deref?.symm.trans reads
    exact ⟨c', w'', holds'', reads', sends (below.feature found holds) sent sent'⟩

theorem retains_target (embeds : e.Embeds g v h u) (plain : h.Plain u)
    (retains : h.Retains h') : e.Embeds g v h' u := by
  have reads {c w : Value} (below : h.Below u c) (read : h.deref? c = some w) :
      h'.deref? c = some w := by
    have lower := plain.of_below below
    cases lower.deref?.symm.trans read
    exact (retains.plain lower).deref?
  constructor
  · obtain ⟨w, read, sent⟩ := embeds.root
    exact ⟨w, reads .refl read, sent⟩
  · intro s m below found
    have below' := embeds.below_struct plain below
    obtain ⟨n, found', values⟩ := embeds.feature below found
    refine ⟨n, (retains.features (plain.of_below below')).trans found', fun {name w} holds => ?_⟩
    obtain ⟨c, w', holds', read, sent⟩ := values holds
    exact ⟨c, w', holds', reads (below'.feature found' holds') read, sent⟩

theorem structs_eq_self (embeds : e.Embeds g v g v) (ground : g.Ground v) {s : StructId}
    (below : g.Below v (.struct s)) : e.structs s = s := by
  have still (w : Value) (below : g.Below v w) : e.Sends g w w := by
    induction below with
    | refl =>
      obtain ⟨w, reads, sends⟩ := embeds.root
      cases ground.plain.deref?.symm.trans reads
      exact sends
    | @feature s m name w below found holds ih =>
      obtain ⟨n, found', values⟩ := embeds.feature below found
      rw [← Value.struct.inj (show Value.struct s = .struct (e.structs s) from ih)] at found'
      cases found.symm.trans found'
      obtain ⟨c, w', holds', reads, sends⟩ := values holds
      cases holds.symm.trans holds'
      cases (ground.of_below (below.feature found holds)).plain.deref?.symm.trans reads
      exact sends
  have sent := still (.struct s) below
  exact (Value.struct.inj (show Value.struct s = .struct (e.structs s) from sent)).symm

/-- Ground values that lead to different structures can be embedded by one embedding. -/
theorem exists_common (left : e.Embeds g v k z) (right : e'.Embeds g w k z) (hv : g.Ground v)
    (hw : g.Ground w) (unshared : g.Unshared v w) :
    ∃ e₀ : Embedding, e₀.Embeds g v k z ∧ e₀.Embeds g w k z := by
  classical
  let both : Embedding :=
    ⟨fun s => if g.Below v (.struct s) then e.structs s else e'.structs s, e.names⟩
  have goesLeft {s : StructId} (below : g.Below v (.struct s)) :
      both.structs s = e.structs s := if_pos below
  have goesRight {s : StructId} (below : g.Below w (.struct s)) :
      both.structs s = e'.structs s :=
    if_neg fun below' => unshared (.struct s) rfl below' below
  exact ⟨both, (embeds_congr Iff.rfl hv (fun _ => rfl) goesLeft).2 left,
    (embeds_congr Iff.rfl hw (fun _ => rfl) goesRight).2 right⟩

end Embeds

end Embedding

namespace Graph

variable {g g' h h' k : Graph} {u v w z : Value}

namespace EmbedsIn

theorem trans (first : g.EmbedsIn v h u) (second : h.EmbedsIn u k z) (ground : g.Ground v)
    (plain : h.Plain u) : g.EmbedsIn v k z := by
  obtain ⟨e, embeds⟩ := first
  obtain ⟨e', embeds'⟩ := second
  exact ⟨_, embeds.trans embeds' ground plain⟩

theorem retains_target (embeds : g.EmbedsIn v h u) (plain : h.Plain u) (retains : h.Retains h') :
    g.EmbedsIn v h' u :=
  embeds.imp fun _ embeds => embeds.retains_target plain retains

end EmbedsIn

theorem Retains.embedsIn_iff (retains : g.Retains g') (ground : g.Ground v) :
    g'.EmbedsIn v k z ↔ g.EmbedsIn v k z :=
  exists_congr fun _ => Embedding.embeds_congr (retains.below_iff ground.plain) ground
    (fun below => retains.features (ground.of_below below).plain) fun _ => rfl

/-- Where one value goes to another one that goes back to it, they are equal atoms or
structures. -/
theorem relates_of_sends {e e' : Embedding} {v w : Value} (there : e.Sends h v w)
    (back : e'.Sends k w v) (hv : h.Ground v) (hw : k.Ground w) {r : Pairing}
    (partners : ∀ s, v = .struct s → w = .struct (e.structs s) → r.structs s (e.structs s)) :
    r.Relates v w := by
  cases v with
  | var x => exact absurd .refl (hv.noVar x)
  | struct s =>
    cases (show w = .struct (e.structs s) from there)
    exact partners s rfl rfl
  | atom a =>
    cases w with
    | var y => exact absurd .refl (hw.noVar y)
    | struct t => cases (show Value.atom a = .struct (e'.structs t) from back)
    | atom b =>
      cases there with
      | inr same => exact (Value.atom.inj same).symm
      | inl nothing =>
        cases back with
        | inl nothing' => exact nothing.trans nothing'.symm
        | inr same => exact Value.atom.inj same

theorem isomorphic_of_embedsIn (hr : h.Ground v) (hs : k.Ground w) (there : h.EmbedsIn v k w)
    (back : k.EmbedsIn w h v) : h.Isomorphic v k w := by
  obtain ⟨e, there⟩ := there
  obtain ⟨e', back⟩ := back
  have returns {s : StructId} (below : h.Below v (.struct s)) :
      e'.structs (e.structs s) = s := (there.trans back hr hs.plain).structs_eq_self hr below
  have partner {s : StructId} (below : h.Below v (.struct s)) :=
    there.below_struct hs.plain below
  let structs (s t : StructId) : Prop := h.Below v (.struct s) ∧ e.structs s = t
  have relates {v' w' : Value} (hv' : h.Below v v') (hw' : k.Below w w') (sent : e.Sends h v' w')
      (sent' : e'.Sends k w' v') : Pairing.Pairs ⟨structs, SameName h k⟩ h k v' w' := by
    refine ⟨v', w', (hr.of_below hv').plain.deref?, (hs.of_below hw').plain.deref?, ?_⟩
    exact relates_of_sends sent sent' (hr.of_below hv') (hs.of_below hw')
      fun s eq _ => ⟨eq ▸ hv', rfl⟩
  refine ⟨structs, ⟨?_, ?_⟩, ?_, ?_⟩
  · rintro s s' t ⟨below, rfl⟩ ⟨below', same⟩
    rw [← returns below, ← same, returns below']
  · rintro s _ _ ⟨_, rfl⟩ ⟨_, rfl⟩
    rfl
  · rintro s _ ⟨below, rfl⟩
    obtain ⟨m, found⟩ := exists_features_of_contains (hr.contains below)
    obtain ⟨n, found', values⟩ := there.feature below found
    obtain ⟨m', found'', values'⟩ := back.feature (partner below) found'
    rw [returns below, found] at found''
    cases found''
    refine ⟨m, n, found, found', NameMap.keys_eq_of_mem_iff fun name => ?_, ?_⟩
    · rw [m.mem_keys_iff, n.mem_keys_iff]
      constructor
      · rintro ⟨u, held⟩
        obtain ⟨c, -, held', -⟩ := values held
        exact ⟨c, held'⟩
      · rintro ⟨c, held'⟩
        obtain ⟨u, -, held, -⟩ := values' held'
        exact ⟨u, held⟩
    · intro name v' w' held held'
      have lower := below.feature found held
      have lower' := (partner below).feature found' held'
      obtain ⟨c, c', holds, reads, sent⟩ := values held
      obtain ⟨d, d', holds', reads', sent'⟩ := values' held'
      cases held'.symm.trans holds
      cases held.symm.trans holds'
      cases (hs.of_below lower').plain.deref?.symm.trans reads
      cases (hr.of_below lower).plain.deref?.symm.trans reads'
      exact relates lower lower' sent sent'
  · obtain ⟨w', reads, sent⟩ := there.root
    obtain ⟨v', reads', sent'⟩ := back.root
    cases hs.plain.deref?.symm.trans reads
    cases hr.plain.deref?.symm.trans reads'
    exact relates .refl .refl sent sent'

end Graph

end FeatureLogic
