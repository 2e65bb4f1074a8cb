import FeatureLogic.Graph.Text
import FeatureLogic.Proofs.Concurrence
import FeatureLogic.Proofs.Graph.Mirroring

/-!
# Corresponding values are written alike

Where what is stored in two graphs stands for partners, and partners among the variables have the
same name, partners have the same text. The walks through the two graphs meet partners in the same
order, so that the same structures are shared and get the same tags. One graph may mirror the other,
or the two values may be isomorphic.
-/

namespace FeatureLogic

namespace Pairing

variable {q : Pairing} {g h : Graph}

def Named (q : Pairing) (g h : Graph) : Prop := ∀ {x y}, q.vars x y → g.name? x = h.name? y

theorem Mirrors.deref (mirrors : q.Mirrors g h) {v w v' w' : Value} (related : q.Relates v w)
    (left : g.deref? v = some v') (right : h.deref? w = some w') : q.Relates v' w' := by
  cases v <;> cases w <;> first | exact related.elim | skip
  · cases left
    cases right
    exact related
  · cases left
    cases right
    exact related
  · obtain ⟨x, root, left⟩ := Option.bind_eq_some_iff.1 left
    obtain ⟨y, root', right⟩ := Option.bind_eq_some_iff.1 right
    have roots := mirrors.root related root root'
    obtain ⟨⟨name, binding⟩, ⟨name', binding'⟩, found, found', holds⟩ := mirrors.var roots
    simp only [found, found', Option.bind_eq_bind, Option.bind_some, Option.pure_def,
      Option.some.injEq] at left right
    cases left
    cases right
    cases binding <;> cases binding' <;> first | exact holds.elim | skip
    · exact roots
    · exact holds
    · exact roots

/-- Do related values stand for partners, and do partners hold related values? -/
structure Tracks (q : Pairing) (R : Value → Value → Prop) (g h : Graph) : Prop where
  deref : ∀ {v w v' w'}, R v w → g.deref? v = some v' → h.deref? w = some w' → q.Relates v' w'
  features : ∀ {s t m n}, q.structs s t → g.features? s = some m → h.features? t = some n →
    ∀ name, Option.Rel R (m.get? name) (n.get? name)

theorem Mirrors.tracks (mirrors : q.Mirrors g h) : q.Tracks q.Relates g h where
  deref := mirrors.deref
  features partners left right := mirrors.features partners left right

theorem Closed.tracks (closed : q.Closed g h) : q.Tracks (q.Pairs g h) g h where
  deref pairs left right := by
    obtain ⟨v', w', reads, reads', related⟩ := pairs
    cases left.symm.trans reads
    cases right.symm.trans reads'
    exact related
  features partners left right := by
    obtain ⟨m, n, found, found', keys, each⟩ := closed partners
    cases left.symm.trans found
    cases right.symm.trans found'
    exact NameMap.rel_of_keys keys each

structure Tallies (q : Pairing) (t t' : Tally) : Prop where
  met : List.Forall₂ q.structs t.met t'.met
  shared : List.Forall₂ q.structs t.shared t'.shared

section Walks

variable {R : Value → Value → Prop} (unique : Relator.BiUnique q.structs) (tracks : q.Tracks R g h)
  (names : q.Named g h)

include tracks

theorem concur_tallyValues {tally tally' : StructId → Tally → Option Tally}
    (tallies : ∀ {s s' t t'}, q.structs s s' → q.Tallies t t' →
      Concur q.Tallies (tally s t) (tally' s' t'))
    {values values' : List Value} (related : List.Forall₂ R values values') {t t' : Tally}
    (before : q.Tallies t t') :
    Concur q.Tallies (g.tallyValues tally values t) (h.tallyValues tally' values' t') := by
  induction related generalizing t t' with
  | nil => exact concur_some before
  | @cons v v' rest rest' related _ ih =>
    simp only [Graph.tallyValues]
    cases left : g.deref? v with
    | none => exact concur_none_left
    | some w =>
      cases right : h.deref? v' with
      | none => exact concur_none_right
      | some w' =>
        have ends := tracks.deref related left right
        cases w <;> cases w' <;> first | exact ends.elim | skip
        · exact ih before
        · have concur := tallies ends before
          dsimp only
          cases first : tally _ t with
          | none => exact concur_none_left
          | some u =>
            cases second : tally' _ t' with
            | none => exact concur_none_right
            | some u' => exact ih (concur u u' first second)
        · exact ih before

include unique

theorem concur_tallyStruct (fuel fuel' : Nat) {s s' : StructId} (partners : q.structs s s')
    {t t' : Tally} (before : q.Tallies t t') :
    Concur q.Tallies (g.tallyStruct fuel s t) (h.tallyStruct fuel' s' t') := by
  induction fuel generalizing fuel' s s' t t' with
  | zero => exact concur_none_left
  | succ fuel ih =>
    cases fuel' with
    | zero => exact concur_none_right
    | succ fuel' =>
      simp only [Graph.tallyStruct, List.rel_mem unique partners before.met]
      split
      · exact concur_some ⟨before.met, .cons partners before.shared⟩
      · cases left : g.features? s with
        | none => exact concur_none_left
        | some m =>
          cases right : h.features? s' with
          | none => exact concur_none_right
          | some n =>
            have values := NameMap.forall₂_values_of_rel (tracks.features partners left right)
            exact concur_tallyValues tracks (fun partners before => ih fuel' partners before)
              values ⟨.cons partners before.met, before.shared⟩

theorem concur_shared {s s' : StructId} (partners : q.structs s s') :
    Concur (List.Forall₂ q.structs) (g.shared? s) (h.shared? s') :=
  (concur_tallyStruct unique tracks _ _ partners ⟨.nil, .nil⟩).map fun tallies => tallies.shared

def Described {δ : Type} (q : Pairing) (d d' : δ × List StructId) : Prop :=
  d.1 = d'.1 ∧ List.Forall₂ q.structs d.2 d'.2

include names

theorem concur_describeFeatures
    {describe describe' : StructId → List StructId → Option (Description Nat × List StructId)}
    (describes : ∀ {s s' tagged tagged'}, q.structs s s' → List.Forall₂ q.structs tagged tagged' →
      Concur q.Described (describe s tagged) (describe' s' tagged'))
    {entries entries' : List (String × Value)}
    (related : List.Forall₂ (fun e e' => e.1 = e'.1 ∧ R e.2 e'.2) entries entries')
    {tagged tagged' : List StructId} (before : List.Forall₂ q.structs tagged tagged') :
    Concur q.Described (g.describeFeatures describe entries tagged)
      (h.describeFeatures describe' entries' tagged') := by
  induction related generalizing tagged tagged' with
  | nil => exact concur_some ⟨rfl, before⟩
  | @cons e e' rest rest' related _ ih =>
    obtain ⟨name, v⟩ := e
    obtain ⟨_, v'⟩ := e'
    obtain ⟨rfl, related⟩ := related
    simp only [Graph.describeFeatures]
    refine Concur.bind (R := q.Relates) (fun w w' => tracks.deref related) fun {w w'} ends => ?_
    cases w <;> cases w' <;> first | exact ends.elim | skip
    · cases ends
      refine (ih before).bind fun {d d'} described => concur_some ?_
      exact ⟨by rw [described.1], described.2⟩
    · simp only [List.rel_mem unique ends before, idxOf_eq_of_forall₂ unique before ends]
      split
      · refine (ih before).bind fun {d d'} described => concur_some ?_
        exact ⟨by rw [described.1], described.2⟩
      · refine (describes ends before).bind fun {c c'} child => ?_
        refine (ih child.2).bind fun {d d'} described => concur_some ?_
        exact ⟨by rw [child.1, described.1], described.2⟩
    · refine Concur.bind (R := Eq) (fun called called' left right => ?_) fun {_ _} same => ?_
      · exact Option.some.inj (left.symm.trans ((names ends).trans right))
      · cases same
        refine (ih before).bind fun {d d'} described => concur_some ?_
        exact ⟨by rw [described.1], described.2⟩

theorem concur_describeStruct {shared shared' : List StructId}
    (both : List.Forall₂ q.structs shared shared') (fuel fuel' : Nat) {s s' : StructId}
    (partners : q.structs s s') {tagged tagged' : List StructId}
    (before : List.Forall₂ q.structs tagged tagged') :
    Concur q.Described (g.describeStruct shared fuel s tagged)
      (h.describeStruct shared' fuel' s' tagged') := by
  induction fuel generalizing fuel' s s' tagged tagged' with
  | zero => exact concur_none_left
  | succ fuel ih =>
    cases fuel' with
    | zero => exact concur_none_right
    | succ fuel' =>
      simp only [Graph.describeStruct, List.rel_mem unique partners both]
      refine Concur.bind (fun m n left right => tracks.features partners left right)
        fun {m n} related => ?_
      have features {tagged tagged' : List StructId}
          (before : List.Forall₂ q.structs tagged tagged') :=
        concur_describeFeatures unique tracks names
          (fun partners before => ih fuel' partners before)
          (NameMap.forall₂_entries_of_rel related) before
      split
      · have more := List.rel_append before (.cons partners .nil)
        refine (features more).bind fun {d d'} described => concur_some ?_
        exact ⟨by rw [described.1, before.length_eq], described.2⟩
      · refine (features before).bind fun {d d'} described => concur_some ?_
        exact ⟨by rw [described.1], described.2⟩

theorem Tracks.text_eq {v v' : Value} (related : R v v') {text text' : String}
    (left : g.text? v = some text) (right : h.text? v' = some text') : text = text' := by
  have concur : Concur Eq (g.text? v) (h.text? v') := by
    refine Concur.map (R := Eq) ?_ fun same => by rw [same]
    simp only [Graph.describe?]
    refine Concur.bind (R := q.Relates) (fun w w' => tracks.deref related) fun {w w'} ends => ?_
    cases w <;> cases w' <;> first | exact ends.elim | skip
    · cases ends
      exact concur_some rfl
    · refine (concur_shared unique tracks ends).bind fun both => ?_
      exact (concur_describeStruct unique tracks names both _ _ ends .nil).bind
        fun described => concur_some described.1
    · refine Concur.bind (R := Eq) (fun called called' left right => ?_) fun {_ _} same => ?_
      · exact Option.some.inj (left.symm.trans ((names ends).trans right))
      · exact concur_some (by rw [same])
  exact concur text text' left right

end Walks

theorem text_eq (unique : Relator.BiUnique q.structs) (mirrors : q.Mirrors g h)
    (names : q.Named g h) {v v' : Value} (related : q.Relates v v') {text text' : String}
    (left : g.text? v = some text) (right : h.text? v' = some text') : text = text' :=
  mirrors.tracks.text_eq unique names related left right

end Pairing

/-- Isomorphic values have the same text. -/
theorem Graph.Isomorphic.text_eq {g h : Graph} {v w : Value} (iso : g.Isomorphic v h w)
    {text text' : String} (left : g.text? v = some text) (right : h.text? w = some text') :
    text = text' := by
  obtain ⟨structs, unique, closed, pairs⟩ := iso
  refine closed.tracks.text_eq unique ?_ pairs left right
  rintro x y ⟨name, called, called'⟩
  rw [called, called']

end FeatureLogic
