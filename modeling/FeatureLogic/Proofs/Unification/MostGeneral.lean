import FeatureLogic.Proofs.Join.Solution
import FeatureLogic.Proofs.Unification.Canonical

/-!
# The most general result

A value into which one embedding takes both operands is one into which their result embeds in turn,
in such a way that the two embeddings compose. The join of operands that have such a value fails for
no other reason than its limit.
-/

namespace FeatureLogic

open FeatureLogic.Graph Join FeatureLogic.Embedding

namespace Embedding

variable {e : Embedding} {g h : Graph}

theorem sends_congr (names : ∀ x, h.name? x = g.name? x) {v c : Value} :
    e.Sends h v c ↔ e.Sends g v c := by
  cases v with
  | atom a => rfl
  | struct s => rfl
  | var x => simp only [Sends, names]

theorem Sends.unique {v c c' : Value} (hv : v ≠ .unspecified) (sends : e.Sends g v c)
    (sends' : e.Sends g v c') : c = c' := by
  cases v with
  | atom a =>
    have nothing : a ≠ .unspecified := fun ha => hv (congrArg Value.atom ha)
    exact (sends.resolve_left nothing).trans (sends'.resolve_left nothing).symm
  | struct s => exact Eq.trans sends (Eq.symm sends')
  | var x =>
    obtain ⟨name, called, rfl⟩ := sends
    obtain ⟨name', called', rfl⟩ := sends'
    cases called.symm.trans called'
    rfl

theorem Sends.clash {v w c : Value} (hv : v ≠ .unspecified) (hw : w ≠ .unspecified) (ne : v ≠ w)
    (notVar : ∀ x, v ≠ .var x) (notVar' : ∀ x, w ≠ .var x) (sends : e.Sends g v c)
    (sends' : e.Sends g w c) : ∃ s t, v = .struct s ∧ w = .struct t := by
  have stays {a : Atom} (ha : Value.atom a ≠ .unspecified) (sends : e.Sends g (.atom a) c) :
      c = .atom a := sends.resolve_left fun eq => ha (congrArg Value.atom eq)
  cases v with
  | var x => exact absurd rfl (notVar x)
  | atom a =>
    have hc := stays hv sends
    cases w with
    | var x => exact absurd rfl (notVar' x)
    | atom b => exact absurd (hc.symm.trans (stays hw sends')) ne
    | struct t => cases hc.symm.trans sends'
  | struct s =>
    cases w with
    | var x => exact absurd rfl (notVar' x)
    | atom b => cases (stays hw sends').symm.trans sends
    | struct t => exact ⟨s, t, rfl, rfl⟩

def target (e : Embedding) (g h : Graph) : Target Value where
  Sends := e.Sends g
  Feature c name d := ∃ s n d', c = .struct s ∧ h.features? s = some n ∧ n.get? name = some d' ∧
    h.deref? d' = some d
  silent _ := .inl rfl
  unique := Sends.unique
  feature_unique := by
    rintro _ name d d' ⟨s, n, c, rfl, found, holds, reads⟩ ⟨_, n', c', ⟨⟩, found', holds', reads'⟩
    cases found.symm.trans found'
    cases holds.symm.trans holds'
    exact Option.some.inj (reads.symm.trans reads')
  clash := Sends.clash

end Embedding

namespace CopiedOperands

variable {g h : Graph} {a b d : Value} {c : CopiedOperands g a b} {e e' : Embedding}

/-- Does `e'` take every copy to where `e` takes the value that was copied? -/
structure Lifts (c : CopiedOperands g a b) (e e' : Embedding) : Prop where
  names : e'.names = e.names
  structs : ∀ {s t}, g.Operands a b (.struct s) → c.memory.images.structs.lookup s = some t →
    e'.structs t = e.structs s

theorem exists_lift (c : CopiedOperands g a b) (e : Embedding) : ∃ e', c.Lifts e e' := by
  choose! origin inside copied using fun (t : StructId) => c.copies.origin (t := t)
  refine ⟨⟨fun t => e.structs (origin t), e.names⟩, rfl, fun {s t} hs found => ?_⟩
  have has := (c.copies.image found).1
  exact congrArg e.structs (c.copies.injective (inside t has) hs (copied t has) found)

theorem Lifts.sends (lifts : c.Lifts e e') {v w : Value} (hv : g.Operands a b v)
    (sends : e.Sends g v w) : e'.Sends c.graph (c.image v) w := by
  cases v with
  | atom a => exact sends
  | struct s =>
    obtain ⟨t, copied⟩ := c.imaged hv
    rw [c.image_struct copied]
    exact sends.trans (congrArg Value.struct (lifts.structs hv copied).symm)
  | var x =>
    obtain ⟨name, y, called, image, listed⟩ := c.exists_image_var hv
    obtain ⟨_, ⟨⟩, -, found⟩ := c.copies.scope listed
    obtain ⟨name', called', rfl⟩ := sends
    cases called.symm.trans called'
    rw [image]
    exact ⟨name, by simp [name?, found], by rw [lifts.names]⟩

theorem Lifts.exists_features (lifts : c.Lifts e e') (left : e.Embeds g a h d)
    (right : e.Embeds g b h d) {t : StructId} (has : c.region.Has (.struct t)) :
    ∃ n, h.features? (e'.structs t) = some n := by
  obtain ⟨s, hs, copied⟩ := c.copies.origin has
  obtain ⟨m, found⟩ := exists_features_of_contains (c.source.contains hs)
  obtain ⟨n, found', -⟩ := hs.elim (left.feature · found) (right.feature · found)
  exact ⟨n, by rw [lifts.structs hs copied, found']⟩

theorem Lifts.solves (lifts : c.Lifts e e') (left : e.Embeds g a h d) (right : e.Embeds g b h d) :
    Solves c.region (e'.target c.graph h) c.graph where
  feature {t m name v' c'} has found holds sends := by
    obtain ⟨s, hs, copied⟩ := c.copies.origin has
    obtain ⟨m', found'⟩ := exists_features_of_contains (c.source.contains hs)
    cases found.symm.trans (c.features?_copy hs copied found').1
    rw [NameMap.get?_map, Option.map_eq_some_iff] at holds
    obtain ⟨v, holds, rfl⟩ := holds
    obtain ⟨n, found'', values⟩ := hs.elim (left.feature · found') (right.feature · found')
    obtain ⟨d', w, holds', reads, sent⟩ := values holds
    exact ⟨w, ⟨_, n, d', sends, by rw [lifts.structs hs copied, found''], holds', reads⟩,
      lifts.sends (c.source.feature hs found' holds) sent⟩
  forward has step := by
    rw [c.copies.forward?_eq_none has] at step
    cases step
  content has held := by
    rw [c.copies.content?_eq_none has] at held
    cases held

theorem Lifts.meets (lifts : c.Lifts e e') (left : e.Embeds g a h d) (right : e.Embeds g b h d)
    {w : Value} (reads : h.deref? d = some w) :
    (Task.join (c.image a) (c.image b)).Meets (e'.target c.graph h) w := by
  obtain ⟨w', reads', sendsLeft⟩ := left.root
  cases reads.symm.trans reads'
  obtain ⟨w', reads', sendsRight⟩ := right.root
  cases reads.symm.trans reads'
  exact ⟨lifts.sends (.inl .refl) sendsLeft, lifts.sends (.inr .refl) sendsRight⟩

/-- The join of operands with a common target succeeds for this target. -/
theorem Lifts.solved (lifts : c.Lifts e e') (left : e.Embeds g a h d) (right : e.Embeds g b h d)
    {u w : Value} (reads : h.deref? d = some w) {st : JoinState}
    (run : Runs (.join (c.image a) (c.image b)) c.start (.ok u) st) :
    Solves c.region (e'.target c.graph h) st.graph ∧ e'.Sends c.graph u w := by
  obtain ⟨solves, -, yields⟩ := run.fulfils w c.invariant c.ready (lifts.solves left right)
    (fun _ _ _ mem => by cases mem) (lifts.meets left right reads)
  exact ⟨solves, yields⟩

theorem isFatal_of_fails (left : e.Embeds g a h d) (right : e.Embeds g b h d) {f : Failure}
    {st : JoinState} (run : Runs (.join (c.image a) (c.image b)) c.start (.error f) st) :
    f.isFatal := by
  obtain ⟨e', lifts⟩ := c.exists_lift e
  obtain ⟨w, reads, -⟩ := left.root
  exact run.fulfils w c.invariant c.ready (lifts.solves left right) (fun _ _ _ mem => by cases mem)
    (lifts.meets left right reads)

end CopiedOperands

namespace Stages

variable {g h : Graph} {a b d : Value} {stages : Stages g a b} {e e₀ : Embedding}

theorem name?_after (stages : Stages g a b) (x : VarId) :
    stages.after.name? x = stages.joined.graph.name? x := by
  rw [after, name?_forgetAbsorbed, stages.normal.settling.reshapes.name]

theorem sends_after (stages : Stages g a b) {e : Embedding} {v c : Value} :
    e.Sends stages.after v c ↔ e.Sends stages.graph v c :=
  sends_congr fun x => (stages.name?_after x).trans (stages.success.grows.name x)

/-- The result embeds into every common target of the operands. -/
theorem embeds_of_solves (stages : Stages g a b) {e' : Embedding} {w : Value}
    (reads : h.deref? d = some w)
    (solves : Solves stages.region (e'.target stages.graph h) stages.joined.graph)
    (found : ∀ {t}, stages.region.Has (.struct t) → ∃ n, h.features? (e'.structs t) = some n)
    (yields : e'.Sends stages.graph stages.outcome w) :
    e'.Embeds stages.after stages.result h d where
  root := by
    refine ⟨w, reads, stages.sends_after.2 ?_⟩
    exact (solves.settles stages.closed stages.success.has stages.settles w).1 yields
  feature {t n} below stored := by
    obtain ⟨has, -, entered⟩ := stages.settles_of_below below
    rw [after, features?_forgetAbsorbed] at stored
    obtain ⟨m, target⟩ := found has
    refine ⟨m, target, fun {name u} holds => ?_⟩
    have settled := (stages.normal.tidy t (entered t rfl) name u ⟨n, stored, holds⟩).1
    obtain ⟨v, ⟨n', found', holds'⟩, updates⟩ :=
      stages.normal.settling.reshapes.origin has ⟨n, stored, holds⟩
    obtain ⟨w', ⟨_, m', d', ⟨⟩, target', held, reads'⟩, sends⟩ :=
      solves.feature has found' holds'
        (show e'.Sends stages.graph (.struct t) (.struct (e'.structs t)) from rfl)
    cases target.symm.trans target'
    have hasV := stages.closed.feature has found' holds'
    exact ⟨d', w', held, reads', stages.sends_after.2
      ((solves.settles stages.closed hasV ((updates.same u).2 settled) w').1 sends)⟩

/-- Every embedding of both operands into one target factors through the canonical one. -/
theorem Canonical.factors (canonical : stages.Canonical e) (left : e₀.Embeds g a h d)
    (right : e₀.Embeds g b h d) :
    ∃ e' : Embedding, e'.Embeds stages.after stages.result h d ∧
      (∀ s, g.Operands a b (.struct s) → e'.structs (e.structs s) = e₀.structs s) ∧
      ∀ x name, g.Operands a b (.var x) → g.name? x = some name →
        e'.Sends stages.after (e.names name) (e₀.names name) := by
  obtain ⟨e', lifts⟩ := stages.exists_lift e₀
  obtain ⟨w, reads, -⟩ := left.root
  obtain ⟨solves, yields⟩ := lifts.solved left right reads stages.run
  refine ⟨e', stages.embeds_of_solves reads solves (lifts.exists_features left right) yields,
    fun s hs => ?_, fun x name hx called => ?_⟩
  · obtain ⟨t, copied⟩ := stages.imaged hs
    have settles := canonical.structs hs
    rw [stages.image_struct copied] at settles
    have sent : Value.struct (e'.structs t) = .struct (e'.structs (e.structs s)) :=
      (solves.settles stages.closed (stages.copies.image copied).1 settles _).1
        (show e'.Sends stages.graph (.struct t) (.struct (e'.structs t)) from rfl)
    rw [← Value.struct.inj sent]
    exact lifts.structs hs copied
  · obtain ⟨name', y, called', -, listed⟩ := stages.exists_image_var hx
    cases called.symm.trans called'
    obtain ⟨_, ⟨⟩, has, found⟩ := stages.copies.scope listed
    have named : stages.graph.name? y = some name := by simp [name?, found]
    exact stages.sends_after.2 ((solves.settles stages.closed has (canonical.names listed) _).1
      (show e'.Sends stages.graph (.var y) (e₀.names name) from
        ⟨name, named, by rw [lifts.names]⟩))

end Stages

end FeatureLogic
