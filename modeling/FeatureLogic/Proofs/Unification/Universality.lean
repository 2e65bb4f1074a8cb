import FeatureLogic.Proofs.Unification.MostGeneral

/-!
# Universality of a result

What can be said of a most general result without mention of how it was reached: one embedding
takes both operands into it, everything below it comes from them, and every other embedding of both
factors through this one.
-/

namespace FeatureLogic

open FeatureLogic.Graph

/-- Is `w` with its scope a most general result for the operands `a` and `b`, reached by `e`? -/
structure Universal (g : Graph) (a b : Value) (h : Graph) (w : Value) (scope : Scope)
    (e : Embedding) : Prop where
  left : e.Embeds g a h w
  right : e.Embeds g b h w
  factors : ∀ {k c e₀}, Embedding.Embeds e₀ g a k c → Embedding.Embeds e₀ g b k c →
    ∃ e' : Embedding, e'.Embeds h w k c ∧
      (∀ s, g.Operands a b (.struct s) → e'.structs (e.structs s) = e₀.structs s) ∧
      ∀ x name, g.Operands a b (.var x) → g.name? x = some name →
        e'.Sends h (e.names name) (e₀.names name)
  settled : ∀ {v}, h.Below w v → h.deref? v = some v
  features : ∀ {t}, h.Below w (.struct t) → ∃ m, h.features? t = some m
  struct : ∀ {t}, h.Below w (.struct t) ↔ ∃ s, g.Operands a b (.struct s) ∧ e.structs s = t
  var : ∀ {y}, h.Below w (.var y) → ∃ x name, g.Operands a b (.var x) ∧
    g.name? x = some name ∧ h.var? y = some { name } ∧ e.names name = .var y
  name : ∀ {x name}, g.Operands a b (.var x) → g.name? x = some name →
    h.Below w (e.names name) ∧ e.names name ≠ .unspecified
  entry : ∀ {x name}, g.Operands a b (.var x) → g.name? x = some name →
    scope.get? name = some (e.names name) ∨
      scope.get? name = none ∧ ∃ y, e.names name = .var y ∧ h.var? y = some { name }

namespace Stages

variable {g : Graph} {a b : Value} {stages : Stages g a b} {e : Embedding}

/-- A settled variable of the result is free, and its name belongs to a variable of the
operands. -/
theorem Canonical.exists_var (canonical : stages.Canonical e) {y : VarId}
    (has : stages.region.Has (.var y)) (settles : stages.joined.graph.Settles (.var y) (.var y)) :
    ∃ x name, g.Operands a b (.var x) ∧ g.name? x = some name ∧
      stages.after.var? y = some { name } ∧ e.names name = .var y := by
  obtain ⟨name, copied, listed⟩ := stages.copies.named has
  obtain ⟨x, hx, image⟩ := stages.copies.originVar has
  have called : g.name? x = some name := by
    obtain ⟨name', y', called, image', listed'⟩ := stages.exists_image_var hx
    have same : Value.var y = .var y' := by
      rw [← image', CopiedOperands.image, Images.apply, image]
      rfl
    cases same
    obtain ⟨_, ⟨⟩, -, copied'⟩ := stages.copies.scope listed'
    cases copied.symm.trans copied'
    exact called
  refine ⟨x, name, hx, called, ?_, (canonical.names listed).unique settles⟩
  have reshapes := stages.normal.settling.reshapes
  have settled := reshapes.closed.settled has ((reshapes.settles stages.closed has).2 settles)
  obtain ⟨name', found⟩ := settled.free (reshapes.closed.contains has)
  have named : stages.after.name? y = some name := by
    rw [stages.name?_after, stages.success.grows.name]
    simp [CopiedOperands.start, name?, copied]
  have named' : stages.after.name? y = some name' := by
    rw [after, name?_forgetAbsorbed, name?, found]
    rfl
  cases named.symm.trans named'
  rw [after, var?_forgetAbsorbed, found]

/-- The name of an operand's variable goes to what the copies of that name settle to. -/
theorem Canonical.settles_name (canonical : stages.Canonical e) {x : VarId} {name : String}
    (hx : g.Operands a b (.var x)) (called : g.name? x = some name) :
    ∃ y, stages.memory.scope.get? name = some (.var y) ∧ stages.region.Has (.var y) ∧
      stages.joined.graph.Settles (.var y) (e.names name) := by
  obtain ⟨name', y, called', -, listed⟩ := stages.exists_image_var hx
  cases called.symm.trans called'
  exact ⟨y, listed, stages.has_scope name _ listed, canonical.names listed⟩

theorem exists_universal (stages : Stages g a b) :
    ∃ e, Universal g a b stages.after stages.result stages.scope e := by
  obtain ⟨e, canonical⟩ := stages.exists_canonical
  refine ⟨e, canonical.embeds (.inl .refl) stages.settles_left,
    canonical.embeds (.inr .refl) stages.settles_right, canonical.factors, ?_, ?_, ?_, ?_, ?_, ?_⟩
  · intro v below
    obtain ⟨has, settles, -⟩ := stages.settles_of_below below
    exact stages.deref?_of_settles has settles
  · intro t below
    obtain ⟨has, -⟩ := stages.settles_of_below below
    obtain ⟨m, found⟩ := stages.normal.settling.reshapes.closed.exists_features has
    exact ⟨m, by rw [after, features?_forgetAbsorbed, found]⟩
  · intro t
    constructor
    · intro below
      obtain ⟨has, settles, -⟩ := stages.settles_of_below below
      obtain ⟨s, hs, copied⟩ := stages.copies.origin has
      have image := canonical.structs hs
      rw [stages.image_struct copied] at image
      exact ⟨s, hs, Value.struct.inj (image.unique settles)⟩
    · rintro ⟨s, hs, rfl⟩
      exact canonical.below_struct hs
  · intro y below
    obtain ⟨has, settles, -⟩ := stages.settles_of_below below
    exact canonical.exists_var has settles
  · intro x name hx called
    obtain ⟨y, -, has, settles⟩ := canonical.settles_name hx called
    exact ⟨canonical.below_name hx called, stages.closed.ne_unspecified_of_settles has settles⟩
  · intro x name hx called
    obtain ⟨y, listed, has, settles⟩ := canonical.settles_name hx called
    obtain ⟨w, settles', -, kept⟩ := stages.scopeSettles.present listed
    cases settles.unique settles'
    rcases kept with ⟨listed', -⟩ | ⟨absent, z, eq, named⟩
    · exact .inl listed'
    refine .inr ⟨absent, z, eq, ?_⟩
    obtain ⟨hasZ, self, -⟩ := stages.settles_of_below (canonical.below_name hx called)
    rw [eq] at hasZ self
    obtain ⟨_, name', -, -, found, -⟩ := canonical.exists_var hasZ self
    have named' : stages.after.name? z = some name' := by simp [name?, found]
    rw [stages.name?_after] at named'
    cases named.symm.trans named'
    exact found

end Stages

end FeatureLogic
