import FeatureLogic.Proofs.Copy.Structures

/-!
# Copying plain operands

The copying of operands without bound variables ends. In the end each copy has the copies of the
features of its original, and a variable has the copy that the scope lists under its name.
-/

namespace FeatureLogic.Graph

open Copying

variable {g : Graph} {D : Value → Prop} {W W' : Copying.Walk}

theorem Copies.structCount_le {h : Graph} {m : Copying} (copies : g.Copies D h m)
    (source : g.Source D) : h.structCount ≤ 2 * g.structCount := by
  refine structCount_le_of_origin (m := m) fun has => ?_
  obtain ⟨s, hs, found⟩ := copies.origin has
  exact ⟨s, source.contains hs, found⟩

theorem Copies.has_apply {h : Graph} {m : Copying} (copies : g.Copies D h m) {v : Value}
    (imaged : Imaged m v) : (g.added h).Has (m.images.apply v) := by
  cases v with
  | atom a => trivial
  | struct s =>
    obtain ⟨t, found⟩ := imaged
    simp only [Images.apply, found]
    exact (copies.image found).1
  | var x =>
    obtain ⟨v, found⟩ := imaged
    obtain ⟨y, rfl, has, -⟩ := copies.imageVar found
    simp only [Images.apply, found]
    exact has

theorem Source.upkeep (source : g.Source D) : Upkeep g D (g.Copies D) where
  structs := Copies.structs
  few copies := copies.structCount_le source
  frames := Copies.frames
  unused {h m} copies := by
    refine Option.eq_none_iff_forall_not_mem.2 fun t found => ?_
    rcases (copies.image found).2 with rfl | hs
    · exact not_added_nextStruct (copies.image found).1
    · exact Nat.not_lt.2 copies.structs (source.contains hs)
  has copies := copies.has_apply
  enter copies hs fresh := copies.addStruct source hs fresh
  fill copies has _ name := copies.setFeature has name _

theorem copyVarScoped_of_unlisted {h : Graph} {m : Copying} {x : VarId} {name : String}
    (fresh : m.images.vars.lookup x = none) (found : h.var? x = some { name })
    (unlisted : m.scope.get? name = none) :
    copyVarScoped x (h, m) = some (.var h.nextVar, h.addVar { name },
      (m.addFree x h.nextVar x).bindAll [name] (.var h.nextVar)) := by
  have named : h.name? x = some name := by simp [name?, found]
  have followed : aliases h m.scope (m.scope.size + 1) name [name] (.var x) =
      some ([name], .var x) := by simp [aliases, unlisted]
  have plain := copyPlain_of_free fresh fresh (deref?_of_free found) (copyVar?_of_free found)
  simp [copyVarScoped, named, followed, plain, bindAll]

/-- A variable under whose name the scope lists a free variable of that name, which is the copy of
itself, is copied as that variable. -/
theorem copyVarScoped_of_listed {h : Graph} {m : Copying} {x y : VarId} {name : String}
    (called : h.name? x = some name) (listed : m.scope.get? name = some (.var y))
    (found : h.var? y = some { name }) (self : m.images.vars.lookup y = some (.var y)) :
    copyVarScoped x (h, m) = some (.var y, h, m) := by
  have reads : h.deref? (.var y) = some (.var y) := deref?_of_free found
  have same : m.scope.insert name (.var y) = m.scope := by
    refine NameMap.ext fun key => ?_
    rw [NameMap.get?_insert]
    split
    · next eq => rw [← eq, listed]
    · rfl
  have called' : h.name? y = some name := by simp [name?, found]
  have followed : aliases h m.scope (m.scope.size + 1) name [name] (.var x) =
      some ([name], .var y) := by simp [aliases, listed, reads, called']
  have plain : copyPlain (.var y) (h, m) = some (.var y, h, m) := by
    simp [copyPlain, copyValue, self]
  simp [copyVarScoped, called, followed, plain, same]

structure CopiedVar (g : Graph) (D : Value → Prop) (W : Copying.Walk) (x y : VarId)
    (W' : Copying.Walk) : Prop where
  copied : Copied g D (g.Copies D) W W'
  image : W'.2.images.vars.lookup x = some (.var y)

theorem copyVar_first (source : g.Source D) {h : Graph} {m : Copying} {x : VarId} {name : String}
    (hx : D (.var x)) (copies : g.Copies D h m) (fresh : m.images.vars.lookup x = none)
    (found : h.var? x = some { name }) (called : g.name? x = some name)
    (unnamed : m.scope.get? name = none) :
    ∃ W', (copyVarScoped x (h, m)).map (fun (v, g, m) => (v, g, m.addVar x v)) =
        some (.var h.nextVar, W') ∧
      CopiedVar g D (h, m) x h.nextVar W' := by
  have unused : m.images.vars.lookup h.nextVar = none := by
    refine Option.eq_none_iff_forall_not_mem.2 fun v holds => ?_
    obtain ⟨y, rfl, has, rfl | ⟨source', -⟩⟩ := copies.imageVar holds
    · exact Nat.lt_irrefl _ has.2
    · exact Nat.not_lt.2 copies.vars (source.contains source')
  exact ⟨(h.addVar { name }, m.addFirst x h.nextVar name),
    by rw [copyVarScoped_of_unlisted fresh found unnamed]; rfl,
    .still (copies.addFirst source hx called unnamed) (extends_addFirst fresh unused _) rfl,
    (lookup_addFirst ..).trans (if_pos (.inl rfl))⟩

theorem copyVar_again (source : g.Source D) {h : Graph} {m : Copying} {x y : VarId} {name : String}
    (hx : D (.var x)) (copies : g.Copies D h m) (fresh : m.images.vars.lookup x = none)
    (found : h.var? x = some { name }) (called : g.name? x = some name)
    (listed : m.scope.get? name = some (.var y)) :
    ∃ W', (copyVarScoped x (h, m)).map (fun (v, g, m) => (v, g, m.addVar x v)) =
        some (.var y, W') ∧
      CopiedVar g D (h, m) x y W' := by
  obtain ⟨_, ⟨⟩, has, found'⟩ := copies.scope listed
  have walked : copyVarScoped x (h, m) = some (.var y, h, m) :=
    copyVarScoped_of_listed (by simp [name?, found]) listed found' (copies.selfVar has)
  exact ⟨(h, m.addVar x (.var y)), by rw [walked]; rfl,
    .still (copies.again source hx called listed) (extends_addVar fresh) rfl,
    by simp [lookup_addVar]⟩

theorem copyVar_copies (source : g.Source D) {fuel : Nat} :
    CopyVarEnds g D (g.Copies D) fuel copyVarScoped := by
  rintro x ⟨h, m⟩ hx copies fresh -
  obtain ⟨name, found⟩ := source.free hx
  have old : x.index < g.varCount := source.contains hx
  have found' : h.var? x = some { name } := (copies.frames.var old).trans found
  have called : g.name? x = some name := by simp [name?, found]
  cases listed : m.scope.get? name with
  | none =>
    obtain ⟨W', walked, copied, image⟩ := copyVar_first source hx copies fresh found' called listed
    exact ⟨_, W', walked, copied, image⟩
  | some v =>
    obtain ⟨y, rfl, -⟩ := copies.scope listed
    obtain ⟨W', walked, copied, image⟩ := copyVar_again source hx copies fresh found' called listed
    exact ⟨_, W', walked, copied, image⟩

theorem copyStructScoped_copies (source : g.Source D) (fuel : Nat) :
    CopyStructEnds g D (g.Copies D) fuel (copyStructScoped fuel) := by
  induction fuel with
  | zero =>
    intro s W _ copies enough
    have := copies.structCount_le source
    omega
  | succ fuel ih =>
    exact copyNode_copies source.domain source.upkeep (copyValue_copies ih (copyVar_copies source))

theorem copyScoped_copies (source : g.Source D) {v : Value} (hv : D v)
    (copies : g.Copies D W.1 W.2) :
    ∃ W', copyScoped v W = some (W'.2.images.apply v, W') ∧ Copied g D (g.Copies D) W W' ∧
      Imaged W'.2 v := by
  refine copyValue_copies (copyStructScoped_copies source _) (copyVar_copies source) v W hv
    copies ?_
  have := copies.structs
  omega

def Operands (g : Graph) (a b v : Value) : Prop := g.Below a v ∨ g.Below b v

theorem Plain.source {a b : Value} (ha : g.Plain a) (hb : g.Plain b) :
    g.Source (g.Operands a b) where
  contains hv := hv.elim ha.contains hb.contains
  free hx := hx.elim ha.free hb.free
  feature hs found holds :=
    hs.imp (fun below => .feature below found holds) fun below => .feature below found holds

/-- The copies of two plain operands under an empty common scope. The scope lists the copies of
their variables by name. -/
theorem Plain.exists_copyOperands {a b : Value} (ha : g.Plain a) (hb : g.Plain b) :
    ∃ h m, g.copyOperands a b (.common ∅) =
        some (m.images.apply a, m.images.apply b, .common m.scope, h) ∧
      g.Copies (g.Operands a b) h m ∧
      (∀ t, (g.added h).Has (.struct t) → Complete g (g.Operands a b) (h, m) t) ∧
      Imaged m a ∧ Imaged m b := by
  have source := ha.source hb
  obtain ⟨W₁, walked, copied, known⟩ := copyScoped_copies (W := (g, {})) source
    (show g.Operands a b a from .inl .refl) (copies_start g _)
  obtain ⟨W₂, walked', copied', known'⟩ := copyScoped_copies (W := W₁) source
    (show g.Operands a b b from .inr .refl) copied.kept
  have all := copied.trans copied'
  have scope : W₂.2.scope.map W₂.2.images.apply = W₂.2.scope := by
    refine NameMap.ext fun name => ?_
    rw [NameMap.get?_map]
    cases listed : W₂.2.scope.get? name with
    | none => rfl
    | some v =>
      obtain ⟨y, rfl, has, -⟩ := all.kept.scope listed
      simp [Images.apply, all.kept.selfVar has]
  refine ⟨W₂.1, W₂.2, ?_, all.kept, fun t has => all.complete t has.1 has.2,
    copied'.more.imaged known, known'⟩
  simp only [copyOperands, walked, walked', Option.bind_eq_bind, Option.bind_some, scope,
    copied'.more.apply_eq known]
  rfl

end FeatureLogic.Graph
