import FeatureLogic.Proofs.Copy.Scoped
import FeatureLogic.Proofs.Copy.Structures
import FeatureLogic.Scope.Alias

/-!
# Copies outside of any scope

Without a scope a bound variable is copied as its value, and a free one as a new variable for the
end of its chain of aliases. So the structures and the free variables that paths lead to have one
new node each for a copy, and every other variable on the way has the copy of what it stands for.
The memory of one copying can be used for the next one, which then finds what the two values have in
common.
-/

namespace FeatureLogic

def Copying.addRoot (m : Copying) (x y : VarId) : Copying :=
  (m.addVar x (.var y)).addVar y (.var y)

theorem Copying.lookup_addRoot (m : Copying) (x y z : VarId) :
    (m.addRoot x y).images.vars.lookup z =
      if z = y ∨ z = x then some (.var y) else m.images.vars.lookup z := by
  simp only [addRoot, lookup_addVar]
  by_cases isY : z = y <;> by_cases isX : z = x <;> simp [isY, isX]

namespace Graph

open Copying

structure Doubles (g : Graph) (D : Value → Prop) (h : Graph) (m : Copying) : Prop where
  confines : g.Confines h m
  image : ∀ {s t}, m.images.structs.lookup s = some t → s = t ∨ D (.struct s)
  injective : ∀ {s s' t}, g.Contains (.struct s) → g.Contains (.struct s') →
    m.images.structs.lookup s = some t → m.images.structs.lookup s' = some t → s = s'
  origin : ∀ {t}, (g.added h).Has (.struct t) →
    ∃ s, D (.struct s) ∧ m.images.structs.lookup s = some t
  stands : ∀ {x v}, m.images.vars.lookup x = some v → (g.added h).Has (.var x) ∨
    D (.var x) ∧ ∃ u, g.deref? (.var x) = some u ∧ Imaged m u ∧ m.images.apply u = v
  root : ∀ {x v}, g.deref? (.var x) = some (.var x) → m.images.vars.lookup x = some v →
    ∃ y, v = .var y ∧ h.name? y = g.name? x
  injectiveVar : ∀ {x x' v}, g.deref? (.var x) = some (.var x) →
    g.deref? (.var x') = some (.var x') → m.images.vars.lookup x = some v →
    m.images.vars.lookup x' = some v → x = x'
  originVar : ∀ {y}, (g.added h).Has (.var y) → ∃ x, D (.var x) ∧
    g.deref? (.var x) = some (.var x) ∧ m.images.vars.lookup x = some (.var y)

variable {g h : Graph} {D D' : Value → Prop} {m : Copying} {v w u : Value}

theorem doubles_start (wf : g.WellFormed) (D : Value → Prop) : g.Doubles D g {} where
  confines := confines_start wf fun name v found => by cases found
  image found := by cases found
  injective _ _ found := by cases found
  origin has := absurd has (not_added_self rfl)
  stands found := by cases found
  root _ found := by cases found
  injectiveVar _ _ found := by cases found
  originVar has := absurd has (not_added_self rfl)

namespace Doubles

theorem mono (doubles : g.Doubles D h m) (more : ∀ {u}, D u → D' u) : g.Doubles D' h m :=
  { doubles with
    image := fun found => (doubles.image found).imp_right more
    origin := fun has => (doubles.origin has).imp fun _ => And.imp_left more
    stands := fun found => (doubles.stands found).imp_right (And.imp_left more)
    originVar := fun has => (doubles.originVar has).imp fun _ => And.imp_left more }

theorem unused (doubles : g.Doubles D h m) (domain : g.Domain D) :
    m.images.structs.lookup h.nextStruct = none := by
  refine Option.eq_none_iff_forall_not_mem.2 fun t found => ?_
  rcases doubles.image found with rfl | old
  · exact not_added_nextStruct (doubles.confines.image found)
  · exact Nat.not_lt.2 doubles.confines.structs (domain.contains old)

theorem ne_nextVar (doubles : g.Doubles D h m) {x : VarId} (inside : g.Contains (.var x)) :
    x ≠ h.nextVar := by
  rintro rfl
  exact Nat.not_lt.2 doubles.confines.vars inside

theorem unusedVar (doubles : g.Doubles D h m) : m.images.vars.lookup h.nextVar = none := by
  refine Option.eq_none_iff_forall_not_mem.2 fun v found => ?_
  rcases doubles.stands found with has | ⟨-, u, reads, -⟩
  · exact not_added_nextVar has
  · exact doubles.ne_nextVar (contains_of_deref? reads) rfl

theorem addStruct (doubles : g.Doubles D h m) (domain : g.Domain D) {s : StructId}
    (hs : D (.struct s)) (fresh : m.images.structs.lookup s = none) :
    g.Doubles D (h.addStruct ∅) (m.addStruct s h.nextStruct) := by
  have confines := doubles.confines
  have inside := domain.contains hs
  have own {u t : StructId} (hu : g.Contains (.struct u))
      (found : (m.addStruct s h.nextStruct).images.structs.lookup u = some t) :
      t = h.nextStruct ∧ u = s ∨ m.images.structs.lookup u = some t := by
    rcases lookup_addStruct_eq_some found with ⟨rfl, rfl | rfl⟩ | found
    · exact absurd hu (Nat.not_lt.2 confines.structs)
    · exact .inl ⟨rfl, rfl⟩
    · exact .inr found
  have more : Extends (h, m) (h.addStruct ∅, m.addStruct s h.nextStruct) :=
    extends_addStruct fresh (doubles.unused domain)
  refine ⟨confines.addStruct (inside.mono confines.structs confines.vars) fresh, ?_, ?_,
    exists_origin_addStruct confines.structs domain.contains hs fresh doubles.origin, ?_,
    doubles.root, doubles.injectiveVar, doubles.originVar⟩
  · intro u t found
    rcases lookup_addStruct_eq_some found with ⟨rfl, rfl | rfl⟩ | found
    · exact .inl rfl
    · exact .inr hs
    · exact doubles.image found
  · intro u u' t hu hu' found found'
    rcases own hu found with ⟨rfl, rfl⟩ | before
    · rcases own hu' found' with ⟨-, rfl⟩ | before'
      · rfl
      · exact absurd (confines.image before') not_added_nextStruct
    · rcases own hu' found' with ⟨rfl, rfl⟩ | before'
      · exact absurd (confines.image before) not_added_nextStruct
      · exact doubles.injective hu hu' before before'
  · intro x v found
    refine (doubles.stands found).imp_right (And.imp_right ?_)
    rintro ⟨u, reads, imaged, rfl⟩
    exact ⟨u, reads, more.imaged imaged, more.apply_eq imaged⟩

theorem setFeature (doubles : g.Doubles D h m) {t : StructId} (has : (g.added h).Has (.struct t))
    (hasValue : (g.added h).Has v) (name : String) :
    g.Doubles D (h.setFeature t name v) m := by
  have region : g.added (h.setFeature t name v) = g.added h := by simp [added]
  exact ⟨doubles.confines.setFeature has name hasValue, doubles.image, doubles.injective,
    region ▸ doubles.origin, region ▸ doubles.stands, doubles.root, doubles.injectiveVar,
    region ▸ doubles.originVar⟩

theorem has_apply (doubles : g.Doubles D h m) (imaged : Imaged m u) :
    (g.added h).Has (m.images.apply u) := by
  cases u with
  | atom a => trivial
  | struct s =>
    obtain ⟨t, found⟩ := imaged
    simpa [Images.apply, found] using doubles.confines.image found
  | var x =>
    obtain ⟨v, found⟩ := imaged
    simpa [Images.apply, found] using doubles.confines.imageVar found

theorem apply_eq (doubles : g.Doubles D h m) (imaged : Imaged m u) (reads : g.deref? u = some w) :
    Imaged m w ∧ m.images.apply w = m.images.apply u := by
  cases u with
  | atom a =>
    cases reads
    exact ⟨trivial, rfl⟩
  | struct s =>
    cases reads
    exact ⟨imaged, rfl⟩
  | var x =>
    obtain ⟨v, found⟩ := imaged
    rcases doubles.stands found with has | ⟨-, u, reads', imaged, same⟩
    · exact absurd has (not_added_of_contains (contains_of_deref? reads) rfl)
    · cases reads.symm.trans reads'
      exact ⟨imaged, by rw [same, Images.apply, found, Option.getD_some]⟩

theorem addImage (doubles : g.Doubles D h m) {x : VarId} (hx : D (.var x))
    (reads : g.deref? (.var x) = some u) (imaged : Imaged m u) :
    g.Doubles D h (m.addVar x (m.images.apply u)) ∧
      Extends (h, m) (h, m.addVar x (m.images.apply u)) := by
  have kept {z : VarId} {v : Value} (found : m.images.vars.lookup z = some v) :
      (m.addVar x (m.images.apply u)).images.vars.lookup z = some v := by
    rw [lookup_addVar]
    split
    · next eq =>
      subst eq
      have imaged : Imaged m (.var z) := ⟨v, found⟩
      rw [(doubles.apply_eq imaged reads).2, Images.apply, found, Option.getD_some]
    · exact found
  -- what stands for itself keeps its copy, if it is the variable in question
  have root {z : VarId} {v : Value} (self : g.deref? (.var z) = some (.var z))
      (found : (m.addVar x (m.images.apply u)).images.vars.lookup z = some v) :
      m.images.vars.lookup z = some v := by
    rw [lookup_addVar] at found
    split at found
    · next eq =>
      subst eq
      cases reads.symm.trans self
      obtain ⟨w, found'⟩ := imaged
      simpa [Images.apply, found'] using found
    · exact found
  have more : Extends (h, m) (h, m.addVar x (m.images.apply u)) := ⟨Nat.le_refl _, id, kept⟩
  refine ⟨{ doubles with
    confines := doubles.confines.addImage x (doubles.has_apply imaged)
    stands := fun {z v} found => ?_
    root := fun self found => doubles.root self (root self found)
    injectiveVar := fun self self' found found' =>
      doubles.injectiveVar self self' (root self found) (root self' found')
    originVar := fun has => ?_ }, more⟩
  · rw [lookup_addVar] at found
    split at found
    · next eq =>
      cases found
      subst eq
      exact .inr ⟨hx, u, reads, more.imaged imaged, more.apply_eq imaged⟩
    · refine (doubles.stands found).imp_right (And.imp_right ?_)
      rintro ⟨u', reads', imaged', rfl⟩
      exact ⟨u', reads', more.imaged imaged', more.apply_eq imaged'⟩
  · obtain ⟨z, hz, self, found⟩ := doubles.originVar has
    exact ⟨z, hz, self, kept found⟩

theorem extends_addRoot (doubles : g.Doubles D h m) {x : VarId}
    (fresh : m.images.vars.lookup x = none) (node : Variable) :
    Extends (h, m) (h.addVar node, m.addRoot x h.nextVar) where
  structCount := Nat.le_refl _
  structs found := found
  vars {z v} found := by
    rw [lookup_addRoot, if_neg, found]
    rintro (rfl | rfl)
    · cases doubles.unusedVar.symm.trans found
    · cases fresh.symm.trans found

theorem addRoot (doubles : g.Doubles D h m) {x : VarId} {name : String} (hx : D (.var x))
    (present : g.var? x = some { name }) (fresh : m.images.vars.lookup x = none) :
    g.Doubles D (h.addVar { name }) (m.addRoot x h.nextVar) := by
  have confines := doubles.confines
  have self := deref?_of_free present
  have iff {y : VarId} : (g.added (h.addVar { name })).Has (.var y) ↔
      (g.added h).Has (.var y) ∨ y = h.nextVar := added_addVar confines.vars
  have new : (g.added (h.addVar { name })).Has (.var h.nextVar) := iff.2 (.inr rfl)
  have mine : (m.addRoot x h.nextVar).images.vars.lookup x = some (.var h.nextVar) :=
    (lookup_addRoot ..).trans (if_pos (.inr rfl))
  have more := doubles.extends_addRoot fresh { name }
  have newer {z : VarId} : m.images.vars.lookup z ≠ some (.var h.nextVar) := fun before =>
    not_added_nextVar (confines.imageVar before)
  -- among the variables from before, only the copy of `x` is a new one
  have own {z : VarId} {v : Value} (inside : g.Contains (.var z))
      (found : (m.addRoot x h.nextVar).images.vars.lookup z = some v) :
      z = x ∧ v = .var h.nextVar ∨ m.images.vars.lookup z = some v := by
    rw [lookup_addRoot] at found
    split at found
    · next eq =>
      exact .inl ⟨eq.resolve_left (doubles.ne_nextVar inside), by simpa using found.symm⟩
    · exact .inr found
  constructor
  case confines => exact ((confines.addVar name).addImage x new).addImage h.nextVar new
  case image => exact doubles.image
  case injective => exact doubles.injective
  case origin => exact doubles.origin
  case stands =>
    intro z v found
    rw [lookup_addRoot] at found
    split at found
    · next eq =>
      cases found
      rcases eq with rfl | rfl
      · exact .inl new
      · have same : (m.addRoot z h.nextVar).images.apply (.var z) = .var h.nextVar := by
          rw [Images.apply, mine, Option.getD_some]
        exact .inr ⟨hx, .var z, self, ⟨_, mine⟩, same⟩
    · refine (doubles.stands found).imp (fun has => iff.2 (.inl has)) (And.imp_right ?_)
      rintro ⟨u, reads, imaged, rfl⟩
      exact ⟨u, reads, more.imaged imaged, more.apply_eq imaged⟩
  case root =>
    intro z v self' found
    rcases own (contains_of_deref? self') found with ⟨rfl, rfl⟩ | before
    · exact ⟨h.nextVar, rfl, by rw [name?_addVar, if_pos rfl]; simp [name?, present]⟩
    · obtain ⟨y, rfl, called⟩ := doubles.root self' before
      refine ⟨y, rfl, ?_⟩
      rw [name?_addVar, if_neg, called]
      rintro rfl
      exact newer before
  case injectiveVar =>
    intro z z' v self' self'' found found'
    rcases own (contains_of_deref? self') found with ⟨rfl, rfl⟩ | before
    · rcases own (contains_of_deref? self'') found' with ⟨rfl, -⟩ | before'
      · rfl
      · exact absurd before' newer
    · rcases own (contains_of_deref? self'') found' with ⟨rfl, rfl⟩ | before'
      · exact absurd before newer
      · exact doubles.injectiveVar self' self'' before before'
  case originVar =>
    intro y has
    rcases iff.1 has with before | rfl
    · obtain ⟨z, hz, self', found⟩ := doubles.originVar before
      exact ⟨z, hz, self', more.vars found⟩
    · exact ⟨x, hx, self, mine⟩

end Doubles

theorem Domain.upkeep (domain : g.Domain D) : Upkeep g D (g.Doubles D) where
  structs doubles := doubles.confines.structs
  few doubles := doubles.confines.structCount_le
  frames doubles := doubles.confines.frames
  unused doubles := doubles.unused domain
  has doubles := doubles.has_apply
  enter doubles hs fresh := doubles.addStruct domain hs fresh
  fill doubles has hasValue name := doubles.setFeature has hasValue name

/-- Outside of a scope a variable gets the copy of what it stands for. -/
theorem copyVarPlain_copies (wf : g.WellFormed) (domain : g.Domain D) {fuel : Nat}
    {copyStruct : StructId → Copying.Walk → Option (StructId × Copying.Walk)}
    (structs : CopyStructEnds g D (g.Doubles D) fuel copyStruct) :
    CopyVarEnds g D (g.Doubles D) fuel (copyVarPlain copyStruct) := by
  rintro x ⟨h, m⟩ hx doubles fresh enough
  obtain ⟨u, reads, -⟩ := wf.exists_deref (domain.contains hx)
  have hu := domain.deref hx reads
  have reads' : h.deref? (.var x) = some u := doubles.confines.frames.deref?_eq_some reads
  -- once `u` has its copy, `x` gets it too
  have finish {W : Copying.Walk} (copied : Copied g D (g.Doubles D) (h, m) W)
      (imaged : Imaged W.2 u)
      (walked : copyVarPlain copyStruct x (h, m) = some (W.2.images.apply u, W)) :
      ∃ v W', (copyVarPlain copyStruct x (h, m)).map
          (fun r => (r.1, r.2.1, r.2.2.addVar x r.1)) = some (v, W') ∧
        Copied g D (g.Doubles D) (h, m) W' ∧ W'.2.images.vars.lookup x = some v := by
    obtain ⟨kept, more⟩ := copied.kept.addImage hx reads imaged
    exact ⟨_, _, by rw [walked]; rfl, copied.trans (.still kept more rfl),
      by rw [lookup_addVar, if_pos rfl]⟩
  cases u with
  | atom a => exact finish (.refl doubles) trivial (by simp [copyVarPlain, reads', Images.apply])
  | struct s =>
    obtain ⟨t, W, walked, copied, found⟩ := structs s (h, m) hu doubles enough
    exact finish copied ⟨t, found⟩ (by simp [copyVarPlain, reads', walked, Images.apply, found])
  | var root =>
    cases known : m.images.vars.lookup root with
    | some v =>
      exact finish (.refl doubles) ⟨v, known⟩
        (by simp [copyVarPlain, reads', known, Images.apply])
    | none =>
      obtain ⟨name, present⟩ := wf.free_of_deref? reads
      have present' : h.var? root = some { name } :=
        doubles.confines.frames.var?_eq_some present
      have found : (m.addRoot root h.nextVar).images.vars.lookup root = some (.var h.nextVar) :=
        (lookup_addRoot ..).trans (if_pos (.inr rfl))
      refine finish (W := (h.addVar { name }, m.addRoot root h.nextVar))
        (.still (doubles.addRoot hu present known) (doubles.extends_addRoot known _) rfl)
        ⟨_, found⟩ ?_
      rw [Images.apply, found, Option.getD_some]
      simp [copyVarPlain, reads', known, copyVar?_of_free present', addRoot]

theorem copyStructPlain_doubles (wf : g.WellFormed) (domain : g.Domain D) (fuel : Nat) :
    CopyStructEnds g D (g.Doubles D) fuel (copyStructPlain fuel) := by
  induction fuel with
  | zero =>
    intro s W _ doubles enough
    have := doubles.confines.structCount_le
    omega
  | succ fuel ih =>
    exact copyNode_copies domain domain.upkeep
      (copyValue_copies ih (copyVarPlain_copies wf domain ih))

theorem copyPlain_doubles (wf : g.WellFormed) (domain : g.Domain D) (hv : D v)
    {W : Copying.Walk} (doubles : g.Doubles D W.1 W.2) :
    ∃ W', copyPlain v W = some (W'.2.images.apply v, W') ∧
      Copied g D (g.Doubles D) W W' ∧ Imaged W'.2 v := by
  have structs := copyStructPlain_doubles wf domain (W.1.structCount + 1)
  refine copyValue_copies structs (copyVarPlain_copies wf domain structs) v W hv doubles ?_
  have := doubles.confines.structs
  omega

end Graph

end FeatureLogic
