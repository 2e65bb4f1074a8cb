import FeatureLogic.Proofs.Copy.Tied

/-!
# Copying operands with their names apart

Two plain operands are copied in scopes of their own, both empty at first. While one of them is
copied, a variable that has no copy yet gets the one that the scope in force lists under its name.
So among the variables that the first operand has, and among those that only the second one has,
the same name means the same copy. Variables of the two kinds never have a copy in common.
-/

namespace FeatureLogic.Graph

open Copying

variable {g h k : Graph} {D : Value → Prop} {start : Copying.Walk} {m : Copying} {a b : Value}
  {left right : Scope}

/-- What holds while values in `D` are copied in a scope that was empty when the walk was at
`start`. -/
structure Apart (g : Graph) (D : Value → Prop) (start : Copying.Walk) (h : Graph) (m : Copying) :
    Prop extends g.Aligned ∅ h m where
  more : Extends start (h, m)
  varCount : start.1.varCount ≤ h.varCount
  kept : ∀ {y : VarId}, y.index < start.1.varCount → h.var? y = start.1.var? y
  listed : ∀ {name v}, m.scope.get? name = some v →
    ∃ y, v = .var y ∧ start.1.varCount ≤ y.index ∧ h.var? y = some { name }
  image : ∀ {x v}, g.Contains (.var x) → m.images.vars.lookup x = some v →
    start.2.images.vars.lookup x = some v ∨
      start.2.images.vars.lookup x = none ∧ D (.var x) ∧
        ∃ name, g.name? x = some name ∧ m.scope.get? name = some v
  origin : ∀ {name v}, m.scope.get? name = some v →
    ∃ x, D (.var x) ∧ g.name? x = some name ∧ m.images.vars.lookup x = some v
  named : ∀ {y}, (start.1.added h).Has (.var y) → ∃ name, m.scope.get? name = some (.var y)

theorem Aligned.relist (aligned : g.Aligned ∅ h m) {scope : Scope}
    (added : ∀ name v, scope.get? name = some v → ∃ y, v = .var y ∧ (g.added h).Has (.var y)) :
    g.Aligned ∅ h { m with scope } := by
  have within : scope.Within h := by
    intro name v found
    obtain ⟨y, rfl, has⟩ := added name v found
    exact contains_of_added has
  refine
    { aligned with
      confines := aligned.confines.changeScope within
      informs := ?informs
      follows := ?follows
      onward := ?onward }
  case informs =>
    intro name v bears
    obtain ⟨y, rfl, -⟩ := added name v bears.1
    simp [Value.unspecified]
  case follows =>
    intro name
    cases found : scope.get? name with
    | none => exact .inr rfl
    | some v =>
      obtain ⟨y, rfl, has⟩ := added name v found
      exact .inl ⟨.var y, bears_of_added found has⟩
  case onward =>
    intro name next v bears tie
    obtain ⟨x, found⟩ := tie.exists_entry
    cases found

theorem apart_start (aligned : g.Aligned ∅ h m) (empty : m.scope = ∅) :
    g.Apart D (h, m) h m where
  toAligned := aligned
  more := .refl _
  varCount := Nat.le_refl _
  kept _ := rfl
  listed found := by
    rw [empty] at found
    cases found
  image _ found := .inl found
  origin found := by
    rw [empty] at found
    cases found
  named has := absurd has.2 (Nat.not_lt.2 has.1)

namespace Apart

variable (apart : g.Apart D start h m)

include apart

theorem added_of_listed (vars : g.varCount ≤ start.1.varCount) {name : String} {v : Value}
    (found : m.scope.get? name = some v) :
    ∃ y, v = .var y ∧ (g.added h).Has (.var y) ∧ h.var? y = some { name } := by
  obtain ⟨y, rfl, later, present⟩ := apart.listed found
  exact ⟨y, rfl, ⟨vars.trans later, contains_of_var? present⟩, present⟩

theorem addStruct {s : StructId} (inside : g.Contains (.struct s))
    (fresh : m.images.structs.lookup s = none) :
    g.Apart D start (h.addStruct ∅) (m.addStruct s h.nextStruct) :=
  ⟨apart.toAligned.addStruct inside fresh,
    apart.more.trans (extends_addStruct fresh apart.toAligned.unused), apart.varCount, apart.kept,
    apart.listed, apart.image, apart.origin, apart.named⟩

theorem setFeature {t : StructId} {v : Value} (has : (g.added h).Has (.struct t))
    (hasValue : (g.added h).Has v) (name : String) :
    g.Apart D start (h.setFeature t name v) m :=
  ⟨apart.toAligned.setFeature has hasValue name,
    ⟨apart.more.structCount.trans (by simp), apart.more.structs, apart.more.vars⟩, apart.varCount,
    apart.kept, apart.listed, apart.image, apart.origin, apart.named⟩

theorem fresh_start {x : VarId} (fresh : m.images.vars.lookup x = none) :
    start.2.images.vars.lookup x = none := by
  cases known : start.2.images.vars.lookup x with
  | none => rfl
  | some w => cases fresh.symm.trans (apart.more.vars known)

theorem origin_mono {name : String} {v : Value} {k : Graph} {l : Copying}
    (more : Extends (h, m) (k, l)) (found : m.scope.get? name = some v) :
    ∃ x, D (.var x) ∧ g.name? x = some name ∧ l.images.vars.lookup x = some v := by
  obtain ⟨x, hx, called, copied⟩ := apart.origin found
  exact ⟨x, hx, called, more.vars copied⟩

theorem addImage (vars : g.varCount ≤ start.1.varCount) {x : VarId} {name : String} {v : Value}
    (hx : D (.var x)) (inside : g.Contains (.var x)) (called : g.name? x = some name)
    (fresh : m.images.vars.lookup x = none) (listed : m.scope.get? name = some v) :
    g.Apart D start h (m.addVar x v) := by
  obtain ⟨y, rfl, has, -⟩ := apart.added_of_listed vars listed
  have more : Extends (h, m) (h, m.addVar x (.var y)) := extends_addVar fresh
  refine ⟨apart.toAligned.addImage inside has, apart.more.trans more, apart.varCount, apart.kept,
    apart.listed, ?_, apart.origin_mono more, apart.named⟩
  intro z w insideZ found
  rw [lookup_addVar] at found
  split at found
  · next eq =>
    subst eq
    cases found
    exact .inr ⟨apart.fresh_start fresh, hx, name, called, listed⟩
  · exact apart.image insideZ found

theorem listed_addFirst {x : VarId} {name key : String} {v : Value}
    (found : (m.addFirst x h.nextVar name).scope.get? key = some v) :
    ∃ y, v = .var y ∧ start.1.varCount ≤ y.index ∧
      (h.addVar { name }).var? y = some { name := key } := by
  rw [get?_addFirst] at found
  split at found
  · next eq =>
    cases found
    exact ⟨h.nextVar, rfl, apart.varCount, by rw [var?_addVar, if_pos rfl, eq]⟩
  · obtain ⟨y, rfl, later, present⟩ := apart.listed found
    refine ⟨y, rfl, later, ?_⟩
    rw [var?_addVar, if_neg, present]
    rintro rfl
    exact Nat.lt_irrefl _ (contains_of_var? present)

/-- The first variable of a name gets a new variable for a copy, which is listed then. -/
theorem addFirst (vars : g.varCount ≤ start.1.varCount) {x : VarId} {name : String}
    (hx : D (.var x)) (inside : g.Contains (.var x)) (called : g.name? x = some name)
    (fresh : m.images.vars.lookup x = none) (unlisted : m.scope.get? name = none) :
    g.Apart D start (h.addVar { name }) (m.addFirst x h.nextVar name) := by
  have more : Extends (h, m) (h.addVar { name }, m.addFirst x h.nextVar name) :=
    extends_addFirst fresh apart.toAligned.unusedVar _
  -- the new name was not listed, so that nothing under another name is lost
  have kept {key : String} {v : Value} (found : m.scope.get? key = some v) :
      (m.addFirst x h.nextVar name).scope.get? key = some v := by
    rw [get?_addFirst, if_neg, found]
    rintro rfl
    cases unlisted.symm.trans found
  refine ⟨?aligned, apart.more.trans more, apart.varCount.trans (by simp), ?kept,
    apart.listed_addFirst, ?image, ?origin, ?named⟩
  case aligned =>
    have has : (g.added (h.addVar { name })).Has (.var h.nextVar) :=
      (added_addVar apart.confines.vars).2 (.inr rfl)
    have added (key : String) (v : Value)
        (found : (m.addFirst x h.nextVar name).scope.get? key = some v) :
        ∃ y, v = .var y ∧ (g.added (h.addVar { name })).Has (.var y) := by
      obtain ⟨y, rfl, later, present⟩ := apart.listed_addFirst found
      exact ⟨y, rfl, vars.trans later, contains_of_var? present⟩
    exact (((apart.toAligned.addVar inside name).addImage inside has).relist
      added).addImage inside has
  case kept =>
    intro y old
    rw [var?_addVar, if_neg, apart.kept old]
    rintro rfl
    exact Nat.not_lt.2 apart.varCount old
  case image =>
    intro z v insideZ found
    rw [lookup_addFirst] at found
    split at found
    · next eq =>
      obtain rfl : z = x := by
        rcases eq with rfl | rfl
        · rfl
        · exact absurd insideZ (Nat.not_lt.2 apart.confines.vars)
      cases found
      exact .inr ⟨apart.fresh_start fresh, hx, name, called, by rw [get?_addFirst, if_pos rfl]⟩
    · rcases apart.image insideZ found with known | ⟨unknown, hz, key, called', listed⟩
      · exact .inl known
      · exact .inr ⟨unknown, hz, key, called', kept listed⟩
  case origin =>
    intro key v found
    rw [get?_addFirst] at found
    split at found
    · next eq =>
      cases found
      exact ⟨x, hx, eq ▸ called, (lookup_addFirst ..).trans (if_pos (.inl rfl))⟩
    · exact apart.origin_mono more found
  case named =>
    intro y has
    rcases (added_addVar apart.varCount).1 has with before | rfl
    · obtain ⟨key, found⟩ := apart.named before
      exact ⟨key, kept found⟩
    · exact ⟨name, by rw [get?_addFirst, if_pos rfl]⟩

end Apart

theorem upkeep_apart (source : g.Source D) (start : Copying.Walk) :
    Upkeep g D (g.Apart D start) where
  structs apart := apart.confines.structs
  few apart := apart.confines.structCount_le
  frames apart := apart.confines.frames
  unused apart := apart.toAligned.unused
  has apart imaged := apart.toAligned.has_apply imaged
  enter apart hs fresh := apart.addStruct (source.contains hs) fresh
  fill apart has hasValue name := apart.setFeature has hasValue name

theorem copyVarScoped_apart (source : g.Source D) (vars : g.varCount ≤ start.1.varCount)
    {fuel : Nat} : CopyVarEnds g D (g.Apart D start) fuel copyVarScoped := by
  rintro x ⟨h, m⟩ hx apart fresh -
  obtain ⟨name, found⟩ := source.free hx
  have inside := source.contains hx
  have called : g.name? x = some name := by simp [name?, found]
  have present : h.var? x = some { name } := apart.confines.frames.var?_eq_some found
  have calledNow : h.name? x = some name := by simp [name?, present]
  cases listed : m.scope.get? name with
  | some v =>
    obtain ⟨y, rfl, has, found'⟩ := apart.added_of_listed vars listed
    have walked := copyVarScoped_of_listed calledNow listed found' (apart.toAligned.selfVar has)
    exact ⟨.var y, (h, m.addVar x (.var y)), by rw [walked]; rfl,
      .still (apart.addImage vars hx inside called fresh listed) (extends_addVar fresh) rfl,
      by simp [lookup_addVar]⟩
  | none =>
    have walked := copyVarScoped_of_unlisted fresh present listed
    exact ⟨.var h.nextVar, (h.addVar { name }, m.addFirst x h.nextVar name), by rw [walked]; rfl,
      .still (apart.addFirst vars hx inside called fresh listed)
        (extends_addFirst fresh apart.toAligned.unusedVar _) rfl,
      (lookup_addFirst ..).trans (if_pos (.inl rfl))⟩

theorem copyStructScoped_apart (source : g.Source D) (vars : g.varCount ≤ start.1.varCount)
    (fuel : Nat) : CopyStructEnds g D (g.Apart D start) fuel (copyStructScoped fuel) := by
  induction fuel with
  | zero =>
    intro s W _ apart enough
    have := apart.confines.structCount_le
    omega
  | succ fuel ih =>
    exact copyNode_copies source.domain (upkeep_apart source start)
      (copyValue_copies ih (copyVarScoped_apart source vars))

/-- An operand is copied in an empty scope. -/
theorem copyScoped_apart (source : g.Source D) (aligned : g.Aligned ∅ h m) (empty : m.scope = ∅)
    {v : Value} (hv : D v) :
    ∃ W, copyScoped v (h, m) = some (W.2.images.apply v, W) ∧
      Copied g D (g.Apart D (h, m)) (h, m) W ∧ Imaged W.2 v := by
  refine copyValue_copies (copyStructScoped_apart source aligned.confines.vars _)
    (copyVarScoped_apart source aligned.confines.vars) v (h, m) hv (apart_start aligned empty) ?_
  have := aligned.confines.structs
  dsimp only
  omega

def ListsOwn (h : Graph) (scope : Scope) : Prop :=
  ∀ name v, scope.get? name = some v → ∃ y, v = .var y ∧ h.var? y = some { name }

/-- The copies of two plain operands, each made in an empty scope of its own. -/
structure SplitOperands (g : Graph) (a b : Value) (h : Graph) (m : Copying) (left right : Scope) :
    Prop where
  aligned : g.Aligned ∅ h m
  complete : ∀ t, (g.added h).Has (.struct t) → Complete g (g.Operands a b) (h, m) t
  imagedLeft : Imaged m a
  imagedRight : Imaged m b
  ownLeft : ListsOwn h left
  ownRight : ListsOwn h right
  disjoint : ∀ {name name' v}, left.get? name = some v → right.get? name' ≠ some v
  originLeft : ∀ {name v}, left.get? name = some v →
    ∃ x, g.Below a (.var x) ∧ g.name? x = some name ∧ m.images.vars.lookup x = some v
  originRight : ∀ {name v}, right.get? name = some v →
    ∃ x, g.Below b (.var x) ∧ g.name? x = some name ∧ m.images.vars.lookup x = some v
  named : ∀ {y}, (g.added h).Has (.var y) →
    ∃ name, left.get? name = some (.var y) ∨ right.get? name = some (.var y)
  left : ∀ {x v}, g.Below a (.var x) → m.images.vars.lookup x = some v →
    ∃ name, g.name? x = some name ∧ left.get? name = some v
  right : ∀ {x v}, g.Below b (.var x) → ¬ g.Below a (.var x) → m.images.vars.lookup x = some v →
    ∃ name, g.name? x = some name ∧ right.get? name = some v

namespace SplitOperands

variable (split : g.SplitOperands a b h m left right)

include split

theorem exists_free {y : VarId} (has : (g.added h).Has (.var y)) :
    ∃ name, h.var? y = some { name } := by
  obtain ⟨name, listed | listed⟩ := split.named has
  · obtain ⟨_, ⟨⟩, found⟩ := split.ownLeft name _ listed
    exact ⟨name, found⟩
  · obtain ⟨_, ⟨⟩, found⟩ := split.ownRight name _ listed
    exact ⟨name, found⟩

theorem exists_image {x : VarId} {v : Value} (hx : g.Operands a b (.var x))
    (copied : m.images.vars.lookup x = some v) :
    ∃ name y, g.name? x = some name ∧ v = .var y ∧ h.var? y = some { name } ∧
      (g.Below a (.var x) → left.get? name = some v) ∧
      (¬ g.Below a (.var x) → right.get? name = some v) := by
  by_cases below : g.Below a (.var x)
  · obtain ⟨name, called, listed⟩ := split.left below copied
    obtain ⟨y, rfl, found⟩ := split.ownLeft name v listed
    exact ⟨name, y, called, rfl, found, fun _ => listed, fun other => absurd below other⟩
  · obtain ⟨name, called, listed⟩ := split.right (hx.resolve_left below) below copied
    obtain ⟨y, rfl, found⟩ := split.ownRight name v listed
    exact ⟨name, y, called, rfl, found, fun below' => absurd below' below, fun _ => listed⟩

/-- Two variables have the same copy exactly if they are of one kind and have the same name. -/
theorem image_eq_iff {x x' : VarId} {v v' : Value} (hx : g.Operands a b (.var x))
    (hx' : g.Operands a b (.var x')) (copied : m.images.vars.lookup x = some v)
    (copied' : m.images.vars.lookup x' = some v') :
    v = v' ↔ (g.Below a (.var x) ↔ g.Below a (.var x')) ∧ g.name? x = g.name? x' := by
  obtain ⟨name, y, called, rfl, found, first, second⟩ := split.exists_image hx copied
  obtain ⟨name', y', called', rfl, found', first', second'⟩ := split.exists_image hx' copied'
  rw [called, called']
  constructor
  · intro same
    cases same
    cases found.symm.trans found'
    refine ⟨⟨fun below => ?_, fun below => ?_⟩, rfl⟩
    · by_contra other
      exact split.disjoint (first below) (second' other)
    · by_contra other
      exact split.disjoint (first' below) (second other)
  · rintro ⟨kind, same⟩
    cases same
    by_cases below : g.Below a (.var x)
    · exact Option.some.inj ((first below).symm.trans (first' (kind.1 below)))
    · exact Option.some.inj ((second below).symm.trans (second' fun other => below (kind.2 other)))

end SplitOperands

theorem Aligned.map_apply_eq (aligned : g.Aligned ∅ h m) {scope : Scope}
    (added : ∀ name v, scope.get? name = some v → (g.added h).Has v) :
    scope.map m.images.apply = scope := by
  refine NameMap.ext fun name => ?_
  rw [NameMap.get?_map]
  cases listed : scope.get? name with
  | none => rfl
  | some v => rw [Option.map_some, aligned.apply_of_added (added name v listed)]

/-- Two values have been copied one after the other, each in a scope that was empty then. -/
structure InTurn (g : Graph) (a b : Value) (h₁ : Graph) (m₁ : Copying) (h : Graph) (m : Copying) :
    Prop where
  first : g.Apart (g.Below a) (g, {}) h₁ m₁
  second : g.Apart (g.Below b) (h₁, { m₁ with scope := ∅ }) h m
  imagedLeft : Imaged m₁ a
  imagedRight : Imaged m b
  completeLeft : ∀ t, (g.added h₁).Has (.struct t) → Complete g (g.Below a) (h₁, m₁) t
  complete : ∀ t, (g.added h).Has (.struct t) → Complete g (g.Operands a b) (h, m) t

namespace InTurn

variable {h₁ : Graph} {m₁ : Copying} (turn : g.InTurn a b h₁ m₁ h m)

include turn

theorem more : Extends (h₁, m₁) (h, m) :=
  ⟨turn.second.more.structCount, turn.second.more.structs, turn.second.more.vars⟩

theorem listed_left {name : String} {v : Value} (found : m₁.scope.get? name = some v) :
    ∃ y, v = .var y ∧ (g.added h₁).Has (.var y) ∧ h.var? y = some { name } := by
  obtain ⟨y, rfl, has, present⟩ := turn.first.added_of_listed (Nat.le_refl _) found
  exact ⟨y, rfl, has, (turn.second.kept has.2).trans present⟩

theorem listed_right {name : String} {v : Value} (found : m.scope.get? name = some v) :
    ∃ y, v = .var y ∧ (g.added h).Has (.var y) ∧ h.var? y = some { name } :=
  turn.second.added_of_listed turn.first.varCount found

theorem disjoint {name name' : String} {v : Value} (found : m₁.scope.get? name = some v) :
    m.scope.get? name' ≠ some v := by
  intro found'
  obtain ⟨y, rfl, has, -⟩ := turn.listed_left found
  obtain ⟨_, ⟨⟩, later, -⟩ := turn.second.listed found'
  exact Nat.not_lt.2 later has.2

theorem map_left : m₁.scope.map m.images.apply = m₁.scope :=
  turn.second.toAligned.map_apply_eq fun name v found => by
    obtain ⟨y, rfl, has, -⟩ := turn.listed_left found
    exact added_mono turn.second.more.structCount turn.second.varCount has

theorem map_right : m.scope.map m.images.apply = m.scope :=
  turn.second.toAligned.map_apply_eq fun name v found => by
    obtain ⟨y, rfl, has, -⟩ := turn.listed_right found
    exact has

theorem image_left (plain : g.Plain a) {x : VarId} {v : Value} (below : g.Below a (.var x))
    (found : m.images.vars.lookup x = some v) :
    ∃ name, g.name? x = some name ∧ m₁.scope.get? name = some v := by
  obtain ⟨w, before⟩ := turn.first.toAligned.imaged_of_below turn.completeLeft plain.contains plain
    turn.imagedLeft below
  cases found.symm.trans (turn.more.vars before)
  rcases turn.first.image (plain.contains below) before with none | ⟨-, -, name, called, listed⟩
  · cases none
  · exact ⟨name, called, listed⟩

theorem image_right (plain : g.Plain b) {x : VarId} {v : Value} (below : g.Below b (.var x))
    (other : ¬ g.Below a (.var x)) (found : m.images.vars.lookup x = some v) :
    ∃ name, g.name? x = some name ∧ m.scope.get? name = some v := by
  have inside := plain.contains below
  rcases turn.second.image inside found with before | ⟨-, -, name, called, listed⟩
  · rcases turn.first.image inside before with none | ⟨-, below', -⟩
    · cases none
    · exact absurd below' other
  · exact ⟨name, called, listed⟩

theorem exists_name {y : VarId} (has : (g.added h).Has (.var y)) :
    ∃ name, m₁.scope.get? name = some (.var y) ∨ m.scope.get? name = some (.var y) := by
  by_cases before : y.index < h₁.varCount
  · obtain ⟨name, found⟩ := turn.first.named ⟨has.1, before⟩
    exact ⟨name, .inl found⟩
  · obtain ⟨name, found⟩ := turn.second.named ⟨Nat.le_of_not_lt before, has.2⟩
    exact ⟨name, .inr found⟩

theorem splitOperands (ha : g.Plain a) (hb : g.Plain b) :
    g.SplitOperands a b h m m₁.scope m.scope where
  aligned := turn.second.toAligned
  complete := turn.complete
  imagedLeft := turn.more.imaged turn.imagedLeft
  imagedRight := turn.imagedRight
  ownLeft name v found := by
    obtain ⟨y, rfl, -, present⟩ := turn.listed_left found
    exact ⟨y, rfl, present⟩
  ownRight name v found := by
    obtain ⟨y, rfl, -, present⟩ := turn.listed_right found
    exact ⟨y, rfl, present⟩
  disjoint := turn.disjoint
  left := turn.image_left ha
  right := turn.image_right hb
  originLeft found := by
    obtain ⟨x, below, called, copied⟩ := turn.first.origin found
    exact ⟨x, below, called, turn.more.vars copied⟩
  originRight := turn.second.origin
  named := turn.exists_name

end InTurn

/-- Plain operands are copied in turn. -/
theorem Plain.exists_inTurn (wf : g.WellFormed) (ha : g.Plain a) (hb : g.Plain b) :
    ∃ h₁ m₁ h m, copyScoped a (g, {}) = some (m₁.images.apply a, h₁, m₁) ∧
      copyScoped b (h₁, { m₁ with scope := ∅ }) = some (m.images.apply b, h, m) ∧
      g.InTurn a b h₁ m₁ h m := by
  have sourceA := ha.source_below
  have sourceB := hb.source_below
  have aligned : g.Aligned ∅ g {} := (tied_start wf fun name v found => by cases found).toAligned
  obtain ⟨⟨h₁, m₁⟩, walked, copied, known⟩ :=
    copyScoped_apart (m := {}) sourceA aligned rfl (v := a) .refl
  have aligned₁ : g.Aligned ∅ h₁ { m₁ with scope := ∅ } :=
    copied.kept.toAligned.relist fun name v found => by cases found
  obtain ⟨⟨h, m⟩, walked', copied', known'⟩ :=
    copyScoped_apart sourceB aligned₁ rfl (v := b) .refl
  have first : Copied g (g.Operands a b) (g.Aligned ∅) (g, {}) (h₁, { m₁ with scope := ∅ }) :=
    (copied.imp (fun v => .inl) Apart.toAligned).remember
      ⟨Nat.le_refl _, fun found => found, fun found => found⟩ aligned₁
  have both := first.trans (copied'.imp (fun v => .inr) Apart.toAligned)
  exact ⟨h₁, m₁, h, m, walked, walked', copied.kept, copied'.kept, known, known',
    fun t has => copied.complete t has.1 has.2, fun t has => both.complete t has.1 has.2⟩

theorem Plain.exists_splitOperands (wf : g.WellFormed) (ha : g.Plain a) (hb : g.Plain b) :
    ∃ h m left right, g.copyOperands a b .fresh =
        some (m.images.apply a, m.images.apply b, .separate left right, h) ∧
      g.SplitOperands a b h m left right := by
  obtain ⟨h₁, m₁, h, m, walked, walked', turn⟩ := ha.exists_inTurn wf hb
  refine ⟨h, m, m₁.scope, m.scope, ?_, turn.splitOperands ha hb⟩
  have same : m.images.apply a = m₁.images.apply a := turn.more.apply_eq turn.imagedLeft
  simp only [copyOperands, Scoping.fresh]
  rw [show (g, ({ scope := ∅ } : Copying)) = (g, {}) from rfl, walked]
  simp only [Option.bind_eq_bind, Option.bind_some, walked', turn.map_left, turn.map_right, same]
  rfl

theorem Plain.exists_readyOperands (wf : g.WellFormed) (ha : g.Plain a) (hb : g.Plain b) :
    ∃ h m left right, g.copyOperands a b .fresh =
        some (m.images.apply a, m.images.apply b, .separate left right, h) ∧
      g.SplitOperands a b h m left right ∧
      g.OperandCopies h (m.images.apply a) (m.images.apply b) (.separate left right) := by
  obtain ⟨v, w, copied, h, walked, operands⟩ :=
    wf.exists_copyOperands (ha.contains .refl) (hb.contains .refl) (Scoping.within_fresh g)
  obtain ⟨h, m, left, right, walked', split⟩ := ha.exists_splitOperands wf hb
  cases walked.symm.trans walked'
  exact ⟨h, m, left, right, walked, split, operands⟩

end FeatureLogic.Graph
