import FeatureLogic.Proofs.Copy.Aliases
import FeatureLogic.Proofs.Copy.Plain

/-!
# Copying operands with their names tied

When plain operands are copied under a common scope whose entries are simple, all variables of a
name get the same copy, which is also what the scope then lists under this name and under every
name tied to it.
-/

namespace FeatureLogic

namespace Graph

open Copying

variable {g : Graph} {D D' : Value → Prop} {I I' : Graph → Copying → Prop}
  {W W' : Copying.Walk} {h k : Graph} {m l : Copying} {start : Scope}

theorem Copied.imp (copied : Copied g D' I' W W') (values : ∀ v, D' v → D v)
    (invariant : ∀ {h m}, I' h m → I h m) : Copied g D I W W' where
  kept := invariant copied.kept
  more := copied.more
  unchanged := copied.unchanged
  complete t lower upper := by
    obtain ⟨s, features, hs, rest⟩ := copied.complete t lower upper
    exact ⟨s, features, values _ hs, rest⟩

theorem Copied.remember (copied : Copied g D I' W (k, l)) (more : Extends (k, l) (k, m))
    (kept : I k m) : Copied g D I W (k, m) where
  kept := kept
  more := copied.more.trans more
  unchanged := copied.unchanged
  complete t lower upper := (copied.complete t lower upper).mono more rfl

theorem Upkeep.still (upkeep : Upkeep g D I) (m₀ : Copying) :
    Upkeep g D fun h m => I h m ∧ m.scope = m₀.scope ∧ m.images.vars = m₀.images.vars where
  structs kept := upkeep.structs kept.1
  few kept := upkeep.few kept.1
  frames kept := upkeep.frames kept.1
  unused kept := upkeep.unused kept.1
  has kept := upkeep.has kept.1
  enter kept hs fresh := ⟨upkeep.enter kept.1 hs fresh, kept.2⟩
  fill kept has hasValue name := ⟨upkeep.fill kept.1 has hasValue name, kept.2⟩

theorem copyStructPlain_copies (source : g.Source D) (upkeep : Upkeep g D I)
    (ground : ∀ x, ¬ D (.var x)) (fuel : Nat) :
    CopyStructEnds g D I fuel (copyStructPlain fuel) := by
  induction fuel with
  | zero =>
    intro s W _ kept enough
    have := upkeep.few kept
    omega
  | succ fuel ih =>
    exact copyNode_copies source.domain upkeep
      (copyValue_copies ih fun x _ hx => absurd hx (ground x))

/-- What the copying of what `names` stand for has done, before the names bear the copy `w`. -/
structure Lends (g : Graph) (D : Value → Prop) (start : Scope) (names : List String)
    (W : Copying.Walk) (w : Value) (W' : Copying.Walk) : Prop where
  copied : Copied g D (g.Aligned start) W W'
  scope : W'.2.scope = W.2.scope
  informs : w ≠ .unspecified
  has : (g.added W'.1).Has w
  onward : ∀ {name next}, name ∈ names → start.Alias g name next →
    next ∈ names ∨ g.Bears W.2 next w
  same : ∀ {name v}, name ∈ names → g.Bears W.2 name v → v = w
  own : ∀ {y}, (g.added W'.1).Has (.var y) → ∃ name, W'.1.name? y = some name ∧
    (g.Bears W.2 name (.var y) ∨ name ∈ names ∧ w = .var y)
  image : ∀ {x v root name}, W'.2.images.vars.lookup x = some v →
    g.deref? (.var x) = some (.var root) → g.name? root = some name →
      g.Bears W.2 name v ∨ name ∈ names ∧ v = w

theorem Tied.lends_again (tied : g.Tied start h m) {names : List String} {u : Value}
    (walked : g.Walked start m names u) {name : String} (bears : g.Bears m name u) :
    copyPlain u (h, m) = some (u, h, m) ∧ Lends g D start names (h, m) u (h, m) := by
  have has := tied.added_of_bears bears
  refine ⟨?_, .refl tied.toAligned, rfl, tied.informs bears, has, walked.onward, walked.same,
    fun hasVar => ?_, fun found reads called => .inl (tied.image found reads called)⟩
  · cases u with
    | atom a => rfl
    | struct t =>
      simp [copyPlain, copyValue, copyStructPlain, copyNode, tied.confines.self has]
    | var y => simp [copyPlain, copyValue, tied.selfVar has]
  · obtain ⟨key, called, own⟩ := tied.own hasVar
    exact ⟨key, called, .inl own⟩

theorem Walked.bare {names : List String} {u : Value} (walked : g.Walked start m names u)
    (node : u.isNode) (inside : g.Contains u) {name : String} {v : Value} (mem : name ∈ names) :
    ¬ g.Bears m name v := by
  intro bears
  cases walked.same mem bears
  exact bears.2 node inside

theorem Walked.onward_bare {names : List String} {u : Value} (walked : g.Walked start m names u)
    (node : u.isNode) (inside : g.Contains u) {name next : String} (mem : name ∈ names)
    (tie : start.Alias g name next) : next ∈ names :=
  (walked.onward mem tie).resolve_right fun bears => bears.2 node inside

theorem Tied.lends_struct (tied : g.Tied start h m) (simple : start.Simple g)
    (below : ∀ {name s v}, start.get? name = some (.struct s) → g.Below (.struct s) v → D v)
    {names : List String} {s : StructId} (walked : g.Walked start m names (.struct s))
    {name : String} (entry : start.get? name = some (.struct s)) :
    ∃ w W', copyPlain (.struct s) (h, m) = some (w, W') ∧
      Lends g D start names (h, m) w W' := by
  obtain ⟨plain, ground⟩ : g.Simple (.struct s) := simple name _ entry
  have source : g.Source (g.Below (.struct s)) :=
    ⟨plain.contains, fun hx => absurd hx (ground _), fun hs => .feature hs⟩
  have inside : g.Contains (.struct s) := plain.contains .refl
  have enough : 2 * g.structCount + 1 ≤ h.structCount + 1 + h.structCount := by
    have := tied.confines.structs
    omega
  obtain ⟨t, ⟨k, l⟩, copy, copied, found⟩ :=
    copyStructPlain_copies source ((upkeep_tied source start).still m) ground
      (h.structCount + 1) s (h, m) .refl ⟨tied, rfl, rfl⟩ enough
  obtain ⟨tied', scope, vars⟩ := copied.kept
  have same {name : String} {v : Value} (bears : g.Bears l name v) : g.Bears m name v :=
    ⟨scope ▸ bears.1, bears.2⟩
  refine ⟨.struct t, (k, l), by simp [copyPlain, copyValue, copy],
    copied.imp (fun v => below entry) fun kept => kept.1.toAligned, scope,
    by simp [Value.unspecified], tied'.confines.image found,
    fun mem tie => .inl (walked.onward_bare rfl inside mem tie),
    fun mem bears => absurd bears (walked.bare rfl inside mem), fun hasVar => ?_,
    fun found reads called => .inl (same (tied'.image found reads called))⟩
  obtain ⟨key, called, own⟩ := tied'.own hasVar
  exact ⟨key, called, .inl (same own)⟩

/-- A free variable at the end of a chain of aliases gets a new variable for a copy. -/
theorem Tied.lends_var (tied : g.Tied start h m) (wf : g.WellFormed) {names : List String}
    {z root : VarId} {name : String} (walked : g.Walked start m names (.var z))
    (reads : g.deref? (.var z) = some (.var root)) (called : g.name? root = some name)
    (mem : name ∈ names) :
    ∃ w W', copyPlain (.var z) (h, m) = some (w, W') ∧
      Lends g D start names (h, m) w W' := by
  have inside : g.Contains (.var z) := contains_of_deref? reads
  have readsRoot : g.deref? (.var root) = some (.var root) := wf.deref?_deref? reads
  have insideRoot : g.Contains (.var root) := contains_of_deref? readsRoot
  -- neither has a copy, or the name would bear it
  have fresh : m.images.vars.lookup z = none := Option.eq_none_iff_forall_not_mem.2
    fun v found => walked.bare rfl inside mem (tied.image found reads called)
  have freshRoot : m.images.vars.lookup root = none := Option.eq_none_iff_forall_not_mem.2
    fun v found => walked.bare rfl inside mem (tied.image found readsRoot called)
  obtain ⟨name', found⟩ := wf.free_of_deref? reads
  obtain rfl : name = name' := by simpa [name?, found] using called.symm
  have has : (g.added (h.addVar { name })).Has (.var h.nextVar) :=
    (added_addVar tied.confines.vars).2 (.inr rfl)
  have aligned : g.Aligned start (h.addVar { name }) (m.addFree root h.nextVar z) :=
    (tied.toAligned.addVar insideRoot name).addImage inside has
  have copy := copyPlain_of_free fresh freshRoot (tied.confines.frames.deref?_eq_some reads)
    (copyVar?_of_free (tied.confines.frames.var?_eq_some found))
  refine ⟨.var h.nextVar, (h.addVar { name }, m.addFree root h.nextVar z), copy,
    .still aligned ⟨Nat.le_refl _, fun found => found, ?_⟩ rfl,
    rfl, by simp [Value.unspecified], has,
    fun mem tie => .inl (walked.onward_bare rfl inside mem tie),
    fun mem bears => absurd bears (walked.bare rfl inside mem), ?_, ?_⟩
  · intro q v listed
    rw [lookup_addFree, if_neg, listed]
    rintro (rfl | rfl | rfl)
    · cases fresh.symm.trans listed
    · exact Nat.lt_irrefl _ (tied.knownVar listed)
    · cases freshRoot.symm.trans listed
  · intro q hasVar
    by_cases isY : q = h.nextVar
    · subst isY
      exact ⟨name, by simp [name?_addVar], .inr ⟨mem, rfl⟩⟩
    · obtain ⟨key, called, own⟩ :=
        tied.own (((added_addVar tied.confines.vars).1 hasVar).resolve_right isY)
      refine ⟨key, ?_, .inl own⟩
      rw [name?_addVar, if_neg isY, called]
  · intro q v root' key listed reads' called'
    rw [lookup_addFree] at listed
    split at listed
    · next known =>
      cases listed
      have same : root' = root := by
        rcases known with rfl | rfl | rfl
        · simpa using reads'.symm.trans reads
        · exact absurd (contains_of_deref? reads') (Nat.not_lt.2 tied.confines.vars)
        · simpa using reads'.symm.trans readsRoot
      subst same
      cases called.symm.trans called'
      exact .inr ⟨mem, rfl⟩
    · exact .inl (tied.image listed reads' called')

theorem Lends.bears {names : List String} {w : Value}
    (lends : Lends g D start names (h, m) w (k, l)) {name : String} (mem : name ∈ names) :
    g.Bears (l.bindAll names w) name w :=
  bears_of_added (by rw [get?_bindAll, if_pos mem]) lends.has

theorem Lends.tied {names : List String} {w : Value}
    (lends : Lends g D start names (h, m) w (k, l)) (tied : g.Tied start h m) :
    g.Tied start k (l.bindAll names w) := by
  have scope (key : String) : (l.bindAll names w).scope.get? key =
      if key ∈ names then some w else m.scope.get? key := by
    rw [get?_bindAll, show l.scope = m.scope from lends.scope]
  have borne {name : String} (mem : name ∈ names) : g.Bears (l.bindAll names w) name w :=
    lends.bears mem
  -- a name that bore something bears the same now
  have still {name : String} {v : Value} (bears : g.Bears m name v) :
      g.Bears (l.bindAll names w) name v := by
    by_cases mem : name ∈ names
    · exact lends.same mem bears ▸ borne mem
    · exact ⟨by rw [scope, if_neg mem, bears.1], bears.2⟩
  have cases {name : String} {v : Value} (bears : g.Bears (l.bindAll names w) name v) :
      name ∈ names ∧ v = w ∨ g.Bears m name v := by
    by_cases mem : name ∈ names
    · exact .inl ⟨mem, bears.unique (borne mem)⟩
    · exact .inr ⟨by rw [← bears.1, scope, if_neg mem], bears.2⟩
  have aligned := lends.copied.kept
  refine ⟨⟨aligned.confines.bindAll lends.has names, aligned.known, aligned.knownVar,
    aligned.injective, aligned.selfVar, ?_, ?_, ?_⟩, ?_, ?_⟩
  · intro name v bears
    rcases cases bears with ⟨-, rfl⟩ | bears
    · exact lends.informs
    · exact tied.informs bears
  · intro name
    rcases tied.follows name with ⟨v, bears⟩ | same
    · exact .inl ⟨v, still bears⟩
    · by_cases mem : name ∈ names
      · exact .inl ⟨w, borne mem⟩
      · exact .inr ((scope name).trans ((if_neg mem).trans same))
  · intro name next v bears tie
    rcases cases bears with ⟨mem, rfl⟩ | bears
    · rcases lends.onward mem tie with mem | bears
      · exact borne mem
      · exact still bears
    · exact still (tied.onward bears tie)
  · intro y hasVar
    obtain ⟨name, called, own | ⟨mem, rfl⟩⟩ := lends.own hasVar
    · exact ⟨name, called, still own⟩
    · exact ⟨name, called, borne mem⟩
  · intro x v root name listed reads called
    rcases lends.image listed reads called with bears | ⟨mem, rfl⟩
    · exact still bears
    · exact borne mem

/-- However the way from a name through the scope ends, there is a copy of what it leads to. -/
theorem Tied.exists_lends (tied : g.Tied start h m) (wf : g.WellFormed) (simple : start.Simple g)
    (below : ∀ {name s v}, start.get? name = some (.struct s) → g.Below (.struct s) v → D v)
    {names : List String} {u : Value} (walked : g.Walked start m names u) :
    ∃ w W', copyPlain u (h, m) = some (w, W') ∧ Lends g D start names (h, m) w W' := by
  rcases walked.ends with ⟨name, bears⟩ | ⟨root, name, reads, called, mem⟩ | ⟨name, s, rfl, entry⟩
  · exact ⟨u, (h, m), tied.lends_again walked bears⟩
  · cases u with
    | atom a => cases reads
    | struct s => cases reads
    | var z => exact tied.lends_var wf walked reads called mem
  · exact tied.lends_struct simple below walked entry

def Scoped (g : Graph) (a b : Value) (scope : Scope) (v : Value) : Prop :=
  g.Operands a b v ∨ ∃ name s, scope.get? name = some (.struct s) ∧ g.Below (.struct s) v

theorem Plain.scoped {a b : Value} (ha : g.Plain a) (hb : g.Plain b) (simple : start.Simple g) :
    g.Source (g.Scoped a b start) where
  contains {v} hv := by
    rcases hv with hv | ⟨name, s, entry, below⟩
    · exact (ha.source hb).contains hv
    · exact (simple name _ entry).1.contains below
  free {x} hx := by
    rcases hx with hx | ⟨name, s, entry, below⟩
    · exact (ha.source hb).free hx
    · exact absurd below ((simple name _ entry).2 x)
  feature hs found holds := by
    rcases hs with hs | ⟨name, s, entry, below⟩
    · exact .inl ((ha.source hb).feature hs found holds)
    · exact .inr ⟨name, s, entry, below.feature found holds⟩

variable {a b : Value}

theorem copyVarScoped_tied (source : g.Source (g.Scoped a b start)) (wf : g.WellFormed)
    (simple : start.Simple g) {fuel : Nat} :
    CopyVarEnds g (g.Scoped a b start) (g.Tied start) fuel copyVarScoped := by
  rintro x ⟨h, m⟩ hx tied - -
  obtain ⟨name, found⟩ := source.free hx
  have called : g.name? x = some name := by simp [name?, found]
  have calledNow : h.name? x = some name := by
    simp [name?, tied.confines.frames.var?_eq_some found]
  have reads := deref?_of_free found
  have inside : h.Contains (.var x) :=
    (source.contains hx).mono tied.confines.structs tied.confines.vars
  obtain ⟨names, u, followed, -⟩ := exists_aliases tied.confines.wellFormed tied.confines.scope
    inside (List.nodup_singleton name) (by simp) (Nat.lt_succ_self _)
  obtain ⟨walked, more⟩ :=
    tied.walked wf simple reads called (by simp) (by simp) followed
  have mem : name ∈ names := more List.mem_cons_self
  obtain ⟨w, ⟨k, l⟩, copy, lends⟩ := tied.exists_lends wf simple
    (fun entry below => show g.Scoped a b start _ from .inr ⟨_, _, entry, below⟩) walked
  have tied' : g.Tied start k (l.bindAll names w) := lends.tied tied
  refine ⟨w, (k, (l.bindAll names w).addVar x w),
    by simp [copyVarScoped, calledNow, followed, copy, bindAll],
    lends.copied.remember ⟨Nat.le_refl _, fun found => found, fun {z v} listed => ?_⟩
      (tied'.addImage (source.contains hx) lends.has fun reads' called' => ?_),
    by simp [lookup_addVar]⟩
  · -- a copy that was made of the same variable on the way is this copy
    rw [lookup_addVar]
    split
    · next eq =>
      subst eq
      rcases lends.image listed reads called with bears | ⟨-, rfl⟩
      · rw [lends.same mem bears]
      · rfl
    · exact listed
  · cases reads.symm.trans reads'
    cases called.symm.trans called'
    exact lends.bears mem

theorem copyStructScoped_tied (source : g.Source (g.Scoped a b start)) (wf : g.WellFormed)
    (simple : start.Simple g) (fuel : Nat) :
    CopyStructEnds g (g.Scoped a b start) (g.Tied start) fuel (copyStructScoped fuel) := by
  induction fuel with
  | zero =>
    intro s W _ tied enough
    have := tied.confines.structCount_le
    omega
  | succ fuel ih =>
    exact copyNode_copies source.domain (upkeep_tied source start)
      (copyValue_copies ih (copyVarScoped_tied source wf simple))

/-- An operand is copied with the names staying tied. -/
theorem copyScoped_tied (source : g.Source (g.Scoped a b start)) (wf : g.WellFormed)
    (simple : start.Simple g) {v : Value} (hv : g.Scoped a b start v)
    (tied : g.Tied start W.1 W.2) :
    ∃ W', copyScoped v W = some (W'.2.images.apply v, W') ∧
      Copied g (g.Scoped a b start) (g.Tied start) W W' ∧ Imaged W'.2 v := by
  have enough : 2 * g.structCount + 1 ≤ W.1.structCount + 1 + W.1.structCount := by
    have := tied.confines.structs
    omega
  exact copyValue_copies (copyStructScoped_tied source wf simple _)
    (copyVarScoped_tied source wf simple) v W hv tied enough

theorem Aligned.features?_copy (aligned : g.Aligned start h m)
    (complete : ∀ t, (g.added h).Has (.struct t) → Complete g D (h, m) t)
    (inside : ∀ {s}, D (.struct s) → g.Contains (.struct s)) {s t : StructId}
    {features : NameMap Value} (hs : g.Contains (.struct s))
    (copied : m.images.structs.lookup s = some t) (found : g.features? s = some features) :
    h.features? t = some (features.map m.images.apply) ∧
      ∀ name v, features.get? name = some v → Imaged m v := by
  obtain ⟨s', features', hs', copied', found', filled, imaged⟩ :=
    complete t (aligned.confines.image copied)
  cases aligned.injective hs (inside hs') copied copied'
  cases found.symm.trans found'
  exact ⟨filled, imaged⟩

theorem Aligned.imaged_of_below (aligned : g.Aligned start h m)
    (complete : ∀ t, (g.added h).Has (.struct t) → Complete g D (h, m) t)
    (inside : ∀ {s}, D (.struct s) → g.Contains (.struct s)) {v w : Value} (plain : g.Plain v)
    (imaged : Imaged m v) (below : g.Below v w) : Imaged m w := by
  induction below with
  | refl => exact imaged
  | feature below found holds ih =>
    obtain ⟨t, copied⟩ := ih
    exact (aligned.features?_copy complete inside (plain.contains below) copied found).2 _ _ holds

/-- The copies of two plain operands under a common scope of simple entries. -/
structure TiedOperands (g : Graph) (a b : Value) (start : Scope) (h : Graph) (m : Copying) :
    Prop where
  tied : g.Tied start h m
  complete : ∀ t, (g.added h).Has (.struct t) → Complete g (g.Scoped a b start) (h, m) t
  left : Imaged m a
  right : Imaged m b

theorem Plain.exists_tiedOperands (wf : g.WellFormed) (ha : g.Plain a) (hb : g.Plain b)
    (simple : start.Simple g) :
    ∃ h m, g.copyOperands a b (.common start) = some (m.images.apply a, m.images.apply b,
        .common (m.scope.map m.images.apply), h) ∧
      g.TiedOperands a b start h m := by
  have source := ha.scoped hb simple
  obtain ⟨W₁, walked, copied, known⟩ :=
    copyScoped_tied (W := (g, { scope := start })) source wf simple (.inl (.inl .refl))
      (tied_start wf simple)
  obtain ⟨W₂, walked', copied', known'⟩ :=
    copyScoped_tied source wf simple (.inl (.inr .refl)) copied.kept
  have all := copied.trans copied'
  refine ⟨W₂.1, W₂.2, ?_, all.kept, fun t has => all.complete t has.1 has.2,
    copied'.more.imaged known, known'⟩
  simp only [copyOperands, walked, walked', Option.bind_eq_bind, Option.bind_some,
    copied'.more.apply_eq known]
  rfl

namespace TiedOperands

variable (copies : g.TiedOperands a b start h m)

include copies

/-- What a name bears when its variable is copied is listed under all names tied to it. -/
theorem listed {x : VarId} {name other : String} {v : Value}
    (image : m.images.vars.lookup x = some v) (reads : g.deref? (.var x) = some (.var x))
    (called : g.name? x = some name) (ties : start.Ties g name other) :
    (m.scope.map m.images.apply).get? other = some v := by
  have bears : g.Bears m other v := by
    induction ties with
    | refl => exact copies.tied.image image reads called
    | tail _ tie ih => exact copies.tied.onward ih tie
  rw [NameMap.get?_map, bears.1, Option.map_some,
    copies.tied.apply_of_added (copies.tied.added_of_bears bears)]

end TiedOperands

end Graph

end FeatureLogic
