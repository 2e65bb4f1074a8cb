import FeatureLogic.Proofs.Copy.Tied
import FeatureLogic.Proofs.Graph.Part
import FeatureLogic.Unification.Series

/-!
# The names of copied variables

Plain operands are copied under a common scope whose entries may be structures with variables of
their own. Every added variable then is what the scope lists under the variable's name, or it comes
from below such a structure.
-/

namespace FeatureLogic

def Scope.Plain (scope : Scope) (g : Graph) : Prop :=
  ∀ name v, scope.get? name = some v → g.Plain v

theorem Scope.Plain.within {scope : Scope} {g : Graph} (plain : scope.Plain g) : scope.Within g :=
  fun name v found => (plain name v found).contains .refl

theorem Scope.Plain.retained {scope : Scope} {g h : Graph} (plain : scope.Plain g)
    (retains : g.Retains h) : scope.Plain h :=
  fun name v found => retains.plain (plain name v found)

def Copying.nameless (m : Copying) : Copying := { m with scope := ∅ }

namespace Graph

open Copying

structure Owned (g : Graph) (start : Scope) (h : Graph) (m : Copying) : Prop where
  aligned : g.Aligned ∅ h m.nameless
  entry : ∀ {name v}, m.scope.get? name = some v → (g.added h).Has v ∨ start.get? name = some v
  own : ∀ {y}, (g.added h).Has (.var y) → ∃ name, h.name? y = some name ∧
    (m.scope.get? name = some (.var y) ∨ start.Conceals g name)

/-- What an invariant allows for if the copying of structures in `D` keeps it. -/
structure Lasting (g : Graph) (D : Value → Prop) (I : Graph → Copying → Prop) : Prop where
  aligned : ∀ {h m}, I h m → g.Aligned ∅ h m.nameless
  enter : ∀ {h m s}, I h m → D (.struct s) → m.images.structs.lookup s = none →
    I (h.addStruct ∅) (m.addStruct s h.nextStruct)
  fill : ∀ {h m t v}, I h m → (g.added h).Has (.struct t) → (g.added h).Has v →
    ∀ name, I (h.setFeature t name v) m
  note : ∀ {h m x v}, I h m → D (.var x) → (g.added h).Has v → I h (m.addVar x v)

structure Lasts (g : Graph) (I : Graph → Copying → Prop) (W : Copying.Walk) (w : Value)
    (W' : Copying.Walk) : Prop where
  kept : I W'.1 W'.2
  structs : W.1.structCount ≤ W'.1.structCount
  has : (g.added W'.1).Has w

variable {g h k : Graph} {D : Value → Prop} {I : Graph → Copying → Prop} {start : Scope}
  {m l : Copying} {W W' : Copying.Walk}

section Walks

variable (source : g.Source D) (lasting : g.Lasting D I)
  {image : Value → Copying.Walk → Option (Value × Copying.Walk)}
  {copyStruct : StructId → Copying.Walk → Option (StructId × Copying.Walk)}
  {copyVar : VarId → Copying.Walk → Option (Value × Copying.Walk)}

include lasting

theorem fill_lasts
    (lasts : ∀ {v W w W'}, D v → I W.1 W.2 → image v W = some (w, W') → g.Lasts I W w W')
    {target : StructId} {entries : List (String × Value)} (inside : ∀ e ∈ entries, D e.2)
    (kept : I W.1 W.2) (has : (g.added W.1).Has (.struct target))
    (walked : fill image target entries W = some W') : g.Lasts I W (.struct target) W' := by
  induction entries generalizing W with
  | nil =>
    cases walked
    exact ⟨kept, Nat.le_refl _, has⟩
  | cons e rest ih =>
    obtain ⟨name, v⟩ := e
    obtain ⟨w, k, l, copied, filled⟩ := fill_cons_eq_some_iff.1 walked
    have first := lasts (inside _ List.mem_cons_self) kept copied
    have has' : (g.added k).Has (.struct target) := ⟨has.1, has.2.trans_le first.structs⟩
    have rest := ih (W := (k.setFeature target name w, l))
      (fun e mem => inside e (List.mem_cons_of_mem _ mem))
      (lasting.fill first.kept has' first.has _)
      (by simpa [added] using has') filled
    exact ⟨rest.kept, first.structs.trans ((structCount_setFeature ..).ge.trans rest.structs),
      rest.has⟩

theorem copyValue_lasts
    (structs : ∀ {s W t W'}, D (.struct s) → I W.1 W.2 → copyStruct s W = some (t, W') →
      g.Lasts I W (.struct t) W')
    (vars : ∀ {x W w W'}, D (.var x) → I W.1 W.2 → W.2.images.vars.lookup x = none →
      copyVar x W = some (w, W') → g.Lasts I W w W')
    {v w : Value} (hv : D v) (kept : I W.1 W.2)
    (walked : copyValue copyStruct copyVar v W = some (w, W')) : g.Lasts I W w W' := by
  cases v with
  | atom a =>
    cases walked
    exact ⟨kept, Nat.le_refl _, trivial⟩
  | struct s =>
    obtain ⟨⟨t, W'⟩, copied, ⟨⟩⟩ := Option.map_eq_some_iff.1 walked
    exact structs hv kept copied
  | var x =>
    cases known : W.2.images.vars.lookup x with
    | some v =>
      simp only [copyValue, known, Option.some.injEq, Prod.mk.injEq] at walked
      obtain ⟨rfl, rfl⟩ := walked
      exact ⟨kept, Nat.le_refl _, (lasting.aligned kept).confines.imageVar known⟩
    | none =>
      simp only [copyValue, known, Option.map_eq_some_iff, Prod.mk.injEq] at walked
      obtain ⟨⟨w, k, l⟩, copied, rfl, rfl⟩ := walked
      have step := vars hv kept known copied
      exact ⟨lasting.note step.kept hv step.has, step.structs, step.has⟩

include source

theorem copyNode_lasts
    (lasts : ∀ {v W w W'}, D v → I W.1 W.2 → image v W = some (w, W') → g.Lasts I W w W')
    {s t : StructId} (hs : D (.struct s)) (kept : I W.1 W.2)
    (walked : copyNode image s W = some (t, W')) : g.Lasts I W (.struct t) W' := by
  obtain ⟨h, m⟩ := W
  have confines := (lasting.aligned kept).confines
  cases known : m.images.structs.lookup s with
  | some t' =>
    simp only [copyNode, known, Option.some.injEq, Prod.mk.injEq] at walked
    obtain ⟨rfl, rfl⟩ := walked
    exact ⟨kept, Nat.le_refl _, confines.image known⟩
  | none =>
    obtain ⟨features, found⟩ := exists_features_of_contains (source.contains hs)
    have read : (h.addStruct ∅).features? s = some features :=
      (features?_enter confines.structs confines.frames (source.contains hs)).trans found
    simp only [copyNode, known, imageStruct, read, Option.map_eq_some_iff, Prod.mk.injEq] at walked
    obtain ⟨W', filled, rfl, rfl⟩ := walked
    have step := fill_lasts lasting lasts (W := (h.addStruct ∅, m.addStruct s h.nextStruct))
      (fun e mem => source.feature hs found (features.get?_eq_some_iff.2 mem))
      (lasting.enter kept hs known) ((added_addStruct confines.structs).2 (.inr rfl)) filled
    exact ⟨step.kept, (Nat.le_succ _).trans ((structCount_addStruct ..).ge.trans step.structs),
      step.has⟩

end Walks

theorem Source.lasting_owned (source : g.Source D) (start : Scope) :
    g.Lasting D (g.Owned start) where
  aligned owned := owned.aligned
  enter owned hs fresh :=
    ⟨owned.aligned.addStruct (source.contains hs) fresh,
      fun listed => (owned.entry listed).imp_left (added_mono (by simp) (by simp)), owned.own⟩
  fill {h m t v} owned has hasValue name := by
    have region : g.added (h.setFeature t name v) = g.added h := by simp [added]
    exact ⟨owned.aligned.setFeature has hasValue name, region ▸ owned.entry, region ▸ owned.own⟩
  note owned hx has := ⟨owned.aligned.addImage (source.contains hx) has, owned.entry, owned.own⟩

theorem source_inner (plain : start.Plain g) : g.Source (start.Inner g) where
  contains := fun ⟨key, _, listed, below⟩ => (plain key _ listed).contains below
  free := fun ⟨key, _, listed, below⟩ => (plain key _ listed).free below
  feature := fun ⟨key, s, listed, below⟩ found holds => ⟨key, s, listed, below.feature found holds⟩

/-- A structure that the scope has for a name is copied with what is below it. The names stay as
they are, and so do the names of the variables from before. -/
structure Spares (g : Graph) (start : Scope) (h : Graph) (m : Copying) (k : Graph) (l : Copying) :
    Prop where
  owned : g.Owned start k l
  scope : l.scope = m.scope
  names : ∀ {y}, h.Contains (.var y) → k.Contains (.var y) ∧ k.name? y = h.name? y

theorem lasting_spares (plain : start.Plain g) (h : Graph) (m : Copying) :
    g.Lasting (start.Inner g) (g.Spares start h m) :=
  have lasting := (source_inner plain).lasting_owned start
  { aligned := fun spares => spares.owned.aligned
    enter := fun spares hs fresh =>
      ⟨lasting.enter spares.owned hs fresh, spares.scope, spares.names⟩
    fill := fun spares has hasValue name =>
      ⟨lasting.fill spares.owned has hasValue name, spares.scope, spares.names⟩
    note := fun spares hx has =>
      ⟨lasting.note spares.owned hx has, spares.scope, spares.names⟩ }

theorem copyVarPlain_lasts (plain : start.Plain g)
    {copyStruct : StructId → Copying.Walk → Option (StructId × Copying.Walk)} {x : VarId}
    {w : Value} (hx : start.Inner g (.var x)) (spares : g.Spares start h m W.1 W.2)
    (fresh : W.2.images.vars.lookup x = none)
    (walked : copyVarPlain copyStruct x W = some (w, W')) :
    g.Lasts (g.Spares start h m) W w W' := by
  obtain ⟨k, l⟩ := W
  have source := source_inner plain
  have owned := spares.owned
  have confines := owned.aligned.confines
  obtain ⟨name, found⟩ := source.free hx
  have found' : k.var? x = some { name } := (confines.frames.var (source.contains hx)).trans found
  simp only [copyVarPlain, deref?_of_free found', fresh, copyVar?_of_free found', Option.map_some,
    Option.some.injEq, Prod.mk.injEq] at walked
  obtain ⟨rfl, rfl⟩ := walked
  have mono {v : Value} (has : (g.added k).Has v) : (g.added (k.addVar { name })).Has v :=
    added_mono (by simp) (by simp) has
  refine ⟨⟨⟨owned.aligned.addVar (source.contains hx) name,
    fun listed => (owned.entry listed).imp_left mono, fun {y} has => ?_⟩, spares.scope,
    fun {y} inside => ?_⟩, Nat.le_refl _, (added_addVar confines.vars).2 (.inr rfl)⟩
  · rw [name?_addVar]
    split
    · exact ⟨name, rfl, .inr ⟨x, hx, by simp [name?, found]⟩⟩
    · next ne => exact owned.own (((added_addVar confines.vars).1 has).resolve_right ne)
  · obtain ⟨inside, same⟩ := spares.names inside
    refine ⟨inside.mono (by simp) (by simp), ?_⟩
    rw [name?_addVar, if_neg, same]
    rintro rfl
    exact Nat.lt_irrefl _ inside

theorem copyStructPlain_lasts (plain : start.Plain g) (fuel : Nat) {s t : StructId}
    (hs : start.Inner g (.struct s)) (spares : g.Spares start h m W.1 W.2)
    (walked : copyStructPlain fuel s W = some (t, W')) :
    g.Lasts (g.Spares start h m) W (.struct t) W' := by
  induction fuel generalizing s t W W' with
  | zero => cases walked
  | succ fuel ih =>
    have lasting := lasting_spares plain h m
    exact copyNode_lasts (source_inner plain) lasting
      (copyValue_lasts lasting ih (copyVarPlain_lasts plain)) hs spares walked

/-- Where the way from a name ends: at what it started from, or at the entry of a name on the way.
A variable there has a name that was met. -/
theorem aliases_ends {scope : Scope} {fuel : Nat} {name : String} {names names' : List String}
    {v u : Value} (walk : aliases h scope fuel name names v = some (names', u))
    (mem : name ∈ names)
    (called : ∀ {x}, h.deref? v = some (.var x) → h.name? x = some name) :
    names ⊆ names' ∧ (u = v ∨ ∃ key, scope.get? key = some u) ∧
      ∀ {x next}, h.deref? u = some (.var x) → h.name? x = some next → next ∈ names' := by
  fun_induction aliases h scope fuel name names v with
  | case1 => cases walk
  | case2 fuel name names v absent =>
    cases walk
    refine ⟨List.Subset.refl _, .inl rfl, fun reads called' => ?_⟩
    cases (called reads).symm.trans called'
    exact mem
  | case3 => cases walk
  | case4 => cases walk
  | case5 fuel name names v entry listed y reads next called' met =>
    cases walk
    refine ⟨List.Subset.refl _, .inr ⟨name, listed⟩, fun reads' called'' => ?_⟩
    cases reads.symm.trans reads'
    cases called'.symm.trans called''
    exact met
  | case6 fuel name names v entry listed y reads next called' new ih =>
    obtain ⟨more, from', named⟩ := ih walk List.mem_cons_self fun reads' => by
      cases reads.symm.trans reads'
      exact called'
    refine ⟨fun n mem => more (List.mem_cons_of_mem _ mem), .inr ?_, named⟩
    rcases from' with rfl | found
    · exact ⟨name, listed⟩
    · exact found
  | case7 fuel name names v entry listed w noVar reads =>
    cases walk
    refine ⟨List.Subset.refl _, .inr ⟨name, listed⟩, fun reads' => ?_⟩
    cases reads.symm.trans reads'
    exact absurd rfl (noVar _)

theorem get?_of_alias_self {scope : Scope} {fuel : Nat} {name : String}
    {names names' : List String} {v u : Value}
    (walk : aliases h scope fuel name names v = some (names', u)) (mem : name ∈ names)
    (earlier : ∀ n ∈ names, n ≠ name → ¬ scope.Alias h n n) {n : String} (met : n ∈ names')
    (self : scope.Alias h n n) : scope.get? n = some u := by
  have isLast {names : List String} {name : String}
      (earlier : ∀ n ∈ names, n ≠ name → ¬ scope.Alias h n n) (met : n ∈ names) : n = name :=
    by_contra fun ne => earlier n met ne self
  fun_induction aliases h scope fuel name names v with
  | case1 => cases walk
  | case2 fuel name names v absent =>
    cases walk
    obtain rfl := isLast earlier met
    obtain ⟨x, listed⟩ := self.exists_entry
    cases absent.symm.trans listed
  | case3 => cases walk
  | case4 => cases walk
  | case5 fuel name names v entry listed y reads next called new =>
    cases walk
    exact isLast earlier met ▸ listed
  | case6 fuel name names v entry listed y reads next called new ih =>
    refine ih walk List.mem_cons_self fun n' mem' ne self' => ?_
    rcases List.mem_cons.1 mem' with rfl | mem'
    · exact ne rfl
    · by_cases eq : n' = name
      · subst eq
        exact new (self'.unique ⟨entry, y, listed, reads, called⟩ ▸ mem)
      · exact earlier n' mem' eq self'
  | case7 fuel name names v entry listed w noVar reads =>
    cases walk
    exact isLast earlier met ▸ listed

/-- What the copying of `u`, which `names` stand for, has done before the names get the copy `w`. -/
structure Supplies (g : Graph) (start : Scope) (names : List String) (u : Value) (h : Graph)
    (m : Copying) (w : Value) (k : Graph) (l : Copying) : Prop where
  aligned : g.Aligned ∅ k l.nameless
  scope : l.scope = m.scope
  structs : h.structCount ≤ k.structCount
  has : (g.added k).Has w
  kept : ∀ {y}, h.Contains (.var y) → k.Contains (.var y) ∧ k.name? y = h.name? y
  origin : ∀ {y}, (g.added k).Has (.var y) → (g.added h).Has (.var y) ∨
    ∃ name, k.name? y = some name ∧ (start.Conceals g name ∨ name ∈ names ∧ w = .var y)
  same : (g.added h).Has u → w = u

variable {names : List String} {u w : Value}

theorem supplies_again (aligned : g.Aligned ∅ h m.nameless) (has : (g.added h).Has w)
    (same : (g.added h).Has u → w = u) : g.Supplies start names u h m w h m :=
  ⟨aligned, rfl, Nat.le_refl _, has, fun inside => ⟨inside, rfl⟩, .inl, same⟩

theorem Aligned.copyPlain_of_added (aligned : g.Aligned ∅ h m.nameless) (has : (g.added h).Has u) :
    copyPlain u (h, m) = some (u, h, m) := by
  have selfVar {y : VarId} (has : (g.added h).Has (.var y)) :
      m.images.vars.lookup y = some (.var y) := aligned.selfVar has
  have self {t : StructId} (has : (g.added h).Has (.struct t)) :
      m.images.structs.lookup t = some t := aligned.confines.self has
  cases u with
  | atom a => rfl
  | struct t => simp [copyPlain, copyValue, copyStructPlain, copyNode, self has]
  | var y => simp [copyPlain, copyValue, selfVar has]

theorem supplies_var (aligned : g.Aligned ∅ h m.nameless) {x : VarId} {name : String}
    (found : g.var? x = some { name }) (mem : name ∈ names)
    (walked : copyPlain (.var x) (h, m) = some (w, k, l)) :
    g.Supplies start names (.var x) h m w k l := by
  have confines := aligned.confines
  have inside : g.Contains (.var x) := contains_of_var? found
  have found' : h.var? x = some { name } := (confines.frames.var inside).trans found
  have old : ¬ (g.added h).Has (.var x) := not_added_of_contains inside rfl
  cases known : m.images.vars.lookup x with
  | some v =>
    simp only [copyPlain, copyValue, known, Option.some.injEq, Prod.mk.injEq] at walked
    obtain ⟨rfl, rfl, rfl⟩ := walked
    exact supplies_again aligned (confines.imageVar known) fun has => absurd has old
  | none =>
    cases (copyPlain_of_free known known (deref?_of_free found')
      (copyVar?_of_free found')).symm.trans walked
    have has : (g.added (h.addVar { name })).Has (.var h.nextVar) :=
      (added_addVar confines.vars).2 (.inr rfl)
    refine ⟨(aligned.addVar inside name).addImage inside has, rfl, Nat.le_refl _, has,
      fun {y} inside => ⟨inside.mono (by simp) (by simp), ?_⟩, fun {y} has => ?_,
      fun has => absurd has old⟩
    · rw [name?_addVar, if_neg]
      rintro rfl
      exact Nat.lt_irrefl _ inside
    · refine ((added_addVar confines.vars).1 has).imp_right fun new => ⟨name, ?_, .inr ⟨mem, ?_⟩⟩
      · rw [name?_addVar, if_pos new]
      · rw [new]

/-- A structure that the scope had for a name at the start gives its variables names that the scope
concealed. -/
theorem Owned.supplies_struct (owned : g.Owned start h m) (plain : start.Plain g) {s : StructId}
    (inner : start.Inner g (.struct s)) (walked : copyPlain (.struct s) (h, m) = some (w, k, l)) :
    g.Supplies start names (.struct s) h m w k l := by
  obtain ⟨⟨t, k, l⟩, copied, ⟨⟩⟩ := Option.map_eq_some_iff.1 walked
  have step := copyStructPlain_lasts plain _ (h := h) (m := m) (W := (h, m)) inner
    ⟨owned, rfl, fun inside => ⟨inside, rfl⟩⟩ copied
  have inside : g.Contains (.struct s) := (source_inner plain).contains inner
  refine ⟨step.kept.owned.aligned, step.kept.scope, step.structs, step.has, step.kept.names,
    fun {y} has => ?_, fun has => absurd has (not_added_of_contains inside rfl)⟩
  obtain ⟨name, called, listed | concealed⟩ := step.kept.owned.own has
  · -- a listed variable was added before, for the scope is the same
    refine .inl ((owned.entry (step.kept.scope ▸ listed)).resolve_right fun first => ?_)
    exact not_added_of_contains ((plain name _ first).contains .refl) rfl has
  · exact .inr ⟨name, called, .inl concealed⟩

/-- Whatever the way of a name through the scope ends at is copied. It is the variable itself, or an
entry, which is an added node or one from the start. -/
theorem Owned.supplies (owned : g.Owned start h m) (plain : start.Plain g)
    (ends : (∃ x name, u = .var x ∧ g.var? x = some { name }) ∨ ∃ key, m.scope.get? key = some u)
    (named : ∀ {x next}, h.deref? u = some (.var x) → h.name? x = some next → next ∈ names)
    (walked : copyPlain u (h, m) = some (w, k, l)) : g.Supplies start names u h m w k l := by
  have free {x : VarId} {name : String} (found : g.var? x = some { name })
      (eq : u = .var x) : g.Supplies start names u h m w k l := by
    subst eq
    have found' : h.var? x = some { name } :=
      (owned.aligned.confines.frames.var (contains_of_var? found)).trans found
    exact supplies_var owned.aligned found
      (named (deref?_of_free found') (by simp [name?, found'])) walked
  rcases ends with ⟨x, name, eq, found⟩ | ⟨key, listed⟩
  · exact free found eq
  · rcases owned.entry listed with has | first
    · cases (owned.aligned.copyPlain_of_added has).symm.trans walked
      exact supplies_again owned.aligned has fun _ => rfl
    · cases u with
      | atom a =>
        cases walked
        exact supplies_again owned.aligned trivial fun _ => rfl
      | struct s => exact owned.supplies_struct plain ⟨key, s, first, .refl⟩ walked
      | var x =>
        obtain ⟨name, found⟩ := (plain key _ first).free .refl
        exact free found rfl

/-- With the copy bound to the names, every added variable is listed under its name again. -/
theorem Supplies.owned (supplies : g.Supplies start names u h m w k l)
    (owned : g.Owned start h m)
    (self : ∀ {n}, n ∈ names → m.scope.Alias h n n → m.scope.get? n = some u) :
    g.Owned start k (l.bindAll names w) := by
  have scope (key : String) : (l.bindAll names w).scope.get? key =
      if key ∈ names then some w else m.scope.get? key := by
    rw [get?_bindAll, supplies.scope]
  refine ⟨supplies.aligned, fun {key v} listed => ?_, fun {y} has => ?_⟩
  · rw [scope] at listed
    split at listed
    · cases listed
      exact .inl supplies.has
    · refine (owned.entry listed).imp_left fun has => ?_
      cases v with
      | atom a => trivial
      | struct t => exact ⟨has.1, has.2.trans_le supplies.structs⟩
      | var y => exact ⟨has.1, (supplies.kept has.2).1⟩
  · rcases supplies.origin has with before | ⟨name, called, how⟩
    · obtain ⟨name, called, listed | concealed⟩ := owned.own before
      · refine ⟨name, (supplies.kept before.2).2.trans called, .inl ?_⟩
        rw [scope]
        split
        · next mem =>
          -- the name stands for a variable of that name, so that the way ends there
          obtain ⟨_, free⟩ := owned.aligned.confines.free before
          have ends := self mem ⟨_, y, listed, deref?_of_free free, called⟩
          cases ends.symm.trans listed
          rw [supplies.same before]
        · exact listed
      · exact ⟨name, (supplies.kept before.2).2.trans called, .inr concealed⟩
    · refine ⟨name, called, ?_⟩
      rcases how with concealed | ⟨mem, rfl⟩
      · exact .inr concealed
      · exact .inl (by rw [scope, if_pos mem])

theorem copyVarScoped_lasts (source : g.Source D) (plain : start.Plain g) {x : VarId}
    (hx : D (.var x)) (owned : g.Owned start W.1 W.2)
    (walked : copyVarScoped x W = some (w, W')) : g.Lasts (g.Owned start) W w W' := by
  obtain ⟨h, m⟩ := W
  obtain ⟨name, found⟩ := source.free hx
  have found' : h.var? x = some { name } :=
    (owned.aligned.confines.frames.var (source.contains hx)).trans found
  have called : h.name? x = some name := by simp [name?, found']
  simp only [copyVarScoped, called, Option.bind_eq_bind, Option.bind_some,
    Option.bind_eq_some_iff] at walked
  obtain ⟨⟨names, u⟩, followed, ⟨w, k, l⟩, copied, ⟨⟩⟩ := walked
  obtain ⟨-, ends, named⟩ := aliases_ends followed List.mem_cons_self fun {z} reads => by
    cases (deref?_of_free found').symm.trans reads
    exact called
  have supplies : g.Supplies start names u h m w k l := owned.supplies plain
    (ends.imp_left fun eq => ⟨x, name, eq, found⟩) named copied
  exact ⟨supplies.owned owned (get?_of_alias_self followed List.mem_cons_self (by simp)),
    supplies.structs, supplies.has⟩

theorem copyStructScoped_lasts (source : g.Source D) (plain : start.Plain g) (fuel : Nat)
    {s t : StructId} (hs : D (.struct s)) (owned : g.Owned start W.1 W.2)
    (walked : copyStructScoped fuel s W = some (t, W')) :
    g.Lasts (g.Owned start) W (.struct t) W' := by
  induction fuel generalizing s t W W' with
  | zero => cases walked
  | succ fuel ih =>
    have lasting := source.lasting_owned start
    exact copyNode_lasts source lasting (copyValue_lasts lasting ih fun hx owned _ =>
      copyVarScoped_lasts source plain hx owned) hs owned walked

theorem copyScoped_lasts (source : g.Source D) (plain : start.Plain g) {v : Value} (hv : D v)
    (owned : g.Owned start W.1 W.2) (walked : copyScoped v W = some (w, W')) :
    g.Lasts (g.Owned start) W w W' :=
  copyValue_lasts (source.lasting_owned start) (copyStructScoped_lasts source plain _)
    (fun hx owned _ => copyVarScoped_lasts source plain hx owned) hv owned walked

theorem owned_start (wf : g.WellFormed) (start : Scope) : g.Owned start g { scope := start } where
  aligned := (tied_start wf fun name v found => by cases found).toAligned
  entry listed := .inr listed
  own has := absurd has (not_added_self rfl)

theorem WellFormed.exists_ownedOperands (wf : g.WellFormed) {a b : Value} (ha : g.Plain a)
    (hb : g.Plain b) (plain : start.Plain g) :
    ∃ v w h m, g.copyOperands a b (.common start) =
        some (v, w, .common (m.scope.map m.images.apply), h) ∧
      g.OperandCopies h v w (.common (m.scope.map m.images.apply)) ∧ g.Owned start h m := by
  have within : (Scoping.common start).All (Scope.Within · g) := plain.within
  obtain ⟨v, w, scoping, h, walked, copies⟩ :=
    wf.exists_copyOperands (ha.contains .refl) (hb.contains .refl) within
  have source := ha.source hb
  obtain ⟨⟨v, k, l⟩, first, ⟨w, h, m⟩, second, ⟨⟩⟩ :
      ∃ r, copyScoped a (g, { scope := start }) = some r ∧
        ∃ r', copyScoped b r.2 = some r' ∧
          (r.1, r'.1, Scoping.common (r'.2.2.scope.map r'.2.2.images.apply), r'.2.1) =
            (v, w, scoping, h) := by
    simpa [copyOperands, Option.bind_eq_some_iff] using walked
  have left := copyScoped_lasts source plain (.inl .refl) (owned_start wf start) first
  have right := copyScoped_lasts source plain (.inr .refl) left.kept second
  exact ⟨v, w, h, m, walked, copies, right.kept⟩

end Graph

end FeatureLogic
