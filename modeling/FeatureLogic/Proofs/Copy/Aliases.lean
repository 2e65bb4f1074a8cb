import FeatureLogic.Proofs.Copy.Scoped
import FeatureLogic.Proofs.Copy.Structures
import FeatureLogic.Scope.Alias

/-!
# Names that bear copies

While operands are copied under a common scope, names come to bear copies: the scope has an added
node for them, or an atom. A name that bears nothing yet has the entry that it had at first. So the
way from a name along its aliases either leads over entries from the start only, or ends at the
first name that bears something, and what that name bears is what all names on the way stand for.
-/

namespace FeatureLogic.Graph

open Copying

def Bears (g : Graph) (m : Copying) (name : String) (v : Value) : Prop :=
  m.scope.get? name = some v ∧ (v.isNode → ¬ g.Contains v)

/-- What holds of the names and of the copied structures while operands of `g` are copied under
the scope `start`. -/
structure Aligned (g : Graph) (start : Scope) (h : Graph) (m : Copying) : Prop where
  confines : g.Confines h m
  known : ∀ {s t}, m.images.structs.lookup s = some t → h.Contains (.struct s)
  knownVar : ∀ {x v}, m.images.vars.lookup x = some v → h.Contains (.var x)
  injective : ∀ {s s' t}, g.Contains (.struct s) → g.Contains (.struct s') →
    m.images.structs.lookup s = some t → m.images.structs.lookup s' = some t → s = s'
  selfVar : ∀ {y}, (g.added h).Has (.var y) → m.images.vars.lookup y = some (.var y)
  informs : ∀ {name v}, g.Bears m name v → v ≠ .unspecified
  follows : ∀ name, (∃ v, g.Bears m name v) ∨ m.scope.get? name = start.get? name
  onward : ∀ {name next v}, g.Bears m name v → start.Alias g name next → g.Bears m next v

/-- Does every added variable bear its own name, and every variable that was copied have the copy
that its name bears? -/
structure Tied (g : Graph) (start : Scope) (h : Graph) (m : Copying) : Prop
    extends Aligned g start h m where
  own : ∀ {y}, (g.added h).Has (.var y) → ∃ name, h.name? y = some name ∧ g.Bears m name (.var y)
  image : ∀ {x v root name}, m.images.vars.lookup x = some v →
    g.deref? (.var x) = some (.var root) → g.name? root = some name → g.Bears m name v

variable {g h : Graph} {start : Scope} {m : Copying} {D : Value → Prop}

theorem Bears.unique {name : String} {v w : Value} (bears : g.Bears m name v)
    (bears' : g.Bears m name w) : v = w :=
  Option.some.inj (bears.1.symm.trans bears'.1)

theorem bears_of_added {name : String} {v : Value} (listed : m.scope.get? name = some v)
    (has : (g.added h).Has v) : g.Bears m name v :=
  ⟨listed, fun node contains => not_added_of_contains contains node has⟩

theorem added_of_not_contains {v : Value} (inside : h.Contains v)
    (outside : v.isNode → ¬ g.Contains v) : (g.added h).Has v := by
  cases v with
  | atom a => trivial
  | struct s => exact ⟨Nat.le_of_not_lt (outside rfl), inside⟩
  | var x => exact ⟨Nat.le_of_not_lt (outside rfl), inside⟩

theorem tied_start (wf : g.WellFormed) (simple : start.Simple g) :
    g.Tied start g { scope := start } := by
  have atom {name : String} {v : Value} (bears : g.Bears { scope := start } name v) :
      ∃ a, v = .atom a ∧ a ≠ .unspecified := by
    have simple := simple name v bears.1
    cases v with
    | atom a => exact ⟨a, rfl, simple⟩
    | struct s => exact absurd simple.contains (bears.2 rfl)
    | var x => exact absurd simple.contains (bears.2 rfl)
  refine ⟨⟨confines_start wf fun name v found => (simple name v found).contains, ?_, ?_, ?_, ?_, ?_,
    fun _ => .inr rfl, ?_⟩, ?_, ?_⟩
  · intro s t found
    cases found
  · intro x v found
    cases found
  · intro s s' t _ _ found
    cases found
  · exact fun has => absurd has (not_added_self rfl)
  · intro name v bears
    obtain ⟨a, rfl, informs⟩ := atom bears
    simpa [Value.unspecified] using informs
  · intro name next v bears tie
    obtain ⟨a, rfl, -⟩ := atom bears
    obtain ⟨x, found⟩ := tie.exists_entry
    cases bears.1.symm.trans found
  · exact fun has => absurd has (not_added_self rfl)
  · intro x v root name found
    cases found

namespace Aligned

theorem added_of_bears (aligned : g.Aligned start h m) {name : String} {v : Value}
    (bears : g.Bears m name v) : (g.added h).Has v :=
  added_of_not_contains (aligned.confines.scope name v bears.1) bears.2

theorem unused (aligned : g.Aligned start h m) : m.images.structs.lookup h.nextStruct = none :=
  Option.eq_none_iff_forall_not_mem.2 fun _ found => Nat.lt_irrefl _ (aligned.known found)

theorem unusedVar (aligned : g.Aligned start h m) : m.images.vars.lookup h.nextVar = none :=
  Option.eq_none_iff_forall_not_mem.2 fun _ found => Nat.lt_irrefl _ (aligned.knownVar found)

theorem has_apply (aligned : g.Aligned start h m) {v : Value} (imaged : Imaged m v) :
    (g.added h).Has (m.images.apply v) := by
  cases v with
  | atom a => trivial
  | struct s =>
    obtain ⟨t, found⟩ := imaged
    simp only [Images.apply, found]
    exact aligned.confines.image found
  | var x =>
    obtain ⟨v, found⟩ := imaged
    simp only [Images.apply, found]
    exact aligned.confines.imageVar found

theorem apply_of_added (aligned : g.Aligned start h m) {v : Value} (has : (g.added h).Has v) :
    m.images.apply v = v := by
  cases v with
  | atom a => rfl
  | struct t => simp [Images.apply, aligned.confines.self has]
  | var y => simp [Images.apply, aligned.selfVar has]

theorem addStruct (aligned : g.Aligned start h m) {s : StructId} (inside : g.Contains (.struct s))
    (fresh : m.images.structs.lookup s = none) :
    g.Aligned start (h.addStruct ∅) (m.addStruct s h.nextStruct) := by
  have old : h.Contains (.struct s) :=
    inside.mono aligned.confines.structs aligned.confines.vars
  have before {u t : StructId} (hu : g.Contains (.struct u))
      (found : (m.addStruct s h.nextStruct).images.structs.lookup u = some t) :
      t = h.nextStruct ∧ u = s ∨ m.images.structs.lookup u = some t := by
    rcases lookup_addStruct_eq_some found with ⟨rfl, rfl | rfl⟩ | found
    · exact absurd hu (Nat.not_lt.2 aligned.confines.structs)
    · exact .inl ⟨rfl, rfl⟩
    · exact .inr found
  refine ⟨aligned.confines.addStruct old fresh, ?_, aligned.knownVar, ?_, aligned.selfVar,
    aligned.informs, aligned.follows, aligned.onward⟩
  · intro u t found
    rcases lookup_addStruct_eq_some found with ⟨-, rfl | rfl⟩ | found
    · exact show h.structCount < _ by simp
    · exact old.mono (by simp) (by simp)
    · exact (aligned.known found).mono (by simp) (by simp)
  · intro u u' t hu hu' found found'
    rcases before hu found with ⟨rfl, rfl⟩ | listed
    · rcases before hu' found' with ⟨-, rfl⟩ | listed'
      · rfl
      · exact absurd (aligned.confines.image listed') not_added_nextStruct
    · rcases before hu' found' with ⟨rfl, rfl⟩ | listed'
      · exact absurd (aligned.confines.image listed) not_added_nextStruct
      · exact aligned.injective hu hu' listed listed'

theorem setFeature (aligned : g.Aligned start h m) {t : StructId} {v : Value}
    (has : (g.added h).Has (.struct t)) (hasValue : (g.added h).Has v) (name : String) :
    g.Aligned start (h.setFeature t name v) m := by
  have region : g.added (h.setFeature t name v) = g.added h := by simp [added]
  exact ⟨aligned.confines.setFeature has name hasValue,
    fun found => (aligned.known found).mono (by simp) (by simp),
    fun found => (aligned.knownVar found).mono (by simp) (by simp), aligned.injective,
    region ▸ aligned.selfVar, aligned.informs, aligned.follows, aligned.onward⟩

theorem addImage (aligned : g.Aligned start h m) {x : VarId} {v : Value}
    (inside : g.Contains (.var x)) (has : (g.added h).Has v) :
    g.Aligned start h (m.addVar x v) := by
  have old : h.Contains (.var x) := inside.mono aligned.confines.structs aligned.confines.vars
  refine { aligned with confines := aligned.confines.addImage x has, knownVar := ?_, selfVar := ?_ }
  · intro z w found
    rw [lookup_addVar] at found
    split at found
    · next eq => exact eq ▸ old
    · exact aligned.knownVar found
  · intro y hasVar
    rw [lookup_addVar, if_neg, aligned.selfVar hasVar]
    rintro rfl
    exact not_added_of_contains inside rfl hasVar

theorem addVar (aligned : g.Aligned start h m) {x : VarId} (inside : g.Contains (.var x))
    (name : String) : g.Aligned start (h.addVar { name })
      ((m.addVar x (.var h.nextVar)).addVar h.nextVar (.var h.nextVar)) := by
  have has : (g.added (h.addVar { name })).Has (.var h.nextVar) :=
    (added_addVar aligned.confines.vars).2 (.inr rfl)
  have confines := ((aligned.confines.addVar name).addImage x has).addImage h.nextVar has
  refine ⟨confines, fun found => (aligned.known found).mono (by simp) (by simp), ?_,
    aligned.injective, ?_, aligned.informs, aligned.follows, aligned.onward⟩
  · intro z v found
    simp only [lookup_addVar] at found
    split at found
    · next eq => exact eq ▸ contains_of_added has
    · split at found
      · next eq => exact eq ▸ inside.mono confines.structs confines.vars
      · exact (aligned.knownVar found).mono (by simp) (by simp)
  · intro y hasVar
    simp only [lookup_addVar]
    split
    · next eq => rw [eq]
    · next ne =>
      have old := ((added_addVar aligned.confines.vars).1 hasVar).resolve_right ne
      rw [if_neg, aligned.selfVar old]
      rintro rfl
      exact not_added_of_contains inside rfl old

/-- What the scope said at the start about a name that bears nothing, as it is found now. -/
theorem exists_entry_alias (aligned : g.Aligned start h m) {name : String} {entry : Value}
    {root : VarId} (listed : start.get? name = some entry)
    (reads : g.deref? entry = some (.var root)) (wf : g.WellFormed) :
    ∃ next, start.Alias g name next ∧ g.name? root = some next ∧ h.name? root = some next ∧
      h.deref? entry = some (.var root) := by
  have inside : g.Contains (.var root) := contains_of_deref? (wf.deref?_deref? reads)
  obtain ⟨node, found⟩ := exists_var_of_contains inside
  have called : g.name? root = some node.name := by simp [name?, found]
  refine ⟨node.name, ⟨entry, root, listed, reads, called⟩, called, ?_,
    aligned.confines.frames.deref?_eq_some reads⟩
  simp [name?, aligned.confines.frames.var?_eq_some found]

end Aligned

namespace Tied

theorem addImage (tied : g.Tied start h m) {x : VarId} {v : Value} (inside : g.Contains (.var x))
    (has : (g.added h).Has v) (image : ∀ {root name}, g.deref? (.var x) = some (.var root) →
      g.name? root = some name → g.Bears m name v) :
    g.Tied start h (m.addVar x v) := by
  refine ⟨tied.toAligned.addImage inside has, tied.own, ?_⟩
  intro z w root name found reads called
  rw [lookup_addVar] at found
  split at found
  · next eq =>
    cases found
    exact image (eq ▸ reads) called
  · exact tied.image found reads called

theorem addStruct (tied : g.Tied start h m) {s : StructId} (inside : g.Contains (.struct s))
    (fresh : m.images.structs.lookup s = none) :
    g.Tied start (h.addStruct ∅) (m.addStruct s h.nextStruct) :=
  ⟨tied.toAligned.addStruct inside fresh, tied.own, tied.image⟩

theorem setFeature (tied : g.Tied start h m) {t : StructId} {v : Value}
    (has : (g.added h).Has (.struct t)) (hasValue : (g.added h).Has v) (name : String) :
    g.Tied start (h.setFeature t name v) m := by
  have region : g.added (h.setFeature t name v) = g.added h := by simp [added]
  refine ⟨tied.toAligned.setFeature has hasValue name, fun hasVar => ?_, tied.image⟩
  obtain ⟨key, called, bears⟩ := tied.own (region ▸ hasVar)
  exact ⟨key, by rw [← called]; simp [name?], bears⟩

end Tied

/-- Structures can be copied with the names staying tied. -/
theorem upkeep_tied (source : g.Source D) (start : Scope) : Upkeep g D (g.Tied start) where
  structs tied := tied.confines.structs
  few tied := tied.confines.structCount_le
  frames tied := tied.confines.frames
  unused tied := tied.unused
  has tied imaged := tied.has_apply imaged
  enter tied hs fresh := tied.addStruct (source.contains hs) fresh
  fill tied has hasValue name := tied.setFeature has hasValue name

/-- From a name that bears a value the way ends with that value, after one more name at most. -/
theorem Tied.aliases_of_bears (tied : g.Tied start h m) {fuel : Nat} {name : String}
    {names names' : List String} {v u u' : Value} (bears : g.Bears m name v)
    (walk : aliases h m.scope fuel name names u = some (names', u')) :
    u' = v ∧ names ⊆ names' ∧ ∀ n ∈ names', n ∈ names ∨ g.Bears m n v := by
  have stay {n : String} (mem : n ∈ names) : n ∈ names ∨ g.Bears m n v := .inl mem
  cases fuel with
  | zero => cases walk
  | succ fuel =>
    rw [aliases, bears.1] at walk
    cases v with
    | atom a =>
      cases walk
      exact ⟨rfl, List.Subset.refl _, fun _ => stay⟩
    | struct s =>
      cases walk
      exact ⟨rfl, List.Subset.refl _, fun _ => stay⟩
    | var y =>
      have has := tied.added_of_bears bears
      obtain ⟨key, called, own⟩ := tied.own has
      obtain ⟨_, found⟩ := tied.confines.free has
      have reads : h.deref? (.var y) = some (.var y) := deref?_of_free found
      simp only [reads, called] at walk
      split at walk
      · cases walk
        exact ⟨rfl, List.Subset.refl _, fun _ => stay⟩
      · -- the variable's own name bears it too, so that the next step is the last one
        cases fuel with
        | zero => cases walk
        | succ fuel =>
          simp only [aliases, own.1, reads, called, List.mem_cons_self, if_true] at walk
          cases walk
          refine ⟨rfl, List.subset_cons_self _ _, fun n mem => ?_⟩
          rcases List.mem_cons.1 mem with rfl | mem
          · exact .inr own
          · exact .inl mem

structure Walked (g : Graph) (start : Scope) (m : Copying) (names : List String) (u : Value) :
    Prop where
  onward : ∀ {name next}, name ∈ names → start.Alias g name next →
    next ∈ names ∨ g.Bears m next u
  same : ∀ {name v}, name ∈ names → g.Bears m name v → v = u
  ends : (∃ name, g.Bears m name u) ∨
    (∃ root name, g.deref? u = some (.var root) ∧ g.name? root = some name ∧ name ∈ names) ∨
    ∃ name s, u = .struct s ∧ start.get? name = some u

theorem walked_of_bare {names : List String} {u : Value}
    (bare : ∀ n ∈ names, ∀ w, ¬ g.Bears m n w)
    (onward : ∀ n ∈ names, ∀ next, start.Alias g n next → next ∈ names)
    (ends : (∃ root name, g.deref? u = some (.var root) ∧ g.name? root = some name ∧
      name ∈ names) ∨ ∃ name s, u = .struct s ∧ start.get? name = some u) :
    g.Walked start m names u :=
  ⟨fun mem tie => .inl (onward _ mem _ tie), fun mem bears => absurd bears (bare _ mem _),
    .inr ends⟩

/-- The way ends at the first name that bears something, after names that bear nothing. -/
theorem Tied.walked_of_bears (tied : g.Tied start h m) {fuel : Nat} {name : String}
    {earlier names : List String} {v w u : Value} (bears : g.Bears m name w)
    (bare : ∀ n ∈ earlier, ∀ w, ¬ g.Bears m n w)
    (onward : ∀ n ∈ earlier, ∀ next, start.Alias g n next → next ∈ name :: earlier)
    (walk : aliases h m.scope fuel name (name :: earlier) v = some (names, u)) :
    g.Walked start m names u ∧ name :: earlier ⊆ names := by
  obtain ⟨rfl, more, each⟩ := tied.aliases_of_bears bears walk
  refine ⟨⟨fun {n next} mem tie => ?_, fun {n w} mem bears' => ?_, .inl ⟨name, bears⟩⟩, more⟩
  · rcases each n mem with met | bears'
    · rcases List.mem_cons.1 met with rfl | met
      · exact .inr (tied.onward bears tie)
      · exact .inl (more (onward n met next tie))
    · exact .inr (tied.onward bears' tie)
  · rcases each n mem with met | bears''
    · rcases List.mem_cons.1 met with rfl | met
      · exact bears'.unique bears
      · exact absurd bears' (bare n met w)
    · exact bears'.unique bears''

theorem Tied.walked (tied : g.Tied start h m) (wf : g.WellFormed) (simple : start.Simple g)
    {fuel : Nat} {name : String} {earlier names : List String} {v u : Value} {root : VarId}
    (reads : g.deref? v = some (.var root)) (called : g.name? root = some name)
    (bare : ∀ n ∈ earlier, ∀ w, ¬ g.Bears m n w)
    (onward : ∀ n ∈ earlier, ∀ next, start.Alias g n next → next ∈ name :: earlier)
    (walk : aliases h m.scope fuel name (name :: earlier) v = some (names, u)) :
    g.Walked start m names u ∧ name :: earlier ⊆ names := by
  induction fuel generalizing name earlier v root with
  | zero => cases walk
  | succ fuel ih =>
    by_cases bears : ∃ w, g.Bears m name w
    · obtain ⟨w, bears⟩ := bears
      exact tied.walked_of_bears bears bare onward walk
    · have bareAll : ∀ n ∈ name :: earlier, ∀ w, ¬ g.Bears m n w :=
        List.forall_mem_cons.2 ⟨fun w bears' => bears ⟨w, bears'⟩, bare⟩
      -- a name whose entry is no variable has no alias, so the way ends there
      have stop (noVar : ∀ x, start.get? name ≠ some (.var x)) : ∀ n ∈ name :: earlier,
          ∀ next, start.Alias g n next → next ∈ name :: earlier :=
        List.forall_mem_cons.2 ⟨fun next tie => absurd tie.exists_entry.choose_spec (noVar _),
          onward⟩
      have listed := (tied.follows name).resolve_left bears
      rw [aliases, listed] at walk
      cases entry : start.get? name with
      | none =>
        rw [entry] at walk
        cases walk
        exact ⟨walked_of_bare bareAll (stop (by simp [entry]))
          (.inl ⟨root, name, reads, called, List.mem_cons_self⟩), List.Subset.refl _⟩
      | some entryValue =>
        have simpleEntry := simple name _ entry
        rw [entry] at walk listed
        cases entryValue with
        | atom a => exact absurd ⟨_, listed, by rintro ⟨⟩⟩ bears
        | struct s =>
          cases walk
          exact ⟨walked_of_bare bareAll (stop (by simp [entry])) (.inr ⟨name, s, rfl, entry⟩),
            List.Subset.refl _⟩
        | var x =>
          obtain ⟨root', reads'⟩ := simpleEntry
          obtain ⟨next, tie, called', calledNow, readsNow⟩ :=
            tied.exists_entry_alias entry reads' wf
          simp only [readsNow, calledNow] at walk
          have onwardAll : ∀ n ∈ name :: earlier, ∀ next', start.Alias g n next' →
              next' ∈ next :: name :: earlier :=
            List.forall_mem_cons.2 ⟨fun next' tie' => tie'.unique tie ▸ List.mem_cons_self,
              fun n met next' tie' => List.mem_cons_of_mem _ (onward n met next' tie')⟩
          split at walk
          · next met =>
            cases walk
            refine ⟨walked_of_bare bareAll (fun n mem next' tie' => ?_)
              (.inl ⟨root', next, reads', called', met⟩), List.Subset.refl _⟩
            rcases List.mem_cons.1 (onwardAll n mem next' tie') with rfl | mem
            · exact met
            · exact mem
          · obtain ⟨walked, more⟩ := ih reads' called' bareAll onwardAll walk
            exact ⟨walked, fun n mem => more (List.mem_cons_of_mem _ mem)⟩

end FeatureLogic.Graph
