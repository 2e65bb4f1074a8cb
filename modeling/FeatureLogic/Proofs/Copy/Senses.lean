import FeatureLogic.Proofs.Copy.Owned
import FeatureLogic.Proofs.Scope.Sense

/-!
# Copies with the sense of their names

A value with free variables is copied under a scope of atoms and free variables, which is rewritten
on the way. Every entry of the scope is from the start, or it fits the sense of its name. So a way
through the scope ends at a value that fits the sense of the first name, however much of the way was
rewritten before, and every variable becomes a value that fits the sense of its name.
-/

namespace FeatureLogic

theorem Sense.Fits.mono {g h : Graph} {sense : Sense} {v : Value}
    (vars : ∀ {x node}, g.var? x = some node → h.var? x = some node) (fits : sense.Fits g v) :
    sense.Fits h v := by
  cases sense with
  | atom a => exact fits
  | called name =>
    obtain ⟨x, rfl, found⟩ := fits
    exact ⟨x, rfl, vars found⟩

theorem Sense.Fits.pairs {g h : Graph} {sense : Sense} {v w : Value} (fits : sense.Fits g v)
    (fits' : sense.Fits h w) (copies : StructId → StructId → Prop) :
    Pairing.Pairs ⟨copies, Graph.SameName g h⟩ g h v w := by
  cases sense with
  | atom a =>
    cases fits
    cases fits'
    exact ⟨_, _, rfl, rfl, rfl⟩
  | called name =>
    obtain ⟨x, rfl, found⟩ := fits
    obtain ⟨y, rfl, found'⟩ := fits'
    exact ⟨_, _, Graph.deref?_of_free found, Graph.deref?_of_free found', name,
      by simp [Graph.name?, found], by simp [Graph.name?, found']⟩

namespace Graph

open Copying

structure Sensed (g : Graph) (start : Scope) (h : Graph) (m : Copying) : Prop where
  aligned : g.Aligned ∅ h m.nameless
  entry : ∀ {name v}, m.scope.get? name = some v → start.get? name = some v ∨
    (g.added h).Has v ∧ ∃ sense, start.Conveys g name sense ∧ sense.Fits h v
  absent : ∀ {name}, m.scope.get? name = none → start.get? name = none
  image : ∀ {x v name}, m.images.vars.lookup x = some v → g.var? x = some { name } →
    ∃ sense, start.Conveys g name sense ∧ sense.Fits h v

variable {g h k : Graph} {start : Scope} {m l : Copying} {D : Value → Prop} {sense : Sense}
  {name : String} {names earlier : List String} {u v w : Value}

theorem sensed_start (wf : g.WellFormed) (start : Scope) : g.Sensed start g { scope := start } where
  aligned := (owned_start wf start).aligned
  entry listed := .inl listed
  absent := id
  image found := by cases found

/-- Structures can be copied with the names keeping their senses. -/
theorem Source.upkeep_sensed (source : g.Source D) (start : Scope) :
    Upkeep g D (g.Sensed start) where
  structs sensed := sensed.aligned.confines.structs
  few sensed := sensed.aligned.confines.structCount_le
  frames sensed := sensed.aligned.confines.frames
  unused sensed := sensed.aligned.unused
  has sensed imaged := sensed.aligned.has_apply imaged
  enter sensed hs fresh :=
    ⟨sensed.aligned.addStruct (source.contains hs) fresh,
      fun listed => (sensed.entry listed).imp_right (And.imp_left (added_mono (by simp) (by simp))),
      sensed.absent, sensed.image⟩
  fill {h m t v} sensed has hasValue name := by
    have region : g.added (h.setFeature t name v) = g.added h := by simp [added]
    exact ⟨sensed.aligned.setFeature has hasValue name, region ▸ sensed.entry, sensed.absent,
      sensed.image⟩

/-! ### The way through the scope -/

def Arrives (g h : Graph) (sense : Sense) (u : Value) : Prop :=
  (g.added h).Has u ∧ sense.Fits h u ∨ sense.Fits g u

theorem aliases_of_called {scope : Scope} {fuel : Nat} {next : String} {y : VarId}
    (listed : scope.get? name = some (.var y)) (found : h.var? y = some { name := next })
    (walk : aliases h scope (fuel + 1) name names v = some (earlier, u)) :
    next ∈ names ∧ earlier = names ∧ u = .var y ∨
      next ∉ names ∧ aliases h scope fuel next (next :: names) (.var y) = some (earlier, u) := by
  have called : h.name? y = some next := by simp [name?, found]
  simp only [aliases, listed, deref?_of_free found, called] at walk
  split at walk
  · next met =>
    cases walk
    exact .inl ⟨met, rfl, rfl⟩
  · next unmet => exact .inr ⟨unmet, walk⟩

namespace Sensed

variable (sensed : g.Sensed start h m)

include sensed

theorem var?_eq_some {x : VarId} {node : Variable} (found : g.var? x = some node) :
    h.var? x = some node :=
  sensed.aligned.confines.frames.var?_eq_some found

theorem aliases_of_terminal (chained : start.Chained g) {fuel : Nat}
    (terminal : start.Conveys g name (.called name)) (mem : name ∈ names)
    (arrives : g.Arrives h (.called name) v)
    (walk : aliases h m.scope fuel name names v = some (earlier, u)) :
    earlier = names ∧ g.Arrives h (.called name) u := by
  cases fuel with
  | zero => cases walk
  | succ fuel =>
    cases listed : m.scope.get? name with
    | none =>
      simp only [aliases, listed, Option.some.injEq, Prod.mk.injEq] at walk
      obtain ⟨rfl, rfl⟩ := walk
      exact ⟨rfl, arrives⟩
    | some e =>
      have arrives : g.Arrives h (.called name) e := by
        rcases sensed.entry listed with first | ⟨has, sense, conveys, fits⟩
        · rcases terminal.ends with absent | tie
          · cases absent.symm.trans first
          · obtain ⟨x, first', found⟩ := chained.exists_entry tie
            cases first.symm.trans first'
            exact .inr ⟨x, rfl, found⟩
        · cases conveys.unique terminal
          exact .inl ⟨has, fits⟩
      obtain ⟨y, rfl, found⟩ : (Sense.called name).Fits h e :=
        arrives.elim And.right (.mono sensed.var?_eq_some)
      rcases aliases_of_called listed found walk with ⟨-, rfl, rfl⟩ | ⟨unmet, -⟩
      · exact ⟨rfl, arrives⟩
      · exact absurd mem unmet

/-- From a name that has come to stand for its sense the way ends with this sense, after one more
name at most. -/
theorem aliases_of_written (chained : start.Chained g) {fuel : Nat}
    (conveys : start.Conveys g name sense) {e : Value} (listed : m.scope.get? name = some e)
    (has : (g.added h).Has e) (fits : sense.Fits h e)
    (walk : aliases h m.scope fuel name names v = some (earlier, u)) :
    (∀ n ∈ earlier, n ∈ names ∨ start.Conveys g n sense) ∧ g.Arrives h sense u := by
  cases fuel with
  | zero => cases walk
  | succ fuel =>
    cases sense with
    | atom a =>
      cases fits
      simp only [aliases, listed, deref?_atom, Option.some.injEq, Prod.mk.injEq] at walk
      obtain ⟨rfl, rfl⟩ := walk
      exact ⟨fun n => .inl, .inr rfl⟩
    | called last =>
      obtain ⟨y, rfl, found⟩ := fits
      rcases aliases_of_called listed found walk with ⟨-, rfl, rfl⟩ | ⟨-, walk⟩
      · exact ⟨fun n => .inl, .inl ⟨has, y, rfl, found⟩⟩
      · obtain ⟨rfl, arrives⟩ := sensed.aliases_of_terminal chained conveys.stands
          List.mem_cons_self (.inl ⟨has, y, rfl, found⟩) walk
        refine ⟨List.forall_mem_cons.2 ⟨.inr conveys.stands, fun n => .inl⟩, arrives⟩

/-- Whatever was rewritten of it, the way from a name ends with the sense of the name, which is the
sense of all the names on the way. -/
theorem aliases_arrives (chained : start.Chained g) {fuel : Nat}
    (conveys : start.Conveys g name sense) (stands : (Sense.called name).Fits g v)
    (behind : ∀ n ∈ earlier, Relation.TransGen (start.Alias g) n name)
    (walk : aliases h m.scope fuel name (name :: earlier) v = some (names, u)) :
    (∀ n ∈ names, n ∈ earlier ∨ start.Conveys g n sense) ∧ g.Arrives h sense u := by
  induction fuel generalizing name earlier v with
  | zero => cases walk
  | succ fuel ih =>
    have here {others : List String} (each : ∀ n ∈ others, n ∈ name :: earlier ∨
        start.Conveys g n sense) : ∀ n ∈ others, n ∈ earlier ∨ start.Conveys g n sense := by
      intro n mem
      rcases each n mem with met | conveys'
      · rcases List.mem_cons.1 met with rfl | met
        · exact .inr conveys
        · exact .inl met
      · exact .inr conveys'
    cases listed : m.scope.get? name with
    | none =>
      simp only [aliases, listed, Option.some.injEq, Prod.mk.injEq] at walk
      obtain ⟨rfl, rfl⟩ := walk
      cases conveys.unique (.absent (sensed.absent listed))
      exact ⟨here fun n => .inl, .inr stands⟩
    | some e =>
      rcases sensed.entry listed with first | ⟨has, sense', conveys', fits⟩
      · rcases chained.entry first with ⟨a, rfl⟩ | ⟨y, next, rfl, found⟩
        · cases conveys.unique (.atom first)
          simp only [aliases, listed, deref?_atom, Option.some.injEq, Prod.mk.injEq] at walk
          obtain ⟨rfl, rfl⟩ := walk
          exact ⟨here fun n => .inl, .inr rfl⟩
        · have tie := Scope.alias_of_entry first found
          rcases aliases_of_called listed (sensed.var?_eq_some found) walk with
            ⟨met, rfl, rfl⟩ | ⟨unmet, walk⟩
          · -- the chain does not come back to an earlier name, so that this one is its own alias
            obtain rfl : next = name := by
              rcases List.mem_cons.1 met with same | met
              · exact same
              · exact tie.unique (chained.straight (.head tie (behind next met)))
            cases conveys.unique (.self tie)
            exact ⟨here fun n => .inl, .inr ⟨y, rfl, found⟩⟩
          · have other : next ≠ name := fun same => unmet (same ▸ List.mem_cons_self)
            obtain ⟨each, arrives⟩ := ih (conveys.onward tie other) ⟨y, rfl, found⟩
              (List.forall_mem_cons.2 ⟨.single tie, fun n met => (behind n met).tail tie⟩) walk
            exact ⟨here each, arrives⟩
      · cases conveys'.unique conveys
        obtain ⟨each, arrives⟩ := sensed.aliases_of_written chained conveys listed has fits walk
        exact ⟨here each, arrives⟩

end Sensed

/-! ### Copies of variables -/

structure Conforms (g : Graph) (start : Scope) (sense : Sense) (h : Graph) (m : Copying) (w : Value)
    (k : Graph) (l : Copying) : Prop where
  sensed : g.Sensed start k l
  more : Extends (h, m) (k, l)
  structs : k.structs = h.structs
  scope : l.scope = m.scope
  has : (g.added k).Has w
  fits : sense.Fits k w

theorem Sensed.conforms_var (sensed : g.Sensed start h m) {x : VarId}
    (found : g.var? x = some { name }) (fresh : m.images.vars.lookup x = none)
    (stands : start.Conveys g name (.called name)) :
    copyPlain (.var x) (h, m) =
        some (.var h.nextVar, h.addVar { name }, m.addFree x h.nextVar x) ∧
      g.Conforms start (.called name) h m (.var h.nextVar) (h.addVar { name })
        (m.addFree x h.nextVar x) := by
  have confines := sensed.aligned.confines
  have inside : g.Contains (.var x) := contains_of_var? found
  have found' := sensed.var?_eq_some found
  have has : (g.added (h.addVar { name })).Has (.var h.nextVar) :=
    (added_addVar confines.vars).2 (.inr rfl)
  have new : (h.addVar { name }).var? h.nextVar = some { name } := by simp [var?_addVar]
  have kept {y : VarId} {node : Variable} (foundY : h.var? y = some node) :
      (h.addVar { name }).var? y = some node := by
    rw [var?_addVar, if_neg, foundY]
    rintro rfl
    exact Nat.lt_irrefl _ (contains_of_var? foundY)
  refine ⟨copyPlain_of_free fresh fresh (deref?_of_free found') (copyVar?_of_free found'),
    ⟨(sensed.aligned.addVar inside name).addImage inside has, fun listed => ?_, sensed.absent,
      fun {y v key} listed foundY => ?_⟩, ⟨Nat.le_refl _, id, fun {y v} listed => ?_⟩, rfl, rfl,
    has, h.nextVar, rfl, new⟩
  · refine (sensed.entry listed).imp_right ?_
    rintro ⟨has, sense, conveys, fits⟩
    exact ⟨added_mono (by simp) (by simp) has, sense, conveys, fits.mono kept⟩
  · rw [lookup_addFree] at listed
    split at listed
    · next known =>
      cases listed
      obtain rfl : y = x := by
        rcases known with rfl | rfl | rfl
        · rfl
        · exact absurd (contains_of_var? foundY) (Nat.not_lt.2 confines.vars)
        · rfl
      cases found.symm.trans foundY
      exact ⟨_, stands, h.nextVar, rfl, new⟩
    · obtain ⟨sense, conveys, fits⟩ := sensed.image listed foundY
      exact ⟨sense, conveys, fits.mono kept⟩
  · rw [lookup_addFree, if_neg, listed]
    rintro (rfl | rfl | rfl)
    · cases fresh.symm.trans listed
    · exact Nat.lt_irrefl _ (sensed.aligned.knownVar listed)
    · cases fresh.symm.trans listed

theorem Sensed.exists_conforms (sensed : g.Sensed start h m)
    (conveys : start.Conveys g name sense) (arrives : g.Arrives h sense u) :
    ∃ w k l, copyPlain u (h, m) = some (w, k, l) ∧ g.Conforms start sense h m w k l := by
  have idle {w : Value} (has : (g.added h).Has w) (fits : sense.Fits h w) :
      g.Conforms start sense h m w h m :=
    ⟨sensed, .refl _, rfl, rfl, has, fits⟩
  rcases arrives with ⟨has, fits⟩ | fits
  · exact ⟨u, h, m, sensed.aligned.copyPlain_of_added has, idle has fits⟩
  · cases sense with
    | atom a =>
      cases fits
      exact ⟨.atom a, h, m, rfl, idle trivial rfl⟩
    | called last =>
      obtain ⟨x, rfl, found⟩ := fits
      cases known : m.images.vars.lookup x with
      | some w =>
        obtain ⟨sense, conveys', fits⟩ := sensed.image known found
        cases conveys'.unique conveys.stands
        exact ⟨w, h, m, by simp [copyPlain, copyValue, known],
          idle (sensed.aligned.confines.imageVar known) fits⟩
      | none => exact ⟨_, _, _, sensed.conforms_var found known conveys.stands⟩

/-- The names on the way come to stand for the copy, which becomes the copy of the variable. -/
theorem Conforms.sensed_bindAll (conforms : g.Conforms start sense h m w k l)
    (each : ∀ n ∈ names, start.Conveys g n sense) {x : VarId} (found : g.var? x = some { name })
    (conveys : start.Conveys g name sense) : g.Sensed start k ((l.bindAll names w).addVar x w) where
  aligned := conforms.sensed.aligned.addImage (contains_of_var? found) conforms.has
  entry {key v} listed := by
    rw [scope_addVar, get?_bindAll] at listed
    split at listed
    · next mem =>
      cases listed
      exact .inr ⟨conforms.has, sense, each key mem, conforms.fits⟩
    · exact conforms.sensed.entry listed
  absent {key} unlisted := by
    rw [scope_addVar, get?_bindAll] at unlisted
    split at unlisted
    · cases unlisted
    · exact conforms.sensed.absent unlisted
  image {y v key} listed foundY := by
    rw [lookup_addVar] at listed
    split at listed
    · next same =>
      subst same
      cases listed
      cases found.symm.trans foundY
      exact ⟨sense, conveys, conforms.fits⟩
    · exact conforms.sensed.image listed foundY

theorem Sensed.within (sensed : g.Sensed start h m) (chained : start.Chained g) :
    m.scope.Within h := by
  intro name v listed
  have confines := sensed.aligned.confines
  rcases sensed.entry listed with first | ⟨has, -⟩
  · exact (chained.plain.within name v first).mono confines.structs confines.vars
  · exact contains_of_added has

theorem copyVarScoped_sensed (source : g.Source D) (wf : g.WellFormed) (chained : start.Chained g)
    {fuel : Nat} : CopyVarEnds g D (g.Sensed start) fuel copyVarScoped := by
  rintro x ⟨h, m⟩ hx sensed fresh -
  have confines := sensed.aligned.confines
  obtain ⟨name, found⟩ := source.free hx
  have calledNow : h.name? x = some name := by simp [name?, sensed.var?_eq_some found]
  obtain ⟨sense, -, conveys, -, -⟩ := chained.exists_conveys wf found
  obtain ⟨names, u, followed, -⟩ := exists_aliases (v := .var x) confines.wellFormed
    (sensed.within chained) ((source.contains hx).mono confines.structs confines.vars)
    (List.nodup_singleton name) (by simp) (Nat.lt_succ_self _)
  obtain ⟨each, arrives⟩ :=
    sensed.aliases_arrives chained conveys ⟨x, rfl, found⟩ (by simp) followed
  obtain ⟨w, k, l, copy, conforms⟩ := sensed.exists_conforms conveys arrives
  have kept := conforms.sensed_bindAll
    (fun n (mem : n ∈ names) => (each n mem).resolve_left List.not_mem_nil) found conveys
  refine ⟨w, (k, (l.bindAll names w).addVar x w),
    by simp [copyVarScoped, calledNow, followed, copy, bindAll],
    .still kept ⟨conforms.more.structCount, conforms.more.structs, fun {y v} listed => ?_⟩
      conforms.structs, by simp [lookup_addVar]⟩
  rw [lookup_addVar, if_neg, images_bindAll, conforms.more.vars listed]
  rintro rfl
  cases fresh.symm.trans listed

theorem copyStructScoped_sensed (source : g.Source D) (wf : g.WellFormed)
    (chained : start.Chained g) (fuel : Nat) :
    CopyStructEnds g D (g.Sensed start) fuel (copyStructScoped fuel) := by
  induction fuel with
  | zero =>
    intro s W _ sensed enough
    have := sensed.aligned.confines.structCount_le
    omega
  | succ fuel ih =>
    exact copyNode_copies source.domain (source.upkeep_sensed start)
      (copyValue_copies ih (copyVarScoped_sensed source wf chained))

structure SensedCopy (g : Graph) (v : Value) (start : Scope) (h : Graph) (m : Copying) : Prop where
  sensed : g.Sensed start h m
  complete : ∀ t, (g.added h).Has (.struct t) → Complete g (g.Below v) (h, m) t
  imaged : Imaged m v

theorem Plain.exists_sensedCopy (wf : g.WellFormed) (plain : g.Plain v)
    (chained : start.Chained g) :
    ∃ h m, copyScoped v (g, { scope := start }) = some (m.images.apply v, h, m) ∧
      g.SensedCopy v start h m := by
  have source := plain.source_below
  obtain ⟨⟨h, m⟩, walked, copied, imaged⟩ := copyValue_copies
    (copyStructScoped_sensed source wf chained (g.structCount + 1))
    (copyVarScoped_sensed source wf chained) v (g, { scope := start }) .refl
    (sensed_start wf start)
    (show 2 * g.structCount + 1 ≤ g.structCount + 1 + g.structCount by omega)
  exact ⟨h, m, walked, copied.kept, fun t has => copied.complete t has.1 has.2, imaged⟩

namespace SensedCopy

variable (copy : g.SensedCopy v start h m)

include copy

theorem plain : h.Plain (m.images.apply v) := by
  have confines := copy.sensed.aligned.confines
  have has {u : Value} (below : h.Below (m.images.apply v) u) : (g.added h).Has u := by
    induction below with
    | refl => exact copy.sensed.aligned.has_apply copy.imaged
    | feature _ found holds ih => exact confines.feature ih found holds
  exact ⟨fun below => contains_of_added (has below), fun below => confines.free (has below)⟩

/-- The copy of everything below the value is a copy of what it means. -/
theorem shows (wf : g.WellFormed) (plain : g.Plain v) (chained : start.Chained g) {u : Value}
    (below : g.Below v u) (imaged : Imaged m u) :
    start.Shows g h (fun s t => g.Below v (.struct s) ∧ m.images.structs.lookup s = some t) u
      (m.images.apply u) := by
  cases u with
  | atom a => exact ⟨_, rfl, _, _, rfl, rfl, rfl⟩
  | struct s =>
    obtain ⟨t, found⟩ := imaged
    exact ⟨_, rfl, _, .struct t, rfl, by simp [Images.apply, found], below, found⟩
  | var x =>
    obtain ⟨w, found⟩ := imaged
    obtain ⟨name, free⟩ := plain.free below
    obtain ⟨sense, conveys, fits⟩ := copy.sensed.image found free
    obtain ⟨sense', u, conveys', meant, fits'⟩ := chained.exists_conveys wf free
    cases conveys'.unique conveys
    refine ⟨u, meant, ?_⟩
    simp only [Images.apply, found, Option.getD_some]
    exact fits'.pairs fits _

theorem renders (wf : g.WellFormed) (plain : g.Plain v) (chained : start.Chained g) :
    start.Renders g v h (m.images.apply v) := by
  have aligned := copy.sensed.aligned
  refine ⟨_, ⟨?_, ?_⟩, copy.shows wf plain chained .refl copy.imaged, ?_⟩
  · rintro s s' t ⟨below, found⟩ ⟨below', found'⟩
    exact aligned.injective (plain.contains below) (plain.contains below') found found'
  · rintro s t t' ⟨-, found⟩ ⟨-, found'⟩
    exact Option.some.inj (found.symm.trans found')
  · rintro s t ⟨below, copied⟩
    obtain ⟨features, found⟩ := exists_features_of_contains (plain.contains below)
    obtain ⟨found', imaged⟩ := aligned.features?_copy copy.complete plain.contains
      (plain.contains below) copied found
    refine ⟨_, _, found, found', fun name => ?_⟩
    rw [NameMap.get?_map]
    cases holds : features.get? name with
    | none => exact .none
    | some u =>
      exact .some (copy.shows wf plain chained (below.feature found holds) (imaged name u holds))

end SensedCopy

end Graph

end FeatureLogic
