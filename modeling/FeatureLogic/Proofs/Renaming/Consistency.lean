import FeatureLogic.Proofs.Renaming.Logging
import FeatureLogic.Proofs.Graph.Plainness

/-!
# Renamings that share a map

Every replacement is made at some visit, with a name that none of those before it has. Renamings
that go on with one map keep what is in it, so that an old name has the same replacement in all of
them, and different old names have replacements of different names.
-/

namespace FeatureLogic.Renaming

namespace Call

variable {c : Call} {visits : Visits} {x y z : VarId} {old : String}

theorem Meets.replaces (meets : c.Meets visits x y)
    (replaces : c.Replaces (visits ++ [(x, y)]) old z) : c.Replaces visits old z ∨
      z = y ∧ c.before.name? x = some old ∧ c.Creates visits old y := by
  rcases replaces_append_iff.1 replaces with earlier | ⟨rfl, ne, called⟩
  · exact .inl earlier
  · cases meets with
    | mapped called' known =>
      cases called.symm.trans called'
      exact .inl known
    | kept => exact absurd rfl ne
    | created called' creates =>
      cases called.symm.trans called'
      exact .inr ⟨rfl, called, creates⟩

theorem Follows.exists_creates (follows : c.Follows visits) (replaces : c.Replaces visits old y) :
    c.replaced.get? old = some y ∨ ∃ earlier x later, visits = earlier ++ (x, y) :: later ∧
      c.before.name? x = some old ∧ c.Creates earlier old y := by
  induction follows with
  | start =>
    rcases replaces with held | ⟨x, met, -⟩
    · exact .inl held
    · cases met
  | @visit visits x y' follows meets ih =>
    rcases meets.replaces replaces with earlier | ⟨rfl, called, creates⟩
    · refine (ih earlier).imp_right fun ⟨earlier, u, later, split, rest⟩ => ?_
      exact ⟨earlier, u, later ++ [(x, y')], by simp [split], rest⟩
    · exact .inr ⟨visits, x, [], rfl, called, creates⟩

theorem Creates.name_ne {old' : String} (creates : c.Creates visits old y)
    (replaces : c.Replaces visits old' z) : c.after.name? y ≠ c.after.name? z := by
  obtain ⟨k, -, named, free, -⟩ := creates.named
  intro same
  exact free (.inr ⟨old', z, replaces, same.symm.trans named⟩)

theorem Follows.old_eq (follows : c.Follows visits)
    (distinct : ∀ {old old' y y'}, c.replaced.get? old = some y → c.replaced.get? old' = some y' →
      c.after.name? y = c.after.name? y' → old = old')
    {old' : String} {y' : VarId} (first : c.Replaces visits old y)
    (second : c.Replaces visits old' y') (same : c.after.name? y = c.after.name? y') :
    old = old' := by
  induction follows with
  | start =>
    rcases first with first | ⟨_, met, -⟩
    · rcases second with second | ⟨_, met, -⟩
      · exact distinct first second same
      · cases met
    · cases met
  | visit follows meets ih =>
    rcases meets.replaces first with earlier | ⟨rfl, called, creates⟩
    · rcases meets.replaces second with earlier' | ⟨rfl, -, creates⟩
      · exact ih earlier earlier'
      · exact absurd same.symm (creates.name_ne earlier)
    · rcases meets.replaces second with earlier' | ⟨rfl, called', -⟩
      · exact absurd same (creates.name_ne earlier')
      · exact Option.some.inj (called.symm.trans called')

end Call

open FeatureLogic.Graph

variable {g h start : Graph} {v w : Value} {replaced replaced' : NameMap VarId}
  {used : List String}

/-- Do the entries of a map lead to variables of the graph, and those of different names to
variables of different names? -/
structure Distinct (g : Graph) (replaced : NameMap VarId) : Prop where
  inside : g.Replaces replaced
  old_eq : ∀ {old old' y y'}, replaced.get? old = some y → replaced.get? old' = some y' →
    g.name? y = g.name? y' → old = old'

theorem exists_name {y : VarId} (inside : g.Contains (.var y)) : ∃ name, g.name? y = some name := by
  obtain ⟨node, found⟩ := exists_var_of_contains inside
  exact ⟨node.name, by simp [name?, found]⟩

def Keeps (g : Graph) (replaced : NameMap VarId) (h : Graph) (replaced' : NameMap VarId) : Prop :=
  ∀ {old y}, replaced.get? old = some y → replaced'.get? old = some y ∧
    ∃ name, g.name? y = some name ∧ h.name? y = some name

theorem Distinct.keeps (distinct : Distinct g replaced)
    (names : ∀ {x name}, g.name? x = some name → h.name? x = some name) :
    Keeps g replaced h replaced := fun {old y} held => by
  obtain ⟨name, called⟩ := exists_name (distinct.inside old y held)
  exact ⟨held, name, called, names called⟩

theorem Distinct.mono (distinct : Distinct g replaced)
    (names : ∀ {x name}, g.name? x = some name → h.name? x = some name) : Distinct h replaced where
  inside old y held := by
    obtain ⟨-, name, -, kept⟩ := distinct.keeps names held
    obtain ⟨node, found, -⟩ := Option.map_eq_some_iff.1 kept
    exact contains_of_var? found
  old_eq {old old' y y'} first second same := by
    obtain ⟨-, name, called, kept⟩ := distinct.keeps names first
    obtain ⟨-, name', called', kept'⟩ := distinct.keeps names second
    refine distinct.old_eq first second ?_
    rw [called, called', ← kept, ← kept']
    exact same

/-- A renaming of a plain value that goes on with a map does what it has to. -/
theorem Distinct.exists_performs (distinct : Distinct g replaced) (plain : g.Plain v)
    (used : List String) :
    ∃ w replaced' h p visits, g.rename? v replaced used = some (w, replaced', h) ∧
      (Call.mk g h replaced used).Performs v w replaced' p visits ∧ Distinct h replaced' ∧
      Keeps g replaced h replaced' := by
  obtain ⟨w, replaced', h, p, visits, renamed, performs⟩ :=
    Renaming.exists_performs plain distinct.inside used
  refine ⟨w, replaced', h, p, visits, renamed, performs, ⟨performs.inside, ?_⟩, ?_⟩
  · intro old old' y y' first second same
    exact performs.follows.old_eq (distinct.mono performs.name).old_eq
      (performs.replaced.1 first) (performs.replaced.1 second) same
  · intro old y held
    exact ⟨performs.replaced.2 (.inl held), (distinct.keeps performs.name held).2⟩

/-- One step keeps the entries of the map. -/
theorem Distinct.step {s t : Graph × NameMap VarId} (distinct : Distinct s.1 s.2)
    (step : Step s t) : Distinct t.1 t.2 ∧ Keeps s.1 s.2 t.1 t.2 := by
  cases step with
  | call plain renamed =>
    obtain ⟨_, _, _, _, _, renamed', -, distinct', keeps⟩ := distinct.exists_performs plain _
    cases renamed.symm.trans renamed'
    exact ⟨distinct', keeps⟩
  | other names => exact ⟨distinct.mono names, distinct.keeps names⟩

theorem Distinct.run {s t : Graph × NameMap VarId} (distinct : Distinct s.1 s.2) (run : Run s t) :
    Distinct t.1 t.2 ∧ Keeps s.1 s.2 t.1 t.2 := by
  induction run with
  | refl => exact ⟨distinct, distinct.keeps id⟩
  | tail _ step ih =>
    obtain ⟨distinct', keeps⟩ := ih
    obtain ⟨distinct'', keeps'⟩ := distinct'.step step
    refine ⟨distinct'', fun {old y} held => ?_⟩
    obtain ⟨held', name, called, called'⟩ := keeps held
    obtain ⟨held'', name', called'', kept⟩ := keeps' held'
    cases called'.symm.trans called''
    exact ⟨held'', name, called, kept⟩

theorem distinct_empty (g : Graph) : Distinct g ∅ where
  inside old y held := by cases held
  old_eq held := by cases held

/-- Renamings that share a map, empty at the start, are consistent: an old name keeps its
replacement, and different old names have replacements of different names. The next renaming of a
plain value gives a matching value, with every variable what it has to become when it is met. Each
replacement that it adds is made at a visit, with a name not in use then. -/
theorem run_consistent (run : Run (start, ∅) (g, replaced)) :
    (∀ {h replaced'}, Run (g, replaced) (h, replaced') → ∀ {old y}, replaced.get? old = some y →
      replaced'.get? old = some y ∧ ∃ name, g.name? y = some name ∧ h.name? y = some name) ∧
    (∀ {old old' y y'}, replaced.get? old = some y → replaced.get? old' = some y' → old ≠ old' →
      g.name? y ≠ g.name? y') ∧
    ∀ {v}, g.Plain v → ∀ used, ∃ w replaced' h p visits,
      g.rename? v replaced used = some (w, replaced', h) ∧
      (Call.mk g h replaced used).Performs v w replaced' p visits ∧
      ∀ {old y}, replaced.get? old = none → replaced'.get? old = some y →
        ∃ earlier x later, visits = earlier ++ (x, y) :: later ∧ g.name? x = some old ∧
          (Call.mk g h replaced used).Creates earlier old y := by
  obtain ⟨distinct, -⟩ := (distinct_empty start).run run
  refine ⟨fun {h replaced'} run {old y} held => ?kept, ?distinct, fun {v} plain used => ?call⟩
  case kept => exact (distinct.run run).2 held
  case distinct =>
    intro old old' y y' first second ne same
    exact ne (distinct.old_eq first second same)
  case call =>
    obtain ⟨w, replaced', h, p, visits, renamed, performs, -⟩ := distinct.exists_performs plain used
    refine ⟨w, replaced', h, p, visits, renamed, performs, fun {old y} absent held => ?_⟩
    rcases performs.follows.exists_creates (performs.replaced.1 held) with before | created
    · cases absent.symm.trans before
    · exact created

/-- The description `[a=?x, b=?x, c=?y, d=(1)[e=?x2], f->(1)]` as a graph. -/
def named : Graph where
  structs := #[{ features := .ofList [("a", .var ⟨0⟩), ("b", .var ⟨1⟩), ("c", .var ⟨2⟩),
      ("d", .struct ⟨1⟩), ("f", .struct ⟨1⟩)] },
    { features := .ofList [("e", .var ⟨3⟩)] }]
  vars := #[{ name := "x" }, { name := "x" }, { name := "y" }, { name := "x2" }]

def renamed : Graph where
  structs := named.structs ++
    #[{ features := .ofList [("a", .var ⟨4⟩), ("b", .var ⟨4⟩), ("c", .var ⟨2⟩),
      ("d", .struct ⟨3⟩), ("f", .struct ⟨3⟩)] },
    { features := .ofList [("e", .var ⟨5⟩)] }]
  vars := named.vars ++ #[{ name := "x3" }, { name := "x4" }]

def replacements : NameMap VarId := .ofList [("x", ⟨4⟩), ("x2", ⟨5⟩)]

def extended : Graph := (renamed.addVar { name := "x" }).addStruct (.ofList [("g", .var ⟨6⟩)])

theorem run_extended : Run (named, ∅) (extended, replacements) := by
  have check : named.plainOn
      [.struct ⟨0⟩, .struct ⟨1⟩, .var ⟨0⟩, .var ⟨1⟩, .var ⟨2⟩, .var ⟨3⟩] := by decide +kernel
  have plain : named.Plain (.struct ⟨0⟩) := plain_of_plainOn check (by simp)
  have call : named.rename? (.struct ⟨0⟩) ∅ ["x", "x2"] =
      some (.struct ⟨2⟩, replacements, renamed) := by decide +kernel
  refine .tail (.single (.call plain call)) (.other fun {x name} held => ?_)
  have old : x ≠ renamed.nextVar := by
    rintro rfl
    cases held
  exact (name?_addVar renamed { name := "x" } x).trans ((if_neg old).trans held)

/-- The variable of the second value gives way to the replacement of the first one's. -/
theorem run_consistent_extended : Run (named, ∅) (extended, replacements) ∧
    extended.Plain (.struct ⟨4⟩) ∧ ∃ w replaced' h p visits,
      extended.rename? (.struct ⟨4⟩) replacements [] = some (w, replaced', h) ∧
      (Call.mk extended h replacements []).Performs (.struct ⟨4⟩) w replaced' p visits ∧
      h.features? ⟨5⟩ = some (.ofList [("g", .var ⟨4⟩)]) := by
  have check : extended.plainOn [.struct ⟨4⟩, .var ⟨6⟩] := by decide +kernel
  have plain : extended.Plain (.struct ⟨4⟩) := plain_of_plainOn check (by simp)
  obtain ⟨-, -, calls⟩ := run_consistent run_extended
  obtain ⟨w, replaced', h, p, visits, done, performs, -⟩ := calls plain []
  refine ⟨run_extended, plain, w, replaced', h, p, visits, done, performs, ?_⟩
  have gives : (extended.rename? (.struct ⟨4⟩) replacements []).map (fun r => r.2.2.features? ⟨5⟩) =
      some (some (.ofList [("g", .var ⟨4⟩)])) := by decide +kernel
  rw [done, Option.map_some, Option.some.injEq] at gives
  exact gives

end FeatureLogic.Renaming
