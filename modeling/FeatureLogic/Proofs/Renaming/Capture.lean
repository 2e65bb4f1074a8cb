import FeatureLogic.Proofs.Renaming.Consistency

/-!
# Names that come together

A renaming that starts with no replacements leaves no used name in its result. It keeps two
variables of different names apart, and their names too, unless a name is made for one that the
other has and is left with: a name counts as taken if it is used or was made, not if it is merely
there.
-/

namespace FeatureLogic.Renaming

namespace Call

variable {c : Call} {visits earlier later : Visits} {x y : VarId} {old name : String}

theorem Follows.meets (follows : c.Follows (earlier ++ (x, y) :: later)) :
    c.Meets earlier x y := by
  generalize split : earlier ++ (x, y) :: later = visits at follows
  induction follows generalizing later with
  | start => simp at split
  | @visit visits u w _ meets ih =>
    cases later using List.reverseRecOn with
    | nil =>
      obtain ⟨rfl, last⟩ := List.append_inj' split rfl
      cases last
      exact meets
    | append_singleton later e =>
      rw [← List.cons_append, ← List.append_assoc] at split
      exact ih (List.append_inj' split rfl).1

theorem Follows.kept_or_replaces (follows : c.Follows visits) (met : (x, y) ∈ visits)
    (called : c.before.name? x = some name) :
    y = x ∧ name ∉ c.used ∨ c.Replaces visits name y := by
  obtain ⟨earlier, later, rfl⟩ := List.append_of_mem met
  cases follows.meets with
  | mapped called' replaces =>
    cases called.symm.trans called'
    exact .inr (replaces.mono (List.subset_append_left _ _))
  | kept called' _ free =>
    cases called.symm.trans called'
    exact .inl ⟨rfl, fun used => free (.inl used)⟩
  | created called' creates =>
    exact .inr (.inr ⟨x, met, creates.ne called, called⟩)

theorem Follows.exists_creates_of_empty (follows : c.Follows visits) (empty : c.replaced = ∅)
    (replaces : c.Replaces visits old y) : ∃ earlier x later,
      visits = earlier ++ (x, y) :: later ∧ c.before.name? x = some old ∧
        c.Creates earlier old y := by
  rcases follows.exists_creates replaces with held | created
  · rw [empty] at held
    cases held
  · exact created

theorem Follows.not_replaces (follows : c.Follows visits) (empty : c.replaced = ∅)
    (called : c.before.name? x = some name) : ¬ c.Replaces visits old x := fun replaces => by
  obtain ⟨_, u, _, _, -, creates⟩ := follows.exists_creates_of_empty empty replaces
  exact creates.ne called rfl

/-- If a variable stays whose name is that of a replacement, it was met before the replacement was
made: afterwards its name is in use. -/
theorem Follows.captures (follows : c.Follows visits) (empty : c.replaced = ∅)
    (called : c.before.name? x = some name) (met : (x, x) ∈ visits)
    (replaces : c.Replaces visits old y) (same : c.after.name? y = some name) :
    c.Captures visits x y := by
  obtain ⟨earlier, u, later, rfl, calledU, creates⟩ :=
    follows.exists_creates_of_empty empty replaces
  refine ⟨earlier, u, later, old, rfl, ?_, creates, same.trans called.symm⟩
  rcases List.mem_append.1 met with before | met
  · exact before
  · rcases List.mem_cons.1 met with now | after
    · cases now
      exact absurd rfl (creates.ne called)
    · -- met later, it would not have stayed: the replacement has made its name one in use
      obtain ⟨between, rest, rfl⟩ := List.append_of_mem after
      rw [← List.cons_append, ← List.append_assoc] at follows
      have made : c.Replaces (earlier ++ (u, y) :: between) old y :=
        .inr ⟨u, by simp, creates.ne calledU, calledU⟩
      cases follows.meets with
      | mapped called' held =>
        exact absurd (held.mono (List.subset_append_left _ _)) (follows.not_replaces empty called)
      | kept called' _ free =>
        cases called.symm.trans called'
        exact absurd (.inr ⟨old, y, made, same⟩) free
      | created called' creates' => exact absurd rfl (creates'.ne called)

end Call

open FeatureLogic.Graph

namespace Call.Performs

variable {c : Call} {v w : Value} {replaced : NameMap VarId} {p : Pairing} {visits : Visits}
  {x x' y y' : VarId} {name name' : String}

theorem name_unused (performs : c.Performs v w replaced p visits) (empty : c.replaced = ∅)
    (plain : c.before.Plain v) (below : c.after.Below w (.var y)) :
    ∃ name, c.after.name? y = some name ∧ name ∉ c.used := by
  obtain ⟨u, belowU, related⟩ := performs.pairs.exists_partner below
  cases u with
  | atom a => exact related.elim
  | struct s => exact related.elim
  | var x =>
    obtain ⟨name, called⟩ := exists_name (plain.contains belowU)
    rcases performs.follows.kept_or_replaces (performs.visited related) called with
      ⟨rfl, free⟩ | replaces
    · exact ⟨name, performs.name called, free⟩
    · obtain ⟨_, _, _, _, _, creates⟩ := performs.follows.exists_creates_of_empty empty replaces
      obtain ⟨k, -, named, free, -⟩ := creates.named
      exact ⟨_, named, fun used => free (.inl used)⟩

/-- Variables of different names have different names in the result, or one stays and the other
gives way. -/
theorem kept_or_name_ne (performs : c.Performs v w replaced p visits) (empty : c.replaced = ∅)
    (first : p.vars x y) (second : p.vars x' y') (called : c.before.name? x = some name)
    (called' : c.before.name? x' = some name') (ne : name ≠ name') :
    y = x ∧ c.Replaces visits name' y' ∨ y' = x' ∧ c.Replaces visits name y ∨
      c.after.name? y ≠ c.after.name? y' := by
  have met := performs.follows.kept_or_replaces (performs.visited first) called
  have met' := performs.follows.kept_or_replaces (performs.visited second) called'
  rcases met with ⟨rfl, -⟩ | replaces
  · rcases met' with ⟨rfl, -⟩ | replaces'
    · refine .inr (.inr ?_)
      rw [performs.name called, performs.name called']
      exact fun same => ne (Option.some.inj same)
    · exact .inl ⟨rfl, replaces'⟩
  · rcases met' with ⟨rfl, -⟩ | replaces'
    · exact .inr (.inl ⟨rfl, replaces⟩)
    · refine .inr (.inr fun same => ne ?_)
      refine performs.follows.old_eq (fun held => ?_) replaces replaces' same
      rw [empty] at held
      cases held

theorem ne (performs : c.Performs v w replaced p visits) (empty : c.replaced = ∅)
    (first : p.vars x y) (second : p.vars x' y') (called : c.before.name? x = some name)
    (called' : c.before.name? x' = some name') (ne : name ≠ name') : y ≠ y' := by
  rintro rfl
  rcases performs.kept_or_name_ne empty first second called called' ne with
    ⟨rfl, replaces'⟩ | ⟨rfl, replaces⟩ | differ
  · exact performs.follows.not_replaces empty called replaces'
  · exact performs.follows.not_replaces empty called' replaces
  · exact differ rfl

/-- Variables of different names become namesakes only if one is left as it was and its name is made
for the other. -/
theorem name_eq_iff (performs : c.Performs v w replaced p visits) (empty : c.replaced = ∅)
    (first : p.vars x y) (second : p.vars x' y') (called : c.before.name? x = some name)
    (called' : c.before.name? x' = some name') (ne : name ≠ name') :
    c.after.name? y = c.after.name? y' ↔
      y = x ∧ c.Captures visits x y' ∨ y' = x' ∧ c.Captures visits x' y := by
  constructor
  · intro same
    rcases performs.kept_or_name_ne empty first second called called' ne with
      ⟨rfl, replaces'⟩ | ⟨rfl, replaces⟩ | differ
    · exact .inl ⟨rfl, performs.follows.captures empty called (performs.visited first) replaces'
        (same.symm.trans (performs.name called))⟩
    · exact .inr ⟨rfl, performs.follows.captures empty called' (performs.visited second) replaces
        (same.trans (performs.name called'))⟩
    · exact absurd same differ
  · rintro (⟨rfl, _, _, _, _, -, -, -, same⟩ | ⟨rfl, _, _, _, _, -, -, -, same⟩)
    · rw [same, called, performs.name called]
    · rw [same, called', performs.name called']

end Call.Performs

variable {g : Graph} {v : Value}

/-- The renaming of a plain value with no replacements to start with ends. No variable of its
result has a used name. Variables of different names become different variables, whose names are
different as well, unless one stays when it is met and its name is later made for the other. -/
theorem rename?_apart (plain : g.Plain v) (used : List String) :
    ∃ w replaced h p visits, g.rename? v ∅ used = some (w, replaced, h) ∧
      (Call.mk g h ∅ used).Performs v w replaced p visits ∧
      (∀ {y}, h.Below w (.var y) → ∃ name, h.name? y = some name ∧ name ∉ used) ∧
      ∀ {x x' y y'}, p.vars x y → p.vars x' y' → g.name? x ≠ g.name? x' →
        y ≠ y' ∧ (h.name? y = h.name? y' ↔
          y = x ∧ (Call.mk g h ∅ used).Captures visits x y' ∨
          y' = x' ∧ (Call.mk g h ∅ used).Captures visits x' y) := by
  obtain ⟨w, replaced, h, p, visits, renamed, performs⟩ :=
    exists_performs plain (distinct_empty g).inside used
  refine ⟨w, replaced, h, p, visits, renamed, performs,
    fun below => performs.name_unused rfl plain below, fun {x x' y y'} first second ne => ?_⟩
  obtain ⟨name, called⟩ := exists_name (plain.contains (performs.pairs.var first).1)
  obtain ⟨name', called'⟩ := exists_name (plain.contains (performs.pairs.var second).1)
  have names : name ≠ name' := by
    rintro rfl
    exact ne (called.trans called'.symm)
  exact ⟨performs.ne rfl first second called called' names,
    performs.name_eq_iff rfl first second called called' names⟩

/-- The description `[a=?x2, b=?x]` as a graph. -/
def clashing : Graph where
  structs := #[{ features := .ofList [("a", .var ⟨0⟩), ("b", .var ⟨1⟩)] }]
  vars := #[{ name := "x2" }, { name := "x" }]

/-- It is renamed with `x` in use to `[a=?x2, b=?x2]`. -/
def clashed : Graph where
  structs := clashing.structs.push { features := .ofList [("a", .var ⟨0⟩), ("b", .var ⟨2⟩)] }
  vars := clashing.vars.push { name := "x2" }

theorem plain_clashing : clashing.Plain (.struct ⟨0⟩) := by
  have check : clashing.plainOn [.struct ⟨0⟩, .var ⟨0⟩, .var ⟨1⟩] := by decide +kernel
  exact plain_of_plainOn check (by simp)

theorem rename?_clashing : clashing.rename? (.struct ⟨0⟩) ∅ ["x"] =
    some (.struct ⟨1⟩, .ofList [("x", ⟨2⟩)], clashed) := by decide +kernel

/-- The name of the first variable is made for the second. -/
theorem rename?_apart_clashing : clashing.Plain (.struct ⟨0⟩) ∧ ∃ p visits,
    (Call.mk clashing clashed ∅ ["x"]).Performs (.struct ⟨0⟩) (.struct ⟨1⟩)
      (.ofList [("x", ⟨2⟩)]) p visits ∧ p.vars ⟨0⟩ ⟨0⟩ ∧ p.vars ⟨1⟩ ⟨2⟩ ∧
    (Call.mk clashing clashed ∅ ["x"]).Captures visits ⟨0⟩ ⟨2⟩ := by
  obtain ⟨w, replaced, h, p, visits, renamed, performs, -, apart⟩ :=
    rename?_apart plain_clashing ["x"]
  cases rename?_clashing.symm.trans renamed
  obtain ⟨m, n, hm, hn, maps⟩ := performs.pairs.features performs.pairs.root
  cases hm
  cases hn
  have first : p.vars ⟨0⟩ ⟨0⟩ := by
    have related := maps "a"
    cases related with
    | some related => exact related
  have second : p.vars ⟨1⟩ ⟨2⟩ := by
    have related := maps "b"
    cases related with
    | some related => exact related
  refine ⟨plain_clashing, p, visits, performs, first, second, ?_⟩
  obtain ⟨-, same⟩ := apart first second (by decide +kernel)
  rcases same.1 rfl with ⟨-, captures⟩ | ⟨moved, -⟩
  · exact captures
  · cases moved

/-- Variables of different names may have one name in the result. -/
theorem exists_captured : ¬ ∀ {g h : Graph} {v w : Value} {replaced : NameMap VarId}
    {used : List String}, g.Plain v → g.rename? v ∅ used = some (w, replaced, h) →
      ∀ {path path' x x' y y'}, g.Leads v path (.var x) → h.Leads w path (.var y) →
        g.Leads v path' (.var x') → h.Leads w path' (.var y') → g.name? x ≠ g.name? x' →
          h.name? y ≠ h.name? y' := by
  intro apart
  have leads : clashing.Leads (.struct ⟨0⟩) ["a"] (.var ⟨0⟩) := rfl
  have leads' : clashing.Leads (.struct ⟨0⟩) ["b"] (.var ⟨1⟩) := rfl
  have after : clashed.Leads (.struct ⟨1⟩) ["a"] (.var ⟨0⟩) := rfl
  have after' : clashed.Leads (.struct ⟨1⟩) ["b"] (.var ⟨2⟩) := rfl
  exact apart plain_clashing rename?_clashing leads after leads' after' (by decide +kernel) rfl

end FeatureLogic.Renaming
