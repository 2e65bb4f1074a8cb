import FeatureLogic.Proofs.Copy.Owned
import FeatureLogic.Scope.Meaning

/-!
# Meanings

Where all variables are free, a value is followed by looking up one name after the other, until
there is no entry or the name has been looked up before. Then it lies on a cycle of names, and
another look-up goes once around the cycle. So a meaning stands for itself.
-/

namespace FeatureLogic.Scope

open FeatureLogic.Graph

variable {scope : Scope} {g h : Graph} {v w : Value} {names seen : List String} {name : String}

/-- A value that is no variable stands for itself, and so does a free variable without an entry. -/
theorem meaning?_of_free {x : VarId} (found : g.var? x = some { name })
    (absent : scope.get? name = none) : scope.meaning? g (.var x) = some (.var x) := by
  simp [meaning?, follow, name?, found, absent, deref?_of_free found]

namespace Trail

theorem of_name {x y : VarId} (trail : scope.Trail g (.var x) (name :: names) w)
    (called : g.name? y = some name) : scope.Trail g (.var y) (name :: names) w := by
  cases trail with
  | cons _ found rest => exact .cons called found rest

theorem exists_onward (trail : scope.Trail g v names w) (mem : name ∈ names) :
    ∃ before behind x, names = before ++ name :: behind ∧
      scope.Trail g (.var x) (name :: behind) w := by
  induction trail with
  | nil => cases mem
  | @cons x name' names v w called found rest ih =>
    rcases List.mem_cons.1 mem with rfl | mem
    · exact ⟨[], names, x, rfl, .cons called found rest⟩
    · obtain ⟨before, behind, y, rfl, onward⟩ := ih mem
      exact ⟨name' :: before, behind, y, rfl, onward⟩

theorem subset_keys (trail : scope.Trail g v names w) : names ⊆ scope.keys := by
  induction trail with
  | nil => exact List.nil_subset _
  | cons _ found _ ih => exact List.cons_subset.2 ⟨scope.mem_keys_iff.2 ⟨_, found⟩, ih⟩

theorem length_le (trail : scope.Trail g v names w) (nodup : names.Nodup) :
    names.length ≤ scope.size := by
  have length := (List.subperm_of_subset nodup trail.subset_keys).length_le
  rwa [NameMap.keys, List.length_map] at length

theorem plain (trail : scope.Trail g v names w) (entries : scope.Plain g) (plain : g.Plain v) :
    g.Plain w := by
  induction trail with
  | nil => exact plain
  | cons _ found _ ih => exact ih (entries _ _ found)

theorem exists_var {y : VarId} (trail : scope.Trail g v names (.var y)) : ∃ x, v = .var x := by
  cases trail with
  | nil => exact ⟨y, rfl⟩
  | cons => exact ⟨_, rfl⟩

theorem ties (trail : scope.Trail g v names w) (entries : scope.Plain g) {x y : VarId}
    {first last : String} (begins : v = .var x) (calledFirst : g.name? x = some first)
    (ends : w = .var y) (calledLast : g.name? y = some last) : scope.Ties g first last := by
  induction trail generalizing x first with
  | nil =>
    cases begins.symm.trans ends
    cases calledFirst.symm.trans calledLast
    exact .refl
  | @cons _ name names v w called found rest ih =>
    cases begins
    cases calledFirst.symm.trans called
    subst ends
    obtain ⟨z, rfl⟩ := rest.exists_var
    have plain := entries _ _ found
    obtain ⟨next, present⟩ := plain.free .refl
    have calledNext : g.name? z = some next := by simp [name?, present]
    exact .head ⟨_, z, found, plain.deref?, calledNext⟩ (ih rfl calledNext rfl)

theorem transGen {x y : VarId} (trail : scope.Trail g (.var x) (name :: names) (.var y))
    (entries : scope.Plain g) {last : String} (called : g.name? y = some last) :
    Relation.TransGen (scope.Alias g) name last := by
  cases trail with
  | cons _ found rest =>
    obtain ⟨z, rfl⟩ := rest.exists_var
    have plain := entries _ _ found
    obtain ⟨next, present⟩ := plain.free .refl
    have calledNext : g.name? z = some next := by simp [name?, present]
    exact .head' ⟨_, z, found, plain.deref?, calledNext⟩
      (rest.ties entries rfl calledNext rfl called)

end Trail

/-! ### Following -/

/-- A value is followed along its trail. -/
theorem follow_of_trail (trail : scope.Trail g v names w) (entries : scope.Plain g)
    (plain : g.Plain v) (nodup : names.Nodup) (fresh : ∀ name ∈ names, name ∉ seen)
    (rests : scope.Rests g (names ++ seen) w) {fuel : Nat} (enough : names.length < fuel) :
    scope.follow g fuel seen v = some w := by
  induction trail generalizing seen fuel with
  | @nil v =>
    obtain ⟨fuel, rfl⟩ := Nat.exists_eq_succ_of_ne_zero (Nat.ne_of_gt enough)
    cases v with
    | atom a => rfl
    | struct s => rfl
    | var x =>
      obtain ⟨name, found⟩ := plain.free .refl
      have called : g.name? x = some name := by simp [name?, found]
      have nothing : (if name ∈ seen then none else scope.get? name) = none := by
        split
        · rfl
        · next unseen => exact rests x name rfl called (by simpa using unseen)
      simp [follow, called, nothing, plain.deref?]
  | @cons x name names v w called found rest ih =>
    obtain ⟨fuel, rfl⟩ := Nat.exists_eq_succ_of_ne_zero (Nat.ne_zero_of_lt enough)
    obtain ⟨once, nodup⟩ := List.nodup_cons.1 nodup
    obtain ⟨unseen, fresh⟩ := List.forall_mem_cons.1 fresh
    have onward : scope.follow g fuel (name :: seen) v = some w := by
      refine ih (entries _ _ found) nodup (fun other mem => ?_) ?_ (Nat.lt_of_succ_lt_succ enough)
      · rintro (_ | ⟨_, before⟩)
        · exact once mem
        · exact fresh other mem before
      · intro y last isVar named other
        refine rests y last isVar named fun mem => other ?_
        simpa [or_left_comm] using mem
    simp [follow, called, unseen, found, onward]

/-- Whatever follows a value has gone along a trail. -/
theorem exists_trail_of_follow (entries : scope.Plain g) (plain : g.Plain v) {fuel : Nat}
    (followed : scope.follow g fuel seen v = some w) :
    ∃ names, scope.Trail g v names w ∧ names.Nodup ∧ (∀ name ∈ names, name ∉ seen) ∧
      scope.Rests g (names ++ seen) w := by
  induction fuel generalizing seen v with
  | zero => cases followed
  | succ fuel ih =>
    cases v with
    | atom a =>
      cases followed
      exact ⟨[], .nil, .nil, List.forall_mem_nil _, nofun⟩
    | struct s =>
      cases followed
      exact ⟨[], .nil, .nil, List.forall_mem_nil _, nofun⟩
    | var x =>
      obtain ⟨name, found⟩ := plain.free .refl
      have called : g.name? x = some name := by simp [name?, found]
      cases listed : if name ∈ seen then none else scope.get? name with
      | none =>
        simp only [follow, called, listed, plain.deref?, if_true, Option.some.injEq] at followed
        subst followed
        refine ⟨[], .nil, .nil, List.forall_mem_nil _, fun y last isVar named other => ?_⟩
        cases isVar
        cases called.symm.trans named
        rwa [if_neg (by simpa using other)] at listed
      | some u =>
        simp only [follow, called, listed] at followed
        split at listed
        · cases listed
        · next unseen =>
          obtain ⟨names, trail, nodup, fresh, rests⟩ := ih (entries _ _ listed) followed
          refine ⟨name :: names, .cons called listed trail, List.nodup_cons.2 ⟨?_, nodup⟩,
            List.forall_mem_cons.2 ⟨unseen, fun other mem before => ?_⟩, ?_⟩
          · exact fun mem => fresh name mem List.mem_cons_self
          · exact fresh other mem (List.mem_cons_of_mem _ before)
          · intro y last isVar named other
            refine rests y last isVar named fun mem => other ?_
            simpa [or_left_comm] using mem

/-- The meaning of a plain value lies at the end of a trail. -/
theorem meaning?_eq_some_iff (entries : scope.Plain g) (plain : g.Plain v) :
    scope.meaning? g v = some w ↔
      ∃ names, scope.Trail g v names w ∧ names.Nodup ∧ scope.Rests g names w := by
  constructor
  · intro meant
    obtain ⟨names, trail, nodup, -, rests⟩ := exists_trail_of_follow entries plain meant
    exact ⟨names, trail, nodup, by rwa [List.append_nil] at rests⟩
  · rintro ⟨names, trail, nodup, rests⟩
    have length := trail.length_le nodup
    exact follow_of_trail trail entries plain nodup (fun _ _ => List.not_mem_nil)
      (by rwa [List.append_nil]) (by omega)

/-- A meaning is plain, and it stands for itself. -/
theorem meaning?_meaning? (entries : scope.Plain g) (plain : g.Plain v)
    (meant : scope.meaning? g v = some w) : g.Plain w ∧ scope.meaning? g w = some w := by
  obtain ⟨names, trail, nodup, rests⟩ := (meaning?_eq_some_iff entries plain).1 meant
  have plainW := trail.plain entries plain
  refine ⟨plainW, (meaning?_eq_some_iff entries plainW).2 ?_⟩
  cases w with
  | atom a => exact ⟨[], .nil, .nil, nofun⟩
  | struct s => exact ⟨[], .nil, .nil, nofun⟩
  | var y =>
    obtain ⟨name, present⟩ := plainW.free .refl
    have called : g.name? y = some name := by simp [name?, present]
    by_cases mem : name ∈ names
    · obtain ⟨before, behind, x, rfl, onward⟩ := trail.exists_onward mem
      refine ⟨name :: behind, onward.of_name called, (List.nodup_append.1 nodup).2.1, ?_⟩
      intro z last isVar named other
      cases isVar
      cases called.symm.trans named
      exact absurd List.mem_cons_self other
    · refine ⟨[], .nil, .nil, fun z last isVar named _ => ?_⟩
      cases isVar
      cases called.symm.trans named
      exact rests y name rfl called mem

/-- Where the meaning is a variable whose name has an entry, this name lies on a cycle of names. -/
theorem transGen_of_meaning? (entries : scope.Plain g) (plain : g.Plain v) {y : VarId}
    (meant : scope.meaning? g v = some (.var y)) (called : g.name? y = some name)
    (listed : scope.get? name ≠ none) : Relation.TransGen (scope.Alias g) name name := by
  obtain ⟨names, trail, nodup, rests⟩ := (meaning?_eq_some_iff entries plain).1 meant
  have mem : name ∈ names := by
    by_contra other
    exact listed (rests y name rfl called other)
  obtain ⟨before, behind, x, -, onward⟩ := trail.exists_onward mem
  exact onward.transGen entries called

end FeatureLogic.Scope
