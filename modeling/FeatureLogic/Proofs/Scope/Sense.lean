import FeatureLogic.Proofs.Copy.Imaging
import FeatureLogic.Proofs.Scope.Meaning
import FeatureLogic.Scope.Sense

/-!
# Every name has a sense

On a chain of aliases that does not come back, every name has the same sense. The meaning of a free
variable is a value that fits the sense of its name.
-/

namespace FeatureLogic

theorem Graph.plain_of_free {g : Graph} {x : VarId} {name : String}
    (found : g.var? x = some { name }) : g.Plain (.var x) := by
  have only {u : Value} (below : g.Below (.var x) u) : u = .var x := by
    induction below with
    | refl => rfl
    | feature _ _ _ ih => cases ih
  refine ⟨fun below => only below ▸ contains_of_var? found, fun below => ?_⟩
  cases only below
  exact ⟨name, found⟩

namespace Scope

open FeatureLogic.Graph

variable {scope : Scope} {g h : Graph} {v w : Value} {name next last : String}
  {sense sense' : Sense}

/-! ### Chains -/

theorem Chained.plain (chained : scope.Chained g) : scope.Plain g := by
  intro name v listed
  rcases chained.entry listed with ⟨a, rfl⟩ | ⟨x, next, rfl, found⟩
  · refine ⟨fun below => ?_, fun below => ?_⟩
    · cases below_atom_iff.1 below
      trivial
    · cases below_atom_iff.1 below
  · exact plain_of_free found

theorem alias_of_entry {x : VarId} (listed : scope.get? name = some (.var x))
    (found : g.var? x = some { name := next }) : scope.Alias g name next :=
  ⟨.var x, x, listed, deref?_of_free found, by simp [name?, found]⟩

theorem Chained.exists_entry (chained : scope.Chained g) (tie : scope.Alias g name next) :
    ∃ x, scope.get? name = some (.var x) ∧ g.var? x = some { name := next } := by
  obtain ⟨x, listed⟩ := tie.exists_entry
  rcases chained.entry listed with ⟨a, eq⟩ | ⟨y, other, eq, found⟩
  · cases eq
  · cases eq
    cases (alias_of_entry listed found).unique tie
    exact ⟨x, listed, found⟩

/-! ### Senses -/

namespace Conveys

theorem onward (conveys : scope.Conveys g name sense) (tie : scope.Alias g name next)
    (other : next ≠ name) : scope.Conveys g next sense := by
  obtain ⟨x, listed⟩ := tie.exists_entry
  cases conveys with
  | absent absent => cases absent.symm.trans listed
  | atom listed' => cases listed'.symm.trans listed
  | self self => exact absurd (tie.unique self) other
  | next tie' _ rest => exact tie'.unique tie ▸ rest

theorem unique (conveys : scope.Conveys g name sense) (conveys' : scope.Conveys g name sense') :
    sense = sense' := by
  induction conveys with
  | @absent name absent =>
    cases conveys' with
    | absent => rfl
    | atom listed => cases absent.symm.trans listed
    | self => rfl
    | next tie => cases absent.symm.trans tie.exists_entry.choose_spec
  | atom listed =>
    cases conveys' with
    | absent absent => cases absent.symm.trans listed
    | atom listed' =>
      cases listed.symm.trans listed'
      rfl
    | self tie => cases listed.symm.trans tie.exists_entry.choose_spec
    | next tie => cases listed.symm.trans tie.exists_entry.choose_spec
  | self tie =>
    cases conveys' with
    | absent => rfl
    | atom listed => cases listed.symm.trans tie.exists_entry.choose_spec
    | self => rfl
    | next tie' other => exact absurd (tie'.unique tie) other
  | next tie other _ ih => exact ih (conveys'.onward tie other)

theorem ends (conveys : scope.Conveys g name (.called last)) :
    scope.get? last = none ∨ scope.Alias g last last := by
  generalize eq : Sense.called last = sense at conveys
  induction conveys with
  | absent absent =>
    cases eq
    exact .inl absent
  | atom => cases eq
  | self tie =>
    cases eq
    exact .inr tie
  | next _ _ _ ih => exact ih eq

theorem stands (conveys : scope.Conveys g name (.called last)) :
    scope.Conveys g last (.called last) :=
  conveys.ends.elim .absent .self

end Conveys

/-- A value at the end of a trail fits the sense of the name that the trail starts from. The names
behind it are on the same chain. -/
theorem Trail.exists_conveys {names seen : List String} (trail : scope.Trail g v names w)
    (chained : scope.Chained g) {x : VarId} (begins : v = .var x) (found : g.var? x = some { name })
    (behind : ∀ n ∈ seen, Relation.TransGen (scope.Alias g) n name) (nodup : names.Nodup)
    (rests : scope.Rests g (names ++ seen) w) :
    ∃ sense, scope.Conveys g name sense ∧ sense.Fits g w := by
  induction trail generalizing x name seen with
  | nil =>
    subst begins
    refine ⟨.called name, ?_, x, rfl, found⟩
    by_cases met : name ∈ seen
    · exact .self (chained.straight (behind name met))
    · exact .absent (rests x name rfl (by simp [name?, found]) met)
  | @cons y name' names v w called listed rest ih =>
    cases begins
    obtain rfl : name = name' := by simpa [name?, found] using called
    obtain ⟨once, nodup⟩ := List.nodup_cons.1 nodup
    rcases chained.entry listed with ⟨a, rfl⟩ | ⟨z, next, rfl, foundZ⟩
    · cases rest
      exact ⟨.atom a, .atom listed, rfl⟩
    · have tie := alias_of_entry listed foundZ
      by_cases same : next = name
      · subst same
        cases rest with
        | nil => exact ⟨.called next, .self tie, z, rfl, foundZ⟩
        | cons calledZ =>
          -- the trail would look up the same name once more
          obtain rfl : next = _ := by simpa [name?, foundZ] using calledZ
          exact absurd List.mem_cons_self once
      · have behind' : ∀ n ∈ name :: seen, Relation.TransGen (scope.Alias g) n next :=
          List.forall_mem_cons.2 ⟨.single tie, fun n mem => (behind n mem).tail tie⟩
        obtain ⟨sense, conveys, fits⟩ := ih rfl foundZ behind' nodup
          fun u last isVar named other => rests u last isVar named fun mem => other (by
            simpa [or_left_comm] using mem)
        exact ⟨sense, .next tie same conveys, fits⟩

/-- Every name of a free variable has a sense, and the meaning of the variable fits it. -/
theorem Chained.exists_conveys (chained : scope.Chained g) (wf : g.WellFormed) {x : VarId}
    (found : g.var? x = some { name }) :
    ∃ sense u, scope.Conveys g name sense ∧ scope.meaning? g (.var x) = some u ∧
      sense.Fits g u := by
  obtain ⟨u, meant, -⟩ := exists_meaning wf chained.plain.within (contains_of_var? found)
  obtain ⟨names, trail, nodup, rests⟩ :=
    (meaning?_eq_some_iff chained.plain (plain_of_free found)).1 meant
  obtain ⟨sense, conveys, fits⟩ := trail.exists_conveys chained rfl found (List.forall_mem_nil _)
    nodup (by rwa [List.append_nil])
  exact ⟨sense, u, conveys, meant, fits⟩

end Scope

end FeatureLogic
