import FeatureLogic.Graph.Replacement
import FeatureLogic.Proofs.Renaming.Names

/-!
# The bookkeeping of a renaming

A renaming keeps a map of replacements and a list of names in use. Both say what the visits made so
far say, and each of the three things that can become of a variable leaves it so.
-/

namespace FeatureLogic.Renaming

structure Logged where
  memory : Memory
  visits : Visits := []

def Logged.visit (m : Logged) (x y : VarId) : Logged := { m with visits := m.visits ++ [(x, y)] }

def Logged.create (m : Logged) (x y : VarId) (old fresh : String) : Logged where
  memory := { m.memory with
    replaced := m.memory.replaced.insert old y, taken := fresh :: m.memory.taken }
  visits := m.visits ++ [(x, y)]

def Call.upTo (c : Call) (h : Graph) : Call := { c with after := h }

/-- Does the memory say what the visits say, which have met variables in `D`? -/
structure Tracks (c : Call) (D : Value → Prop) (m : Logged) : Prop where
  replaced : ∀ {old y}, m.memory.replaced.get? old = some y ↔ c.Replaces m.visits old y
  taken : ∀ {name}, name ∈ m.memory.taken ↔ c.InUse m.visits name
  inside : ∀ {old y}, c.Replaces m.visits old y → c.after.Contains (.var y)
  met : ∀ {x y}, (x, y) ∈ m.visits → D (.var x)
  follows : c.Follows m.visits

variable {c : Call} {D : Value → Prop} {m : Logged} {visits : Visits} {h : Graph} {x y z : VarId}
  {old name : String}

namespace Call

theorem Replaces.mono {visits' : Visits} (more : visits ⊆ visits')
    (replaces : c.Replaces visits old y) : c.Replaces visits' old y :=
  replaces.imp_right fun ⟨x, met, ne, called⟩ => ⟨x, more met, ne, called⟩

theorem replaces_append_iff : c.Replaces (visits ++ [(x, y)]) old z ↔
    c.Replaces visits old z ∨ z = y ∧ x ≠ y ∧ c.before.name? x = some old := by
  constructor
  · rintro (before | ⟨u, met, ne, called⟩)
    · exact .inl (.inl before)
    · rcases List.mem_append.1 met with met | met
      · exact .inl (.inr ⟨u, met, ne, called⟩)
      · cases List.mem_singleton.1 met
        exact .inr ⟨rfl, ne, called⟩
  · rintro (before | ⟨rfl, ne, called⟩)
    · exact before.mono (List.subset_append_left _ _)
    · exact .inr ⟨x, List.mem_append_right _ List.mem_cons_self, ne, called⟩

theorem replaces_append_of_replaces (called : c.before.name? x = some name)
    (known : x ≠ y → c.Replaces visits name y) :
    c.Replaces (visits ++ [(x, y)]) old z ↔ c.Replaces visits old z := by
  rw [replaces_append_iff, or_iff_left_of_imp]
  rintro ⟨rfl, ne, called'⟩
  cases called.symm.trans called'
  exact known ne

theorem inUse_congr {visits' : Visits}
    (same : ∀ {old z}, c.Replaces visits' old z ↔ c.Replaces visits old z) :
    c.InUse visits' name ↔ c.InUse visits name := by
  simp only [InUse, same]

theorem inUse_upTo (names : ∀ {old y}, c.Replaces visits old y → h.name? y = c.after.name? y) :
    (c.upTo h).InUse visits name ↔ c.InUse visits name := by
  refine or_congr_right (exists_congr fun old => exists_congr fun y => ?_)
  refine and_congr_right fun replaces => ?_
  show h.name? y = some name ↔ _
  rw [names replaces]

theorem Creates.ne (creates : c.Creates visits old y) (called : c.before.name? x = some name) :
    x ≠ y := by
  rintro rfl
  obtain ⟨node, found, -⟩ := Option.map_eq_some_iff.1 called
  exact creates.new (Graph.contains_of_var? found)

theorem Follows.upTo (follows : c.Follows visits)
    (names : ∀ {old y}, c.Replaces visits old y → h.name? y = c.after.name? y) :
    (c.upTo h).Follows visits := by
  induction follows with
  | start => exact .start
  | @visit visits x y follows meets ih =>
    have earlier {old : String} {z : VarId} (replaces : c.Replaces visits old z) :
        h.name? z = c.after.name? z := names (replaces.mono (List.subset_append_left _ _))
    refine .visit (ih earlier) ?_
    cases meets with
    | mapped called replaces => exact .mapped called replaces
    | kept called unmapped free =>
      exact .kept called unmapped fun inUse => free ((inUse_upTo earlier).1 inUse)
    | @created name _ called creates =>
      obtain ⟨k, two, named, free, least⟩ := creates.named
      have own : h.name? y = c.after.name? y :=
        names (replaces_append_iff.2 (.inr ⟨rfl, creates.ne called, called⟩))
      refine .created called ⟨creates.unmapped, (inUse_upTo earlier).2 creates.inUse, creates.new,
        creates.unassigned, k, two, own.trans named, fun inUse => ?_, fun j lower upper => ?_⟩
      · exact free ((inUse_upTo earlier).1 inUse)
      · exact (inUse_upTo earlier).2 (least j lower upper)

end Call

namespace Tracks

/-- The bookkeeping is right in a later graph, if the replacements have their names there. -/
theorem upTo (tracks : Tracks c D m) (vars : c.after.varCount ≤ h.varCount)
    (names : ∀ {y}, c.after.Contains (.var y) → h.name? y = c.after.name? y) :
    Tracks (c.upTo h) D m where
  replaced := tracks.replaced
  taken := tracks.taken.trans (Call.inUse_upTo fun replaces => names (tracks.inside replaces)).symm
  inside replaces := Nat.lt_of_lt_of_le (tracks.inside replaces) vars
  met := tracks.met
  follows := tracks.follows.upTo fun replaces => names (tracks.inside replaces)

theorem visit (tracks : Tracks c D m) (hx : D (.var x)) (called : c.before.name? x = some name)
    (known : x ≠ y → c.Replaces m.visits name y) (meets : c.Meets m.visits x y) :
    Tracks c D (m.visit x y) where
  replaced := tracks.replaced.trans (Call.replaces_append_of_replaces called known).symm
  taken := tracks.taken.trans
    (Call.inUse_congr (Call.replaces_append_of_replaces called known)).symm
  inside replaces := tracks.inside ((Call.replaces_append_of_replaces called known).1 replaces)
  met {u w} listed := by
    rcases List.mem_append.1 listed with listed | listed
    · exact tracks.met listed
    · cases List.mem_singleton.1 listed
      exact hx
  follows := tracks.follows.visit meets

theorem mapped (tracks : Tracks c D m) (hx : D (.var x)) (called : c.before.name? x = some name)
    (known : m.memory.replaced.get? name = some y) : Tracks c D (m.visit x y) :=
  have replaces := tracks.replaced.1 known
  tracks.visit hx called (fun _ => replaces) (.mapped called replaces)

theorem unmapped (tracks : Tracks c D m) (absent : m.memory.replaced.get? name = none)
    (y : VarId) : ¬ c.Replaces m.visits name y := fun replaces => by
  cases absent.symm.trans (tracks.replaced.2 replaces)

theorem kept (tracks : Tracks c D m) (hx : D (.var x)) (called : c.before.name? x = some name)
    (absent : m.memory.replaced.get? name = none) (free : name ∉ m.memory.taken) :
    Tracks c D (m.visit x x) :=
  tracks.visit hx called (fun ne => absurd rfl ne)
    (.kept called (tracks.unmapped absent) fun inUse => free (tracks.taken.2 inUse))

theorem created (tracks : Tracks c D m) (vars : c.before.varCount ≤ c.after.varCount)
    (hx : D (.var x)) (called : c.before.name? x = some name)
    (absent : m.memory.replaced.get? name = none) (inUse : name ∈ m.memory.taken) :
    Tracks (c.upTo (c.after.addVar { name := unusedName m.memory.taken name })) D
      (m.create x c.after.nextVar name (unusedName m.memory.taken name)) := by
  obtain ⟨k, two, fresh, free, least⟩ := unusedName_spec m.memory.taken name
  rw [fresh]
  let later := c.upTo (c.after.addVar { name := stem name ++ toString k })
  have ne {old : String} {z : VarId} (replaces : c.Replaces m.visits old z) :
      z ≠ c.after.nextVar := by
    rintro rfl
    exact Nat.lt_irrefl _ (tracks.inside replaces)
  have names {old : String} {z : VarId} (replaces : c.Replaces m.visits old z) :
      later.after.name? z = c.after.name? z :=
    (Graph.name?_addVar ..).trans (if_neg (ne replaces))
  have own : later.after.name? c.after.nextVar = some (stem name ++ toString k) :=
    (Graph.name?_addVar ..).trans (if_pos rfl)
  have before {name : String} : later.InUse m.visits name ↔ name ∈ m.memory.taken :=
    (Call.inUse_upTo names).trans tracks.taken.symm
  have creates : later.Creates m.visits name c.after.nextVar :=
    ⟨tracks.unmapped absent, before.2 inUse, fun inside => Nat.not_le.2 inside vars,
      fun _ replaces => ne replaces rfl, k, two, own, fun inUse => free (before.1 inUse),
      fun j lower upper => before.2 (least j lower upper)⟩
  have replaces {old : String} {z : VarId} :
      later.Replaces (m.visits ++ [(x, c.after.nextVar)]) old z ↔
        c.Replaces m.visits old z ∨ z = c.after.nextVar ∧ name = old := by
    have named : c.before.name? x = some old ↔ name = old := by rw [called, Option.some.injEq]
    rw [Call.replaces_append_iff, and_iff_right (creates.ne called)]
    exact or_congr Iff.rfl (and_congr_right fun _ => named)
  constructor
  case replaced =>
    intro old z
    refine Iff.trans ?_ replaces.symm
    rw [Logged.create, NameMap.get?_insert]
    split
    · next eq =>
      subst eq
      rw [or_iff_right (tracks.unmapped absent z), and_iff_left rfl, Option.some.injEq, eq_comm]
    · next other => rw [or_iff_left fun new => other new.2, tracks.replaced]
  case taken =>
    intro key
    rw [Logged.create, List.mem_cons, ← before]
    show _ ↔ later.InUse (m.visits ++ [(x, c.after.nextVar)]) key
    constructor
    · rintro (rfl | inUse)
      · exact .inr ⟨name, _, replaces.2 (.inr ⟨rfl, rfl⟩), own⟩
      · exact inUse.imp_right fun ⟨old, z, known, named⟩ =>
          ⟨old, z, replaces.2 (.inl known), named⟩
    · rintro (used | ⟨old, z, known, named⟩)
      · exact .inr (.inl used)
      · rcases replaces.1 known with earlier | ⟨rfl, -⟩
        · exact .inr (.inr ⟨old, z, earlier, named⟩)
        · exact .inl (Option.some.inj (named.symm.trans own))
  case inside =>
    intro old z known
    rcases replaces.1 known with earlier | ⟨rfl, -⟩
    · exact (tracks.inside earlier).mono (by simp [Call.upTo]) (by simp [Call.upTo])
    · simp [Call.upTo, Graph.Contains, Graph.nextVar]
  case met =>
    intro u w listed
    rcases List.mem_append.1 listed with listed | listed
    · exact tracks.met listed
    · cases List.mem_singleton.1 listed
      exact hx
  case follows => exact (tracks.follows.upTo names).visit (.created called creates)

end Tracks

end FeatureLogic.Renaming
