import FeatureLogic.Graph.Sharing
import FeatureLogic.Proofs.Graph.Nodes

/-!
# Counting structures

A set of values is legible when dereferencing does not leave it and every structure in it has its
features in it. From such a structure the count of structures always ends. It meets a structure
once for every feature that leads to it from a structure met, and the structure it started from
once more, and it lists as shared the ones that it met at least twice.
-/

namespace FeatureLogic

namespace Graph

structure Legible (g : Graph) (P : Value → Prop) : Prop where
  deref : ∀ {v}, P v → ∃ w, g.deref? v = some w ∧ P w
  struct : ∀ {s}, P (.struct s) →
    ∃ m, g.features? s = some m ∧ ∀ name v, m.get? name = some v → P v
  var : ∀ {x}, P (.var x) → ∃ name, g.name? x = some name

def structsOf (g : Graph) (values : List Value) : List StructId :=
  values.filterMap fun v => (g.deref? v).bind Value.struct?

def targets (g : Graph) (s : StructId) : List StructId :=
  (g.features? s).elim [] fun m => g.structsOf m.values

theorem targets_eq {g : Graph} {s : StructId} {m : NameMap Value} (found : g.features? s = some m) :
    g.targets s = g.structsOf m.values := by
  simp [targets, found]

end Graph

/-- Does a tally list the structures met at least once, and those met at least twice? -/
structure Tally.Counts (t : Tally) (times : StructId → Nat) : Prop where
  met : ∀ s, s ∈ t.met ↔ 0 < times s
  shared : ∀ s, s ∈ t.shared ↔ 2 ≤ times s

namespace Tally.Counts

variable {t : Tally} {times : StructId → Nat} {s : StructId}

theorem first (counts : t.Counts times) (fresh : s ∉ t.met) :
    Counts { t with met := s :: t.met } fun u => times u + [s].count u := by
  have never : times s = 0 := by
    by_contra some
    exact fresh ((counts.met s).2 (Nat.pos_of_ne_zero some))
  refine ⟨fun u => ?_, fun u => ?_⟩
  · have met := counts.met u
    by_cases same : s = u
    · simp [same]
    · simpa [same, Ne.symm same] using met
  · have shared := counts.shared u
    by_cases same : s = u
    · subst same
      simpa [never] using shared
    · simpa [same] using shared

theorem again (counts : t.Counts times) (known : s ∈ t.met) :
    Counts { t with shared := s :: t.shared } fun u => times u + [s].count u := by
  refine ⟨fun u => ?_, fun u => ?_⟩
  · have met := counts.met u
    by_cases same : s = u
    · subst same
      simp [known]
    · simpa [same] using met
  · have met := counts.met u
    have shared := counts.shared u
    by_cases same : s = u
    · subst same
      have once := met.1 known
      simp
      omega
    · simpa [same, Ne.symm same] using shared

end Tally.Counts

namespace Graph

variable {g : Graph} {P : Value → Prop}

structure TallyReady (g : Graph) (P : Value → Prop) (fuel : Nat) (t : Tally)
    (times : StructId → Nat) : Prop where
  nodup : t.met.Nodup
  inside : ∀ s ∈ t.met, P (.struct s)
  counts : t.Counts times
  fuel : g.structCount + 1 ≤ fuel + t.met.length

/-- What a tally is after the structures in `called` were met: the ones met for the first time
have met the targets of their features. -/
def Counted (g : Graph) (P : Value → Prop) (t : Tally) (times : StructId → Nat)
    (called : List StructId) (t' : Tally) : Prop :=
  ∃ new, t'.met = new ++ t.met ∧ t'.met.Nodup ∧ (∀ s ∈ new, P (.struct s)) ∧
    t'.Counts fun s => times s + called.count s + (new.flatMap g.targets).count s

def TallyEnds (g : Graph) (P : Value → Prop) (fuel : Nat)
    (tallyStruct : StructId → Tally → Option Tally) : Prop :=
  ∀ s t times, P (.struct s) → TallyReady g P fuel t times →
    ∃ t', tallyStruct s t = some t' ∧ Counted g P t times [s] t'

theorem TallyReady.of_counted {fuel : Nat} {t t' : Tally} {times : StructId → Nat}
    {new : List StructId} {times' : StructId → Nat} (ready : TallyReady g P fuel t times)
    (met : t'.met = new ++ t.met) (nodup : t'.met.Nodup) (inside : ∀ s ∈ new, P (.struct s))
    (counts : t'.Counts times') : TallyReady g P fuel t' times' where
  nodup := nodup
  inside s mem := by
    rw [met] at mem
    exact (List.mem_append.1 mem).elim (inside s) (ready.inside s)
  counts := counts
  fuel := by
    have := ready.fuel
    rw [met, List.length_append]
    omega

theorem TallyReady.enter {fuel : Nat} {t : Tally} {times : StructId → Nat} {s : StructId}
    (ready : TallyReady g P (fuel + 1) t times) (hs : P (.struct s)) (fresh : s ∉ t.met) :
    TallyReady g P fuel { t with met := s :: t.met } fun u => times u + [s].count u where
  nodup := List.nodup_cons.2 ⟨fresh, ready.nodup⟩
  inside := List.forall_mem_cons.2 ⟨hs, ready.inside⟩
  counts := ready.counts.first fresh
  fuel := by
    have := ready.fuel
    rw [List.length_cons]
    omega

theorem tallyValues_ends (legible : g.Legible P) {fuel : Nat}
    {tallyStruct : StructId → Tally → Option Tally} (ends : TallyEnds g P fuel tallyStruct)
    {values : List Value} (inside : ∀ v ∈ values, P v) {t : Tally} {times : StructId → Nat}
    (ready : TallyReady g P fuel t times) :
    ∃ t', g.tallyValues tallyStruct values t = some t' ∧
      Counted g P t times (g.structsOf values) t' := by
  induction values generalizing t times with
  | nil => exact ⟨t, rfl, [], rfl, ready.nodup, by simp, by simpa [structsOf] using ready.counts⟩
  | cons v rest ih =>
    obtain ⟨w, reads, hw⟩ := legible.deref (inside v List.mem_cons_self)
    have insideRest : ∀ v ∈ rest, P v := fun v mem => inside v (List.mem_cons_of_mem _ mem)
    cases w with
    | struct s =>
      obtain ⟨t₁, tallied, new, met, nodup, fresh, counts⟩ := ends s t times hw ready
      obtain ⟨t₂, tallied', new', met', nodup', fresh', counts'⟩ :=
        ih insideRest (ready.of_counted met nodup fresh counts)
      refine ⟨t₂, by simp [tallyValues, reads, tallied, tallied'], new' ++ new, ?_, nodup', ?_, ?_⟩
      · rw [met', met, List.append_assoc]
      · exact fun u mem => (List.mem_append.1 mem).elim (fresh' u) (fresh u)
      · have calls : g.structsOf (v :: rest) = s :: g.structsOf rest := by
          simp [structsOf, reads, Value.struct?]
        convert counts' using 2 with u
        simp only [calls, List.flatMap_append, List.count_append, List.count_cons, List.count_nil]
        omega
    | atom a =>
      have calls : g.structsOf (v :: rest) = g.structsOf rest := by
        simp [structsOf, reads, Value.struct?]
      simpa [tallyValues, reads, calls] using ih insideRest ready
    | var x =>
      have calls : g.structsOf (v :: rest) = g.structsOf rest := by
        simp [structsOf, reads, Value.struct?]
      simpa [tallyValues, reads, calls] using ih insideRest ready

theorem tallyStruct_ends (legible : g.Legible P) (fuel : Nat) :
    TallyEnds g P fuel (g.tallyStruct fuel) := by
  induction fuel with
  | zero =>
    intro s t times hs ready
    have bound := length_le_structCount ready.nodup fun u mem =>
      (legible.struct (ready.inside u mem)).imp fun _ h => h.1
    have := ready.fuel
    omega
  | succ fuel ih =>
    intro s t times hs ready
    by_cases known : s ∈ t.met
    · exact ⟨{ t with shared := s :: t.shared }, by simp [tallyStruct, known], [], rfl,
        ready.nodup, by simp, by simpa using ready.counts.again known⟩
    · obtain ⟨m, found, inside⟩ := legible.struct hs
      obtain ⟨t', tallied, new, met, nodup, fresh, counts⟩ :=
        tallyValues_ends legible ih (NameMap.forall_mem_values.2 inside) (ready.enter hs known)
      refine ⟨t', by simp [tallyStruct, known, found, tallied], new ++ [s], by simp [met], nodup,
        ?_, ?_⟩
      · simpa [or_imp, forall_and] using ⟨fresh, hs⟩
      · convert counts using 2 with u
        simp only [List.flatMap_append, List.flatMap_cons, List.flatMap_nil, List.append_nil,
          List.count_append, targets_eq found]
        omega

/-- The count that starts from `root`: every structure below it is met, as often as there are
features that lead to it, and the root once more. -/
theorem tally_root (legible : g.Legible P) {root : StructId} (hroot : P (.struct root)) :
    ∃ t : Tally, g.tallyStruct (g.structCount + 1) root {} = some t ∧ t.met.Nodup ∧
      (∀ s ∈ t.met, P (.struct s)) ∧
      t.Counts fun s => [root].count s + (t.met.flatMap g.targets).count s := by
  have ready : TallyReady g P (g.structCount + 1) {} (fun _ => 0) :=
    ⟨List.nodup_nil, by simp, ⟨by simp, by simp⟩, by simp⟩
  obtain ⟨t, tallied, new, met, nodup, inside, counts⟩ :=
    tallyStruct_ends legible _ root {} _ hroot ready
  simp only [List.append_nil] at met
  subst met
  exact ⟨t, tallied, nodup, inside, by simpa using counts⟩

end Graph

end FeatureLogic
