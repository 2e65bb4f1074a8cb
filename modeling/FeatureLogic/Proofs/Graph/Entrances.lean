import FeatureLogic.Graph.Conflict
import FeatureLogic.Proofs.Graph.Isomorphism
import FeatureLogic.Proofs.Graph.Plainness
import FeatureLogic.Proofs.Graph.Tally
import FeatureLogic.Proofs.Join.Entirety
import Mathlib.Data.Finset.Card

/-!
# Which structures are listed as shared

The walk that looks for shared structures enters a structure once, and after that it turns back at
it. So it does not count paths. It counts the entrances of a structure: the features that stand for
it, each taken once whatever the number of paths to it, and the start of the walk as an entrance of
the root. A structure that has one entrance only is not listed, even if many paths lead through that
entrance. But then these paths have met before, at a listed structure.
-/

namespace FeatureLogic.Graph

variable {g : Graph} {root s t : StructId}

/-- Is this an entrance of `t`, on a walk that starts at `root`? That is the start of the walk, or a
feature of a structure on it. -/
def Enters (g : Graph) (root t : StructId) : Option (StructId × String) → Prop
  | none => t = root
  | some (r, name) => g.LeadsTo (.struct root) r ∧ g.Leads (.struct r) [name] (.struct t)

def entered? (g : Graph) (root : StructId) : Option (StructId × String) → Option StructId
  | none => some root
  | some (r, name) =>
    ((g.features? r).bind (NameMap.get? · name)).bind fun v => (g.deref? v).bind Value.struct?

def exits (g : Graph) (s : StructId) : List (Option (StructId × String)) :=
  (g.features? s).elim [] fun m => m.keys.map fun name => some (s, name)

theorem struct?_eq_some {v : Value} : v.struct? = some s ↔ v = .struct s := by
  cases v <;> simp [Value.struct?]

theorem entered?_eq_some {name : String} :
    g.entered? root (some (s, name)) = some t ↔ g.Leads (.struct s) [name] (.struct t) := by
  simp only [entered?, Option.bind_eq_some_iff, struct?_eq_some, leads_cons, leads_nil,
    deref?_struct, Option.some.injEq, Value.struct.injEq]
  constructor
  · rintro ⟨v, ⟨m, found, holds⟩, w, reads, rfl⟩
    exact ⟨s, m, v, rfl, found, holds, reads⟩
  · rintro ⟨s, m, v, rfl, found, holds, reads⟩
    exact ⟨v, ⟨m, found, holds⟩, _, reads, rfl⟩

theorem filterMap_exits (root s : StructId) :
    (g.exits s).filterMap (g.entered? root) = g.targets s := by
  cases found : g.features? s with
  | none => simp [exits, targets, found]
  | some m =>
    have each : ∀ e ∈ m.entries, g.entered? root (some (s, e.1)) =
        (g.deref? e.2).bind Value.struct? := by
      intro e mem
      simp [entered?, found, m.get?_eq_some_iff.2 (show (e.1, e.2) ∈ m.entries from mem)]
    simp only [exits, targets, found, Option.elim_some, structsOf, NameMap.keys, NameMap.values,
      List.map_map, List.filterMap_map]
    exact List.filterMap_congr each

theorem nodup_exits {met : List StructId} (nodup : met.Nodup) :
    (none :: met.flatMap g.exits).Nodup := by
  have own {s : StructId} {e : Option (StructId × String)} (mem : e ∈ g.exits s) :
      ∃ name, e = some (s, name) := by
    cases found : g.features? s with
    | none => simp [exits, found] at mem
    | some m =>
      simp only [exits, found, Option.elim_some, List.mem_map] at mem
      obtain ⟨name, -, rfl⟩ := mem
      exact ⟨name, rfl⟩
  refine List.nodup_cons.2 ⟨fun mem => ?_, List.nodup_flatMap.2 ⟨fun s _ => ?_, ?_⟩⟩
  · obtain ⟨s, -, mem⟩ := List.mem_flatMap.1 mem
    obtain ⟨name, absurd⟩ := own mem
    cases absurd
  · cases found : g.features? s with
    | none => simp [exits, found]
    | some m =>
      simp only [exits, found, Option.elim_some]
      refine (List.nodup_map_iff fun name name' same => ?_).2 m.nodup_keys
      simpa using same
  · refine nodup.imp fun {s t} ne e mem mem' => ?_
    obtain ⟨name, rfl⟩ := own mem
    obtain ⟨name', same⟩ := own mem'
    exact ne (by simpa using congrArg (Option.map Prod.fst) same)

theorem two_le_count_filterMap_iff {α β : Type} [DecidableEq α] [DecidableEq β] {l : List α}
    (nodup : l.Nodup) {f : α → Option β} {b : β} :
    2 ≤ (l.filterMap f).count b ↔ ∃ x ∈ l, ∃ y ∈ l, x ≠ y ∧ f x = some b ∧ f y = some b := by
  have counted : (l.filterMap f).count b = (l.filter (f · = some b)).toFinset.card := by
    rw [List.toFinset_card_of_nodup (nodup.filter _), List.count, List.countP_filterMap,
      ← List.countP_eq_length_filter]
    refine List.countP_congr fun a _ => ?_
    cases f a <;> simp
  rw [counted, Nat.succ_le_iff, Finset.one_lt_card]
  simp only [List.mem_toFinset, List.mem_filter, decide_eq_true_eq]
  constructor
  · rintro ⟨x, ⟨hx, leads⟩, y, ⟨hy, leads'⟩, ne⟩
    exact ⟨x, hx, y, hy, ne, leads, leads'⟩
  · rintro ⟨x, hx, y, hy, ne, leads, leads'⟩
    exact ⟨x, ⟨hx, leads⟩, y, ⟨hy, leads'⟩, ne⟩

theorem WellFormed.legible_of_root (wf : g.WellFormed) (root : StructId) :
    g.Legible fun v => g.Contains v ∧
      ∀ {s}, g.deref? v = some (.struct s) → g.LeadsTo (.struct root) s where
  deref := by
    rintro v ⟨contains, leads⟩
    obtain ⟨w, reads, contains'⟩ := wf.exists_deref contains
    refine ⟨w, reads, contains', fun {s} reads' => ?_⟩
    cases (wf.deref?_deref? reads).symm.trans reads'
    exact leads reads
  struct := by
    rintro s ⟨contains, leads⟩
    obtain ⟨m, found⟩ := exists_features_of_contains contains
    refine ⟨m, found, fun name v holds => ⟨?_, fun reads => ?_⟩⟩
    · obtain ⟨node, present, rfl⟩ := Option.map_eq_some_iff.1 found
      exact wf.feature present holds
    · exact (leads (deref?_struct g s)).feature wf found holds reads
  var := by
    rintro x ⟨contains, -⟩
    obtain ⟨node, found⟩ := exists_var_of_contains contains
    exact ⟨node.name, by simp [name?, found]⟩

theorem WellFormed.leads_concat_iff (wf : g.WellFormed) {v w : Value} {path : List String}
    {name : String} : g.Leads v (path ++ [name]) w ↔
      ∃ r, g.Leads v path (.struct r) ∧ g.Leads (.struct r) [name] w := by
  constructor
  · intro leads
    induction path generalizing v with
    | nil =>
      obtain ⟨r, m, u, reads, found, holds, rest⟩ := leads_cons.1 leads
      exact ⟨r, leads_nil.2 reads, leads_cons.2 ⟨r, m, u, deref?_struct g r, found, holds, rest⟩⟩
    | cons key path ih =>
      obtain ⟨s, m, u, reads, found, holds, rest⟩ := leads_cons.1 leads
      obtain ⟨r, before, last⟩ := ih rest
      exact ⟨r, leads_cons.2 ⟨s, m, u, reads, found, holds, before⟩, last⟩
  · rintro ⟨r, before, last⟩
    exact wf.leads_append before last

theorem WellFormed.exists_path_of_enters (wf : g.WellFormed) {e : Option (StructId × String)}
    (enters : g.Enters root t e) : ∃ path, g.Leads (.struct root) path (.struct t) ∧
      (e = none → path = []) ∧
      ∀ r name, e = some (r, name) → ∃ before, path = before ++ [name] ∧
        g.Leads (.struct root) before (.struct r) := by
  match e, enters with
  | none, same =>
    subst same
    exact ⟨[], leads_nil.2 (deref?_struct g _), fun _ => rfl, by simp⟩
  | some (r, name), ⟨⟨before, leads⟩, last⟩ =>
    refine ⟨before ++ [name], wf.leads_append leads last, by simp, ?_⟩
    rintro _ _ ⟨⟩
    exact ⟨before, rfl, leads⟩

theorem WellFormed.exists_paths_of_enters (wf : g.WellFormed) {e e' : Option (StructId × String)}
    (ne : e ≠ e') (enters : g.Enters root t e) (enters' : g.Enters root t e') :
    ∃ p q, p ≠ q ∧ g.Leads (.struct root) p (.struct t) ∧
      g.Leads (.struct root) q (.struct t) := by
  obtain ⟨p, leads, start, step⟩ := wf.exists_path_of_enters enters
  obtain ⟨q, leads', start', step'⟩ := wf.exists_path_of_enters enters'
  refine ⟨p, q, ?_, leads, leads'⟩
  rintro rfl
  rcases e with _ | ⟨r, name⟩ <;> rcases e' with _ | ⟨r', name'⟩
  · exact ne rfl
  · obtain ⟨before, ends, -⟩ := step' r' name' rfl
    simp [start rfl] at ends
  · obtain ⟨before, ends, -⟩ := step r name rfl
    simp [start' rfl] at ends
  · obtain ⟨before, rfl, first⟩ := step r name rfl
    obtain ⟨before', ends, second⟩ := step' r' name' rfl
    obtain ⟨rfl, last⟩ := List.append_inj' ends rfl
    cases first.unique second
    cases last
    exact ne rfl

/-- Two paths that lead to one structure have met, at the latest in that structure, at one with two
entrances. -/
theorem WellFormed.exists_enters_of_paths (wf : g.WellFormed) {p q : List String} (ne : p ≠ q)
    (leads : g.Leads (.struct root) p (.struct t)) (leads' : g.Leads (.struct root) q (.struct t)) :
    ∃ r, g.LeadsTo (.struct r) t ∧ ∃ e e', e ≠ e' ∧ g.Enters root r e ∧ g.Enters root r e' := by
  have here : g.LeadsTo (.struct t) t := ⟨[], leads_nil.2 (deref?_struct g t)⟩
  induction p using List.reverseRecOn generalizing q t with
  | nil =>
    cases leads_struct_nil_iff.1 leads
    induction q using List.reverseRecOn with
    | nil => exact absurd rfl ne
    | append_singleton q name _ =>
      obtain ⟨r, before, last⟩ := wf.leads_concat_iff.1 leads'
      exact ⟨root, here, none, some (r, name), by simp, rfl, ⟨q, before⟩, last⟩
  | append_singleton p name ih =>
    obtain ⟨r, before, last⟩ := wf.leads_concat_iff.1 leads
    induction q using List.reverseRecOn with
    | nil =>
      cases leads_struct_nil_iff.1 leads'
      exact ⟨root, here, none, some (r, name), by simp, rfl, ⟨p, before⟩, last⟩
    | append_singleton q name' _ =>
      obtain ⟨r', before', last'⟩ := wf.leads_concat_iff.1 leads'
      by_cases same : (some (r, name) : Option (StructId × String)) = some (r', name')
      · -- the two paths take the same last step, and so they differ before it
        cases same
        have ne' : p ≠ q := fun same => ne (by rw [same])
        obtain ⟨u, ⟨path, on⟩, two⟩ := ih ne' before before' ⟨[], leads_nil.2 (deref?_struct g r)⟩
        exact ⟨u, ⟨path ++ [name], wf.leads_append on last⟩, two⟩
      · exact ⟨t, here, _, _, same, ⟨⟨p, before⟩, last⟩, ⟨⟨q, before'⟩, last'⟩⟩

theorem WellFormed.met_iff (wf : g.WellFormed) {tally : Tally}
    (inside : ∀ s ∈ tally.met, g.LeadsTo (.struct root) s)
    (counts : tally.Counts fun s => [root].count s + (tally.met.flatMap g.targets).count s) :
    s ∈ tally.met ↔ g.LeadsTo (.struct root) s := by
  refine ⟨inside s, ?_⟩
  rintro ⟨path, leads⟩
  induction path using List.reverseRecOn generalizing s with
  | nil =>
    cases leads_struct_nil_iff.1 leads
    rw [counts.met, List.count_singleton_self]
    omega
  | append_singleton path name ih =>
    obtain ⟨r, before, last⟩ := wf.leads_concat_iff.1 leads
    have target : s ∈ g.targets r := by
      rw [← filterMap_exits root, List.mem_filterMap]
      obtain ⟨_, m, u, reads, found, holds, -⟩ := leads_cons.1 last
      cases reads
      refine ⟨some (r, name), ?_, entered?_eq_some.2 last⟩
      simp only [exits, found, Option.elim_some]
      exact List.mem_map_of_mem (m.mem_keys_iff.2 (by simp [holds]))
    have counted := List.count_pos_iff.2 (List.mem_flatMap.2 ⟨r, ih before, target⟩)
    rw [counts.met]
    omega

theorem mem_entrances_iff {met : List StructId} (all : ∀ s, s ∈ met ↔ g.LeadsTo (.struct root) s)
    {e : Option (StructId × String)} :
    (e ∈ none :: met.flatMap g.exits ∧ g.entered? root e = some t) ↔ g.Enters root t e := by
  rcases e with _ | ⟨r, name⟩
  · simp [entered?, Enters, eq_comm]
  · rw [entered?_eq_some, Enters, ← all r]
    refine and_congr_left fun last => ?_
    obtain ⟨_, m, u, reads, found, holds, -⟩ := leads_cons.1 last
    cases reads
    have exit : name ∈ m.keys := m.mem_keys_iff.2 (by simp [holds])
    constructor
    · intro mem
      obtain ⟨s, met, mem⟩ := List.mem_flatMap.1 ((List.mem_cons.1 mem).resolve_left (by simp))
      cases found' : g.features? s with
      | none => simp [exits, found'] at mem
      | some m' =>
        simp only [exits, found', Option.elim_some, List.mem_map, Option.some.injEq,
          Prod.mk.injEq] at mem
        obtain ⟨_, -, rfl, -⟩ := mem
        exact met
    · intro met
      refine List.mem_cons_of_mem _ (List.mem_flatMap.2 ⟨r, met, ?_⟩)
      simp only [exits, found, Option.elim_some]
      exact List.mem_map_of_mem exit

/-- What a finished count lists as shared has two entrances. -/
theorem shared_iff {tally : Tally} (all : ∀ s, s ∈ tally.met ↔ g.LeadsTo (.struct root) s)
    (nodup : tally.met.Nodup)
    (counts : tally.Counts fun s => [root].count s + (tally.met.flatMap g.targets).count s) :
    t ∈ tally.shared ↔ ∃ e e', e ≠ e' ∧ g.Enters root t e ∧ g.Enters root t e' := by
  have times : [root].count t + (tally.met.flatMap g.targets).count t =
      ((none :: tally.met.flatMap g.exits).filterMap (g.entered? root)).count t := by
    rw [List.filterMap_cons_some (show g.entered? root none = some root from rfl),
      List.filterMap_flatMap]
    simp only [filterMap_exits, List.count_cons, List.count_nil]
    exact (Nat.add_comm _ _).trans (by rw [Nat.zero_add])
  rw [counts.shared, times, two_le_count_filterMap_iff (nodup_exits nodup)]
  constructor
  · rintro ⟨e, mem, e', mem', ne, leads, leads'⟩
    exact ⟨e, e', ne, (mem_entrances_iff all).1 ⟨mem, leads⟩,
      (mem_entrances_iff all).1 ⟨mem', leads'⟩⟩
  · rintro ⟨e, e', ne, enters, enters'⟩
    obtain ⟨mem, leads⟩ := (mem_entrances_iff all).2 enters
    obtain ⟨mem', leads'⟩ := (mem_entrances_iff all).2 enters'
    exact ⟨e, mem, e', mem', ne, leads, leads'⟩

/-- The list of shared structures is found for every structure of a well-formed graph, and it is in
ascending order. It holds the structures with two entrances. So two paths lead to a structure
exactly if it is one of these or paths lead to it from one of these. -/
theorem WellFormed.reentrances?_lists_entered_twice (wf : g.WellFormed)
    (inside : g.Contains (.struct root)) :
    ∃ listed, g.reentrances? root = some listed ∧ listed.Pairwise (·.index < ·.index) ∧
      (∀ t, t ∈ listed ↔ ∃ e e', e ≠ e' ∧ g.Enters root t e ∧ g.Enters root t e') ∧
      ∀ t, (∃ p q, p ≠ q ∧ g.Leads (.struct root) p (.struct t) ∧
          g.Leads (.struct root) q (.struct t)) ↔ ∃ r ∈ listed, g.LeadsTo (.struct r) t := by
  have here : g.LeadsTo (.struct root) root := ⟨[], leads_nil.2 (deref?_struct g root)⟩
  obtain ⟨tally, tallied, nodup, reached, counts⟩ := tally_root (wf.legible_of_root root)
    ⟨inside, fun reads => by cases (deref?_struct g root).symm.trans reads; exact here⟩
  have all : ∀ s, s ∈ tally.met ↔ g.LeadsTo (.struct root) s := fun s =>
    wf.met_iff (fun s mem => (reached s mem).2 (deref?_struct g s)) counts
  have listed : ∀ t, t ∈ ((List.range g.structCount).map StructId.mk).filter (· ∈ tally.shared) ↔
      ∃ e e', e ≠ e' ∧ g.Enters root t e ∧ g.Enters root t e' := by
    intro t
    rw [List.mem_filter, decide_eq_true_eq, ← shared_iff all nodup counts, and_iff_right_iff_imp]
    intro shared
    have met : t ∈ tally.met := by
      have := (counts.shared t).1 shared
      rw [counts.met]
      omega
    exact List.mem_map.2 ⟨t.index, List.mem_range.2 (reached t met).1, rfl⟩
  refine ⟨_, by simp only [reentrances?, shared?, tallied, Option.map_some], ?ascending, listed,
    fun t => ⟨?meet, ?part⟩⟩
  case ascending =>
    exact List.Pairwise.filter _ (List.pairwise_map.2 List.pairwise_lt_range)
  case meet =>
    rintro ⟨p, q, ne, leads, leads'⟩
    obtain ⟨r, on, two⟩ := wf.exists_enters_of_paths ne leads leads'
    exact ⟨r, (listed r).2 two, on⟩
  case part =>
    rintro ⟨r, mem, path, on⟩
    obtain ⟨e, e', ne, enters, enters'⟩ := (listed r).1 mem
    obtain ⟨p, q, ne, leads, leads'⟩ := wf.exists_paths_of_enters ne enters enters'
    exact ⟨p ++ path, q ++ path, fun same => ne (List.append_cancel_right same),
      wf.leads_append leads on, wf.leads_append leads' on⟩

/-- A structure that two features of the root stand for, and one that a feature of that stands
for. -/
def gated : Graph where
  structs := #[{ features := .ofList [("f", .struct ⟨1⟩), ("g", .struct ⟨1⟩)] },
    { features := .ofList [("a", .struct ⟨2⟩)] }, {}]
  vars := #[]

theorem plainOn_gated : gated.plainOn [.struct ⟨0⟩, .struct ⟨1⟩, .struct ⟨2⟩] := by
  decide +kernel

theorem wellFormed_gated : gated.WellFormed :=
  wellFormed_of_plainOn plainOn_gated (by decide +kernel) (by decide +kernel) (by decide +kernel)

/-- The first structure is entered by both features, and so two paths lead to the second. -/
theorem gated_entered_twice : gated.WellFormed ∧ gated.Contains (.struct ⟨0⟩) ∧
    gated.reentrances? ⟨0⟩ = some [⟨1⟩] ∧
    (∃ e e', e ≠ e' ∧ gated.Enters ⟨0⟩ ⟨1⟩ e ∧ gated.Enters ⟨0⟩ ⟨1⟩ e') ∧
    ∃ p q, p ≠ q ∧ gated.Leads (.struct ⟨0⟩) p (.struct ⟨2⟩) ∧
      gated.Leads (.struct ⟨0⟩) q (.struct ⟨2⟩) := by
  have inside : gated.Contains (.struct ⟨0⟩) := by decide
  have found : gated.reentrances? ⟨0⟩ = some [⟨1⟩] := by decide +kernel
  obtain ⟨listed, found', -, entered, paths⟩ :=
    wellFormed_gated.reentrances?_lists_entered_twice inside
  cases found.symm.trans found'
  have step : gated.Leads (.struct ⟨1⟩) ["a"] (.struct ⟨2⟩) := by
    rw [Leads]
    decide +kernel
  exact ⟨wellFormed_gated, inside, found, (entered ⟨1⟩).1 (by simp),
    (paths ⟨2⟩).2 ⟨⟨1⟩, by simp, ["a"], step⟩⟩

/-- Two paths lead to the second structure, and it is not listed. -/
theorem exists_unlisted : ∃ (g : Graph) (root t : StructId) (p q : List String), g.WellFormed ∧
    g.Contains (.struct root) ∧ p ≠ q ∧ g.Leads (.struct root) p (.struct t) ∧
    g.Leads (.struct root) q (.struct t) ∧ ∃ listed, g.reentrances? root = some listed ∧
      t ∉ listed := by
  refine ⟨gated, ⟨0⟩, ⟨2⟩, ["f", "a"], ["g", "a"], wellFormed_gated, by decide, by decide, ?_, ?_,
    [⟨1⟩], by decide +kernel, by decide⟩
  all_goals
    rw [Leads]
    decide +kernel

end FeatureLogic.Graph
