import FeatureLogic.Graph.Text
import FeatureLogic.Proofs.Graph.Tally

/-!
# Every legible value has a text

The description of a value enters a structure a second time only if it is not listed as shared. On
a way from the root that goes around a cycle some structure is met a second time, and the count
that came before has listed it. So the ways that a description follows repeat no structure, and it
ends.
-/

namespace FeatureLogic.Graph

variable {g : Graph} {P : Value → Prop}

theorem two_le_count_flatMap {α β : Type} [DecidableEq α] [DecidableEq β] {l : List α}
    {f : α → List β} {a a' : α} {b : β} (ha : a ∈ l) (ha' : a' ∈ l) (ne : a' ≠ a) (hb : b ∈ f a)
    (hb' : b ∈ f a') : 2 ≤ (l.flatMap f).count b := by
  have split := (List.perm_cons_erase ha).flatMap_right f
  have rest : b ∈ (l.erase a).flatMap f :=
    List.mem_flatMap.2 ⟨a', (List.mem_erase_of_ne ne).2 ha', hb'⟩
  have first := List.count_pos_iff.2 hb
  have second := List.count_pos_iff.2 rest
  rw [split.count_eq, List.flatMap_cons, List.count_append]
  omega

/-- The count that comes before the structures below `root` are described. -/
structure Surveyed (g : Graph) (P : Value → Prop) (root : StructId) (t : Tally) : Prop where
  legible : g.Legible P
  inside : ∀ s ∈ t.met, P (.struct s)
  counts : t.Counts fun s => [root].count s + (t.met.flatMap g.targets).count s

/-- A way from `root` to `s`, whose structures before `s` are listed in `chain`. Every structure on
it but the root was entered from one of those, and the shared ones among those are tagged. -/
structure Way (g : Graph) (root : StructId) (t : Tally) (chain : List StructId) (s : StructId)
    (tagged : List StructId) : Prop where
  nodup : (s :: chain).Nodup
  met : ∀ u ∈ s :: chain, u ∈ t.met
  tagged : ∀ u ∈ chain, u ∈ t.shared → u ∈ tagged
  entered : ∀ u ∈ s :: chain, u = root ∨ ∃ p ∈ chain, u ∈ g.targets p

variable {root : StructId} {t : Tally}

theorem Surveyed.target_met (surveyed : Surveyed g P root t) {s u : StructId} (met : s ∈ t.met)
    (leads : u ∈ g.targets s) : u ∈ t.met := by
  have counted : 0 < (t.met.flatMap g.targets).count u :=
    List.count_pos_iff.2 (List.mem_flatMap.2 ⟨s, met, leads⟩)
  rw [surveyed.counts.met u]
  omega

theorem Surveyed.shared_of_mem (surveyed : Surveyed g P root t) {chain tagged : List StructId}
    {s u : StructId} (way : Way g root t chain s tagged) (leads : u ∈ g.targets s)
    (again : u ∈ s :: chain) : u ∈ t.shared := by
  have met : s ∈ t.met := way.met s List.mem_cons_self
  rw [surveyed.counts.shared u]
  rcases way.entered u again with rfl | ⟨p, before, leads'⟩
  · have counted : 0 < (t.met.flatMap g.targets).count u :=
      List.count_pos_iff.2 (List.mem_flatMap.2 ⟨s, met, leads⟩)
    rw [List.count_singleton_self]
    omega
  · have ne : p ≠ s := by
      rintro rfl
      exact (List.nodup_cons.1 way.nodup).1 before
    have twice := two_le_count_flatMap met (way.met p (List.mem_cons_of_mem _ before)) ne leads
      leads'
    omega

theorem Surveyed.extend (surveyed : Surveyed g P root t) {chain tagged tagged' : List StructId}
    {s u : StructId} (way : Way g root t chain s tagged) (more : tagged ⊆ tagged')
    (self : s ∈ t.shared → s ∈ tagged') (leads : u ∈ g.targets s) (untagged : u ∉ tagged') :
    Way g root t (s :: chain) u tagged' := by
  have all : ∀ p ∈ s :: chain, p ∈ t.shared → p ∈ tagged' := by
    intro p mem shared
    rcases List.mem_cons.1 mem with rfl | mem
    · exact self shared
    · exact more (way.tagged p mem shared)
  have fresh : u ∉ s :: chain := fun again =>
    untagged (all u again (surveyed.shared_of_mem way leads again))
  refine ⟨List.nodup_cons.2 ⟨fresh, way.nodup⟩, fun p mem => ?_, all, fun p mem => ?_⟩
  · rcases List.mem_cons.1 mem with rfl | mem
    · exact surveyed.target_met (way.met s List.mem_cons_self) leads
    · exact way.met p mem
  · rcases List.mem_cons.1 mem with rfl | mem
    · exact .inr ⟨s, List.mem_cons_self, leads⟩
    · exact (way.entered p mem).imp_right fun ⟨q, before, leads'⟩ =>
        ⟨q, List.mem_cons_of_mem _ before, leads'⟩

def DescribeEnds (g : Graph) (root : StructId) (t : Tally) (fuel : Nat)
    (describeStruct : StructId → List StructId → Option (Description Nat × List StructId)) :
    Prop :=
  ∀ chain s tagged, Way g root t chain s tagged → g.structCount + 1 ≤ fuel + chain.length →
    ∃ d tagged', describeStruct s tagged = some (d, tagged') ∧ tagged ⊆ tagged'

theorem describeFeatures_ends (surveyed : Surveyed g P root t) {fuel : Nat}
    {describeStruct : StructId → List StructId → Option (Description Nat × List StructId)}
    (ends : DescribeEnds g root t fuel describeStruct) {chain : List StructId} {s : StructId}
    (enough : g.structCount + 1 ≤ fuel + (s :: chain).length) {tagged : List StructId}
    (way : Way g root t chain s tagged) {entries : List (String × Value)}
    (inside : ∀ e ∈ entries, P e.2) (leads : ∀ u ∈ g.structsOf (entries.map Prod.snd),
      u ∈ g.targets s) {tagged₁ : List StructId} (more : tagged ⊆ tagged₁)
    (self : s ∈ t.shared → s ∈ tagged₁) :
    ∃ d tagged', g.describeFeatures describeStruct entries tagged₁ = some (d, tagged') ∧
      tagged₁ ⊆ tagged' := by
  induction entries generalizing tagged₁ with
  | nil => exact ⟨.nil, tagged₁, rfl, List.Subset.refl _⟩
  | cons e rest ih =>
    obtain ⟨name, v⟩ := e
    obtain ⟨w, reads, hw⟩ := surveyed.legible.deref (inside _ List.mem_cons_self)
    have insideRest : ∀ e ∈ rest, P e.2 := fun e mem => inside e (List.mem_cons_of_mem _ mem)
    have leadsRest : ∀ u ∈ g.structsOf (rest.map Prod.snd), u ∈ g.targets s := by
      intro u mem
      refine leads u ?_
      rw [structsOf, List.map_cons, List.filterMap_cons]
      split
      · exact mem
      · exact List.mem_cons_of_mem _ mem
    cases w with
    | atom a =>
      obtain ⟨d, tagged', described, more'⟩ := ih insideRest leadsRest more self
      exact ⟨.assign name none (.atom a) d, tagged', by simp [describeFeatures, reads, described],
        more'⟩
    | var x =>
      obtain ⟨called, named⟩ := surveyed.legible.var hw
      obtain ⟨d, tagged', described, more'⟩ := ih insideRest leadsRest more self
      exact ⟨.assign name none (.var called) d, tagged',
        by simp [describeFeatures, reads, named, described], more'⟩
    | struct u =>
      by_cases known : u ∈ tagged₁
      · obtain ⟨d, tagged', described, more'⟩ := ih insideRest leadsRest more self
        exact ⟨.refer name (tagged₁.idxOf u + 1) d, tagged',
          by simp [describeFeatures, reads, known, described], more'⟩
      · have target : u ∈ g.targets s := by
          refine leads u ?_
          simp [structsOf, reads, Value.struct?]
        obtain ⟨child, tagged₂, described, more₂⟩ :=
          ends (s :: chain) u tagged₁ (surveyed.extend way more self target known) enough
        obtain ⟨d, tagged', described', more'⟩ :=
          ih insideRest leadsRest (List.Subset.trans more more₂) fun shared => more₂ (self shared)
        exact ⟨.assign name none child d, tagged',
          by simp [describeFeatures, reads, known, described, described'],
          List.Subset.trans more₂ more'⟩

theorem describeStruct_ends (surveyed : Surveyed g P root t) (fuel : Nat) :
    DescribeEnds g root t fuel (g.describeStruct t.shared fuel) := by
  induction fuel with
  | zero =>
    intro chain s tagged way enough
    have bound := length_le_structCount way.nodup fun u mem =>
      (surveyed.legible.struct (surveyed.inside u (way.met u mem))).imp fun _ h => h.1
    rw [List.length_cons] at bound
    omega
  | succ fuel ih =>
    intro chain s tagged way enough
    obtain ⟨m, found, inside⟩ :=
      surveyed.legible.struct (surveyed.inside s (way.met s List.mem_cons_self))
    have enough' : g.structCount + 1 ≤ fuel + (s :: chain).length := by
      rw [List.length_cons]
      omega
    have insideEntries : ∀ e ∈ m.entries, P e.2 := fun e mem =>
      inside e.1 e.2 (m.get?_eq_some_iff.2 mem)
    have leads : ∀ u ∈ g.structsOf (m.entries.map Prod.snd), u ∈ g.targets s := by
      intro u mem
      rw [targets_eq found]
      exact mem
    by_cases shared : s ∈ t.shared
    · obtain ⟨d, tagged', described, more⟩ := describeFeatures_ends surveyed ih enough' way
        insideEntries leads (show tagged ⊆ tagged ++ [s] from List.subset_append_left _ _)
        (fun _ => by simp)
      exact ⟨.struct (some (tagged.length + 1)) d, tagged',
        by simp [describeStruct, found, shared, described],
        List.Subset.trans (List.subset_append_left _ _) more⟩
    · obtain ⟨d, tagged', described, more⟩ := describeFeatures_ends surveyed ih enough' way
        insideEntries leads (List.Subset.refl tagged) (fun h => absurd h shared)
      exact ⟨.struct none d, tagged', by simp [describeStruct, found, shared, described], more⟩

/-- The description of a legible value ends. -/
theorem Legible.exists_description (legible : g.Legible P) {v : Value} (hv : P v) :
    ∃ d, g.describe? v = some d := by
  obtain ⟨w, reads, hw⟩ := legible.deref hv
  cases w with
  | atom a => exact ⟨.atom a, by simp [describe?, reads]⟩
  | var x =>
    obtain ⟨called, named⟩ := legible.var hw
    exact ⟨.var called, by simp [describe?, reads, named]⟩
  | struct root =>
    obtain ⟨t, tallied, -, inside, counts⟩ := tally_root legible hw
    have surveyed : Surveyed g P root t := ⟨legible, inside, counts⟩
    have met : root ∈ t.met := by
      rw [counts.met root, List.count_singleton_self]
      omega
    have way : Way g root t [] root [] := ⟨by simp, by simpa using met, by simp, by simp⟩
    obtain ⟨d, tagged, described, -⟩ :=
      describeStruct_ends surveyed (g.structCount + 1) [] root [] way (by simp)
    exact ⟨d, by simp [describe?, reads, shared?, tallied, described]⟩

theorem Legible.exists_text (legible : g.Legible P) {v : Value} (hv : P v) :
    ∃ text, g.text? v = some text := by
  obtain ⟨d, described⟩ := legible.exists_description hv
  exact ⟨_, by rw [text?, described]; rfl⟩

end FeatureLogic.Graph
