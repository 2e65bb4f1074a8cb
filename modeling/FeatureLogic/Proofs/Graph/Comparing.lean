import FeatureLogic.Graph.Comparison
import FeatureLogic.Graph.Correspondence
import FeatureLogic.Proofs.Join.Entirety
import Mathlib.Data.Finset.Prod

/-!
# Comparing values decides correspondence

The comparison of two values of a well-formed graph ends. When it accepts, the pairs of structures
that it has assumed are paired rightly; when it does not, no pairing of structures relates the two
values. So the two comparisons decide whether values look alike and whether they are isomorphic.
-/

namespace FeatureLogic.Graph

variable {g : Graph} {oneToOne : Bool}

abbrev byName (g : Graph) (partners : StructId → StructId → Prop) : Pairing :=
  ⟨partners, SameName g g⟩

structure Faithful (g : Graph) (oneToOne : Bool) (partners : StructId → StructId → Prop) :
    Prop where
  single : oneToOne → Relator.BiUnique partners
  closed : (g.byName partners).Closed g g

def assumed (pairs : Assumptions) (s t : StructId) : Prop := (s, t) ∈ pairs

structure Assumed (g : Graph) (oneToOne : Bool) (pairs : Assumptions) : Prop where
  nodup : pairs.Nodup
  inside : ∀ p ∈ pairs, g.Contains (.struct p.1) ∧ g.Contains (.struct p.2)
  single : oneToOne → Relator.BiUnique (assumed pairs)

def Matches (g : Graph) (partners : StructId → StructId → Prop) (s t : StructId) : Prop :=
  ∃ m n, g.features? s = some m ∧ g.features? t = some n ∧ m.keys = n.keys ∧
    ∀ {name v w}, m.get? name = some v → n.get? name = some w →
      (g.byName partners).Pairs g g v w

structure Accepts (g : Graph) (oneToOne : Bool) (pairs pairs' : Assumptions) : Prop where
  assumed : g.Assumed oneToOne pairs'
  more : pairs ⊆ pairs'
  longer : pairs.length ≤ pairs'.length
  matched : ∀ p ∈ pairs', p ∉ pairs → g.Matches (Graph.assumed pairs') p.1 p.2

/-- Is the outcome of a comparison right? An accepted goal holds of the assumptions, and whatever
faithful pairing meets the goal and the assumptions before meets them all. The goal is not met by
any faithful pairing if it is rejected. -/
def Judges (g : Graph) (oneToOne : Bool) (Goal : (StructId → StructId → Prop) → Prop)
    (pairs : Assumptions) : Except Discrepancy Assumptions → Prop
  | .ok pairs' => g.Accepts oneToOne pairs pairs' ∧ Goal (assumed pairs') ∧
      ∀ partners, g.Faithful oneToOne partners → (∀ p ∈ pairs, partners p.1 p.2) →
        Goal partners → ∀ p ∈ pairs', partners p.1 p.2
  | .error .different =>
      ∀ partners, g.Faithful oneToOne partners → (∀ p ∈ pairs, partners p.1 p.2) → ¬ Goal partners
  | .error .dangling => False

def JudgesStructs (g : Graph) (oneToOne : Bool) (fuel : Nat)
    (compare : StructId → StructId → Assumptions → Except Discrepancy Assumptions) : Prop :=
  ∀ s t pairs, g.Contains (.struct s) → g.Contains (.struct t) → g.Assumed oneToOne pairs →
    g.structCount * g.structCount + 1 ≤ fuel + pairs.length →
    g.Judges oneToOne (fun partners => partners s t) pairs (compare s t pairs)

theorem Pairing.Pairs.mono {partners partners' : StructId → StructId → Prop}
    (more : ∀ {s t}, partners s t → partners' s t) {v w : Value}
    (pairs : (g.byName partners).Pairs g g v w) : (g.byName partners').Pairs g g v w := by
  obtain ⟨v', w', hv, hw, related⟩ := pairs
  refine ⟨v', w', hv, hw, ?_⟩
  cases v' <;> cases w' <;> first | exact related.elim | exact related | exact more related

theorem Matches.mono {partners partners' : StructId → StructId → Prop}
    (more : ∀ {s t}, partners s t → partners' s t) {s t : StructId}
    (matched : g.Matches partners s t) : g.Matches partners' s t := by
  obtain ⟨m, n, hm, hn, keys, pairs⟩ := matched
  exact ⟨m, n, hm, hn, keys, fun hv hw => Pairing.Pairs.mono more (pairs hv hw)⟩

theorem Assumed.length_le {pairs : Assumptions} (assumed : g.Assumed oneToOne pairs) :
    pairs.length ≤ g.structCount * g.structCount := by
  have indices : (pairs.map fun p => (p.1.index, p.2.index)).Nodup :=
    assumed.nodup.map fun p q eq => by
      obtain ⟨⟨i⟩, ⟨j⟩⟩ := p
      obtain ⟨⟨i'⟩, ⟨j'⟩⟩ := q
      simpa using eq
  have below : (pairs.map fun p => (p.1.index, p.2.index)).toFinset ⊆
      Finset.range g.structCount ×ˢ Finset.range g.structCount := by
    intro q mem
    obtain ⟨p, listed, rfl⟩ := List.mem_map.1 (List.mem_toFinset.1 mem)
    obtain ⟨left, right⟩ := assumed.inside p listed
    exact Finset.mem_product.2 ⟨Finset.mem_range.2 left, Finset.mem_range.2 right⟩
  have card := Finset.card_le_card below
  rwa [List.toFinset_card_of_nodup indices, List.length_map, Finset.card_product,
    Finset.card_range] at card

theorem Accepts.refl {pairs : Assumptions} (assumed : g.Assumed oneToOne pairs) :
    g.Accepts oneToOne pairs pairs :=
  ⟨assumed, List.Subset.refl _, Nat.le_refl _, fun _ mem fresh => absurd mem fresh⟩

theorem Accepts.trans {pairs pairs₁ pairs' : Assumptions} (first : g.Accepts oneToOne pairs pairs₁)
    (second : g.Accepts oneToOne pairs₁ pairs') : g.Accepts oneToOne pairs pairs' where
  assumed := second.assumed
  more := List.Subset.trans first.more second.more
  longer := first.longer.trans second.longer
  matched p mem fresh := by
    by_cases before : p ∈ pairs₁
    · exact (first.matched p before fresh).mono fun listed => second.more listed
    · exact second.matched p mem before

theorem Judges.andThen {Goal Goal' : (StructId → StructId → Prop) → Prop} {pairs : Assumptions}
    {first : Except Discrepancy Assumptions}
    {next : Assumptions → Except Discrepancy Assumptions}
    (mono : ∀ {partners partners' : StructId → StructId → Prop},
      (∀ {s t}, partners s t → partners' s t) → Goal partners → Goal partners')
    (goesOn : ∀ pairs', g.Accepts oneToOne pairs pairs' →
      g.Judges oneToOne Goal' pairs' (next pairs')) :
    g.Judges oneToOne Goal pairs first →
      g.Judges oneToOne (fun partners => Goal partners ∧ Goal' partners) pairs
        (match first with
        | .error e => .error e
        | .ok pairs => next pairs) := by
  intro judges
  cases first with
  | error e =>
    cases e with
    | dangling => exact judges.elim
    | different => exact fun partners faithful all goals => judges partners faithful all goals.1
  | ok pairs₁ =>
    obtain ⟨accepts, goal, implies⟩ := judges
    have rest := goesOn pairs₁ accepts
    dsimp only
    cases compared : next pairs₁ with
    | error e =>
      rw [compared] at rest
      cases e with
      | dangling => exact rest.elim
      | different =>
        exact fun partners faithful all goals =>
          rest partners faithful (implies partners faithful all goals.1) goals.2
    | ok pairs' =>
      rw [compared] at rest
      obtain ⟨accepts', goal', implies'⟩ := rest
      exact ⟨accepts.trans accepts', ⟨mono (fun listed => accepts'.more listed) goal, goal'⟩,
        fun partners faithful all goals =>
          implies' partners faithful (implies partners faithful all goals.1) goals.2⟩

theorem judges_compareValues (wf : g.WellFormed) {fuel : Nat}
    {compare : StructId → StructId → Assumptions → Except Discrepancy Assumptions}
    (judges : g.JudgesStructs oneToOne fuel compare) {v w : Value} (hv : g.Contains v)
    (hw : g.Contains w) {pairs : Assumptions} (assumed : g.Assumed oneToOne pairs)
    (enough : g.structCount * g.structCount + 1 ≤ fuel + pairs.length) :
    g.Judges oneToOne (fun partners => (g.byName partners).Pairs g g v w) pairs
      (g.compareValues compare v w pairs) := by
  obtain ⟨v', readsV, insideV⟩ := wf.exists_deref hv
  obtain ⟨w', readsW, insideW⟩ := wf.exists_deref hw
  have pairs_iff (partners : StructId → StructId → Prop) :
      (g.byName partners).Pairs g g v w ↔ (g.byName partners).Relates v' w' := by
    constructor
    · rintro ⟨v'', w'', reads, reads', related⟩
      cases reads.symm.trans readsV
      cases reads'.symm.trans readsW
      exact related
    · exact fun related => ⟨v', w', readsV, readsW, related⟩
  simp only [pairs_iff]
  have accept (related : ∀ partners, (g.byName partners).Relates v' w') :
      g.Judges oneToOne (fun partners => (g.byName partners).Relates v' w') pairs (.ok pairs) :=
    ⟨.refl assumed, related _, fun _ _ all _ => all⟩
  have reject (unrelated : ∀ partners, ¬ (g.byName partners).Relates v' w') :
      g.Judges oneToOne (fun partners => (g.byName partners).Relates v' w') pairs
        (.error .different) :=
    fun partners _ _ => unrelated partners
  unfold compareValues
  rw [readsV, readsW]
  cases v' with
  | atom a =>
    cases w' with
    | atom b =>
      dsimp only
      split
      · next same => exact accept fun _ => same
      · next other => exact reject fun _ => other
    | struct t => exact reject fun _ => id
    | var y => exact reject fun _ => id
  | struct s =>
    cases w' with
    | atom b => exact reject fun _ => id
    | struct t => exact judges s t pairs insideV insideW assumed enough
    | var y => exact reject fun _ => id
  | var x =>
    cases w' with
    | atom b => exact reject fun _ => id
    | struct t => exact reject fun _ => id
    | var y =>
      obtain ⟨node, found⟩ := exists_var_of_contains insideV
      obtain ⟨node', found'⟩ := exists_var_of_contains insideW
      have called : g.name? x = some node.name := by simp [name?, found]
      have called' : g.name? y = some node'.name := by simp [name?, found']
      dsimp only
      split
      · next same =>
        cases same
        exact accept fun _ => ⟨_, called, called⟩
      · rw [called, called']
        dsimp only
        split
        · next same => exact accept fun _ => ⟨_, called, same ▸ called'⟩
        · next other =>
          refine reject fun _ => ?_
          rintro ⟨name, hx, hy⟩
          exact other (Option.some.inj (called.symm.trans (hx.trans (hy.symm.trans called'))))

theorem judges_compareFeatures (wf : g.WellFormed) {fuel : Nat}
    {compare : StructId → StructId → Assumptions → Except Discrepancy Assumptions}
    (judges : g.JudgesStructs oneToOne fuel compare) {theirs : NameMap Value}
    (insideTheirs : ∀ name v, theirs.get? name = some v → g.Contains v)
    {entries : List (String × Value)} (inside : ∀ e ∈ entries, g.Contains e.2)
    {pairs : Assumptions} (assumed : g.Assumed oneToOne pairs)
    (enough : g.structCount * g.structCount + 1 ≤ fuel + pairs.length) :
    g.Judges oneToOne (fun partners => ∀ e ∈ entries, ∃ w, theirs.get? e.1 = some w ∧
        (g.byName partners).Pairs g g e.2 w) pairs
      (g.compareFeatures compare theirs entries pairs) := by
  induction entries generalizing pairs with
  | nil => exact ⟨.refl assumed, by simp, fun _ _ all _ => all⟩
  | cons e rest ih =>
    obtain ⟨name, v⟩ := e
    simp only [List.forall_mem_cons]
    cases found : theirs.get? name with
    | none =>
      simp only [compareFeatures, found]
      rintro partners - - ⟨⟨w, absent, -⟩, -⟩
      cases absent
    | some w =>
      simp only [compareFeatures, found, Option.some.injEq, exists_eq_left']
      have first := judges_compareValues wf judges (inside _ List.mem_cons_self)
        (insideTheirs name w found) assumed enough
      refine Judges.andThen ?_ (fun pairs' accepts => ?_) first
      · exact fun more paired => Pairing.Pairs.mono more paired
      · exact ih (fun e mem => inside e (List.mem_cons_of_mem _ mem)) accepts.assumed
          (enough.trans (Nat.add_le_add_left accepts.longer _))

/-- Structures with partners of their own may be paired if neither has another partner. -/
theorem Assumed.cons {pairs : Assumptions} (before : g.Assumed oneToOne pairs) {s t : StructId}
    (hs : g.Contains (.struct s)) (ht : g.Contains (.struct t)) (fresh : (s, t) ∉ pairs)
    (admitted : oneToOne → pairs.admits s t) : g.Assumed oneToOne ((s, t) :: pairs) where
  nodup := List.nodup_cons.2 ⟨fresh, before.nodup⟩
  inside := List.forall_mem_cons.2 ⟨⟨hs, ht⟩, before.inside⟩
  single single := by
    have alone {p : StructId × StructId} (mem : p ∈ pairs) : p.1 = s ↔ p.2 = t :=
      of_decide_eq_true (List.all_eq_true.1 (admitted single) p mem)
    constructor
    · intro a b c ha hb
      rcases List.mem_cons.1 ha with eq | ha <;> rcases List.mem_cons.1 hb with eq' | hb
      · cases eq
        cases eq'
        rfl
      · cases eq
        exact ((alone hb).2 rfl).symm
      · cases eq'
        exact (alone ha).2 rfl
      · exact (before.single single).1 ha hb
    · intro a b c hb hc
      rcases List.mem_cons.1 hb with eq | hb <;> rcases List.mem_cons.1 hc with eq' | hc
      · cases eq
        cases eq'
        rfl
      · cases eq
        exact ((alone hc).1 rfl).symm
      · cases eq'
        exact (alone hb).1 rfl
      · exact (before.single single).2 hb hc

theorem Faithful.admits {partners : StructId → StructId → Prop}
    (faithful : g.Faithful oneToOne partners) (single : oneToOne) {pairs : Assumptions}
    (all : ∀ p ∈ pairs, partners p.1 p.2) {s t : StructId} (paired : partners s t) :
    pairs.admits s t := by
  refine List.all_eq_true.2 fun p mem => decide_eq_true ⟨fun eq => ?_, fun eq => ?_⟩
  · exact (faithful.single single).2 (eq ▸ all p mem) paired
  · exact (faithful.single single).1 (eq ▸ all p mem) paired

/-- Two maps with equally many names are over the same names if one has those of the other. -/
theorem keys_eq_of_size_eq {m n : NameMap Value} (size : m.size = n.size)
    (present : ∀ e ∈ m.entries, ∃ w, n.get? e.1 = some w) : m.keys = n.keys := by
  have subset : m.keys ⊆ n.keys := by
    intro name mem
    obtain ⟨e, listed, rfl⟩ := List.mem_map.1 mem
    obtain ⟨w, found⟩ := present e listed
    exact n.mem_keys_iff.2 (by simp [found])
  have perm := (List.subperm_of_subset m.nodup_keys subset).perm_of_length_le
    (by simp only [NameMap.keys, List.length_map]; exact size.ge)
  exact NameMap.keys_eq_of_mem_iff fun name => perm.mem_iff

/-- Two structures match if the features of one, as many as the other has, match those of the
other. -/
theorem matches_iff {partners : StructId → StructId → Prop} {s t : StructId} {m n : NameMap Value}
    (hm : g.features? s = some m) (hn : g.features? t = some n) (size : m.size = n.size) :
    g.Matches partners s t ↔ ∀ e ∈ m.entries, ∃ w, n.get? e.1 = some w ∧
      (g.byName partners).Pairs g g e.2 w := by
  constructor
  · rintro ⟨m', n', hm', hn', keys, pairs⟩ e mem
    cases hm.symm.trans hm'
    cases hn.symm.trans hn'
    have listed : e.1 ∈ n.keys := keys ▸ List.mem_map.2 ⟨e, mem, rfl⟩
    obtain ⟨w, found⟩ := n.mem_keys_iff.1 listed
    exact ⟨w, found, pairs (m.get?_eq_some_iff.2 mem) found⟩
  · intro all
    refine ⟨m, n, hm, hn, keys_eq_of_size_eq size fun e mem => ?_, fun {name v w} hv hw => ?_⟩
    · obtain ⟨w, found, -⟩ := all e mem
      exact ⟨w, found⟩
    · obtain ⟨w', found, paired⟩ := all (name, v) (m.get?_eq_some_iff.1 hv)
      cases found.symm.trans hw
      exact paired

/-- The features of two structures were compared after the two had been entered as a pair. -/
theorem Judges.entered {pairs : Assumptions} {s t : StructId} {m n : NameMap Value}
    {result : Except Discrepancy Assumptions}
    (judges : g.Judges oneToOne (fun partners => ∀ e ∈ m.entries, ∃ w, n.get? e.1 = some w ∧
      (g.byName partners).Pairs g g e.2 w) ((s, t) :: pairs) result)
    (hm : g.features? s = some m) (hn : g.features? t = some n) (size : m.size = n.size) :
    g.Judges oneToOne (fun partners => partners s t) pairs result := by
  simp only [← matches_iff hm hn size] at judges
  have matched {partners : StructId → StructId → Prop} (faithful : g.Faithful oneToOne partners)
      (paired : partners s t) : g.Matches partners s t := faithful.closed paired
  cases result with
  | error e =>
    cases e with
    | dangling => exact judges.elim
    | different =>
      intro partners faithful all paired
      exact judges partners faithful (List.forall_mem_cons.2 ⟨paired, all⟩)
        (matched faithful paired)
  | ok pairs' =>
    obtain ⟨accepts, goal, implies⟩ := judges
    have more := List.cons_subset.1 accepts.more
    refine ⟨⟨accepts.assumed, more.2, ?_, fun p mem new => ?_⟩, more.1, ?_⟩
    · exact (Nat.le_succ _).trans accepts.longer
    · by_cases first : p = (s, t)
      · rw [first]
        exact goal
      · exact accepts.matched p mem (by simp [first, new])
    · intro partners faithful all paired
      exact implies partners faithful (List.forall_mem_cons.2 ⟨paired, all⟩)
        (matched faithful paired)

theorem judges_compareStructs (wf : g.WellFormed) (oneToOne : Bool) (fuel : Nat) :
    g.JudgesStructs oneToOne fuel (g.compareStructs oneToOne fuel) := by
  induction fuel with
  | zero =>
    intro s t pairs _ _ assumed enough
    have := assumed.length_le
    omega
  | succ fuel ih =>
    intro s t pairs hs ht assumed enough
    simp only [compareStructs]
    split
    · next refused =>
      rw [Bool.and_eq_true, Bool.not_eq_true'] at refused
      intro partners faithful all paired
      rw [faithful.admits refused.1 all paired] at refused
      cases refused.2
    · next admitted =>
      split
      · next known => exact ⟨.refl assumed, known, fun _ _ all _ => all⟩
      · next fresh =>
        obtain ⟨node, found⟩ := exists_struct_of_contains hs
        obtain ⟨node', found'⟩ := exists_struct_of_contains ht
        have read : g.features? s = some node.features := by simp [features?, found]
        have read' : g.features? t = some node'.features := by simp [features?, found']
        rw [read, read']
        dsimp only
        split
        · next size =>
          have entered : g.Assumed oneToOne ((s, t) :: pairs) :=
            assumed.cons hs ht fresh fun single => by simpa [single] using admitted
          have ours : ∀ e ∈ node.features.entries, g.Contains e.2 := fun e mem =>
            wf.feature found (node.features.get?_eq_some_iff.2 mem)
          have theirs : ∀ name v, node'.features.get? name = some v → g.Contains v :=
            fun name v holds => wf.feature found' holds
          have compared := judges_compareFeatures wf ih theirs ours entered
            (by rw [List.length_cons]; omega)
          exact compared.entered read read' size
        · next size =>
          intro partners faithful _ paired
          obtain ⟨m, n, hm, hn, keys, -⟩ := faithful.closed paired
          cases read.symm.trans hm
          cases read'.symm.trans hn
          exact size (by simpa [NameMap.keys, NameMap.size] using congrArg List.length keys)

/-- The comparison of two values ends, and decides whether a faithful pairing relates them. -/
theorem WellFormed.correspond?_iff (wf : g.WellFormed) (oneToOne : Bool) {v w : Value}
    (hv : g.Contains v) (hw : g.Contains w) :
    ∃ answer, g.correspond? oneToOne v w = some answer ∧
      (answer = true ↔ ∃ partners, g.Faithful oneToOne partners ∧
        (g.byName partners).Pairs g g v w) := by
  have start : g.Assumed oneToOne [] :=
    ⟨List.nodup_nil, by simp, fun _ => ⟨(fun _ _ _ h => by cases h), fun _ _ _ h => by cases h⟩⟩
  have judged := judges_compareValues wf
    (judges_compareStructs wf oneToOne (g.structCount * g.structCount + 1)) hv hw start
    (Nat.le_add_right _ _)
  unfold correspond?
  cases compared : g.compareValues
      (g.compareStructs oneToOne (g.structCount * g.structCount + 1)) v w [] with
  | error e =>
    rw [compared] at judged
    cases e with
    | dangling => exact judged.elim
    | different =>
      refine ⟨false, rfl, by simp, ?_⟩
      rintro ⟨partners, faithful, paired⟩
      exact (judged partners faithful (by simp) paired).elim
  | ok pairs =>
    rw [compared] at judged
    obtain ⟨accepts, paired, -⟩ := judged
    exact ⟨true, rfl, fun _ => ⟨Graph.assumed pairs, ⟨accepts.assumed.single,
      fun {s t} listed => accepts.matched (s, t) listed (by simp)⟩, paired⟩, fun _ => rfl⟩

/-- Values are isomorphic exactly if the comparison says so. -/
theorem WellFormed.isomorphic?_iff (wf : g.WellFormed) {v w : Value} (hv : g.Contains v)
    (hw : g.Contains w) : ∃ answer, g.isomorphic? v w = some answer ∧
      (answer = true ↔ g.Isomorphic v g w) := by
  obtain ⟨answer, compared, iff⟩ := wf.correspond?_iff true hv hw
  refine ⟨answer, compared, iff.trans ⟨?_, ?_⟩⟩
  · rintro ⟨partners, faithful, paired⟩
    exact ⟨partners, faithful.single rfl, faithful.closed, paired⟩
  · rintro ⟨partners, single, closed, paired⟩
    exact ⟨partners, ⟨fun _ => single, closed⟩, paired⟩

/-- Values look alike exactly if the comparison says so. -/
theorem WellFormed.equal?_iff (wf : g.WellFormed) {v w : Value} (hv : g.Contains v)
    (hw : g.Contains w) : ∃ answer, g.equal? v w = some answer ∧
      (answer = true ↔ g.Alike v g w) := by
  obtain ⟨answer, compared, iff⟩ := wf.correspond?_iff false hv hw
  refine ⟨answer, compared, iff.trans ⟨?_, ?_⟩⟩
  · rintro ⟨partners, faithful, paired⟩
    exact ⟨partners, faithful.closed, paired⟩
  · rintro ⟨partners, closed, paired⟩
    exact ⟨partners, ⟨(fun single => by cases single), closed⟩, paired⟩

end FeatureLogic.Graph
