import FeatureLogic.Graph.Reachability
import FeatureLogic.Graph.Text
import FeatureLogic.Proofs.Description.Written
import FeatureLogic.Proofs.Graph.Tally

/-!
# Descriptions depict values

A description depicts a value if it mentions every structure below the value once as a whole, and
later on only by a tag that was introduced with it. The tags are numbered in the order in which
they are introduced. The description that is made of a value depicts it: what it finds tagged are
the structures that the count before has met twice, of those that were described before.
-/

namespace FeatureLogic

open FeatureLogic.Graph

/-- The structures described so far, in the order in which their descriptions start, and those of
them that have a tag, in the order of their tags. -/
structure Listing where
  met : List StructId := []
  tagged : List StructId := []

def Listing.enter (l : Listing) (s : StructId) : Option Nat → Listing
  | none => { l with met := l.met ++ [s] }
  | some _ => ⟨l.met ++ [s], l.tagged ++ [s]⟩

@[simp] theorem Listing.met_enter (l : Listing) (s : StructId) (tag : Option Nat) :
    (l.enter s tag).met = l.met ++ [s] := by cases tag <;> rfl

@[simp] theorem Listing.tagged_enter_none (l : Listing) (s : StructId) :
    (l.enter s none).tagged = l.tagged := rfl

@[simp] theorem Listing.tagged_enter_some (l : Listing) (s : StructId) (id : Nat) :
    (l.enter s (some id)).tagged = l.tagged ++ [s] := rfl

mutual

/-- Does a description depict a dereferenced value, when the structures of the first list were
described before, and those of the second have been described then? -/
def Description.Depicts (g : Graph) : Description Nat → Value → Listing → Listing → Prop
  | .atom a, v, l, l' => v = .atom a ∧ l' = l
  | .var name, v, l, l' => ∃ x, v = .var x ∧ g.name? x = some name ∧ l' = l
  | .struct tag features, v, l, l' => ∃ s m, v = .struct s ∧ g.features? s = some m ∧
      s ∉ l.met ∧ (∀ id ∈ tag, id = l.tagged.length + 1) ∧
      features.Depicts g m.entries (l.enter s tag) l'

def Features.Depicts (g : Graph) :
    Features Nat → List (String × Value) → Listing → Listing → Prop
  | .nil, entries, l, l' => entries = [] ∧ l' = l
  | .assign name tag d rest, entries, l, l' => ∃ v others w l₁, entries = (name, v) :: others ∧
      g.deref? v = some w ∧ tag = none ∧ d.Depicts g w l l₁ ∧ rest.Depicts g others l₁ l'
  | .refer name id rest, entries, l, l' => ∃ v others s, entries = (name, v) :: others ∧
      g.deref? v = some (.struct s) ∧ s ∈ l.tagged ∧ id = l.tagged.idxOf s + 1 ∧
      rest.Depicts g others l l'

end

namespace Graph

variable {g : Graph} {shared tagged' : List StructId} {t t' : Tally} {fuel : Nat}

theorem tallyStruct_of_met {s : StructId} (met : s ∈ t.met)
    (tallied : g.tallyStruct fuel s t = some t') : t' = { t with shared := s :: t.shared } := by
  cases fuel with
  | zero => cases tallied
  | succ fuel =>
    rw [tallyStruct, if_pos met, Option.some.injEq] at tallied
    exact tallied.symm

theorem tallyValues_struct {tallyStruct : StructId → Tally → Option Tally} {v : Value}
    {s : StructId} (reads : g.deref? v = some (.struct s)) {rest : List Value}
    (tallied : g.tallyValues tallyStruct (v :: rest) t = some t') :
    ∃ t₁, tallyStruct s t = some t₁ ∧ g.tallyValues tallyStruct rest t₁ = some t' := by
  simp only [tallyValues, reads] at tallied
  cases entered : tallyStruct s t with
  | none => simp [entered] at tallied
  | some t₁ => exact ⟨t₁, rfl, by simpa [entered] using tallied⟩

theorem shared_subset_tallyValues {tallyStruct : StructId → Tally → Option Tally}
    (step : ∀ {s t t'}, tallyStruct s t = some t' → t.shared ⊆ t'.shared) {values : List Value}
    (tallied : g.tallyValues tallyStruct values t = some t') : t.shared ⊆ t'.shared := by
  fun_induction tallyValues g tallyStruct values t with
  | case1 t => cases tallied; exact List.Subset.refl _
  | case2 => cases tallied
  | case3 => cases tallied
  | case4 _ _ _ _ _ _ entered ih => exact List.Subset.trans (step entered) (ih tallied)
  | case5 _ _ _ _ _ _ ih => exact ih tallied

theorem shared_subset_tallyStruct {s : StructId} (tallied : g.tallyStruct fuel s t = some t') :
    t.shared ⊆ t'.shared := by
  induction fuel generalizing s t t' with
  | zero => cases tallied
  | succ fuel ih =>
    rw [tallyStruct] at tallied
    split at tallied
    · cases tallied
      exact List.subset_cons_self _ _
    · split at tallied
      · cases tallied
      · exact shared_subset_tallyValues (t := { t with met := s :: t.met }) ih tallied

/-- Does the listing agree with the count at the same place, when `shared` are the structures that
will have been met twice in the end? -/
structure Agrees (shared : List StructId) (l : Listing) (t : Tally) : Prop where
  met : ∀ s, s ∈ l.met ↔ s ∈ t.met
  tagged : ∀ s, s ∈ l.tagged ↔ s ∈ l.met ∧ s ∈ shared

theorem Agrees.enter {l : Listing} (agrees : Agrees shared l t) (s : StructId) {tag : Option Nat}
    (tags : tag.isSome ↔ s ∈ shared) :
    Agrees shared (l.enter s tag) { t with met := s :: t.met } := by
  cases tag with
  | none =>
    have unshared : s ∉ shared := fun mem => by simpa using tags.2 mem
    refine ⟨fun u => by simp [agrees.met, or_comm], fun u => ?_⟩
    by_cases eq : u = s
    · simp [agrees.tagged, eq, unshared]
    · simp [agrees.tagged, eq]
  | some id =>
    have mem : s ∈ shared := tags.1 rfl
    refine ⟨fun u => by simp [agrees.met, or_comm], fun u => ?_⟩
    by_cases eq : u = s
    · simp [eq, mem]
    · simp [agrees.tagged, eq]

theorem describeFeatures_cons
    {describeStruct : StructId → List StructId → Option (Description Nat × List StructId)}
    {name : String} {v : Value} {rest : List (String × Value)} {tagged : List StructId}
    {features : Features Nat}
    (described : g.describeFeatures describeStruct ((name, v) :: rest) tagged =
      some (features, tagged')) :
    ∃ w tagged₁ others, g.deref? v = some w ∧
      g.describeFeatures describeStruct rest tagged₁ = some (others, tagged') ∧
      ((∃ a, w = .atom a ∧ tagged₁ = tagged ∧ features = .assign name none (.atom a) others) ∨
        (∃ x called, w = .var x ∧ g.name? x = some called ∧ tagged₁ = tagged ∧
          features = .assign name none (.var called) others) ∨
        (∃ s, w = .struct s ∧ s ∈ tagged ∧ tagged₁ = tagged ∧
          features = .refer name (tagged.idxOf s + 1) others) ∨
        ∃ s child, w = .struct s ∧ s ∉ tagged ∧ describeStruct s tagged = some (child, tagged₁) ∧
          features = .assign name none child others) := by
  cases reads : g.deref? v with
  | none => simp [describeFeatures, reads] at described
  | some w =>
    cases w with
    | atom a =>
      simp only [describeFeatures, reads, Option.bind_eq_bind, Option.bind_some,
        Option.bind_eq_some_iff, Option.pure_def, Option.some.injEq, Prod.mk.injEq,
        Prod.exists] at described
      obtain ⟨others, _, describedRest, rfl, rfl⟩ := described
      exact ⟨_, _, others, rfl, describedRest, .inl ⟨a, rfl, rfl, rfl⟩⟩
    | var x =>
      simp only [describeFeatures, reads, Option.bind_eq_bind, Option.bind_some,
        Option.bind_eq_some_iff, Option.pure_def, Option.some.injEq, Prod.mk.injEq,
        Prod.exists] at described
      obtain ⟨called, named, others, _, describedRest, rfl, rfl⟩ := described
      exact ⟨_, _, others, rfl, describedRest, .inr (.inl ⟨x, called, rfl, named, rfl, rfl⟩)⟩
    | struct s =>
      by_cases known : s ∈ tagged
      · simp only [describeFeatures, reads, known, if_true, Option.bind_eq_bind, Option.bind_some,
          Option.bind_eq_some_iff, Option.pure_def, Option.some.injEq, Prod.mk.injEq,
          Prod.exists] at described
        obtain ⟨others, _, describedRest, rfl, rfl⟩ := described
        exact ⟨_, _, others, rfl, describedRest, .inr (.inr (.inl ⟨s, rfl, known, rfl, rfl⟩))⟩
      · simp only [describeFeatures, reads, known, if_false, Option.bind_eq_bind,
          Option.bind_some, Option.bind_eq_some_iff, Option.pure_def, Option.some.injEq,
          Prod.mk.injEq, Prod.exists] at described
        obtain ⟨child, _, describedChild, others, _, describedRest, rfl, rfl⟩ := described
        exact ⟨_, _, others, rfl, describedRest,
          .inr (.inr (.inr ⟨s, child, rfl, known, describedChild, rfl⟩))⟩

theorem describeStruct_succ {s : StructId} {l : Listing} {d : Description Nat}
    (described : g.describeStruct shared (fuel + 1) s l.tagged = some (d, tagged')) :
    ∃ m features tag, g.features? s = some m ∧ (tag.isSome ↔ s ∈ shared) ∧
      (∀ id ∈ tag, id = l.tagged.length + 1) ∧ d = .struct tag features ∧
      g.describeFeatures (g.describeStruct shared fuel) m.entries (l.enter s tag).tagged =
        some (features, tagged') := by
  cases found : g.features? s with
  | none => simp [describeStruct, found] at described
  | some m =>
    by_cases mem : s ∈ shared
    · simp only [describeStruct, found, mem, if_true, Option.bind_eq_bind, Option.bind_some,
        Option.bind_eq_some_iff, Option.pure_def, Option.some.injEq, Prod.mk.injEq,
        Prod.exists] at described
      obtain ⟨features, _, describedFeatures, rfl, rfl⟩ := described
      exact ⟨m, features, some (l.tagged.length + 1), rfl, by simpa using mem, by simp, rfl,
        describedFeatures⟩
    · simp only [describeStruct, found, mem, if_false, Option.bind_eq_bind, Option.bind_some,
        Option.bind_eq_some_iff, Option.pure_def, Option.some.injEq, Prod.mk.injEq,
        Prod.exists] at described
      obtain ⟨features, _, describedFeatures, rfl, rfl⟩ := described
      exact ⟨m, features, none, rfl, by simpa using mem, by simp, rfl, describedFeatures⟩

def DescribeDepicts (g : Graph) (shared : List StructId) (fuel : Nat) : Prop :=
  ∀ {s t t' l d tagged'}, g.tallyStruct fuel s t = some t' → t'.shared ⊆ shared →
    Agrees shared l t → s ∉ l.met → g.describeStruct shared fuel s l.tagged = some (d, tagged') →
    ∃ l', l'.tagged = tagged' ∧ Agrees shared l' t' ∧ d.Depicts g (.struct s) l l'

theorem describeFeatures_depicts (depicts : DescribeDepicts g shared fuel)
    {entries : List (String × Value)} {l : Listing} {features : Features Nat}
    (tallied : g.tallyValues (g.tallyStruct fuel) (entries.map Prod.snd) t = some t')
    (more : t'.shared ⊆ shared) (agrees : Agrees shared l t)
    (described : g.describeFeatures (g.describeStruct shared fuel) entries l.tagged =
      some (features, tagged')) :
    ∃ l', l'.tagged = tagged' ∧ Agrees shared l' t' ∧ features.Depicts g entries l l' := by
  induction entries generalizing t l features with
  | nil =>
    cases tallied
    cases described
    exact ⟨l, rfl, agrees, rfl, rfl⟩
  | cons e rest ih =>
    obtain ⟨name, v⟩ := e
    obtain ⟨w, _, others, reads, describedRest, how⟩ := describeFeatures_cons described
    rcases how with ⟨a, rfl, rfl, rfl⟩ | ⟨x, called, rfl, named, rfl, rfl⟩ | ⟨s, rfl, how⟩ |
      ⟨s, child, rfl, unknown, describedChild, rfl⟩
    · simp only [List.map_cons, tallyValues, reads] at tallied
      obtain ⟨l', last, agrees', depicted⟩ := ih tallied agrees describedRest
      exact ⟨l', last, agrees', v, rest, .atom a, l, rfl, reads, rfl, ⟨rfl, rfl⟩, depicted⟩
    · simp only [List.map_cons, tallyValues, reads] at tallied
      obtain ⟨l', last, agrees', depicted⟩ := ih tallied agrees describedRest
      exact ⟨l', last, agrees', v, rest, .var x, l, rfl, reads, rfl, ⟨x, rfl, named, rfl⟩,
        depicted⟩
    · obtain ⟨known, rfl, rfl⟩ := how
      obtain ⟨t₁, entered, talliedRest⟩ := tallyValues_struct reads tallied
      have met : s ∈ t.met := (agrees.met s).1 ((agrees.tagged s).1 known).1
      have same : Agrees shared l t₁ := by
        rw [tallyStruct_of_met met entered]
        exact ⟨agrees.met, agrees.tagged⟩
      obtain ⟨l', last, agrees', depicted⟩ := ih talliedRest same describedRest
      exact ⟨l', last, agrees', v, rest, s, rfl, reads, known, rfl, depicted⟩
    · obtain ⟨t₁, entered, talliedRest⟩ := tallyValues_struct reads tallied
      have more₁ : t₁.shared ⊆ shared :=
        List.Subset.trans (shared_subset_tallyValues shared_subset_tallyStruct talliedRest) more
      -- A structure met before would be shared, and then it would have a tag.
      have unmet : s ∉ l.met := by
        intro met
        rw [tallyStruct_of_met ((agrees.met s).1 met) entered] at more₁
        exact unknown ((agrees.tagged s).2 ⟨met, more₁ List.mem_cons_self⟩)
      obtain ⟨l₁, rfl, agrees₁, depictedChild⟩ :=
        depicts entered more₁ agrees unmet describedChild
      obtain ⟨l', last, agrees', depicted⟩ := ih talliedRest agrees₁ describedRest
      exact ⟨l', last, agrees', v, rest, .struct s, l₁, rfl, reads, rfl, depictedChild, depicted⟩

theorem describeStruct_depicts (fuel : Nat) : DescribeDepicts g shared fuel := by
  induction fuel with
  | zero =>
    intro s t t' l d tagged' tallied
    cases tallied
  | succ fuel ih =>
    intro s t t' l d tagged' tallied more agrees unmet described
    obtain ⟨m, features, tag, found, tags, numbered, rfl, describedFeatures⟩ :=
      describeStruct_succ described
    rw [tallyStruct, if_neg fun met => unmet ((agrees.met s).2 met)] at tallied
    simp only [found] at tallied
    obtain ⟨l', last, agrees', depicted⟩ :=
      describeFeatures_depicts ih tallied more (agrees.enter s tags) describedFeatures
    exact ⟨l', last, agrees', s, m, rfl, found, unmet, numbered, depicted⟩

/-- The description of a value depicts it. -/
theorem describe?_depicts {v : Value} {d : Description Nat} (described : g.describe? v = some d) :
    ∃ w l, g.deref? v = some w ∧ d.Depicts g w {} l := by
  simp only [describe?, Option.bind_eq_bind, Option.bind_eq_some_iff] at described
  obtain ⟨w, reads, described⟩ := described
  refine ⟨w, ?_⟩
  cases w with
  | atom a =>
    cases described
    exact ⟨{}, reads, rfl, rfl⟩
  | var x =>
    simp only [Option.bind_eq_some_iff, Option.pure_def, Option.some.injEq] at described
    obtain ⟨called, named, rfl⟩ := described
    exact ⟨{}, reads, x, rfl, named, rfl⟩
  | struct s =>
    simp only [shared?, Option.bind_eq_some_iff, Option.map_eq_some_iff, Option.pure_def,
      Option.some.injEq, Prod.exists, exists_exists_and_eq_and] at described
    obtain ⟨t, tallied, _, tagged, describedStruct, rfl⟩ := described
    obtain ⟨l, -, -, depicted⟩ := describeStruct_depicts (g.structCount + 1) tallied
      (List.Subset.refl _) (l := {}) ⟨by simp, by simp⟩ (by simp) describedStruct
    exact ⟨l, reads, depicted⟩

structure Spelled (P Q : String → Prop) (g : Graph) (v : Value) : Prop where
  feature : ∀ {path s m name child}, g.Leads v path (.struct s) → g.features? s = some m →
    m.get? name = some child → P name
  called : ∀ {path x name}, g.Leads v path (.var x) → g.name? x = some name → Q name

section Spelled

variable {P Q : String → Prop}

theorem Spelled.child {v child : Value} {s : StructId} {m : NameMap Value} {name : String}
    (names : g.Spelled P Q v) (reads : g.deref? v = some (.struct s))
    (found : g.features? s = some m) (held : m.get? name = some child) :
    g.Spelled P Q child where
  feature leads := names.feature (leads_cons.2 ⟨s, m, child, reads, found, held, leads⟩)
  called leads := names.called (leads_cons.2 ⟨s, m, child, reads, found, held, leads⟩)

theorem spelled_of_stored (names : ∀ node ∈ g.structs, ∀ e ∈ node.features.entries, P e.1)
    (called : ∀ node ∈ g.vars, Q node.name) (v : Value) : g.Spelled P Q v where
  feature {path s m name child} _ found held := by
    obtain ⟨node, stored, rfl⟩ := Option.map_eq_some_iff.1 found
    exact names node (Array.mem_of_getElem? stored) _ (node.features.get?_eq_some_iff.1 held)
  called {path x name} _ named := by
    obtain ⟨node, stored, rfl⟩ := Option.map_eq_some_iff.1 named
    exact called node (Array.mem_of_getElem? stored)

end Spelled

structure Writable (g : Graph) (v : Value) : Prop where
  feature : ∀ {path s m name child}, g.Leads v path (.struct s) → g.features? s = some m →
    m.get? name = some child → Grammar.IsName name
  called : ∀ {path x name}, g.Leads v path (.var x) → g.name? x = some name →
    Grammar.IsIdentifier name

theorem Writable.spelled {v : Value} (writable : g.Writable v) :
    g.Spelled Grammar.IsName Grammar.IsIdentifier v := ⟨writable.feature, writable.called⟩

theorem writable_of_stored
    (names : ∀ node ∈ g.structs, ∀ e ∈ node.features.entries, Grammar.IsName e.1)
    (called : ∀ node ∈ g.vars, Grammar.IsIdentifier node.name) (v : Value) : g.Writable v :=
  have all := spelled_of_stored names called v
  ⟨all.feature, all.called⟩

end Graph

section Names

variable {g : Graph} {P Q : String → Prop}

mutual

/-- A description that depicts a value has the names that are found below the value. -/
theorem Description.spelled_of_depicts {d : Description Nat} {v w : Value} {l l' : Listing}
    (names : g.Spelled P Q v) (reads : g.deref? v = some w) (depicts : d.Depicts g w l l') :
    d.Spelled P Q := by
  match d with
  | .atom a => trivial
  | .var name =>
    obtain ⟨x, rfl, named, -⟩ := depicts
    exact names.called (leads_nil.2 reads) named
  | .struct tag features =>
    obtain ⟨s, m, rfl, found, -, -, depicted⟩ := depicts
    refine features.spelled_of_depicts (fun e mem => ?_) depicted
    have held := m.get?_eq_some_iff.2 mem
    exact ⟨names.feature (leads_nil.2 reads) found held, names.child reads found held⟩

theorem Features.spelled_of_depicts {features : Features Nat} {entries : List (String × Value)}
    {l l' : Listing} (each : ∀ e ∈ entries, P e.1 ∧ g.Spelled P Q e.2)
    (depicts : features.Depicts g entries l l') : features.Spelled P Q := by
  match features with
  | .nil => trivial
  | .assign name tag d rest =>
    obtain ⟨v, others, w, l₁, rfl, reads, -, depicted, depictedRest⟩ := depicts
    obtain ⟨⟨named, names⟩, eachRest⟩ := List.forall_mem_cons.1 each
    exact ⟨named, d.spelled_of_depicts names reads depicted,
      rest.spelled_of_depicts eachRest depictedRest⟩
  | .refer name id rest =>
    obtain ⟨v, others, s, rfl, -, -, -, depictedRest⟩ := depicts
    obtain ⟨⟨named, -⟩, eachRest⟩ := List.forall_mem_cons.1 each
    exact ⟨named, rest.spelled_of_depicts eachRest depictedRest⟩

end

end Names

end FeatureLogic
