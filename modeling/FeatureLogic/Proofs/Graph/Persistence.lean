import FeatureLogic.Graph.Comparison
import FeatureLogic.Graph.Text
import FeatureLogic.Proofs.Graph.Part

/-!
# Values that persist

A graph persists in a later one when every value of it still stands for the same node, and every
structure has features that stand for the same nodes under the same names. What is stored for a
feature or in a variable may differ. All that is read off a graph is read through dereferencing, so
that it can not tell such graphs apart.
-/

namespace FeatureLogic.Graph

def readEntries (g : Graph) (entries : List (String × Value)) : List (String × Option Value) :=
  entries.map fun e => (e.1, g.deref? e.2)

/-- Does every value of `g` stand in `h` for what it stands for in `g`? -/
structure Persists (g h : Graph) : Prop where
  structs : g.structCount ≤ h.structCount
  vars : g.varCount ≤ h.varCount
  name : ∀ {x}, g.Contains (.var x) → h.name? x = g.name? x
  deref : ∀ {v}, g.Contains v → h.deref? v = g.deref? v
  features : ∀ {s m}, g.features? s = some m →
    ∃ n, h.features? s = some n ∧ n.map h.deref? = m.map g.deref?

variable {g h k : Graph}

theorem deref?_of_map_eq {m n : NameMap Value} (same : n.map h.deref? = m.map g.deref?)
    (name : String) : (n.get? name).map h.deref? = (m.get? name).map g.deref? := by
  rw [← NameMap.get?_map, same, NameMap.get?_map]

/-- A list of entries that reads as one with a first entry has such an entry itself. -/
theorem exists_cons_of_readEntries {entries rest : List (String × Value)} {name : String}
    {v : Value} (same : h.readEntries entries = g.readEntries ((name, v) :: rest)) :
    ∃ w rest', entries = (name, w) :: rest' ∧ h.deref? w = g.deref? v ∧
      h.readEntries rest' = g.readEntries rest := by
  obtain ⟨⟨name', w⟩, rest', rfl, first, sameRest⟩ := List.map_eq_cons_iff.1 same
  obtain ⟨rfl, reads⟩ := Prod.mk.inj first
  exact ⟨w, rest', rfl, reads, sameRest⟩

theorem eq_nil_of_readEntries {entries : List (String × Value)}
    (same : h.readEntries entries = g.readEntries []) : entries = [] := List.map_eq_nil_iff.1 same

theorem tallyValues_eq_some {tally tally' : StructId → Tally → Option Tally}
    (more : ∀ {s t t'}, tally s t = some t' → tally' s t = some t')
    {entries entries' : List (String × Value)}
    (same : h.readEntries entries' = g.readEntries entries) {t t' : Tally}
    (counted : g.tallyValues tally (entries.map Prod.snd) t = some t') :
    h.tallyValues tally' (entries'.map Prod.snd) t = some t' := by
  induction entries generalizing entries' t with
  | nil => rwa [eq_nil_of_readEntries same]
  | cons e rest ih =>
    obtain ⟨w, rest', rfl, reads', sameRest⟩ := exists_cons_of_readEntries same
    simp only [List.map_cons, tallyValues, reads'] at counted ⊢
    cases reads : g.deref? e.2 with
    | none => simp [reads] at counted
    | some u =>
      rw [reads] at counted
      cases u with
      | atom a => exact ih sameRest counted
      | var x => exact ih sameRest counted
      | struct s =>
        dsimp only at counted ⊢
        cases first : tally s t with
        | none => simp [first] at counted
        | some t₁ =>
          rw [first] at counted
          rw [more first]
          exact ih sameRest counted

namespace Persists

theorem refl (g : Graph) : g.Persists g :=
  ⟨Nat.le_refl _, Nat.le_refl _, fun _ => rfl, fun _ => rfl, fun found => ⟨_, found, rfl⟩⟩

theorem trans (first : g.Persists h) (second : h.Persists k) : g.Persists k where
  structs := first.structs.trans second.structs
  vars := first.vars.trans second.vars
  name inside := (second.name (inside.mono first.structs first.vars)).trans (first.name inside)
  deref inside := (second.deref (inside.mono first.structs first.vars)).trans (first.deref inside)
  features found := by
    obtain ⟨n, found', same⟩ := first.features found
    obtain ⟨l, found'', same'⟩ := second.features found'
    exact ⟨l, found'', same'.trans same⟩

theorem of_partOf (wf : g.WellFormed) (part : g.PartOf h) : g.Persists h where
  structs := part.structs
  vars := part.vars
  name := part.name?_eq
  deref := part.deref?_eq wf
  features {s m} found := by
    refine ⟨m, (part.features?_eq (contains_of_features? found)).trans found,
      NameMap.eq_of_entries (List.map_congr_left fun e mem => ?_)⟩
    obtain ⟨node, present, rfl⟩ := Option.map_eq_some_iff.1 found
    rw [part.deref?_eq wf (wf.feature present (node.features.get?_eq_some_iff.2 mem))]

variable (persists : g.Persists h)

include persists

theorem name?_eq_some {x : VarId} {name : String} (called : g.name? x = some name) :
    h.name? x = some name := by
  obtain ⟨node, found, -⟩ := Option.map_eq_some_iff.1 called
  rw [persists.name (contains_of_var? found), called]

theorem path?_eq_some {v w : Value} (same : h.deref? w = g.deref? v) {path : List String}
    {found : Option Value} (leads : g.path? v path = some found) :
    h.path? w path = some found := by
  induction path generalizing v w with
  | nil => rwa [path?_nil, same, ← path?_nil]
  | cons name path ih =>
    cases reads : g.deref? v with
    | none => simp [path?, reads] at leads
    | some u =>
      rw [reads] at same
      cases u with
      | atom a => simpa [path?, same, reads] using leads
      | var x => simpa [path?, same, reads] using leads
      | struct s =>
        cases stored : g.features? s with
        | none => simp [path?, reads, stored] at leads
        | some m =>
          obtain ⟨n, stored', sameFeatures⟩ := persists.features stored
          rw [path?_cons_struct reads stored] at leads
          rw [path?_cons_struct same stored']
          have children := deref?_of_map_eq sameFeatures name
          cases held : m.get? name with
          | none =>
            rw [held, Option.map_none, Option.map_eq_none_iff] at children
            simpa [held, children] using leads
          | some c =>
            rw [held, Option.map_some, Option.map_eq_some_iff] at children
            obtain ⟨c', held', same'⟩ := children
            rw [held] at leads
            rw [held']
            exact ih same' leads

/-! ### The text of a value -/

theorem tallyStruct_eq_some {fuel fuel' : Nat} (enough : fuel ≤ fuel') {s : StructId}
    {t t' : Tally} (counted : g.tallyStruct fuel s t = some t') :
    h.tallyStruct fuel' s t = some t' := by
  induction fuel generalizing fuel' s t t' with
  | zero => cases counted
  | succ fuel ih =>
    obtain ⟨fuel', rfl⟩ := Nat.exists_eq_add_of_lt enough
    simp only [tallyStruct] at counted ⊢
    split at counted
    · next known => rwa [if_pos known]
    · next fresh =>
      rw [if_neg fresh]
      cases stored : g.features? s with
      | none => simp [stored] at counted
      | some m =>
        obtain ⟨n, stored', same⟩ := persists.features stored
        rw [stored] at counted
        rw [stored']
        exact tallyValues_eq_some (ih (Nat.le_add_right _ _)) (congrArg NameMap.entries same)
          counted

theorem shared?_eq_some {s : StructId} {shared : List StructId}
    (counted : g.shared? s = some shared) : h.shared? s = some shared := by
  obtain ⟨t, tallied, rfl⟩ := Option.map_eq_some_iff.1 counted
  have enough := Nat.succ_le_succ persists.structs
  exact Option.map_eq_some_iff.2 ⟨t, persists.tallyStruct_eq_some enough tallied, rfl⟩

theorem describeFeatures_eq_some
    {describe describe' : StructId → List StructId → Option (Description Nat × List StructId)}
    (more : ∀ {s tagged r}, describe s tagged = some r → describe' s tagged = some r)
    {entries entries' : List (String × Value)}
    (same : h.readEntries entries' = g.readEntries entries) {tagged : List StructId}
    {r : Features Nat × List StructId}
    (described : g.describeFeatures describe entries tagged = some r) :
    h.describeFeatures describe' entries' tagged = some r := by
  induction entries generalizing entries' tagged r with
  | nil => rwa [eq_nil_of_readEntries same]
  | cons e rest ih =>
    obtain ⟨w, rest', rfl, reads', sameRest⟩ := exists_cons_of_readEntries same
    simp only [describeFeatures, Option.bind_eq_bind, Option.bind_eq_some_iff] at described ⊢
    obtain ⟨u, reads, described⟩ := described
    refine ⟨u, reads'.trans reads, ?_⟩
    cases u with
    | atom a =>
      obtain ⟨d, described, last⟩ := Option.bind_eq_some_iff.1 described
      exact Option.bind_eq_some_iff.2 ⟨d, ih sameRest described, last⟩
    | var x =>
      obtain ⟨called, named, described⟩ := Option.bind_eq_some_iff.1 described
      obtain ⟨d, described, last⟩ := Option.bind_eq_some_iff.1 described
      exact Option.bind_eq_some_iff.2 ⟨called, persists.name?_eq_some named,
        Option.bind_eq_some_iff.2 ⟨d, ih sameRest described, last⟩⟩
    | struct s =>
      dsimp only at described ⊢
      split at described
      · next known =>
        rw [if_pos known]
        obtain ⟨d, described, last⟩ := Option.bind_eq_some_iff.1 described
        exact Option.bind_eq_some_iff.2 ⟨d, ih sameRest described, last⟩
      · next fresh =>
        rw [if_neg fresh]
        obtain ⟨child, entered, described⟩ := Option.bind_eq_some_iff.1 described
        obtain ⟨d, described, last⟩ := Option.bind_eq_some_iff.1 described
        exact Option.bind_eq_some_iff.2 ⟨child, more entered,
          Option.bind_eq_some_iff.2 ⟨d, ih sameRest described, last⟩⟩

theorem describeStruct_eq_some {shared : List StructId} {fuel fuel' : Nat}
    (enough : fuel ≤ fuel') {s : StructId} {tagged : List StructId}
    {r : Description Nat × List StructId}
    (described : g.describeStruct shared fuel s tagged = some r) :
    h.describeStruct shared fuel' s tagged = some r := by
  induction fuel generalizing fuel' s tagged r with
  | zero => cases described
  | succ fuel ih =>
    obtain ⟨fuel', rfl⟩ := Nat.exists_eq_add_of_lt enough
    simp only [describeStruct, Option.bind_eq_bind, Option.bind_eq_some_iff] at described ⊢
    obtain ⟨m, stored, described⟩ := described
    obtain ⟨n, stored', same⟩ := persists.features stored
    refine ⟨n, stored', ?_⟩
    have deeper {s : StructId} {tagged : List StructId} {r : Description Nat × List StructId}
        (described : g.describeStruct shared fuel s tagged = some r) :
        h.describeStruct shared (fuel + fuel') s tagged = some r :=
      ih (Nat.le_add_right fuel fuel') described
    split at described
    · next listed =>
      rw [if_pos listed]
      obtain ⟨d, described, last⟩ := Option.bind_eq_some_iff.1 described
      exact Option.bind_eq_some_iff.2
        ⟨d, persists.describeFeatures_eq_some deeper (congrArg NameMap.entries same) described,
          last⟩
    · next unlisted =>
      rw [if_neg unlisted]
      obtain ⟨d, described, last⟩ := Option.bind_eq_some_iff.1 described
      exact Option.bind_eq_some_iff.2
        ⟨d, persists.describeFeatures_eq_some deeper (congrArg NameMap.entries same) described,
          last⟩

theorem describe?_eq_some {v w : Value} (same : h.deref? w = g.deref? v) {d : Description Nat}
    (described : g.describe? v = some d) : h.describe? w = some d := by
  simp only [describe?, Option.bind_eq_bind, Option.bind_eq_some_iff] at described ⊢
  obtain ⟨u, reads, described⟩ := described
  refine ⟨u, same.trans reads, ?_⟩
  cases u with
  | atom a => exact described
  | var x =>
    obtain ⟨called, named, last⟩ := Option.bind_eq_some_iff.1 described
    exact Option.bind_eq_some_iff.2 ⟨called, persists.name?_eq_some named, last⟩
  | struct s =>
    obtain ⟨shared, counted, described⟩ := Option.bind_eq_some_iff.1 described
    obtain ⟨r, entered, last⟩ := Option.bind_eq_some_iff.1 described
    have enough := Nat.succ_le_succ persists.structs
    exact Option.bind_eq_some_iff.2 ⟨shared, persists.shared?_eq_some counted,
      Option.bind_eq_some_iff.2 ⟨r, persists.describeStruct_eq_some enough entered, last⟩⟩

theorem text?_eq_some {v : Value} (inside : g.Contains v) {text : String}
    (written : g.text? v = some text) : h.text? v = some text := by
  obtain ⟨d, described, rfl⟩ := Option.map_eq_some_iff.1 written
  exact Option.map_eq_some_iff.2
    ⟨d, persists.describe?_eq_some (persists.deref inside) described, rfl⟩

/-! ### Comparisons -/

theorem compareValues_eq
    {compare compare' : StructId → StructId → Assumptions → Except Discrepancy Assumptions}
    (more : ∀ {s t pairs}, compare s t pairs ≠ .error .dangling →
      compare' s t pairs = compare s t pairs) {v v' w w' : Value}
    (sameV : h.deref? v' = g.deref? v) (sameW : h.deref? w' = g.deref? w) {pairs : Assumptions}
    (ends : g.compareValues compare v w pairs ≠ .error .dangling) :
    h.compareValues compare' v' w' pairs = g.compareValues compare v w pairs := by
  unfold compareValues at ends ⊢
  rw [sameV, sameW]
  split at ends
  · rfl
  · split at ends
    · next same => rw [if_pos same, if_pos same]
    · next other =>
      rw [if_neg other, if_neg other]
      split at ends
      · next m n hx hy => rw [persists.name?_eq_some hx, persists.name?_eq_some hy]
      · exact absurd rfl ends
  · exact more ends
  · rfl
  · rfl

theorem compareFeatures_eq
    {compare compare' : StructId → StructId → Assumptions → Except Discrepancy Assumptions}
    (more : ∀ {s t pairs}, compare s t pairs ≠ .error .dangling →
      compare' s t pairs = compare s t pairs) {theirs theirs' : NameMap Value}
    (sameTheirs : theirs'.map h.deref? = theirs.map g.deref?)
    {entries entries' : List (String × Value)}
    (same : h.readEntries entries' = g.readEntries entries) {pairs : Assumptions}
    (ends : g.compareFeatures compare theirs entries pairs ≠ .error .dangling) :
    h.compareFeatures compare' theirs' entries' pairs =
      g.compareFeatures compare theirs entries pairs := by
  induction entries generalizing entries' pairs with
  | nil => rw [eq_nil_of_readEntries same, compareFeatures, compareFeatures]
  | cons e rest ih =>
    obtain ⟨name, v⟩ := e
    obtain ⟨v', rest', rfl, reads, sameRest⟩ := exists_cons_of_readEntries same
    simp only [compareFeatures] at ends ⊢
    have partner := deref?_of_map_eq sameTheirs name
    cases held : theirs.get? name with
    | none =>
      rw [held, Option.map_none, Option.map_eq_none_iff] at partner
      rw [partner]
    | some w =>
      rw [held, Option.map_some, Option.map_eq_some_iff] at partner
      obtain ⟨w', held', sameW⟩ := partner
      rw [held] at ends
      rw [held']
      dsimp only at ends ⊢
      cases compared : g.compareValues compare v w pairs with
      | error e =>
        rw [compared] at ends
        rw [persists.compareValues_eq more reads sameW (by rwa [compared]), compared]
      | ok pairs₁ =>
        rw [compared] at ends
        rw [persists.compareValues_eq more reads sameW (by simp [compared]), compared]
        exact ih sameRest ends

theorem compareStructs_eq {oneToOne : Bool} {fuel fuel' : Nat} (enough : fuel ≤ fuel')
    {s t : StructId} {pairs : Assumptions}
    (ends : g.compareStructs oneToOne fuel s t pairs ≠ .error .dangling) :
    h.compareStructs oneToOne fuel' s t pairs = g.compareStructs oneToOne fuel s t pairs := by
  induction fuel generalizing fuel' s t pairs with
  | zero => exact absurd rfl ends
  | succ fuel ih =>
    obtain ⟨fuel', rfl⟩ := Nat.exists_eq_add_of_lt enough
    simp only [compareStructs] at ends ⊢
    split at ends
    · next refused => rw [if_pos refused, if_pos refused]
    · next admitted =>
      rw [if_neg admitted, if_neg admitted]
      split at ends
      · next known => rw [if_pos known, if_pos known]
      · next fresh =>
        rw [if_neg fresh, if_neg fresh]
        split at ends
        · next m n hm hn =>
          obtain ⟨m', hm', sameM⟩ := persists.features hm
          obtain ⟨n', hn', sameN⟩ := persists.features hn
          have sizeM : m'.size = m.size := by
            simpa [NameMap.map, NameMap.size] using congrArg NameMap.size sameM
          have sizeN : n'.size = n.size := by
            simpa [NameMap.map, NameMap.size] using congrArg NameMap.size sameN
          rw [hm', hn']
          dsimp only
          rw [sizeM, sizeN]
          split at ends
          · next size =>
            rw [if_pos size, if_pos size]
            exact persists.compareFeatures_eq (ih (Nat.le_add_right _ _)) sameN
              (congrArg NameMap.entries sameM) ends
          · next size => rw [if_neg size, if_neg size]
        · exact absurd rfl ends

theorem correspond?_eq_some {oneToOne : Bool} {v w : Value} (hv : g.Contains v)
    (hw : g.Contains w) {answer : Bool} (compared : g.correspond? oneToOne v w = some answer) :
    h.correspond? oneToOne v w = some answer := by
  have enough : g.structCount * g.structCount + 1 ≤ h.structCount * h.structCount + 1 :=
    Nat.succ_le_succ (Nat.mul_le_mul persists.structs persists.structs)
  have ends : g.compareValues
      (g.compareStructs oneToOne (g.structCount * g.structCount + 1)) v w [] ≠
        .error .dangling := by
    intro dangling
    rw [correspond?, dangling] at compared
    cases compared
  have same := persists.compareValues_eq (persists.compareStructs_eq enough) (persists.deref hv)
    (persists.deref hw) ends
  unfold correspond? at compared ⊢
  rw [same, compared]

end Persists

end FeatureLogic.Graph
