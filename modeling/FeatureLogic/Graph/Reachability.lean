import FeatureLogic.Graph.WellFormed

/-!
# Reachability

Which values lie below a value, and where its feature paths lead. `Below` takes the features as
they are stored; `Leads` looks through bound variables and aliases at every step.
-/

namespace FeatureLogic.Graph

/-- Reached from `v` along stored features. -/
inductive Below (g : Graph) (v : Value) : Value → Prop where
  | refl : Below g v v
  | feature {s : StructId} {features : NameMap Value} {name : String} {w : Value} :
    Below g v (.struct s) → g.features? s = some features → features.get? name = some w →
      Below g v w

def Leads (g : Graph) (v : Value) (path : List String) (w : Value) : Prop :=
  g.path? v path = some (some w)

/-- Are all variables below `v` free, and all handles below it handles of nodes? -/
structure Plain (g : Graph) (v : Value) : Prop where
  contains : ∀ {w}, g.Below v w → g.Contains w
  free : ∀ {x}, g.Below v (.var x) → ∃ name, g.var? x = some { name }

/-- Is there no node that both values lead to? -/
def Unshared (g : Graph) (v w : Value) : Prop :=
  ∀ u, u.isNode → g.Below v u → ¬ g.Below w u

theorem Below.trans {g : Graph} {u v w : Value} (huv : g.Below u v) (hvw : g.Below v w) :
    g.Below u w := by
  induction hvw with
  | refl => exact huv
  | feature _ found holds ih => exact .feature ih found holds

theorem below_atom_iff {g : Graph} {a : Atom} {w : Value} : g.Below (.atom a) w ↔ w = .atom a := by
  refine ⟨fun h => ?_, fun h => h ▸ .refl⟩
  induction h with
  | refl => rfl
  | feature _ _ _ ih => cases ih

theorem Plain.of_below {g : Graph} {v w : Value} (plain : g.Plain v) (below : g.Below v w) :
    g.Plain w where
  contains h := plain.contains (below.trans h)
  free h := plain.free (below.trans h)

theorem WellFormed.contains_of_below {g : Graph} (wf : g.WellFormed) {v w : Value}
    (contains : g.Contains v) (below : g.Below v w) : g.Contains w := by
  induction below with
  | refl => exact contains
  | feature _ found holds _ =>
    obtain ⟨node, hs, rfl⟩ := Option.map_eq_some_iff.1 found
    exact wf.feature hs holds

theorem leads_nil {g : Graph} {v w : Value} : g.Leads v [] w ↔ g.deref? v = some w := by
  simp [Leads, path?_nil]

theorem leads_cons {g : Graph} {v w : Value} {name : String} {path : List String} :
    g.Leads v (name :: path) w ↔
      ∃ s features child, g.deref? v = some (.struct s) ∧ g.features? s = some features ∧
        features.get? name = some child ∧ g.Leads child path w := by
  simp only [Leads, path?]
  constructor
  · intro h
    split at h
    · cases h
    · next s hv =>
      split at h
      · cases h
      · next features hs =>
        split at h
        · cases h
        · next child hc => exact ⟨s, features, child, hv, hs, hc, h⟩
    · cases h
  · rintro ⟨s, features, child, hv, hs, hc, h⟩
    simpa only [hv, hs, hc] using h

theorem Plain.deref? {g : Graph} {v : Value} (plain : g.Plain v) : g.deref? v = some v := by
  cases v with
  | atom a => rfl
  | struct s => rfl
  | var x =>
    obtain ⟨name, found⟩ := plain.free .refl
    exact deref?_of_free found

theorem Plain.below_of_leads {g : Graph} {v w : Value} {path : List String} (plain : g.Plain v)
    (leads : g.Leads v path w) : g.Below v w := by
  induction path generalizing v with
  | nil =>
    cases plain.deref?.symm.trans (leads_nil.1 leads)
    exact .refl
  | cons name path ih =>
    obtain ⟨s, features, child, reads, found, holds, rest⟩ := leads_cons.1 leads
    cases plain.deref?.symm.trans reads
    have below : g.Below (.struct s) child := .feature .refl found holds
    exact below.trans (ih (plain.of_below below) rest)

theorem WellFormed.deref?_of_leads {g : Graph} (wf : g.WellFormed) {v w : Value}
    {path : List String} (h : g.Leads v path w) : g.deref? w = some w := by
  induction path generalizing v with
  | nil => exact wf.deref?_deref? (leads_nil.1 h)
  | cons name path ih =>
    obtain ⟨_, _, child, _, _, _, h⟩ := leads_cons.1 h
    exact ih h

theorem leads_congr {g : Graph} {u v w : Value} {path : List String}
    (same : g.deref? u = g.deref? v) : g.Leads u path w ↔ g.Leads v path w := by
  cases path with
  | nil => rw [leads_nil, leads_nil, same]
  | cons name path => rw [leads_cons, leads_cons, same]

theorem WellFormed.leads_deref_iff {g : Graph} (wf : g.WellFormed) {u v w : Value}
    {path : List String} (reads : g.deref? u = some v) : g.Leads u path w ↔ g.Leads v path w :=
  leads_congr (reads.trans (wf.deref?_deref? reads).symm)

theorem WellFormed.leads_append_iff {g : Graph} (wf : g.WellFormed) {u v w : Value}
    {p q : List String} (first : g.Leads u p v) : g.Leads u (p ++ q) w ↔ g.Leads v q w := by
  induction p generalizing u with
  | nil => exact wf.leads_deref_iff (leads_nil.1 first)
  | cons name p ih =>
    obtain ⟨s, features, child, hu, hs, hc, rest⟩ := leads_cons.1 first
    rw [← ih rest, List.cons_append, leads_cons]
    constructor
    · rintro ⟨s', features', child', hu', hs', hc', rest'⟩
      cases hu.symm.trans hu'
      cases hs.symm.trans hs'
      cases hc.symm.trans hc'
      exact rest'
    · exact fun rest' => ⟨s, features, child, hu, hs, hc, rest'⟩

theorem WellFormed.leads_append {g : Graph} (wf : g.WellFormed) {u v w : Value}
    {p q : List String} (huv : g.Leads u p v) (hvw : g.Leads v q w) : g.Leads u (p ++ q) w :=
  (wf.leads_append_iff huv).2 hvw

theorem Plain.exists_leads {g : Graph} {v w : Value} (plain : g.Plain v) (wf : g.WellFormed)
    (below : g.Below v w) : ∃ path, g.Leads v path w := by
  induction below with
  | refl => exact ⟨[], leads_nil.2 plain.deref?⟩
  | @feature s features name w below found holds ih =>
    obtain ⟨path, leads⟩ := ih
    have stands := (plain.of_below (below.feature found holds)).deref?
    have step : g.Leads (.struct s) [name] w :=
      leads_cons.2 ⟨s, features, w, rfl, found, holds, leads_nil.2 stands⟩
    exact ⟨path ++ [name], wf.leads_append leads step⟩

end FeatureLogic.Graph
