import FeatureLogic.Proofs.NormalForm.Reshaping

/-!
# Redirecting absorbed structures

The first walk of the normal form ends, because each of its levels enters a node not visited
before, and reshapes the graph: it puts survivors in the place of the structures they absorbed.
-/

namespace FeatureLogic

namespace Region

open FeatureLogic.Graph

structure Visits (r : Region) (g h : Graph) (visited : List Value) : Prop where
  reshapes : r.Reshapes g h
  nodup : visited.Nodup
  inside : ∀ v ∈ visited, r.Has v ∧ v.isNode

variable {r : Region} {g h : Graph} {visited : List Value}

theorem Visits.enter (visits : r.Visits g h visited) {v : Value} (has : r.Has v) (node : v.isNode)
    (fresh : v ∉ visited) : r.Visits g h (v :: visited) where
  reshapes := visits.reshapes
  nodup := List.nodup_cons.2 ⟨fresh, visits.nodup⟩
  inside w mem := by
    rcases List.mem_cons.1 mem with rfl | mem
    · exact ⟨has, node⟩
    · exact visits.inside w mem

theorem Visits.length_le (visits : r.Visits g h visited) :
    visited.length ≤ r.endStruct + r.endVar := by
  have inside : ∀ v ∈ visited, h.Contains v ∧ v.isNode := fun v mem =>
    (visits.inside v mem).imp_left visits.reshapes.closed.contains
  have bound := length_le_nodeCount visits.nodup inside
  rwa [visits.reshapes.closed.structCount, visits.reshapes.closed.varCount] at bound

structure Redirects (r : Region) (g : Graph) (v : Value) (visited : List Value) (w : Value)
    (h : Graph) (visited' : List Value) : Prop where
  visits : r.Visits g h visited'
  longer : visited.length ≤ visited'.length
  has : r.Has w
  updates : g.Updates v w
  informative : v.Informative → w.Informative

/-- Does a walk with `fuel` levels left end, from every value and whatever was visited before? -/
def RedirectEnds (r : Region) (g : Graph) (fuel : Nat)
    (redirect : Value → Graph × List Value → Option (Value × Graph × List Value)) : Prop :=
  ∀ v h visited, r.Has v → r.Visits g h visited →
    r.endStruct + r.endVar + 1 ≤ fuel + visited.length →
    ∃ w h' visited', redirect v (h, visited) = some (w, h', visited') ∧
      r.Redirects g v visited w h' visited'

theorem fill_redirects {fuel : Nat}
    {redirect : Value → Graph × List Value → Option (Value × Graph × List Value)}
    (ends : r.RedirectEnds g fuel redirect) {s : StructId} (has : r.Has (.struct s))
    {entries : List (String × Value)} (inside : ∀ e ∈ entries, r.Has e.2)
    (features : ∀ e ∈ entries, ∃ v, g.Feature s e.1 v ∧ g.Updates v e.2)
    (visits : r.Visits g h visited)
    (enough : r.endStruct + r.endVar + 1 ≤ fuel + visited.length) :
    ∃ h' visited', fill redirect s entries (h, visited) = some (h', visited') ∧
      r.Visits g h' visited' ∧ visited.length ≤ visited'.length := by
  induction entries generalizing h visited with
  | nil => exact ⟨h, visited, rfl, visits, Nat.le_refl _⟩
  | cons e rest ih =>
    obtain ⟨name, v⟩ := e
    obtain ⟨w, h₁, visited₁, walked, leads⟩ :=
      ends v h visited (inside _ List.mem_cons_self) visits enough
    obtain ⟨v₀, feature, updates⟩ := features _ List.mem_cons_self
    have reshapes : r.Reshapes g (h₁.setFeature s name w) :=
      leads.visits.reshapes.setFeature has leads.has feature (updates.trans leads.updates)
    have longer := leads.longer
    obtain ⟨h', visited', filled, visits', longer'⟩ :=
      ih (fun e mem => inside e (List.mem_cons_of_mem _ mem))
        (fun e mem => features e (List.mem_cons_of_mem _ mem))
        ⟨reshapes, leads.visits.nodup, leads.visits.inside⟩ (by omega)
    refine ⟨h', visited', ?_, visits', longer.trans longer'⟩
    rw [fill_cons_eq_some_iff]
    exact ⟨w, h₁, visited₁, walked, filled⟩

theorem redirectStruct_ends (closed : r.Closed g) {fuel : Nat}
    (ends : r.RedirectEnds g fuel (redirect fuel)) {s : StructId} (has : r.Has (.struct s))
    (visits : r.Visits g h visited)
    (enough : r.endStruct + r.endVar + 1 ≤ fuel + 1 + visited.length) :
    ∃ w h' visited', redirect (fuel + 1) (.struct s) (h, visited) = some (w, h', visited') ∧
      r.Redirects g (.struct s) visited w h' visited' := by
  obtain ⟨w, resolves⟩ := closed.grounded has
  obtain ⟨u, rfl⟩ := path_struct resolves.path
  have survives : h.survivor? s = some u :=
    survivor?_eq_some_iff.2 ((visits.reshapes.resolves closed).2 resolves)
  have hasU := closed.has_of_path has resolves.path
  have same : g.Updates (.struct s) (.struct u) := by
    refine ⟨resolves.equates, fun settled => ?_⟩
    exact resolves.unique ((settles_iff_of_informative (v := .struct s) trivial).1 settled)
  by_cases known : .struct u ∈ visited
  · exact ⟨.struct u, h, visited, by simp [redirect, survives, known],
      visits, Nat.le_refl _, hasU, same, id⟩
  · obtain ⟨m, found⟩ := visits.reshapes.closed.exists_features hasU
    have entered := visits.enter hasU rfl known
    have inside : ∀ e ∈ m.entries, r.Has e.2 := fun e mem =>
      visits.reshapes.closed.feature hasU found (m.get?_eq_some_iff.2 mem)
    obtain ⟨h', visited', filled, visits', longer⟩ :=
      fill_redirects ends hasU inside
        (fun e mem => visits.reshapes.origin hasU ⟨m, found, m.get?_eq_some_iff.2 mem⟩) entered
        (by rw [List.length_cons]; omega)
    rw [List.length_cons] at longer
    exact ⟨.struct u, h', visited', by simp [redirect, survives, known, found, filled], visits',
      by omega, hasU, same, id⟩

theorem redirectVar_ends (closed : r.Closed g) {fuel : Nat}
    (ends : r.RedirectEnds g fuel (redirect fuel)) {x : VarId} (has : r.Has (.var x))
    (visits : r.Visits g h visited)
    (enough : r.endStruct + r.endVar + 1 ≤ fuel + 1 + visited.length) :
    ∃ w h' visited', redirect (fuel + 1) (.var x) (h, visited) = some (w, h', visited') ∧
      r.Redirects g (.var x) visited w h' visited' := by
  obtain ⟨w, resolves⟩ := closed.grounded has
  obtain ⟨root, rfl⟩ := path_var resolves.path
  have chased : h.root? x = some root :=
    root?_eq_some_iff.2 ((visits.reshapes.resolves closed).2 resolves)
  have hasRoot := closed.has_of_path has resolves.path
  by_cases known : .var root ∈ visited
  · exact ⟨.var x, h, visited, by simp [redirect, chased, known], visits, Nat.le_refl _, has,
      .refl g _, id⟩
  · obtain ⟨node, found⟩ := visits.reshapes.closed.exists_var hasRoot
    have entered := visits.enter hasRoot rfl known
    cases holds : node.binding with
    | free =>
      exact ⟨.var x, h, .var root :: visited, by simp [redirect, chased, known, found, holds],
        entered, by simp, has, .refl g _, id⟩
    | link y =>
      exact ⟨.var x, h, .var root :: visited, by simp [redirect, chased, known, found, holds],
        entered, by simp, has, .refl g _, id⟩
    | bound v =>
      have held : h.content? (.var root) = some v := content?_var_eq_some.2 ⟨node, found, holds⟩
      obtain ⟨hasV, informative⟩ := visits.reshapes.closed.content hasRoot held
      obtain ⟨w, h', visited', walked, leads⟩ :=
        ends v h (.var root :: visited) hasV entered (by rw [List.length_cons]; omega)
      have longer := leads.longer
      rw [List.length_cons] at longer
      have first : ∃ c, g.content? (.var root) = some c ∧ g.Equates c v := by
        cases before : g.content? (.var root) with
        | none =>
          rw [visits.reshapes.empty hasRoot before] at held
          cases held
        | some c =>
          obtain ⟨c', held', same⟩ := visits.reshapes.content hasRoot before
          cases held.symm.trans held'
          exact ⟨c, rfl, same⟩
      obtain ⟨c, before, same⟩ := first
      have reshapes : r.Reshapes g (h'.setBinding root (.bound w)) :=
        leads.visits.reshapes.bind hasRoot leads.has (leads.informative informative) before
          (same.trans leads.updates.same)
      exact ⟨.var x, _, visited', by simp [redirect, chased, known, found, holds, walked],
        ⟨reshapes, leads.visits.nodup, leads.visits.inside⟩, by omega, has, .refl g _, id⟩

theorem redirect_ends (closed : r.Closed g) (fuel : Nat) :
    r.RedirectEnds g fuel (redirect fuel) := by
  induction fuel with
  | zero =>
    intro v h visited _ visits enough
    have := visits.length_le
    omega
  | succ fuel ih =>
    intro v h visited has visits enough
    cases v with
    | atom a =>
      exact ⟨.atom a, h, visited, rfl, visits, Nat.le_refl _, trivial, .refl g _, id⟩
    | struct s => exact redirectStruct_ends closed ih has visits enough
    | var x => exact redirectVar_ends closed ih has visits enough

theorem exists_redirectValue (closed : r.Closed g) {v : Value} (has : r.Has v)
    (visits : r.Visits g h visited) :
    ∃ w h' visited', redirectValue v (h, visited) = some (w, h', visited') ∧
      r.Redirects g v visited w h' visited' := by
  refine redirect_ends closed _ v h visited has visits ?_
  have structs := visits.reshapes.closed.structCount
  have vars := visits.reshapes.closed.varCount
  show r.endStruct + r.endVar + 1 ≤ h.structCount + h.varCount + 1 + visited.length
  omega

structure ScopeRedirects (r : Region) (g : Graph) (before after : Scope) : Prop where
  has : ∀ {name v}, after.get? name = some v → r.Has v
  same : ∀ name, Option.Rel g.Equates (before.get? name) (after.get? name)

theorem scopeRedirects_refl {scope : Scope}
    (inside : ∀ name v, scope.get? name = some v → r.Has v) : r.ScopeRedirects g scope scope where
  has := inside _ _
  same name := by
    cases scope.get? name with
    | none => exact .none
    | some v => exact .some (.refl g v)

theorem ScopeRedirects.insert {before after : Scope} (redirects : r.ScopeRedirects g before after)
    {name : String} {v w : Value} (holds : before.get? name = some v) (has : r.Has w)
    (same : g.Equates v w) : r.ScopeRedirects g before (after.insert name w) where
  has {key u} found := by
    rw [NameMap.get?_insert] at found
    split at found
    · cases found
      exact has
    · exact redirects.has found
  same key := by
    rw [NameMap.get?_insert]
    split
    · next eq =>
      cases eq
      rw [holds]
      exact .some same
    · exact redirects.same key

theorem redirectScope_ends (closed : r.Closed g) {first : Scope}
    {entries : List (String × Value)}
    (listed : ∀ e ∈ entries, r.Has e.2 ∧ first.get? e.1 = some e.2) {scope : Scope}
    (redirects : r.ScopeRedirects g first scope) (visits : r.Visits g h visited) :
    ∃ scope' h' visited', Scope.redirect entries scope (h, visited) = some (scope', h', visited') ∧
      r.Visits g h' visited' ∧ r.ScopeRedirects g first scope' := by
  induction entries generalizing h visited scope with
  | nil => exact ⟨scope, h, visited, rfl, visits, redirects⟩
  | cons e rest ih =>
    obtain ⟨name, v⟩ := e
    obtain ⟨has, holds⟩ := listed _ List.mem_cons_self
    obtain ⟨w, h₁, visited₁, walked, leads⟩ := exists_redirectValue closed has visits
    obtain ⟨scope', h', visited', rest', visits', redirects'⟩ :=
      ih (fun e mem => listed e (List.mem_cons_of_mem _ mem))
        (redirects.insert holds leads.has leads.updates.same) leads.visits
    exact ⟨scope', h', visited', by simp [Scope.redirect, walked, rest'], visits', redirects'⟩

end Region

end FeatureLogic
