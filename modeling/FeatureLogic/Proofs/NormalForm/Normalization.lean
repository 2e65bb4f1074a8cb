import FeatureLogic.Graph.Reachability
import FeatureLogic.Proofs.NormalForm.Redirection
import FeatureLogic.Proofs.NormalForm.Settling
import FeatureLogic.Unification

/-!
# The normal form of a region

Bringing a closed region into normal form always ends. The result is what the value settles to, and
below it every feature holds a settled value. A scope keeps what its entries settle to, but for the
names that stand for a free variable of that name, and below its entries everything is settled too.
-/

namespace FeatureLogic

namespace Region

open FeatureLogic.Graph

variable {r : Region} {g h : Graph} {visited : List StructId}

/-- A walk that has settled everything below the structures it has visited, and `w` among them. -/
structure Normal (r : Region) (g h : Graph) (visited : List StructId) (w : Value) : Prop where
  settling : r.Settling g h visited
  tidy : ∀ s ∈ visited, Tidy g h visited s
  reached : ∀ t, w = .struct t → t ∈ visited

theorem Normal.continue {w : Value} (normal : r.Normal g h visited w) {h' : Graph}
    {visited' : List StructId} (progress : r.Progress g h visited h' visited')
    (unchanged : ∀ s ∈ visited, h'.features? s = h.features? s) :
    r.Normal g h' visited' w where
  settling := progress.settling
  tidy s mem := by
    by_cases before : s ∈ visited
    · exact (normal.tidy s before).mono (unchanged s before) progress.more
    · exact progress.tidy s mem before
  reached t eq := progress.more (normal.reached t eq)

/-- Below a settled value everything is settled, and every structure was visited. -/
theorem Normal.settles_of_below {u : Value} (normal : r.Normal g h visited u) {v w : Value}
    (has : r.Has v) (settles : g.Settles v v) (reached : ∀ t, v = .struct t → t ∈ visited)
    (below : h.Below v w) :
    r.Has w ∧ g.Settles w w ∧ ∀ t, w = .struct t → t ∈ visited := by
  induction below with
  | refl => exact ⟨has, settles, reached⟩
  | feature _ found holds ih =>
    have settled := normal.tidy _ (ih.2.2 _ rfl) _ _ ⟨_, found, holds⟩
    exact ⟨normal.settling.reshapes.closed.feature ih.1 found holds, settled⟩

/-- What was settled at the end of the join still is in the normal form. -/
theorem Normal.settled {u w : Value} (normal : r.Normal g h visited u) (closed : r.Closed g)
    (has : r.Has w) (settles : g.Settles w w) : r.Settled h w :=
  normal.settling.reshapes.closed.settled has
    ((normal.settling.reshapes.settles closed has).2 settles)

/-- What a structure carries in the joined graph is in the end a feature of what it settles to. -/
theorem Normal.exists_feature {u v : Value} {s t : StructId} {name : String}
    (normal : r.Normal g h visited u) (closed : r.Closed g) (has : r.Has (.struct s))
    (carries : Join.Carries g.Equates g s name v)
    (settles : g.Settles (.struct s) (.struct t)) (entered : t ∈ visited) :
    ∃ w, h.Feature t name w ∧ g.Settles w w ∧ (v ≠ .unspecified → g.Settles v w) ∧
      ∀ t, w = .struct t → t ∈ visited := by
  obtain ⟨t', v', path, live, feature, tells⟩ := carries
  have hasT := closed.has_of_path has path
  have resolves := (settles_iff_of_informative (v := .struct s) trivial).1 settles
  have same : t' = t :=
    Value.struct.inj (Resolves.unique ⟨path, live, closed.contains hasT⟩ resolves)
  subst same
  obtain ⟨w, kept, updates⟩ := normal.settling.reshapes.kept hasT feature
  obtain ⟨settled, reached⟩ := normal.tidy _ entered name w kept
  exact ⟨w, kept, settled, fun hv => ((tells hv).2.trans updates.same _).2 settled, reached⟩

theorem exists_settleValue (closed : r.Closed g) {v : Value} (has : r.Has v)
    (settling : r.Settling g h visited) :
    ∃ w h' visited', settleValue v (h, visited) = some (w, h', visited') ∧
      g.Settles v w ∧ (∀ t, w = .struct t → t ∈ visited') ∧
      r.Progress g h visited h' visited' ∧ ∀ s ∈ visited, h'.features? s = h.features? s := by
  refine settle_ends closed _ v h visited has settling ?_
  have structs := settling.reshapes.closed.structCount
  show r.endStruct + 1 ≤ h.structCount + 1 + visited.length
  omega

/-- Is `entry` what a scope keeps for a name that stood for `v`, after the structures in `visited`
were settled? -/
def Keeps (g : Graph) (visited : List StructId) (name : String) (v : Value)
    (entry : Option Value) : Prop :=
  ∃ w, g.Settles v w ∧ (∀ t, w = .struct t → t ∈ visited) ∧
    (entry = some w ∧ (∀ x, w = .var x → g.name? x ≠ some name) ∨
      entry = none ∧ ∃ x, w = .var x ∧ g.name? x = some name)

theorem Keeps.mono {visited' : List StructId} {name : String} {v : Value} {entry : Option Value}
    (keeps : Keeps g visited name v entry) (more : visited ⊆ visited') :
    Keeps g visited' name v entry := by
  obtain ⟨w, settles, reached, kept⟩ := keeps
  exact ⟨w, settles, fun t eq => more (reached t eq), kept⟩

structure ScopeSettles (g : Graph) (visited : List StructId) (before after : Scope) : Prop where
  absent : ∀ {name}, before.get? name = none → after.get? name = none
  present : ∀ {name v}, before.get? name = some v → Keeps g visited name v (after.get? name)

theorem ScopeSettles.mono {visited' : List StructId} {before after : Scope}
    (settles : ScopeSettles g visited before after) (more : visited ⊆ visited') :
    ScopeSettles g visited' before after where
  absent := settles.absent
  present listed := (settles.present listed).mono more

theorem ScopeSettles.exists_of_get? {before after : Scope}
    (settles : ScopeSettles g visited before after) {name : String} {w : Value}
    (found : after.get? name = some w) :
    ∃ v, before.get? name = some v ∧ g.Settles v w ∧ (∀ t, w = .struct t → t ∈ visited) ∧
      ∀ x, w = .var x → g.name? x ≠ some name := by
  cases listed : before.get? name with
  | none => cases (settles.absent listed).symm.trans found
  | some v =>
    obtain ⟨w', settled, reached, kept⟩ := settles.present listed
    rw [found] at kept
    rcases kept with ⟨eq, telling⟩ | ⟨absent, -⟩
    · cases eq
      exact ⟨v, rfl, settled, reached, telling⟩
    · cases absent

theorem settleEntry_ends (closed : r.Closed g) {v w : Value} (has : r.Has v)
    (settles : g.Settles v w) (reached : ∀ t, w = .struct t → t ∈ visited)
    (settling : r.Settling g h visited) (name : String)
    (rest : List (String × Value)) (scope : Scope) {h₀ : Graph} {visited₀ : List StructId}
    (walked : settleValue v (h₀, visited₀) = some (w, h, visited)) :
    ∃ scope', Scope.settle ((name, v) :: rest) scope (h₀, visited₀) =
        Scope.settle rest scope' (h, visited) ∧
      Keeps g visited name v (scope'.get? name) ∧
      ∀ key, name ≠ key → scope'.get? key = scope.get? key := by
  have inserted (telling : ∀ x, w = .var x → g.name? x ≠ some name) :
      Keeps g visited name v ((scope.insert name w).get? name) :=
    ⟨w, settles, reached, .inl ⟨by simp, telling⟩⟩
  have others (key : String) (ne : name ≠ key) :
      (scope.insert name w).get? key = scope.get? key := by simp [ne]
  cases w with
  | atom a =>
    exact ⟨scope.insert name (.atom a), by simp [Scope.settle, walked], inserted (by simp),
      others⟩
  | struct s =>
    exact ⟨scope.insert name (.struct s), by simp [Scope.settle, walked], inserted (by simp),
      others⟩
  | var x =>
    have hasX := (closed.settled has settles).has
    obtain ⟨node, found⟩ := settling.reshapes.closed.exists_var hasX
    have called : h.name? x = some node.name := by simp [name?, found]
    have before : g.name? x = some node.name := by rw [← settling.reshapes.name, called]
    by_cases own : node.name = name
    · exact ⟨scope.erase name, by simp [Scope.settle, walked, called, own],
        ⟨.var x, settles, reached, .inr ⟨by simp, x, rfl, own ▸ before⟩⟩,
        fun key ne => by simp [ne]⟩
    · have telling : ∀ y, Value.var x = .var y → g.name? y ≠ some name := by
        rintro y ⟨⟩ same
        exact own (Option.some.inj (before.symm.trans same))
      exact ⟨scope.insert name (.var x), by simp [Scope.settle, walked, called, own],
        inserted telling, others⟩

theorem settleScope_ends (closed : r.Closed g) {w : Value} {entries : List (String × Value)}
    (inside : ∀ e ∈ entries, r.Has e.2) (scope : Scope) (normal : r.Normal g h visited w) :
    ∃ scope' h' visited', Scope.settle entries scope (h, visited) = some (scope', h', visited') ∧
      r.Normal g h' visited' w ∧ visited ⊆ visited' ∧
      ∀ name, (∃ v, (name, v) ∈ entries ∧ Keeps g visited' name v (scope'.get? name)) ∨
        (∀ e ∈ entries, e.1 ≠ name) ∧ scope'.get? name = scope.get? name := by
  induction entries generalizing h visited scope with
  | nil =>
    exact ⟨scope, h, visited, rfl, normal, List.Subset.refl _, fun name => .inr ⟨by simp, rfl⟩⟩
  | cons e rest ih =>
    obtain ⟨key, v⟩ := e
    have has : r.Has v := inside _ List.mem_cons_self
    obtain ⟨u, h₁, visited₁, walked, settles, reached, progress, unchanged⟩ :=
      exists_settleValue closed has normal.settling
    obtain ⟨scope₁, step, kept, others⟩ :=
      settleEntry_ends closed has settles reached progress.settling key rest scope walked
    obtain ⟨scope', h', visited', settled, normal', more, entry⟩ :=
      ih (fun e mem => inside e (List.mem_cons_of_mem _ mem)) scope₁
        (normal.continue progress unchanged)
    refine ⟨scope', h', visited', by rw [step, settled], normal',
      List.Subset.trans progress.more more, fun name => ?_⟩
    rcases entry name with ⟨v', mem, kept'⟩ | ⟨absent, same⟩
    · exact .inl ⟨v', List.mem_cons_of_mem _ mem, kept'⟩
    · by_cases eq : key = name
      · subst eq
        exact .inl ⟨v, List.mem_cons_self, same ▸ kept.mono more⟩
      · refine .inr ⟨fun e mem => ?_, same.trans (others name eq)⟩
        rcases List.mem_cons.1 mem with rfl | mem
        · exact eq
        · exact absent e mem

/-- Redirecting a scope and settling it keeps what its entries settled to at first. -/
theorem ScopeRedirects.settles {before between after : Scope}
    (redirects : r.ScopeRedirects g before between)
    (entry : ∀ name,
      (∃ v, (name, v) ∈ between.entries ∧ Keeps g visited name v (after.get? name)) ∨
      (∀ e ∈ between.entries, e.1 ≠ name) ∧ after.get? name = between.get? name) :
    ScopeSettles g visited before after where
  absent {name} absent := by
    have same := redirects.same name
    rw [absent] at same
    generalize found : between.get? name = none' at same
    cases same
    rcases entry name with ⟨v, mem, -⟩ | ⟨-, same⟩
    · rw [between.get?_eq_some_iff.2 mem] at found
      cases found
    · rw [same, found]
  present {name v} present := by
    have same := redirects.same name
    rw [present] at same
    generalize found : between.get? name = some' at same
    cases same with
    | some same =>
      rcases entry name with ⟨v', mem, w, settles, kept⟩ | ⟨others, -⟩
      · rw [between.get?_eq_some_iff.2 mem] at found
        cases found
        exact ⟨w, (same w).2 settles, kept⟩
      · exact absurd rfl (others _ (between.get?_eq_some_iff.1 found))

theorem redirectScoping_ends (closed : r.Closed g) {scoping : Scoping}
    (inside : scoping.All fun scope => ∀ name v, scope.get? name = some v → r.Has v)
    {visited : List Value} (visits : r.Visits g h visited) :
    ∃ scoping' h' visited',
      scoping.update (fun scope => Scope.redirect scope.entries scope) (h, visited) =
        some (scoping', h', visited') ∧
      r.Visits g h' visited' ∧ scoping.Related (r.ScopeRedirects g) scoping' := by
  have step (scope : Scope) (inside : ∀ name v, scope.get? name = some v → r.Has v) {h : Graph}
      {visited : List Value} (visits : r.Visits g h visited) :
      ∃ scope' h' visited', Scope.redirect scope.entries scope (h, visited) =
          some (scope', h', visited') ∧
        r.Visits g h' visited' ∧ r.ScopeRedirects g scope scope' :=
    redirectScope_ends closed
      (fun e mem => ⟨inside _ _ (scope.get?_eq_some_iff.2 mem), scope.get?_eq_some_iff.2 mem⟩)
      (scopeRedirects_refl inside) visits
  cases scoping with
  | common scope =>
    obtain ⟨scope', h', visited', walked, visits', redirects⟩ := step scope inside visits
    exact ⟨.common scope', h', visited', by simp [Scoping.update, walked], visits', redirects⟩
  | separate left right =>
    obtain ⟨left', h₁, visited₁, walked, visits₁, redirects⟩ := step left inside.1 visits
    obtain ⟨right', h', visited', walked', visits', redirects'⟩ := step right inside.2 visits₁
    exact ⟨.separate left' right', h', visited', by simp [Scoping.update, walked, walked'],
      visits', redirects, redirects'⟩

theorem settleScoping_ends (closed : r.Closed g) {w : Value} {before scoping : Scoping}
    (redirects : before.Related (r.ScopeRedirects g) scoping) (normal : r.Normal g h visited w) :
    ∃ scoping' h' visited',
      scoping.update (fun scope => Scope.settle scope.entries scope) (h, visited) =
        some (scoping', h', visited') ∧
      r.Normal g h' visited' w ∧ before.Related (ScopeSettles g visited') scoping' := by
  have step (before scope : Scope) (redirects : r.ScopeRedirects g before scope)
      {h : Graph} {visited : List StructId} (normal : r.Normal g h visited w) :
      ∃ scope' h' visited', Scope.settle scope.entries scope (h, visited) =
          some (scope', h', visited') ∧
        r.Normal g h' visited' w ∧ visited ⊆ visited' ∧
        ScopeSettles g visited' before scope' := by
    obtain ⟨scope', h', visited', settled, normal', more, entry⟩ := settleScope_ends closed
      (fun e mem => redirects.has (scope.get?_eq_some_iff.2 mem)) scope normal
    exact ⟨scope', h', visited', settled, normal', more, redirects.settles entry⟩
  cases before with
  | common before =>
    cases scoping with
    | separate => exact redirects.elim
    | common scope =>
      obtain ⟨scope', h', visited', settled, normal', -, settles⟩ := step _ _ redirects normal
      exact ⟨.common scope', h', visited', by simp [Scoping.update, settled], normal', settles⟩
  | separate before before' =>
    cases scoping with
    | common => exact redirects.elim
    | separate left right =>
      obtain ⟨left', h₁, visited₁, settled, normal₁, -, settles⟩ := step _ _ redirects.1 normal
      obtain ⟨right', h', visited', settled', normal', more, settles'⟩ :=
        step _ _ redirects.2 normal₁
      exact ⟨.separate left' right', h', visited', by simp [Scoping.update, settled, settled'],
        normal', settles.mono more, settles'⟩

/-- Bringing a closed region into normal form always ends. -/
theorem exists_normalize (closed : r.Closed g) {v : Value} (has : r.Has v) {scoping : Scoping}
    (inside : scoping.All fun scope => ∀ name v, scope.get? name = some v → r.Has v) :
    ∃ w scoping' h visited, g.normalize v scoping = some (w, scoping', h) ∧
      g.Settles v w ∧ r.Normal g h visited w ∧
      scoping.Related (ScopeSettles g visited) scoping' := by
  have start : r.Visits g g [] := ⟨.refl closed, List.nodup_nil, by simp⟩
  obtain ⟨v₁, h₁, visited₁, redirected, leads⟩ := exists_redirectValue closed has start
  obtain ⟨scoping₁, h₂, visited₂, updated, visits, redirects⟩ :=
    redirectScoping_ends closed inside leads.visits
  have settling : r.Settling g h₂ [] := ⟨visits.reshapes, List.nodup_nil, by simp⟩
  obtain ⟨w, h₃, visited₃, settled, settles, reached, progress, -⟩ :=
    exists_settleValue closed leads.has settling
  have normal : r.Normal g h₃ visited₃ w :=
    ⟨progress.settling, fun s mem => progress.tidy s mem (by simp), reached⟩
  obtain ⟨scoping', h, visited, updated', normal', related⟩ :=
    settleScoping_ends closed redirects normal
  refine ⟨w, scoping', h, visited, ?_, (leads.updates.same w).2 settles, normal', related⟩
  simp [Graph.normalize, redirected, updated, settled, updated']

end Region

end FeatureLogic
