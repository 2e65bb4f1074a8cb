import FeatureLogic.Proofs.Join.Congruence

/-!
# Solutions of a join

Values of a region go to places of a target, in such a way that features of values go to features of
places. A target stays one as long as the operands of a join go to the same place in it: each step
of the join identifies only what goes to one place already. Two values that cannot be joined go to
different places in every target.
-/

namespace FeatureLogic

namespace Join

/-- Places where values may go to, and the places of their features. A value that says nothing goes
everywhere, any other one to one place at most, and what cannot be joined never to the same. -/
structure Target (τ : Type) where
  Sends : Value → τ → Prop
  Feature : τ → String → τ → Prop
  silent : ∀ c, Sends .unspecified c
  unique : ∀ {v c c'}, v ≠ .unspecified → Sends v c → Sends v c' → c = c'
  feature_unique : ∀ {c name d d'}, Feature c name d → Feature c name d' → d = d'
  clash : ∀ {v w c}, v ≠ .unspecified → w ≠ .unspecified → v ≠ w → (∀ x, v ≠ .var x) →
    (∀ x, w ≠ .var x) → Sends v c → Sends w c → ∃ s t, v = .struct s ∧ w = .struct t

variable {τ : Type} {r : Region} {T : Target τ}

/-- Two values that say something and go to one place somewhere go to one place everywhere. -/
theorem Target.iff {v w : Value} {c : τ} (hv : v ≠ .unspecified) (hw : w ≠ .unspecified)
    (left : T.Sends v c) (right : T.Sends w c) (c' : τ) : T.Sends v c' ↔ T.Sends w c' :=
  ⟨fun sends => T.unique hv left sends ▸ right, fun sends => T.unique hw right sends ▸ left⟩

def Target.SendsFeature (T : Target τ) (c : τ) (name : String) (v : Value) : Prop :=
  ∃ d, T.Feature c name d ∧ T.Sends v d

/-- Does the region go to places of the target, with all that it has and points to? -/
structure Solves (r : Region) (T : Target τ) (g : Graph) : Prop where
  feature : ∀ {s m name v c}, r.Has (.struct s) → g.features? s = some m →
    m.get? name = some v → T.Sends (.struct s) c → T.SendsFeature c name v
  forward : ∀ {v w}, r.Has v → g.forward? v = some w → ∀ c, T.Sends v c ↔ T.Sends w c
  content : ∀ {v d}, r.Has v → g.content? v = some d → ∀ c, T.Sends v c ↔ T.Sends d c

def Target.Unites (T : Target τ) (v w : Value) : Prop := ∀ c, T.Sends v c ↔ T.Sends w c

theorem Target.unites_equivalence (T : Target τ) : Equivalence T.Unites where
  refl _ _ := Iff.rfl
  symm same c := (same c).symm
  trans first second c := (first c).trans (second c)

theorem Solves.respects {g : Graph} (solves : Solves r T g) : Respects r T.Unites g :=
  ⟨solves.forward, solves.content⟩

theorem Solves.path {g : Graph} (solves : Solves r T g) (closed : r.Closed g) {v w : Value}
    (has : r.Has v) (path : Relation.ReflTransGen g.Forwards v w) (c : τ) :
    T.Sends v c ↔ T.Sends w c :=
  solves.respects.path T.unites_equivalence closed has path c

theorem Solves.settles {g : Graph} (solves : Solves r T g) (closed : r.Closed g) {v w : Value}
    (has : r.Has v) (settles : g.Settles v w) (c : τ) : T.Sends v c ↔ T.Sends w c :=
  solves.respects.settles T.unites_equivalence closed has settles c

theorem Solves.setFeature {g : Graph} (solves : Solves r T g) {s : StructId} {name : String}
    {u : Value} (sends : ∀ c, T.Sends (.struct s) c → T.SendsFeature c name u) :
    Solves r T (g.setFeature s name u) where
  feature {t m key v c} has found holds sent := by
    rw [Graph.features?_setFeature] at found
    split at found
    · next eq =>
      subst eq
      obtain ⟨m', found', rfl⟩ := Option.map_eq_some_iff.1 found
      rw [NameMap.get?_insert] at holds
      split at holds
      · next eq =>
        cases holds
        exact eq ▸ sends c sent
      · exact solves.feature has found' holds sent
    · exact solves.feature has found holds sent
  forward has step := solves.forward has (by simpa using step)
  content has held := solves.content has (by simpa using held)

theorem Solves.absorb {g : Graph} (solves : Solves r T g) {s t : StructId}
    (same : ∀ c, T.Sends (.struct t) c ↔ T.Sends (.struct s) c) : Solves r T (g.absorb s t) where
  feature has found holds := by
    rw [Graph.features?_absorb] at found
    exact solves.feature has found holds
  forward {v w} has step := by
    rw [Graph.forward?_absorb] at step
    split at step
    · next eq =>
      obtain ⟨_, _, rfl⟩ := Option.map_eq_some_iff.1 step
      exact eq ▸ same
    · exact solves.forward has step
  content has held := solves.content has (by simpa using held)

theorem Solves.setBinding {g : Graph} (solves : Solves r T g) {x : VarId} {binding : Binding}
    (linked : ∀ y, binding = .link y → ∀ c, T.Sends (.var x) c ↔ T.Sends (.var y) c)
    (bound : ∀ v, binding = .bound v → ∀ c, T.Sends (.var x) c ↔ T.Sends v c) :
    Solves r T (g.setBinding x binding) where
  feature has found holds := solves.feature has found holds
  forward {v w} has step c := by
    rw [Graph.forward?_setBinding] at step
    split at step
    · next eq =>
      simp only [Option.bind_eq_some_iff, Option.map_eq_some_iff] at step
      obtain ⟨_, _, y, leads, rfl⟩ := step
      cases binding with
      | link z => cases leads; exact eq ▸ linked _ rfl c
      | free => cases leads
      | bound v => cases leads
    · exact solves.forward has step c
  content {v d} has held c := by
    rw [Graph.content?_setBinding] at held
    split at held
    · next eq =>
      simp only [Option.bind_eq_some_iff] at held
      obtain ⟨_, _, holds⟩ := held
      cases binding with
      | bound v => cases holds; exact eq ▸ bound _ rfl c
      | free => cases holds
      | link z => cases holds
    · exact solves.content has held c

def KnownSends (T : Target τ) (st : JoinState) : Prop :=
  ∀ v w u, ((v, w), u) ∈ st.joined → ∀ c, T.Sends v c → T.Sends w c → T.Sends u c

def Task.Meets (T : Target τ) (c : τ) : Task → Prop
  | .join v w => T.Sends v c ∧ T.Sends w c
  | .merge v w => T.Sends v c ∧ T.Sends w c
  | .nodes v w => T.Sends v c ∧ T.Sends w c
  | .bind x v => T.Sends (.var x) c ∧ T.Sends v c
  | .takeOver s entries => T.Sends (.struct s) c ∧ ∀ p ∈ entries, T.SendsFeature c p.1 p.2

def Fulfils (r : Region) (T : Target τ) (task : Task) (st : JoinState)
    (out : Except Failure Value) (st' : JoinState) : Prop :=
  ∀ c, Invariant r st → task.Ready r st.graph → Solves r T st.graph → KnownSends T st →
    task.Meets T c →
    match out with
    | .ok u => Solves r T st'.graph ∧ KnownSends T st' ∧ T.Sends u c
    | .error f => f.isFatal

variable {st st' st₁ st₂ : JoinState} {out : Except Failure Value}

theorem fulfils_miss {v w u : Value} (ih : Fulfils r T (.merge v w) st (.ok u) st') :
    Fulfils r T (.join v w) st (.ok u) (st'.remember v w u) := by
  intro c invariant ready solves known meets
  obtain ⟨solves', known', sends⟩ := ih c invariant ready solves known meets
  refine ⟨by simpa using solves', fun v' w' u' mem => ?_, sends⟩
  rcases JoinState.mem_remember mem with eq | mem
  · cases eq
    exact fun c' left right => (ih c' invariant ready solves known ⟨left, right⟩).2.2
  · exact known' _ _ _ mem

theorem fulfils_nodes {v w v' w' : Value} (hv : v ≠ .unspecified) (hw : w ≠ .unspecified)
    (left : st.graph.Resolves v v') (right : st.graph.Resolves w w') (ne : v' ≠ w')
    (ih : Fulfils r T (.nodes v' w') st out st') : Fulfils r T (.merge v w) st out st' := by
  intro c invariant ready solves known meets
  exact ih c invariant (invariant.ready_nodes ready hv hw left right ne) solves known
    ⟨(solves.path invariant.closed ready.1 left.path c).1 meets.1,
      (solves.path invariant.closed ready.2 right.path c).1 meets.2⟩

theorem fulfils_clash {v w : Value} {path : List String} {left right : String}
    (hv : ∀ x, v ≠ .var x) (hw : ∀ x, w ≠ .var x) (kinds : ∀ s t, v = .struct s → w ≠ .struct t) :
    Fulfils r T (.nodes v w) st (.error (.mismatch path left right)) st := by
  intro c _ ⟨_, _, hv', hw', _, _, ne⟩ _ _ ⟨sends, sends'⟩
  obtain ⟨s, t, eq, eq'⟩ := T.clash hv' hw' ne hv hw sends sends'
  exact absurd eq' (kinds s t eq)

theorem fulfils_carry {x y : VarId} {d : Value} (held : st.graph.content? (.var x) = some d)
    (ih : Fulfils r T (.bind y d) (st.write (·.setBinding x (.link y))) out st') :
    Fulfils r T (.nodes (.var x) (.var y)) st (out.map fun _ => .var y) st' := by
  intro c invariant ready solves known ⟨sends, sends'⟩
  obtain ⟨invariant₁, ready₁⟩ := invariant.carry ready held
  obtain ⟨hasX, -, hx, hy, -⟩ := ready
  have solves₁ : Solves r T (st.graph.setBinding x (.link y)) :=
    solves.setBinding (by rintro _ ⟨⟩; exact Target.iff hx hy sends sends') (by rintro _ ⟨⟩)
  have result := ih c invariant₁ ready₁ solves₁ known
    ⟨sends', (solves.content hasX held c).1 sends⟩
  cases out with
  | error f => exact result
  | ok u => exact ⟨result.1, result.2.1, sends'⟩

theorem fulfils_bindLeft {x : VarId} {v : Value} (notVar : ∀ y, v ≠ .var y)
    (ih : Fulfils r T (.bind x v) st out st') :
    Fulfils r T (.nodes (.var x) v) st (out.map fun _ => .var x) st' := by
  intro c invariant ⟨hasX, hasV, _, hv, _⟩ solves known meets
  have result := ih c invariant ⟨hasX, hasV, informative_of_ready hv notVar⟩ solves known meets
  cases out with
  | error f => exact result
  | ok u => exact ⟨result.1, result.2.1, meets.1⟩

theorem fulfils_bindRight {y : VarId} {v : Value} (notVar : ∀ x, v ≠ .var x)
    (ih : Fulfils r T (.bind y v) st out st') :
    Fulfils r T (.nodes v (.var y)) st (out.map fun _ => .var y) st' := by
  intro c invariant ⟨hasV, hasY, hv, _⟩ solves known ⟨sends, sends'⟩
  have result := ih c invariant ⟨hasY, hasV, informative_of_ready hv notVar⟩ solves known
    ⟨sends', sends⟩
  cases out with
  | error f => exact result
  | ok u => exact ⟨result.1, result.2.1, sends'⟩

/-- Two structures that go to one place can be joined as far as the target goes. -/
theorem meets_takeOver {s t : StructId} {m : NameMap Value} {c : τ} (solves : Solves r T st.graph)
    (hasT : r.Has (.struct t)) (found : st.graph.features? t = some m)
    (meets : (Task.nodes (.struct s) (.struct t)).Meets T c) :
    Solves r T (st.graph.absorb s t) ∧ (Task.takeOver s m.entries).Meets T c := by
  have informative (u : StructId) : Value.struct u ≠ .unspecified := by simp [Value.unspecified]
  refine ⟨solves.absorb (Target.iff (informative t) (informative s) meets.2 meets.1), meets.1,
    fun p mem => ?_⟩
  exact solves.feature hasT found (m.get?_eq_some_iff.2 mem) meets.2

theorem fulfils_absorb {s t u : StructId} {m : NameMap Value}
    (found : st.graph.features? t = some m)
    (run : Runs (.takeOver s m.entries) (st.write (·.absorb s t)) (.ok (.struct s)) st')
    (survivor : st'.graph.Resolves (.struct s) (.struct u))
    (ih : Fulfils r T (.takeOver s m.entries) (st.write (·.absorb s t)) (.ok (.struct s)) st') :
    Fulfils r T (.nodes (.struct s) (.struct t)) st (.ok (.struct u)) st' := by
  intro c invariant ready solves known meets
  obtain ⟨solves₁, meets₁⟩ := meets_takeOver solves ready.2.1 found meets
  have invariant₁ := invariant.absorb ready
  have ready₁ : (Task.takeOver s m.entries).Ready r (st.graph.absorb s t) :=
    ready_takeOver invariant.closed ready.1 ready.2.1 found
  obtain ⟨solves', known', -⟩ := ih c invariant₁ ready₁ solves₁ known meets₁
  have closed := (run.keeps invariant₁ ready₁).invariant.closed
  exact ⟨solves', known', (solves'.path closed ready.1 survivor.path c).1 meets.1⟩

theorem fulfils_bindBound {x root root' : VarId} {v d u : Value}
    (resolves : st.graph.Resolves (.var x) (.var root))
    (held : st.graph.content? (.var root) = some d) (run : Runs (.join d v) st (.ok u) st')
    (resolves' : st'.graph.Resolves (.var root) (.var root'))
    (ih : Fulfils r T (.join d v) st (.ok u) st') :
    Fulfils r T (.bind x v) st (.ok u) (st'.write (·.setBinding root' (.bound u))) := by
  intro c invariant ⟨hasX, hasV, informative⟩ solves known ⟨sends, sends'⟩
  have hasRoot := invariant.closed.has_of_path hasX resolves.path
  obtain ⟨hasD, informative'⟩ := invariant.closed.content hasRoot held
  have sendsRoot := (solves.path invariant.closed hasX resolves.path c).1 sends
  obtain ⟨solves', known', yields⟩ := ih c invariant ⟨hasD, hasV⟩ solves known
    ⟨(solves.content hasRoot held c).1 sendsRoot, sends'⟩
  obtain ⟨invariant', -, -, blends, -⟩ := run.keeps invariant
    (show (Task.join d v).Ready r st.graph from ⟨hasD, hasV⟩)
  have sendsRoot' := (solves'.path invariant'.closed hasRoot resolves'.path c).1 sendsRoot
  have result := (blends.concrete informative' informative).1
  refine ⟨solves'.setBinding (by rintro _ ⟨⟩) ?_, known', yields⟩
  rintro _ ⟨⟩
  exact Target.iff (by simp [Value.unspecified]) result.ne_unspecified sendsRoot' yields

theorem fulfils_bindFree {x root : VarId} {v : Value}
    (resolves : st.graph.Resolves (.var x) (.var root)) :
    Fulfils r T (.bind x v) st (.ok v) (st.write (·.setBinding root (.bound v))) := by
  intro c invariant ⟨hasX, _, informative⟩ solves known ⟨sends, sends'⟩
  have sendsRoot := (solves.path invariant.closed hasX resolves.path c).1 sends
  refine ⟨solves.setBinding (by rintro _ ⟨⟩) ?_, known, sends'⟩
  rintro _ ⟨⟩
  exact Target.iff (by simp [Value.unspecified]) informative.ne_unspecified sendsRoot sends'

/-- The value that a structure has for a feature goes to where the value for it to take over
goes. -/
theorem exists_meets {s target : StructId} {name : String} {theirs : Value} {m : NameMap Value}
    {c : τ} (solves : Solves r T st.graph) (closed : r.Closed st.graph) (has : r.Has (.struct s))
    (resolves : st.graph.Resolves (.struct s) (.struct target))
    (found : st.graph.features? target = some m) (sent : T.Sends (.struct s) c)
    (sends : T.SendsFeature c name theirs) :
    ∃ d, T.Feature c name d ∧
      (Task.join ((m.get? name).getD .unspecified) theirs).Meets T d := by
  obtain ⟨d, feature, theirs⟩ := sends
  refine ⟨d, feature, ?_, theirs⟩
  cases ours : m.get? name with
  | none => exact T.silent d
  | some v =>
    have hasTarget := closed.has_of_path has resolves.path
    obtain ⟨d', feature', ours⟩ := solves.feature hasTarget found ours
      ((solves.path closed has resolves.path c).1 sent)
    exact T.feature_unique feature feature' ▸ ours

theorem fulfils_feature {s target target' : StructId} {name : String} {theirs u : Value}
    {rest : List (String × Value)} {m : NameMap Value}
    (resolves : st.graph.Resolves (.struct s) (.struct target))
    (found : st.graph.features? target = some m)
    (run : Runs (.join ((m.get? name).getD .unspecified) theirs) st (.ok u) st₁)
    (resolves' : st₁.graph.Resolves (.struct s) (.struct target'))
    (ih : Fulfils r T (.join ((m.get? name).getD .unspecified) theirs) st (.ok u) st₁)
    (ihRest : Fulfils r T (.takeOver s rest) (st₁.write (·.setFeature target' name u)) out st₂) :
    Fulfils r T (.takeOver s ((name, theirs) :: rest)) st out st₂ := by
  intro c invariant ⟨has, entries⟩ solves known ⟨sent, meets⟩
  have hasTarget := invariant.closed.has_of_path has resolves.path
  have readyJoin : (Task.join ((m.get? name).getD .unspecified) theirs).Ready r st.graph :=
    ⟨has_getD invariant.closed hasTarget found name, entries _ List.mem_cons_self⟩
  obtain ⟨d, feature, meetsJoin⟩ :=
    exists_meets solves invariant.closed has resolves found sent (meets _ List.mem_cons_self)
  obtain ⟨solves₁, known₁, yields⟩ := ih d invariant readyJoin solves known meetsJoin
  obtain ⟨invariant', hasU, -, -⟩ := run.keeps invariant readyJoin
  have hasTarget' := invariant'.closed.has_of_path has resolves'.path
  have sets := Graph.GrowsTo.setFeature st₁.graph target' name u
  have solves₂ : Solves r T (st₁.graph.setFeature target' name u) := by
    refine solves₁.setFeature fun c' sends => ?_
    have back := (solves₁.path invariant'.closed has resolves'.path c').2 sends
    cases T.unique (by simp [Value.unspecified]) sent back
    exact ⟨d, feature, yields⟩
  exact ihRest c
    (invariant'.write (invariant'.closed.setFeature hasTarget' name hasU) sets.forward)
    ⟨has, fun p mem => entries p (List.mem_cons_of_mem _ mem)⟩ solves₂ known₁
    ⟨sent, fun p mem => meets p (List.mem_cons_of_mem _ mem)⟩

/-- Every task keeps its guarantee for every target. -/
theorem Runs.fulfils {task : Task} (run : Runs task st out st') : Fulfils r T task st out st' := by
  induction run with
  | hit known =>
    intro c _ _ solves all meets
    exact ⟨solves, all, all _ _ _ known c meets.1 meets.2⟩
  | tooDeep => exact fun _ _ _ _ _ _ => rfl
  | miss _ ih => exact fulfils_miss ih
  | abandon _ ih => exact ih
  | left => exact fun c _ _ solves all meets => ⟨solves, all, meets.2⟩
  | right => exact fun c _ _ solves all meets => ⟨solves, all, meets.1⟩
  | same _ _ left right =>
    exact fun c invariant ready solves all meets =>
      ⟨solves, all, (solves.path invariant.closed ready.1 left.path c).1 meets.1⟩
  | nodes hv hw left right ne _ ih => exact fulfils_nodes hv hw left right ne ih
  | clash hv hw kinds => exact fulfils_clash hv hw kinds
  | @link x y st free =>
    intro c invariant ⟨_, _, hx, hy, _⟩ solves known ⟨sends, sends'⟩
    exact ⟨solves.setBinding (by rintro _ ⟨⟩; exact Target.iff hx hy sends sends')
      (by rintro _ ⟨⟩), known, sends'⟩
  | carry held _ ih => exact fulfils_carry held ih
  | bindLeft notVar _ ih => exact fulfils_bindLeft notVar ih
  | bindRight notVar _ ih => exact fulfils_bindRight notVar ih
  | absorb found run survivor ih => exact fulfils_absorb found run survivor ih
  | absorbFails found _ ih =>
    intro c invariant ready solves known meets
    obtain ⟨solves₁, meets₁⟩ := meets_takeOver solves ready.2.1 found meets
    exact ih c (invariant.absorb ready)
      (ready_takeOver invariant.closed ready.1 ready.2.1 found) solves₁ known meets₁
  | bindFree resolves _ => exact fulfils_bindFree resolves
  | bindBound resolves held run resolves' ih =>
    exact fulfils_bindBound resolves held run resolves' ih
  | bindFails resolves held _ ih =>
    intro c invariant ⟨hasX, hasV, _⟩ solves known ⟨sends, sends'⟩
    have hasRoot := invariant.closed.has_of_path hasX resolves.path
    have sendsRoot := (solves.path invariant.closed hasX resolves.path c).1 sends
    exact ih c invariant ⟨(invariant.closed.content hasRoot held).1, hasV⟩ solves known
      ⟨(solves.content hasRoot held c).1 sendsRoot, sends'⟩
  | done => exact fun _ _ _ solves known meets => ⟨solves, known, meets.1⟩
  | feature resolves found run resolves' _ ih ihRest =>
    exact fulfils_feature resolves found run resolves' ih ihRest
  | featureFails resolves found _ ih =>
    intro c invariant ⟨has, entries⟩ solves known ⟨sent, meets⟩
    have hasTarget := invariant.closed.has_of_path has resolves.path
    obtain ⟨d, -, meetsJoin⟩ :=
      exists_meets solves invariant.closed has resolves found sent (meets _ List.mem_cons_self)
    exact ih d invariant
      ⟨has_getD invariant.closed hasTarget found _, entries _ List.mem_cons_self⟩ solves known
      meetsJoin

end Join

end FeatureLogic
