import FeatureLogic.Proofs.Graph.Settlement
import FeatureLogic.Proofs.Join.Invariance

/-!
# What a join identifies

Fix an equivalence that respects the pointers and bindings at the end of a join. It then identifies
the operands with the outcome, and no feature gets lost: for every feature that a structure had,
the survivor of that structure has a value of that feature, identified with the old one unless that
said nothing. An outcome that is known only in prospect, while an alias carries its value over, is
true in the equivalence, because it respects what is reached in the end.
-/

namespace FeatureLogic

def Graph.Feature (g : Graph) (s : StructId) (name : String) (v : Value) : Prop :=
  ∃ m, g.features? s = some m ∧ m.get? name = some v

theorem Graph.Feature.unique {g : Graph} {s : StructId} {name : String} {v w : Value}
    (hv : g.Feature s name v) (hw : g.Feature s name w) : v = w := by
  obtain ⟨m, found, holds⟩ := hv
  obtain ⟨m', found', holds'⟩ := hw
  cases found.symm.trans found'
  exact Option.some.inj (holds.symm.trans holds')

/-- The feature that was written has the value written to it. All others are as they were. -/
theorem Graph.Feature.setFeature {g : Graph} {t : StructId} {key : String} {v : Value}
    (feature : g.Feature t key v) (s : StructId) (name : String) (w : Value) :
    (g.setFeature s name w).Feature t key (if s = t ∧ name = key then w else v) := by
  obtain ⟨m, found, holds⟩ := feature
  by_cases target : s = t
  · subst target
    refine ⟨m.insert name w, by simp [features?_setFeature, found], ?_⟩
    by_cases eq : name = key <;> simp [eq, holds]
  · exact ⟨m, by rw [features?_setFeature, if_neg target, found], by simp [target, holds]⟩

theorem Graph.Feature.of_setFeature {g : Graph} {s t : StructId} {name key : String} {v w : Value}
    (feature : (g.setFeature s name w).Feature t key v) :
    (s = t ∧ name = key) ∧ v = w ∨ ¬ (s = t ∧ name = key) ∧ g.Feature t key v := by
  obtain ⟨m, found, holds⟩ := feature
  rw [features?_setFeature] at found
  split at found
  · next target =>
    obtain ⟨m', found', rfl⟩ := Option.map_eq_some_iff.1 found
    rw [NameMap.get?_insert] at holds
    split at holds
    · next eq =>
      cases holds
      exact .inl ⟨⟨target, eq⟩, rfl⟩
    · next ne => exact .inr ⟨fun both => ne both.2, m', found', holds⟩
  · next ne => exact .inr ⟨fun both => ne both.1, m, found, holds⟩

namespace Join

variable {r : Region} {R : Value → Value → Prop}

/-- Does the relation identify what the pointers and bindings of the region identify? -/
structure Respects (r : Region) (R : Value → Value → Prop) (g : Graph) : Prop where
  forward : ∀ {v w}, r.Has v → g.forward? v = some w → R v w
  content : ∀ {v c}, r.Has v → g.content? v = some c → R v c

theorem Respects.path {g : Graph} (respects : Respects r R g) (equivalence : Equivalence R)
    (closed : r.Closed g) {v w : Value} (has : r.Has v)
    (path : Relation.ReflTransGen g.Forwards v w) : R v w := by
  induction path with
  | refl => exact equivalence.refl v
  | tail path step ih =>
    exact equivalence.trans ih (respects.forward (closed.has_of_path has path) step)

theorem Respects.same {g : Graph} (respects : Respects r R g) (equivalence : Equivalence R)
    (closed : r.Closed g) {v w : Value} (hasV : r.Has v) (hasW : r.Has w) (same : g.Same v w) :
    R v w := by
  obtain ⟨z, hv, hw⟩ := same
  exact equivalence.trans (respects.path equivalence closed hasV hv)
    (equivalence.symm (respects.path equivalence closed hasW hw))

theorem Respects.settles {g : Graph} (respects : Respects r R g) (equivalence : Equivalence R)
    (closed : r.Closed g) {v w : Value} (has : r.Has v) (settles : g.Settles v w) : R v w := by
  obtain ⟨z, root, held⟩ := settles
  have hasZ := closed.has_of_path has root.path
  refine equivalence.trans (respects.path equivalence closed has root.path) ?_
  cases content : g.content? z with
  | none =>
    rw [content, Option.getD_none] at held
    exact respects.path equivalence closed hasZ held.path
  | some d =>
    rw [content, Option.getD_some] at held
    have hasD := (closed.content hasZ content).1
    exact equivalence.trans (respects.content hasZ content)
      (respects.path equivalence closed hasD held.path)

/-- Values that settle to the same node are identified by what the graph itself says. -/
theorem respects_equates {g : Graph} (closed : r.Closed g) : Respects r g.Equates g :=
  ⟨fun _ step => Graph.equates_of_forward? step,
    fun has held => Graph.equates_of_content? held (closed.content has held).2⟩

theorem Respects.of_growsTo {g h : Graph} (respects : Respects r R h)
    (equivalence : Equivalence R) (closed : r.Closed g) (closed' : r.Closed h)
    (grows : g.GrowsTo h) : Respects r R g where
  forward has step := respects.forward has (grows.forward step)
  content {v c} has held := by
    obtain ⟨w, c', path, held', same⟩ := grows.content held
    have hasW := closed'.has_of_path has path
    have hasC := (closed.content has held).1
    have hasC' := (closed'.content hasW held').1
    exact equivalence.trans (respects.path equivalence closed' has path)
      (equivalence.trans (respects.content hasW held')
        (equivalence.symm (respects.same equivalence closed' hasC hasC' same)))

def Agrees (R : Value → Value → Prop) (v w u : Value) : Prop :=
  (v ≠ .unspecified → R v u) ∧ (w ≠ .unspecified → R w u)

def Known (R : Value → Value → Prop) (st : JoinState) : Prop :=
  ∀ v w u, ((v, w), u) ∈ st.joined → Agrees R v w u

/-- Does the survivor of `s` have the feature, with a value that says at least what `v` says? -/
def Carries (R : Value → Value → Prop) (g : Graph) (s : StructId) (name : String) (v : Value) :
    Prop :=
  ∃ u v', Relation.ReflTransGen g.Forwards (.struct s) (.struct u) ∧
    g.forward? (.struct u) = none ∧ g.Feature u name v' ∧
    (v ≠ .unspecified → v' ≠ .unspecified ∧ R v v')

def Transfers (r : Region) (R : Value → Value → Prop) (g h : Graph) : Prop :=
  ∀ s name v, r.Has (.struct s) → g.forward? (.struct s) = none → g.Feature s name v →
    Carries R h s name v

theorem Carries.trans {g h : Graph} (equivalence : Equivalence R) (closed : r.Closed g)
    (grows : g.GrowsTo h) (transfers : Transfers r R g h) {s : StructId} {name : String}
    {v : Value} (has : r.Has (.struct s)) (carries : Carries R g s name v) :
    Carries R h s name v := by
  obtain ⟨u, v', path, live, feature, tells⟩ := carries
  obtain ⟨u', v'', path', live', feature', tells'⟩ :=
    transfers _ _ _ (closed.has_of_path has path) live feature
  refine ⟨u', v'', (grows.path path).trans path', live', feature', fun hv => ?_⟩
  obtain ⟨hv', same⟩ := tells hv
  obtain ⟨hv'', same'⟩ := tells' hv'
  exact ⟨hv'', equivalence.trans same same'⟩

theorem Transfers.trans {g h k : Graph} (equivalence : Equivalence R) (closed : r.Closed h)
    (grows : h.GrowsTo k) (first : Transfers r R g h) (second : Transfers r R h k) :
    Transfers r R g k :=
  fun _ _ _ has live feature =>
    (first _ _ _ has live feature).trans equivalence closed grows second has

theorem transfers_of_eq {g h : Graph} (equivalence : Equivalence R)
    (features : ∀ s, h.features? s = g.features? s)
    (forward : ∀ s, h.forward? (.struct s) = g.forward? (.struct s)) : Transfers r R g h := by
  rintro s name v - live ⟨m, found, holds⟩
  exact ⟨s, v, .refl, (forward s).trans live, ⟨m, (features s).trans found, holds⟩,
    fun hv => ⟨hv, equivalence.refl v⟩⟩

theorem Transfers.refl (equivalence : Equivalence R) (g : Graph) : Transfers r R g g :=
  transfers_of_eq equivalence (fun _ => rfl) fun _ => rfl

theorem transfers_setBinding (equivalence : Equivalence R) (g : Graph) (x : VarId)
    (binding : Binding) : Transfers r R g (g.setBinding x binding) :=
  transfers_of_eq equivalence (fun _ => rfl) fun _ => rfl

def Task.Identifies (R : Value → Value → Prop) (h : Graph) (u : Value) : Task → Prop
  | .join v w => Agrees R v w u
  | .merge v w => Agrees R v w u
  | .nodes v w => Agrees R v w u
  | .bind _ _ => True
  | .takeOver s entries => ∀ e ∈ entries, Carries R h s e.1 e.2

structure Congruent (r : Region) (R : Value → Value → Prop) (task : Task) (st : JoinState)
    (u : Value) (st' : JoinState) : Prop where
  known : Known R st'
  transfers : Transfers r R st.graph st'.graph
  identifies : task.Identifies R st'.graph u

/-- The guarantee of a task that ends with `out`, for an equivalence that respects its end. -/
def Unites (r : Region) (R : Value → Value → Prop) (task : Task) (st : JoinState)
    (out : Except Failure Value) (st' : JoinState) : Prop :=
  ∀ u, out = .ok u → Invariant r st → task.Ready r st.graph → Respects r R st'.graph →
    Known R st → Congruent r R task st u st'

variable {st st' st₁ st₂ : JoinState} {out : Except Failure Value}

theorem unites_miss {v w u : Value} (ih : Unites r R (.merge v w) st (.ok u) st') :
    Unites r R (.join v w) st (.ok u) (st'.remember v w u) := by
  rintro _ ⟨⟩ invariant ready respects known
  obtain ⟨known', transfers, agrees⟩ := ih u rfl invariant ready (by simpa using respects) known
  refine ⟨fun _ _ _ mem => ?_, by simpa using transfers, agrees⟩
  rcases JoinState.mem_remember mem with h | mem
  · cases h
    exact agrees
  · exact known' _ _ _ mem

theorem unites_nodes (equivalence : Equivalence R) {v w v' w' : Value} (hv : v ≠ .unspecified)
    (hw : w ≠ .unspecified) (left : st.graph.Resolves v v') (right : st.graph.Resolves w w')
    (ne : v' ≠ w') (run : Runs (.nodes v' w') st out st')
    (ih : Unites r R (.nodes v' w') st out st') : Unites r R (.merge v w) st out st' := by
  rintro u rfl invariant ready respects known
  have ready' := invariant.ready_nodes ready hv hw left right ne
  have ⟨_, _, hv', hw', _⟩ := ready'
  have success := run.keeps invariant ready'
  have respects₀ := respects.of_growsTo equivalence invariant.closed success.invariant.closed
    success.grows
  obtain ⟨known', transfers, agreesLeft, agreesRight⟩ := ih u rfl invariant ready' respects known
  refine ⟨known', transfers, fun _ => ?_, fun _ => ?_⟩
  · exact equivalence.trans (respects₀.path equivalence invariant.closed ready.1 left.path)
      (agreesLeft hv')
  · exact equivalence.trans (respects₀.path equivalence invariant.closed ready.2 right.path)
      (agreesRight hw')

theorem Respects.bound (respects : Respects r R st'.graph) (equivalence : Equivalence R)
    {x : VarId} {v u : Value} (hasX : r.Has (.var x)) (hasV : r.Has v)
    (success : Success r (.bind x v) st u st') : R v (.var x) := by
  obtain ⟨invariant, hasU, -, -, same, root, path, content⟩ := success
  have toRoot := respects.path equivalence invariant.closed hasX path
  have toContent := respects.content (invariant.closed.has_of_path hasX path) content
  exact equivalence.trans (respects.same equivalence invariant.closed hasV hasU same)
    (equivalence.symm (equivalence.trans toRoot toContent))

theorem unites_carry (equivalence : Equivalence R) {x y : VarId} {c : Value}
    (held : st.graph.content? (.var x) = some c)
    (run : Runs (.bind y c) (st.write (·.setBinding x (.link y))) out st')
    (ih : Unites r R (.bind y c) (st.write (·.setBinding x (.link y))) out st') :
    Unites r R (.nodes (.var x) (.var y)) st (out.map fun _ => .var y) st' := by
  intro u ok invariant ready respects known
  cases out with
  | error f => cases ok
  | ok b =>
    cases ok
    have hasX := ready.1
    obtain ⟨invariant₁, ready₁⟩ := invariant.carry ready held
    have success := run.keeps invariant₁ ready₁
    obtain ⟨known', transfers, -⟩ := ih b rfl invariant₁ ready₁ respects known
    have linked := invariant.closed.forward?_link hasX y
    exact ⟨known', (transfers_setBinding equivalence _ x _).trans equivalence invariant₁.closed
        success.grows transfers,
      fun _ => respects.forward hasX (success.grows.forward linked),
      fun _ => equivalence.refl _⟩

theorem unites_bindLeft (equivalence : Equivalence R) {x : VarId} {v : Value}
    (notVar : ∀ y, v ≠ .var y) (run : Runs (.bind x v) st out st')
    (ih : Unites r R (.bind x v) st out st') :
    Unites r R (.nodes (.var x) v) st (out.map fun _ => .var x) st' := by
  intro u ok invariant ready respects known
  cases out with
  | error f => cases ok
  | ok b =>
    cases ok
    obtain ⟨hasX, hasV, -, hv, -⟩ := ready
    have ready' : (Task.bind x v).Ready r st.graph := ⟨hasX, hasV, informative_of_ready hv notVar⟩
    obtain ⟨known', transfers, -⟩ := ih b rfl invariant ready' respects known
    exact ⟨known', transfers, fun _ => equivalence.refl _,
      fun _ => respects.bound equivalence hasX hasV (run.keeps invariant ready')⟩

theorem unites_bindRight (equivalence : Equivalence R) {y : VarId} {v : Value}
    (notVar : ∀ x, v ≠ .var x) (run : Runs (.bind y v) st out st')
    (ih : Unites r R (.bind y v) st out st') :
    Unites r R (.nodes v (.var y)) st (out.map fun _ => .var y) st' := by
  intro u ok invariant ready respects known
  cases out with
  | error f => cases ok
  | ok b =>
    cases ok
    obtain ⟨hasV, hasY, hv, -⟩ := ready
    have ready' : (Task.bind y v).Ready r st.graph := ⟨hasY, hasV, informative_of_ready hv notVar⟩
    obtain ⟨known', transfers, -⟩ := ih b rfl invariant ready' respects known
    exact ⟨known', transfers,
      fun _ => respects.bound equivalence hasY hasV (run.keeps invariant ready'),
      fun _ => equivalence.refl _⟩

theorem unites_absorb (equivalence : Equivalence R) {s t u : StructId} {m : NameMap Value}
    (found : st.graph.features? t = some m)
    (run : Runs (.takeOver s m.entries) (st.write (·.absorb s t)) (.ok (.struct s)) st')
    (survivor : st'.graph.Resolves (.struct s) (.struct u))
    (ih : Unites r R (.takeOver s m.entries) (st.write (·.absorb s t)) (.ok (.struct s)) st') :
    Unites r R (.nodes (.struct s) (.struct t)) st (.ok (.struct u)) st' := by
  rintro _ ⟨⟩ invariant ready respects known
  obtain ⟨hasS, hasT, -, -, -, liveT, -⟩ := id ready
  have invariant₁ := invariant.absorb ready
  have ready' : (Task.takeOver s m.entries).Ready r (st.graph.absorb s t) :=
    ready_takeOver invariant.closed hasS hasT found
  have success := run.keeps invariant₁ ready'
  obtain ⟨known', transfers, carried⟩ := ih _ rfl invariant₁ ready' respects known
  have absorbed := invariant.closed.forward?_absorb hasT s
  have pointer := success.grows.forward absorbed
  refine ⟨known', ?_, fun _ => ?_, fun _ => ?_⟩
  · rintro s' name v has live ⟨m', found', holds⟩
    by_cases h : s' = t
    · -- the features of `t` are the ones taken over
      subst h
      cases found.symm.trans found'
      obtain ⟨u', v', path, rest⟩ := carried _ (m.get?_eq_some_iff.1 holds)
      exact ⟨u', v', .head pointer path, rest⟩
    · refine transfers _ _ _ has ?_ ⟨m', ?_, holds⟩
      · rw [JoinState.graph_write, Graph.forward?_absorb, if_neg (by simpa using h), live]
      · rw [JoinState.graph_write, Graph.features?_absorb, found']
  · exact respects.path equivalence success.invariant.closed hasS survivor.path
  · exact respects.path equivalence success.invariant.closed hasT (.head pointer survivor.path)

/-- The value that a feature has before the outcome for it is written says no more than the
outcome, whatever the join of the two values did to the survivor meanwhile. -/
theorem transfers_setFeature (equivalence : Equivalence R) {s target target' : StructId}
    {name : String} {theirs u : Value} {m : NameMap Value} (closed : r.Closed st.graph)
    (has : r.Has (.struct s)) (resolves : st.graph.Resolves (.struct s) (.struct target))
    (found : st.graph.features? target = some m)
    (success : Success r (.join ((m.get? name).getD .unspecified) theirs) st u st₁)
    (congruent : Congruent r R (.join ((m.get? name).getD .unspecified) theirs) st u st₁)
    (resolves' : st₁.graph.Resolves (.struct s) (.struct target')) :
    Transfers r R st₁.graph (st₁.graph.setFeature target' name u) := by
  obtain ⟨-, -, grows, blends, unchanged⟩ := success
  obtain ⟨-, transfers, agrees, -⟩ := congruent
  have survivor : st₁.graph.Resolves (.struct target) (.struct target') :=
    (Graph.same_of_path (grows.path resolves.path)).symm.resolves resolves'
  have old {v : Value} (feature : st₁.graph.Feature target' name v) (hv : v ≠ .unspecified) :
      u ≠ .unspecified ∧ R v u := by
    by_cases nothing : (m.get? name).getD .unspecified = .unspecified
    · -- nothing was joined, so the graph is the one from before
      rw [unchanged nothing] at feature survivor
      cases survivor.unique ⟨.refl, resolves.stops, resolves.contains⟩
      obtain ⟨m', found', holds⟩ := feature
      cases found.symm.trans found'
      rw [holds] at nothing
      exact absurd nothing hv
    · cases ours : m.get? name with
      | none => exact absurd (by rw [ours]; rfl) nothing
      | some v₀ =>
        rw [ours, Option.getD_some] at nothing blends agrees
        obtain ⟨t, v', path, live, feature', tells⟩ :=
          transfers _ _ _ (closed.has_of_path has resolves.path) resolves.stops ⟨m, found, ours⟩
        have same : t = target' := by
          have := (Graph.same_of_path path).symm.trans survivor.same
          simpa using (Graph.eq_of_path_of_stops (this.path_of_stops survivor.stops) live).symm
        subst same
        cases feature'.unique feature
        refine ⟨?_, equivalence.trans (equivalence.symm (tells nothing).2) (agrees nothing)⟩
        by_cases h : theirs = .unspecified
        · exact blends.right h ▸ nothing
        · exact blends.informed nothing h
  intro t key v _ live feature
  refine ⟨t, _, .refl, by simpa using live, feature.setFeature target' name u, fun hv => ?_⟩
  split
  · next written =>
    obtain ⟨rfl, rfl⟩ := written
    exact old feature hv
  · exact ⟨hv, equivalence.refl v⟩

theorem unites_feature (equivalence : Equivalence R) {s target target' : StructId}
    {name : String} {theirs u : Value} {rest : List (String × Value)} {m : NameMap Value}
    (resolves : st.graph.Resolves (.struct s) (.struct target))
    (found : st.graph.features? target = some m)
    (run : Runs (.join ((m.get? name).getD .unspecified) theirs) st (.ok u) st₁)
    (resolves' : st₁.graph.Resolves (.struct s) (.struct target'))
    (runRest : Runs (.takeOver s rest) (st₁.write (·.setFeature target' name u)) out st₂)
    (ih : Unites r R (.join ((m.get? name).getD .unspecified) theirs) st (.ok u) st₁)
    (ihRest : Unites r R (.takeOver s rest) (st₁.write (·.setFeature target' name u)) out st₂) :
    Unites r R (.takeOver s ((name, theirs) :: rest)) st out st₂ := by
  rintro u' rfl invariant ⟨has, entries⟩ respects known
  have hasTarget := invariant.closed.has_of_path has resolves.path
  have readyJoin : (Task.join ((m.get? name).getD .unspecified) theirs).Ready r st.graph :=
    ⟨has_getD invariant.closed hasTarget found name, entries _ List.mem_cons_self⟩
  have success : Success r _ st u st₁ := run.keeps invariant readyJoin
  have hasTarget' := success.invariant.closed.has_of_path has resolves'.path
  have sets := Graph.GrowsTo.setFeature st₁.graph target' name u
  have invariant₁ : Invariant r (st₁.write (·.setFeature target' name u)) :=
    success.invariant.write (success.invariant.closed.setFeature hasTarget' name success.has)
      sets.forward
  have readyRest : (Task.takeOver s rest).Ready r (st₁.graph.setFeature target' name u) :=
    ⟨has, fun e mem => entries e (List.mem_cons_of_mem _ mem)⟩
  have successRest : Success r _ _ u' st₂ := runRest.keeps invariant₁ readyRest
  have respects₁ : Respects r R st₁.graph :=
    respects.of_growsTo equivalence success.invariant.closed successRest.invariant.closed
      (sets.trans successRest.grows)
  have congruent := ih u rfl invariant readyJoin respects₁ known
  obtain ⟨known₂, transfersRest, carried⟩ :=
    ihRest u' rfl invariant₁ readyRest respects congruent.known
  have transfersSet := transfers_setFeature equivalence invariant.closed has resolves found
    success congruent resolves'
  have transfers₁ :=
    transfersSet.trans equivalence invariant₁.closed successRest.grows transfersRest
  refine ⟨known₂, congruent.transfers.trans equivalence success.invariant.closed
    (sets.trans successRest.grows) transfers₁, fun e mem => ?_⟩
  rcases List.mem_cons.1 mem with rfl | mem
  · obtain ⟨m', found'⟩ := success.invariant.closed.exists_features hasTarget'
    refine Carries.trans equivalence invariant₁.closed successRest.grows transfersRest has
      ⟨target', u, sets.path resolves'.path, by simpa using resolves'.stops,
        ⟨m'.insert name u, by simp [Graph.features?_setFeature, found'], by simp⟩, fun h => ?_⟩
    refine ⟨?_, congruent.identifies.2 h⟩
    by_cases ours : (m.get? name).getD .unspecified = .unspecified
    · exact success.done.1.left ours ▸ h
    · exact success.done.1.informed ours h
  · exact carried e mem

/-- Every task that succeeds keeps its guarantee for every equivalence. -/
theorem Runs.unites (equivalence : Equivalence R) {task : Task} (run : Runs task st out st') :
    Unites r R task st out st' := by
  induction run with
  | hit known =>
    rintro _ ⟨⟩ _ _ _ all
    exact ⟨all, .refl equivalence _, all _ _ _ known⟩
  | tooDeep => rintro _ ⟨⟩
  | miss _ ih => exact unites_miss ih
  | abandon => rintro _ ⟨⟩
  | left =>
    rintro _ ⟨⟩ _ _ _ known
    exact ⟨known, .refl equivalence _, fun h => absurd rfl h, fun _ => equivalence.refl _⟩
  | right =>
    rintro _ ⟨⟩ _ _ _ known
    exact ⟨known, .refl equivalence _, fun _ => equivalence.refl _, fun h => absurd rfl h⟩
  | same _ _ left right =>
    rintro _ ⟨⟩ invariant ready respects known
    exact ⟨known, .refl equivalence _,
      fun _ => respects.path equivalence invariant.closed ready.1 left.path,
      fun _ => respects.path equivalence invariant.closed ready.2 right.path⟩
  | nodes hv hw left right ne run ih => exact unites_nodes equivalence hv hw left right ne run ih
  | clash => rintro _ ⟨⟩
  | @link x y st free =>
    rintro _ ⟨⟩ invariant ready respects known
    exact ⟨known, transfers_setBinding equivalence _ x _,
      fun _ => respects.forward ready.1 (invariant.closed.forward?_link ready.1 y),
      fun _ => equivalence.refl _⟩
  | carry held run ih => exact unites_carry equivalence held run ih
  | bindLeft notVar run ih => exact unites_bindLeft equivalence notVar run ih
  | bindRight notVar run ih => exact unites_bindRight equivalence notVar run ih
  | absorb found run survivor ih => exact unites_absorb equivalence found run survivor ih
  | absorbFails => rintro _ ⟨⟩
  | bindFree =>
    rintro _ ⟨⟩ _ _ _ known
    exact ⟨known, transfers_setBinding equivalence _ _ _, trivial⟩
  | @bindBound x root root' v c u st st' resolves held run resolves' ih =>
    rintro _ ⟨⟩ invariant ⟨hasX, hasV, informative⟩ respects known
    have hasRoot := invariant.closed.has_of_path hasX resolves.path
    obtain ⟨hasC, informative'⟩ := invariant.closed.content hasRoot held
    have success : Success r _ st u st' := run.keeps invariant ⟨hasC, hasV⟩
    have final := (Runs.bindBound resolves held run resolves').keeps invariant
      (show (Task.bind x v).Ready r st.graph from ⟨hasX, hasV, informative⟩)
    have same := (success.done.1.concrete informative' informative).2.1
    have rebinds : st'.graph.GrowsTo (st'.graph.setBinding root' (.bound u)) :=
      .bind resolves'.stops fun c' held' => same_content success.grows held resolves' same held'
    have respects' := respects.of_growsTo equivalence success.invariant.closed
      final.invariant.closed rebinds
    obtain ⟨known', transfers, -⟩ := ih u rfl invariant ⟨hasC, hasV⟩ respects' known
    exact ⟨known', transfers.trans equivalence success.invariant.closed rebinds
      (transfers_setBinding equivalence _ _ _), trivial⟩
  | bindFails => rintro _ ⟨⟩
  | done =>
    rintro _ ⟨⟩ _ _ _ known
    exact ⟨known, .refl equivalence _, fun _ mem => by cases mem⟩
  | feature resolves found run resolves' runRest ih ihRest =>
    exact unites_feature equivalence resolves found run resolves' runRest ih ihRest
  | featureFails => rintro _ ⟨⟩

end Join

end FeatureLogic
