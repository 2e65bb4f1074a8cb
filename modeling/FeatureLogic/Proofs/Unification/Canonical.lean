import FeatureLogic.Proofs.Graph.Forgetting
import FeatureLogic.Proofs.Graph.Plainness
import FeatureLogic.Proofs.Join.Congruence
import FeatureLogic.Proofs.Unification.Images

/-!
# The canonical embedding

When the unification of plain operands succeeds, every value of theirs goes to what its copy
settles to. This takes both operands into the result, and everything it reaches lies below the
result.
-/

namespace FeatureLogic

open FeatureLogic.Graph Join

namespace Stages

variable {g : Graph} {a b : Value} {stages : Stages g a b}

/-- Does the embedding take every value of the operands to what its copy settles to? -/
structure Canonical (stages : Stages g a b) (e : Embedding) : Prop where
  structs : ∀ {s}, g.Operands a b (.struct s) →
    stages.joined.graph.Settles (stages.image (.struct s)) (.struct (e.structs s))
  names : ∀ {name v}, stages.memory.scope.get? name = some v →
    stages.joined.graph.Settles v (e.names name)

theorem closed (stages : Stages g a b) : stages.region.Closed stages.joined.graph :=
  stages.success.invariant.closed

theorem exists_canonical (stages : Stages g a b) : ∃ e, stages.Canonical e := by
  have structs (s : StructId) : ∃ u, g.Operands a b (.struct s) →
      stages.joined.graph.Settles (stages.image (.struct s)) (.struct u) := by
    by_cases hs : g.Operands a b (.struct s)
    · obtain ⟨t, copied⟩ := stages.imaged hs
      obtain ⟨w, settles⟩ := stages.closed.exists_settles (stages.has_image hs)
      have image := stages.image_struct copied
      rw [image] at settles
      have resolves := (settles_iff_of_informative (v := .struct t) trivial).1 settles
      obtain ⟨u, rfl⟩ := path_struct resolves.path
      exact ⟨u, fun _ => image ▸ settles⟩
    · exact ⟨s, fun h => absurd h hs⟩
  have names (name : String) : ∃ w, ∀ v, stages.memory.scope.get? name = some v →
      stages.joined.graph.Settles v w := by
    cases listed : stages.memory.scope.get? name with
    | none => exact ⟨.unspecified, fun v h => by cases h⟩
    | some v =>
      obtain ⟨w, settles⟩ := stages.closed.exists_settles (stages.has_scope name v listed)
      exact ⟨w, by rintro _ ⟨⟩; exact settles⟩
  choose structs hstructs using structs
  choose names hnames using names
  exact ⟨⟨structs, names⟩, fun hs => hstructs _ hs, fun listed => hnames _ _ listed⟩

variable {e : Embedding}

theorem Canonical.sends (canonical : stages.Canonical e) {v w : Value} (hv : g.Operands a b v)
    (settles : stages.joined.graph.Settles (stages.image v) w) : e.Sends g v w := by
  cases v with
  | atom a => exact .inr (settles.unique (Region.settles_atom _ a))
  | struct s => exact settles.unique (canonical.structs hv)
  | var x =>
    obtain ⟨name, y, called, image, listed⟩ := stages.exists_image_var hv
    rw [image] at settles
    exact ⟨name, called, settles.unique (canonical.names listed)⟩

theorem congruent (stages : Stages g a b) :
    Congruent stages.region stages.joined.graph.Equates
      (.join (stages.image a) (stages.image b)) stages.start stages.outcome stages.joined :=
  stages.run.unites (equates_equivalence _) _ rfl stages.invariant stages.ready
    (respects_equates stages.closed) (fun _ _ _ mem => by cases mem)

theorem settles_left (stages : Stages g a b) (ha : stages.image a ≠ .unspecified) :
    stages.joined.graph.Settles (stages.image a) stages.result :=
  (stages.congruent.identifies.1 ha _).2 stages.settles

theorem settles_right (stages : Stages g a b) (hb : stages.image b ≠ .unspecified) :
    stages.joined.graph.Settles (stages.image b) stages.result :=
  (stages.congruent.identifies.2 hb _).2 stages.settles

theorem Canonical.exists_feature (canonical : stages.Canonical e) {s : StructId} {name : String}
    {v : Value} (hs : g.Operands a b (.struct s)) (feature : g.Feature s name v)
    (entered : e.structs s ∈ stages.visited) :
    ∃ w, stages.final.Feature (e.structs s) name w ∧ stages.joined.graph.Settles w w ∧
      (stages.image v ≠ .unspecified → stages.joined.graph.Settles (stages.image v) w) ∧
      ∀ t, w = .struct t → t ∈ stages.visited := by
  obtain ⟨features, found, holds⟩ := feature
  obtain ⟨t, copied⟩ := stages.imaged hs
  have has : stages.region.Has (.struct t) := (stages.copies.image copied).1
  have copy : stages.graph.Feature t name (stages.image v) :=
    ⟨_, (stages.features?_copy hs copied found).1, by simp [holds]⟩
  have carries :=
    stages.congruent.transfers t name _ has (stages.copies.forward?_eq_none has) copy
  have settles := canonical.structs hs
  rw [stages.image_struct copied] at settles
  exact stages.normal.exists_feature stages.closed has carries settles entered

theorem deref?_of_settles (stages : Stages g a b) {w : Value} (has : stages.region.Has w)
    (settles : stages.joined.graph.Settles w w) : stages.after.deref? w = some w := by
  rw [after, deref?_forgetAbsorbed]
  exact (stages.normal.settled stages.closed has settles).deref?
    (stages.normal.settling.reshapes.closed.contains has)

theorem settles_result (stages : Stages g a b) :
    stages.joined.graph.Settles stages.result stages.result :=
  stages.closed.settles_self stages.success.has stages.settles

theorem has_result (stages : Stages g a b) : stages.region.Has stages.result :=
  (stages.closed.settled stages.success.has stages.settles).has

/-- Everything below the result is settled, and every structure below it was visited. -/
theorem settles_of_below (stages : Stages g a b) {v : Value}
    (below : stages.after.Below stages.result v) :
    stages.region.Has v ∧ stages.joined.graph.Settles v v ∧
      ∀ t, v = .struct t → t ∈ stages.visited :=
  stages.normal.settles_of_below stages.has_result stages.settles_result stages.normal.reached
    ((below_forgetAbsorbed _).1 below)

/-- What a value of an operand settles to lies below the result, unless the value says nothing. -/
theorem Canonical.exists_below (canonical : stages.Canonical e) {v w : Value}
    (hv : g.Operands a b v)
    (settles : stages.image v ≠ .unspecified →
      stages.joined.graph.Settles (stages.image v) stages.result)
    (below : g.Below v w) (informs : stages.image w ≠ .unspecified) :
    ∃ u, stages.after.Below stages.result u ∧
      stages.joined.graph.Settles (stages.image w) u := by
  induction below with
  | refl => exact ⟨stages.result, .refl, settles informs⟩
  | @feature s features name w below found holds ih =>
    have hs : g.Operands a b (.struct s) :=
      hv.imp (fun above => above.trans below) fun above => above.trans below
    obtain ⟨u, below', settles'⟩ := ih (stages.image_struct_ne hs)
    cases settles'.unique (canonical.structs hs)
    obtain ⟨u, ⟨n, found', holds'⟩, -, settled, -⟩ := canonical.exists_feature hs
      ⟨features, found, holds⟩ ((stages.settles_of_below below').2.2 _ rfl)
    exact ⟨u, below'.feature (by rw [after, features?_forgetAbsorbed, found']) holds',
      settled informs⟩

theorem Canonical.exists_below_of_operands (canonical : stages.Canonical e) {v : Value}
    (hv : g.Operands a b v) (informs : stages.image v ≠ .unspecified) :
    ∃ u, stages.after.Below stages.result u ∧
      stages.joined.graph.Settles (stages.image v) u := by
  rcases hv with below | below
  · exact canonical.exists_below (.inl .refl) stages.settles_left below informs
  · exact canonical.exists_below (.inr .refl) stages.settles_right below informs

theorem Canonical.below_struct (canonical : stages.Canonical e) {s : StructId}
    (hs : g.Operands a b (.struct s)) :
    stages.after.Below stages.result (.struct (e.structs s)) := by
  obtain ⟨u, below, settles⟩ := canonical.exists_below_of_operands hs (stages.image_struct_ne hs)
  cases settles.unique (canonical.structs hs)
  exact below

theorem Canonical.below_name (canonical : stages.Canonical e) {x : VarId} {name : String}
    (hx : g.Operands a b (.var x)) (called : g.name? x = some name) :
    stages.after.Below stages.result (e.names name) := by
  obtain ⟨name', y, called', image, listed⟩ := stages.exists_image_var hx
  cases called.symm.trans called'
  obtain ⟨u, below, settles⟩ :=
    canonical.exists_below_of_operands hx (by rw [image]; simp [Value.unspecified])
  rw [image] at settles
  cases settles.unique (canonical.names listed)
  exact below

theorem Canonical.mem_visited (canonical : stages.Canonical e) {s : StructId}
    (hs : g.Operands a b (.struct s)) : e.structs s ∈ stages.visited :=
  (stages.settles_of_below (canonical.below_struct hs)).2.2 _ rfl

/-- The embedding takes an operand into the result. -/
theorem Canonical.embeds (canonical : stages.Canonical e) {v : Value} (hv : g.Operands a b v)
    (settles : stages.image v ≠ .unspecified →
      stages.joined.graph.Settles (stages.image v) stages.result) :
    e.Embeds g v stages.after stages.result where
  root := by
    refine ⟨_, stages.deref?_of_settles stages.has_result stages.settles_result, ?_⟩
    by_cases silent : stages.image v = .unspecified
    · exact stages.sends_of_image_eq hv silent e _
    · exact canonical.sends hv (settles silent)
  feature {s features} below found := by
    have hs : g.Operands a b (.struct s) :=
      hv.imp (fun above => above.trans below) fun above => above.trans below
    have entered := canonical.mem_visited hs
    have has := (stages.normal.settling.inside _ entered).1
    obtain ⟨n, found'⟩ := stages.normal.settling.reshapes.closed.exists_features has
    refine ⟨n, by rw [after, features?_forgetAbsorbed, found'], fun {name u} holds => ?_⟩
    obtain ⟨w, ⟨n', found'', holds'⟩, settled, settles', -⟩ :=
      canonical.exists_feature hs ⟨features, found, holds⟩ entered
    cases found'.symm.trans found''
    have hu := stages.source.feature hs found holds
    have hasW := stages.normal.settling.reshapes.closed.feature has found' holds'
    refine ⟨w, w, holds', stages.deref?_of_settles hasW settled, ?_⟩
    by_cases silent : stages.image u = .unspecified
    · exact stages.sends_of_image_eq hu silent e _
    · exact canonical.sends hu (settles' silent)

end Stages

namespace Graph

/-- One embedding takes both operands into the result: every feature path, every atom that says
something, every shared structure and every repeated variable name of either is found there. -/
theorem unify?_sound {g g' : Graph} {a b r : Value} {scoping : Scoping} {limit : Nat}
    (ha : g.Plain a) (hb : g.Plain b)
    (ok : g.unify? limit a b (.common ∅) = some (.ok (r, scoping), g')) :
    ∃ e : Embedding, e.Embeds g a g' r ∧ e.Embeds g b g' r := by
  obtain ⟨result, ends, how⟩ := ha.exists_ends hb limit
  cases ends.symm.trans ok
  cases how with
  | succeeds stages =>
    obtain ⟨e, canonical⟩ := stages.exists_canonical
    exact ⟨e, canonical.embeds (.inl .refl) stages.settles_left,
      canonical.embeds (.inr .refl) stages.settles_right⟩

theorem records_sound : ∃ (r : Value) (scoping : Scoping) (g' : Graph) (e : Embedding),
    records.unify? 50 (.struct ⟨0⟩) (.struct ⟨1⟩) (.common ∅) = some (.ok (r, scoping), g') ∧
      e.Embeds records (.struct ⟨0⟩) g' r ∧ e.Embeds records (.struct ⟨1⟩) g' r := by
  have ok : ∃ (result : Value × Scoping) (g' : Graph), records.unify? 50 (.struct ⟨0⟩)
      (.struct ⟨1⟩) (.common ∅) = some (.ok result, g') := ⟨_, _, rfl⟩
  obtain ⟨⟨r, scoping⟩, g', ok⟩ := ok
  obtain ⟨e, left, right⟩ :=
    unify?_sound (plain_records (.inl rfl)) (plain_records (.inr rfl)) ok
  exact ⟨r, scoping, g', e, ok, left, right⟩

end Graph

end FeatureLogic
