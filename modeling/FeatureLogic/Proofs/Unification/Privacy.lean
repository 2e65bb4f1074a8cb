import FeatureLogic.Proofs.Copy.Owned
import FeatureLogic.Proofs.Graph.Plainness
import FeatureLogic.Proofs.Unification.Outcome

/-!
# Results are resolved and private

What a successful unification gives back shows no trace of the join. Below the result there are
only nodes added by the unification. Below the result and below every entry of the scopes no
structure was absorbed and every variable is free, and no scope says that a name stands for a free
variable of that name.
-/

namespace FeatureLogic

namespace Graph

open Join

/-- The graph at the end of the join, before the normal form, if the join of the copies succeeds.
What was absorbed on the way is still marked as absorbed there. -/
def joined? (g : Graph) (limit : Nat) (v w : Value) (scoping : Scoping) : Option Graph := do
  let (v, w, _, start) ← g.copyOperands v w scoping
  match joinWithin limit limit [] v w { graph := start } with
  | .ok _ st => return st.graph
  | .error _ _ => none

/-- Is every node below `v` a free variable or a structure that was not absorbed in `joined`? -/
structure Resolved (joined g : Graph) (v : Value) : Prop where
  plain : g.Plain v
  unabsorbed : ∀ {s}, g.Below v (.struct s) →
    ∃ node, joined.struct? s = some node ∧ node.absorbedBy = none

/-- Is every entry of a scope resolved, and does none of them say that its name stands for a free
variable of that name? -/
structure ResolvedScope (joined g : Graph) (scope : Scope) : Prop where
  resolved : ∀ {name v}, scope.get? name = some v → Resolved joined g v
  telling : ∀ {name x}, scope.get? name = some (.var x) → g.name? x ≠ some name

variable {g h joined : Graph}

theorem unabsorbed_of_forward? {s : StructId} (contains : g.Contains (.struct s))
    (stops : g.forward? (.struct s) = none) :
    ∃ node, g.struct? s = some node ∧ node.absorbedBy = none := by
  obtain ⟨node, found⟩ := exists_struct_of_contains contains
  refine ⟨node, found, ?_⟩
  cases absorbed : node.absorbedBy with
  | none => rfl
  | some t => cases stops.symm.trans (forward?_struct_eq_some.2 ⟨node, t, found, absorbed, rfl⟩)

namespace NormalForm

variable {u result : Value} {copied scoping : Scoping} {final : Graph} {visited : List StructId}

theorem resolved (form : NormalForm g h joined u copied result scoping final visited)
    {v w : Value} (has : h.entirety.Has v) (settles : joined.Settles v w)
    (reached : ∀ t, w = .struct t → t ∈ visited) :
    Resolved joined (final.forgetAbsorbed g.structCount) w := by
  have reshapes := form.normal.settling.reshapes
  have settled {t : Value} (below : (final.forgetAbsorbed g.structCount).Below w t) :
      h.entirety.Has t ∧ h.entirety.Settled joined t ∧ h.entirety.Settled final t := by
    obtain ⟨hasT, settles, -⟩ := form.normal.settles_of_below (form.whole.settled has settles).has
      (form.whole.settles_self has settles) reached ((below_forgetAbsorbed _).1 below)
    exact ⟨hasT, form.whole.settled hasT settles, form.normal.settled form.whole hasT settles⟩
  refine ⟨⟨fun below => ?_, fun below => ?_⟩, fun below => ?_⟩
  · obtain ⟨hasT, -⟩ := settled below
    exact (reshapes.closed.contains hasT).mono (by simp) (by simp)
  · obtain ⟨hasX, -, settled⟩ := settled below
    rw [var?_forgetAbsorbed]
    exact settled.free (reshapes.closed.contains hasX)
  · obtain ⟨hasS, settled, -⟩ := settled below
    exact unabsorbed_of_forward? (form.whole.contains hasS) settled.stops

theorem added_of_below (form : NormalForm g h joined u copied result scoping final visited)
    {v : Value} (below : final.Below result v) : (g.added h).Has v := by
  induction below with
  | refl => exact (form.added.settled form.hasOutcome form.settles).has
  | @feature s features name w below found holds ih =>
    -- what is written there now is what one of the joined values settles to
    obtain ⟨hasS, -, reached⟩ := form.settles_of_below below
    obtain ⟨v, ⟨m, found', holds'⟩, updates⟩ :=
      form.normal.settling.reshapes.origin hasS ⟨features, found, holds⟩
    have settled := (form.normal.tidy s (reached s rfl) name w ⟨features, found, holds⟩).1
    exact (form.added.settled (form.added.feature ih found' holds')
      ((updates.same w).2 settled)).has

theorem resolvedScope (form : NormalForm g h joined u copied result scoping final visited)
    {before after : Scope} (inside : ∀ name v, before.get? name = some v → h.entirety.Has v)
    (settles : Region.ScopeSettles joined visited before after) :
    ResolvedScope joined (final.forgetAbsorbed g.structCount) after where
  resolved found := by
    obtain ⟨v, listed, settled, reached, -⟩ := settles.exists_of_get? found
    exact form.resolved (inside _ v listed) settled reached
  telling found := by
    obtain ⟨v, -, -, -, telling⟩ := settles.exists_of_get? found
    rw [name?_forgetAbsorbed, form.normal.settling.reshapes.name]
    exact telling _ rfl

end NormalForm

/-- A success leaves a well-formed graph, in which the result and all entries of the scopes are
plain. -/
theorem WellFormed.plain_unify (wf : g.WellFormed) {a b r : Value} (ha : g.Contains a)
    (hb : g.Contains b) {scoping after : Scoping} (within : scoping.All (Scope.Within · g))
    {limit : Nat} (ok : g.unify? limit a b scoping = some (.ok (r, after), h)) :
    h.WellFormed ∧ h.Plain r ∧ after.All (Scope.Plain · h) := by
  obtain ⟨result, ends, how⟩ := wf.exists_concludes limit ha hb within
  cases ends.symm.trans ok
  cases how with
  | succeeds _ copies _ form =>
    refine ⟨(form.yields wf copies).wellFormed, ?_, ?_⟩
    · exact (form.resolved (entirety_has.2 (contains_of_added form.hasOutcome)) form.settles
        form.normal.reached).plain
    · exact form.scopes.imp_all (fun before after settles inside name v found =>
        ((form.resolvedScope inside settles).resolved found).plain) form.inside

/-- After a successful unification, under any scopes, only added nodes lie below the result, and
the result and all entries of the scopes are resolved. -/
theorem unify?_private {g g' : Graph} {a b r : Value} {scoping after : Scoping} {limit : Nat}
    (wf : g.WellFormed) (ha : g.Contains a) (hb : g.Contains b)
    (within : scoping.All (Scope.Within · g))
    (ok : g.unify? limit a b scoping = some (.ok (r, after), g')) :
    ∃ joined, g.joined? limit a b scoping = some joined ∧
      (∀ {v}, g'.Below r v → (g.added g').Has v) ∧
      Resolved joined g' r ∧ after.All (ResolvedScope joined g') := by
  obtain ⟨result, ends, how⟩ := wf.exists_concludes limit ha hb within
  cases ends.symm.trans ok
  cases how with
  | @succeeds h final v w u _ copied _ st visited walked copies run form =>
    have closed := form.normal.settling.reshapes.closed
    have structs : h.structCount = final.structCount := closed.structCount.symm
    have vars : h.varCount = final.varCount := closed.varCount.symm
    refine ⟨st.graph, by simp [joined?, walked, run], fun below => ?_, ?_, ?_⟩
    · exact added_mono (by simp [structs]) (by simp [vars])
        (form.added_of_below ((below_forgetAbsorbed _).1 below))
    · exact form.resolved (entirety_has.2 (contains_of_added form.hasOutcome)) form.settles
        form.normal.reached
    · exact form.scopes.imp_all
        (fun before after settles inside => form.resolvedScope inside settles) form.inside

theorem records_private : ∃ (r : Value) (after : Scoping) (g' joined : Graph),
    records.unify? 50 (.struct ⟨0⟩) (.struct ⟨1⟩)
      (.common (.ofList [("m", .struct ⟨2⟩), ("n", .var ⟨0⟩)])) = some (.ok (r, after), g') ∧
      records.joined? 50 (.struct ⟨0⟩) (.struct ⟨1⟩)
        (.common (.ofList [("m", .struct ⟨2⟩), ("n", .var ⟨0⟩)])) = some joined ∧
      (∀ {v}, g'.Below r v → (records.added g').Has v) ∧
      Resolved joined g' r ∧ after.All (ResolvedScope joined g') := by
  have ok : ∃ (result : Value × Scoping) (g' : Graph), records.unify? 50 (.struct ⟨0⟩)
      (.struct ⟨1⟩) (.common (.ofList [("m", .struct ⟨2⟩), ("n", .var ⟨0⟩)])) =
        some (.ok result, g') := ⟨_, _, rfl⟩
  obtain ⟨⟨r, after⟩, g', ok⟩ := ok
  have within : (Scoping.common (.ofList [("m", .struct ⟨2⟩), ("n", .var ⟨0⟩)])).All
      (Scope.Within · records) := by
    show Scope.Within _ records
    decide +kernel
  obtain ⟨joined, ends, added, resolved, scopes⟩ :=
    unify?_private wellFormed_records (by decide) (by decide) within ok
  exact ⟨r, after, g', joined, ok, ends, added, resolved, scopes⟩

end Graph

end FeatureLogic
