import FeatureLogic.Proofs.Graph.Matching
import FeatureLogic.Proofs.Join.Lockstep
import FeatureLogic.Proofs.Unification.Outcome

/-!
# Unifications of mirrored copies

If the copies of operands are mirrored, both joins keep step, and outcomes are brought into the same
normal form: partners settle to partners, and what the walks of the normal form have settled is
closed under features on either side. Scopes drop the same entries if partners have the same names.
The outcomes then are the same but for the numbers of nodes.
-/

namespace FeatureLogic

/-- Does the pairing make one result, with its scopes, the other one with the nodes renumbered? -/
structure Pairing.Couples (q : Pairing) (g : Graph) (u : Value) (scoping : Scoping) (h : Graph)
    (w : Value) (scoping' : Scoping) : Prop where
  structs : Relator.BiUnique q.structs
  vars : Relator.BiUnique q.vars
  named : ∀ {x y}, q.vars x y → g.SameName h x y
  closed : q.Closed g h
  result : q.Pairs g h u w
  scopes : scoping.Related
    (fun scope scope' => ∀ name, Option.Rel (q.Pairs g h) (scope.get? name) (scope'.get? name))
    scoping'

inductive Graph.Counterparts (g h : Graph) :
    Except Failure (Value × Scoping) → Except Failure (Value × Scoping) → Prop where
  | failure {f : Failure} : Counterparts g h (.error f) (.error f)
  | success {q : Pairing} {u w : Value} {scoping scoping' : Scoping} :
    q.Couples g u scoping h w scoping' → Counterparts g h (.ok (u, scoping)) (.ok (w, scoping'))

namespace Pairing

variable {q : Pairing} {R : Value → Value → Prop} {g h : Graph}

/-- Is what `R` relates settled to partners, and does `R` relate the features of partners? -/
structure SettledBy (q : Pairing) (R : Value → Value → Prop) (g h : Graph) : Prop where
  features : ∀ {s t}, q.structs s t → ∀ {m n}, g.features? s = some m → h.features? t = some n →
    ∀ name, Option.Rel R (m.get? name) (n.get? name)
  settles : ∀ {v w v' w'}, R v w → g.Settles v v' → h.Settles w w' → q.Relates v' w'

theorem Mirrors.settledBy (mirrors : q.Mirrors g h) : q.SettledBy q.Relates g h :=
  ⟨mirrors.features, mirrors.settles⟩

end Pairing

namespace Graph

open Join

structure Tended (r : Region) (joined : Graph) (visited : List StructId) (v : Value) : Prop where
  has : r.Has v
  settles : joined.Settles v v
  reached : ∀ t, v = .struct t → t ∈ visited

variable {g h joined : Graph} {u result : Value} {copied scoping : Scoping} {final : Graph}
  {visited : List StructId}

namespace NormalForm

variable (form : NormalForm g h joined u copied result scoping final visited)

include form

theorem tended {v w : Value} (has : h.entirety.Has v) (settles : joined.Settles v w)
    (reached : ∀ t, w = .struct t → t ∈ visited) : Tended h.entirety joined visited w where
  has := (form.whole.settled has settles).has
  settles := form.whole.settles_self has settles
  reached := reached

theorem tended_result : Tended h.entirety joined visited result :=
  form.tended (entirety_has.2 (contains_of_added form.hasOutcome)) form.settles form.normal.reached

theorem tended_of_below {v w : Value} (tended : Tended h.entirety joined visited v)
    (below : final.Below v w) : Tended h.entirety joined visited w := by
  obtain ⟨has, settles, reached⟩ :=
    form.normal.settles_of_below tended.has tended.settles tended.reached below
  exact ⟨has, settles, reached⟩

theorem deref?_of_tended {v : Value} (tended : Tended h.entirety joined visited v) :
    (final.forgetAbsorbed g.structCount).deref? v = some v := by
  rw [deref?_forgetAbsorbed]
  exact form.deref?_self tended.has tended.settles

theorem exists_name?_of_tended {x : VarId} (tended : Tended h.entirety joined visited (.var x)) :
    ∃ name, joined.name? x = some name ∧
      (final.forgetAbsorbed g.structCount).name? x = some name := by
  obtain ⟨node, found⟩ := form.normal.settling.reshapes.closed.exists_var tended.has
  have called : final.name? x = some node.name := by simp [name?, found]
  exact ⟨node.name, (form.normal.settling.reshapes.name x).symm.trans called,
    by rw [name?_forgetAbsorbed, called]⟩

end NormalForm

section Settled

variable {g' h' joined' : Graph} {u' result' : Value} {copied' scoping' : Scoping} {final' : Graph}
  {visited' : List StructId} {q : Pairing} {R : Value → Value → Prop}
  (form : NormalForm g h joined u copied result scoping final visited)
  (form' : NormalForm g' h' joined' u' copied' result' scoping' final' visited')
  (settled : q.SettledBy R joined joined')

def tendedPairs (q : Pairing) (h joined : Graph) (visited : List StructId) (h' joined' : Graph)
    (visited' : List StructId) : Pairing :=
  q.within (Tended h.entirety joined visited) (Tended h'.entirety joined' visited')

include form form'

theorem tendedPairs_of_tended {v w : Value} (related : q.Relates v w)
    (tended : Tended h.entirety joined visited v)
    (tended' : Tended h'.entirety joined' visited' w) :
    (tendedPairs q h joined visited h' joined' visited').Pairs (final.forgetAbsorbed g.structCount)
      (final'.forgetAbsorbed g'.structCount) v w :=
  ⟨v, w, form.deref?_of_tended tended, form'.deref?_of_tended tended',
    related.within tended tended'⟩

include settled

/-- In the normal forms of joins that settle alike, structures that are partners have partners
under the same names. -/
theorem NormalForm.exists_maps {t t' : StructId} (partners : q.structs t t')
    (tended : Tended h.entirety joined visited (.struct t))
    (tended' : Tended h'.entirety joined' visited' (.struct t')) :
    ∃ m n, final.features? t = some m ∧ final'.features? t' = some n ∧ q.Maps m n := by
  obtain ⟨m₀, before⟩ := form.whole.exists_features tended.has
  obtain ⟨n₀, before'⟩ := form'.whole.exists_features tended'.has
  obtain ⟨m, after⟩ := form.normal.settling.reshapes.closed.exists_features tended.has
  obtain ⟨n, after'⟩ := form'.normal.settling.reshapes.closed.exists_features tended'.has
  refine ⟨m, n, after, after', fun name => ?_⟩
  -- partners from before the normal form, and what each of them settles to
  have related := settled.features partners before before' name
  have left := form.settles_features (tended.reached t rfl) before after name
  have right := form'.settles_features (tended'.reached t' rfl) before' after' name
  generalize m₀.get? name = v at left related
  generalize n₀.get? name = v' at right related
  generalize m.get? name = z at left
  generalize n.get? name = z' at right
  cases related with
  | none =>
    cases left
    cases right
    exact .none
  | some related =>
    cases left with
    | some settles =>
      cases right with
      | some settles' => exact .some (settled.settles related settles settles')

theorem NormalForm.closed_tendedPairs :
    (tendedPairs q h joined visited h' joined' visited').Closed
      (final.forgetAbsorbed g.structCount) (final'.forgetAbsorbed g'.structCount) := by
  rintro t t' ⟨partners, tended, tended'⟩
  obtain ⟨m, n, found, found', maps⟩ := form.exists_maps form' settled partners tended tended'
  refine ⟨m, n, by rw [features?_forgetAbsorbed, found], by rw [features?_forgetAbsorbed, found'],
    maps.keys_eq, fun {name v v'} hv hv' => ?_⟩
  have related := maps name
  rw [hv, hv'] at related
  cases related with
  | some related =>
    exact tendedPairs_of_tended form form' related
      (form.tended_of_below tended (.feature .refl found hv))
      (form'.tended_of_below tended' (.feature .refl found' hv'))

theorem NormalForm.pairs_tendedPairs (outcomes : R u u') :
    (tendedPairs q h joined visited h' joined' visited').Pairs
      (final.forgetAbsorbed g.structCount) (final'.forgetAbsorbed g'.structCount) result result' :=
  tendedPairs_of_tended form form' (settled.settles outcomes form.settles form'.settles)
    form.tended_result form'.tended_result

theorem NormalForm.keeps_tendedPairs (named : q.Named joined joined') {name : String}
    {v v' : Value} {entry entry' : Option Value} (has : h.entirety.Has v)
    (has' : h'.entirety.Has v') (keeps : Region.Keeps joined visited name v entry)
    (keeps' : Region.Keeps joined' visited' name v' entry') (related : R v v') :
    Option.Rel ((tendedPairs q h joined visited h' joined' visited').Pairs
      (final.forgetAbsorbed g.structCount) (final'.forgetAbsorbed g'.structCount))
      entry entry' := by
  obtain ⟨w, left, reached, kept⟩ := keeps
  obtain ⟨w', right, reached', kept'⟩ := keeps'
  have ends := settled.settles related left right
  -- what is dropped is a variable of this very name, and partners have the same name
  rcases kept with ⟨rfl, telling⟩ | ⟨rfl, x, rfl, own⟩
  · rcases kept' with ⟨rfl, -⟩ | ⟨rfl, y, rfl, own'⟩
    · exact .some (tendedPairs_of_tended form form' ends (form.tended has left reached)
        (form'.tended has' right reached'))
    · obtain ⟨x, rfl, partners⟩ := ends.exists_var_left
      exact absurd ((named partners).trans own') (telling x rfl)
  · rcases kept' with ⟨rfl, telling'⟩ | ⟨rfl, -⟩
    · obtain ⟨y, rfl, partners⟩ := ends.exists_var_right
      exact absurd ((named partners).symm.trans own) (telling' y rfl)
    · exact .none

theorem NormalForm.scopes_tendedPairs (named : q.Named joined joined')
    {before before' after after' : Scope}
    (inside : ∀ name v, before.get? name = some v → h.entirety.Has v)
    (inside' : ∀ name v, before'.get? name = some v → h'.entirety.Has v)
    (settles : Region.ScopeSettles joined visited before after)
    (settles' : Region.ScopeSettles joined' visited' before' after')
    (maps : ∀ name, Option.Rel R (before.get? name) (before'.get? name)) (name : String) :
    Option.Rel ((tendedPairs q h joined visited h' joined' visited').Pairs
      (final.forgetAbsorbed g.structCount) (final'.forgetAbsorbed g'.structCount))
      (after.get? name) (after'.get? name) := by
  have related := maps name
  generalize listed : before.get? name = entry at related
  generalize listed' : before'.get? name = entry' at related
  cases related with
  | none =>
    rw [settles.absent listed, settles'.absent listed']
    exact .none
  | some related =>
    exact form.keeps_tendedPairs form' settled named (inside name _ listed)
      (inside' name _ listed') (settles.present listed) (settles'.present listed') related

/-- If partners have the same names, outcomes and scopes that are settled alike are the same but for
the numbers of nodes. -/
theorem NormalForm.couples_of_settledBy (structs : Relator.BiUnique q.structs)
    (vars : Relator.BiUnique q.vars) (named : q.Named joined joined') (outcomes : R u u')
    (scopes : copied.Related
      (fun scope scope' => ∀ name, Option.Rel R (scope.get? name) (scope'.get? name)) copied') :
    (tendedPairs q h joined visited h' joined' visited').Couples
      (final.forgetAbsorbed g.structCount) result scoping
      (final'.forgetAbsorbed g'.structCount) result' scoping' where
  structs := structs.mono And.left
  vars := vars.mono And.left
  named := by
    rintro x y ⟨partners, tended, tended'⟩
    obtain ⟨name, before, after⟩ := form.exists_name?_of_tended tended
    obtain ⟨name', before', after'⟩ := form'.exists_name?_of_tended tended'
    cases before.symm.trans ((named partners).trans before')
    exact ⟨name, after, after'⟩
  closed := form.closed_tendedPairs form' settled
  result := form.pairs_tendedPairs form' settled outcomes
  scopes := .square (form.scopes_tendedPairs form' settled named) form.inside form'.inside
    form.scopes form'.scopes scopes

omit settled

variable (mirrors : q.Mirrors joined joined')

include mirrors

/-- Mirrored outcomes are isomorphic in normal form. -/
theorem NormalForm.isomorphicUpToNames (unique : Relator.BiUnique q.Relates)
    (outcomes : q.Relates u u') :
    (final.forgetAbsorbed g.structCount).IsomorphicUpToNames result
      (final'.forgetAbsorbed g'.structCount) result' := by
  obtain ⟨structs, vars⟩ := Pairing.biUnique_of_relates unique
  exact ⟨tendedPairs q h joined visited h' joined' visited', structs.mono And.left,
    vars.mono And.left, form.closed_tendedPairs form' mirrors.settledBy,
    form.pairs_tendedPairs form' mirrors.settledBy outcomes⟩

/-- If partners have the same names, the outcomes and the scopes are the same but for the numbers
of nodes. -/
theorem NormalForm.couples (structs : Relator.BiUnique q.structs) (vars : Relator.BiUnique q.vars)
    (named : q.Named joined joined') (outcomes : q.Relates u u')
    (scopes : copied.Related q.Maps copied') :
    (tendedPairs q h joined visited h' joined' visited').Couples
      (final.forgetAbsorbed g.structCount) result scoping
      (final'.forgetAbsorbed g'.structCount) result' scoping' :=
  form.couples_of_settledBy form' mirrors.settledBy structs vars named outcomes scopes

end Settled

/-- How two unifications of mirrored copies end: in failures that agree, or in the normal forms of
joins that have kept step. -/
inductive ConcludesAlike {q : Pairing} (M : Measure q) (g g' : Graph) (copied copied' : Scoping) :
    Except Failure (Value × Scoping) × Graph → Except Failure (Value × Scoping) × Graph → Prop where
  | fails {f f' : Failure} : M.Agrees f f' →
    ConcludesAlike M g g' copied copied' (.error f, g) (.error f', g')
  | succeeds {h h' joined joined' final final' : Graph} {u u' result result' : Value}
      {after after' : Scoping} {visited visited' : List StructId} :
    NormalForm g h joined u copied result after final visited →
    NormalForm g' h' joined' u' copied' result' after' final' visited' →
    q.Mirrors joined joined' → M.Keeps joined joined' → q.Relates u u' →
    ConcludesAlike M g g' copied copied' (.ok (result, after), final.forgetAbsorbed g.structCount)
      (.ok (result', after'), final'.forgetAbsorbed g'.structCount)

theorem OperandCopies.exists_concludesAlike {g' h' : Graph} {a b a' b' v w v' w' : Value}
    {scoping copied scoping' copied' : Scoping} {q : Pairing} {M : Measure q}
    (unique : Relator.BiUnique q.Relates) (copies : g.OperandCopies h v w copied)
    (walked : g.copyOperands a b scoping = some (v, w, copied, h))
    (copies' : g'.OperandCopies h' v' w' copied')
    (walked' : g'.copyOperands a' b' scoping' = some (v', w', copied', h'))
    (mirrors : q.Mirrors h h') (keeps : M.Keeps h h') (left : q.Relates v v')
    (right : q.Relates w w') (limit : Nat) :
    ∃ result result', g.unify? limit a b scoping = some result ∧
      g'.unify? limit a' b' scoping' = some result' ∧
      ConcludesAlike M g g' copied copied' result result' := by
  have lockstep := steady_joinWithin unique limit limit [] left right
    (show Mirrored M { graph := h } { graph := h' } from ⟨mirrors, keeps, .nil⟩)
  obtain ⟨out, st, ends, run⟩ := executes_joinWithin limit limit [] v w { graph := h }
    copies.invariant copies.ready
  obtain ⟨out', st', ends', run'⟩ := executes_joinWithin limit limit [] v' w' { graph := h' }
    copies'.invariant copies'.ready
  rw [ends, ends'] at lockstep
  cases out with
  | error f =>
    cases out' with
    | ok u' => cases lockstep
    | error f' =>
      cases lockstep with
      | failure agrees =>
        exact ⟨_, _, copies.unify?_of_error walked ends run,
          copies'.unify?_of_error walked' ends' run', .fails agrees⟩
  | ok u =>
    cases out' with
    | error f' => cases lockstep
    | ok u' =>
      cases lockstep with
      | ok outcomes mirrored =>
        obtain ⟨w, after, final, visited, done, form⟩ := copies.exists_unify?_of_ok walked ends run
        obtain ⟨w', after', final', visited', done', form'⟩ :=
          copies'.exists_unify?_of_ok walked' ends' run'
        exact ⟨_, _, done, done', .succeeds form form' mirrored.graph mirrored.keeps outcomes⟩

end Graph

end FeatureLogic
