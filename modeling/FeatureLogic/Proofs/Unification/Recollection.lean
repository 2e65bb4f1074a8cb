import FeatureLogic.Proofs.Persistence
import FeatureLogic.Proofs.Unification.Repetition

/-!
# What a cache repeats

While calls on plain operands in plain scopes use one cache, the graph retains what each entry was
made from and what it gives back. So the outcome that the cache repeats is the outcome of now, if
the call is one like that by which it was recorded. Other operations on the graph, with other caches
or none, make no difference.
-/

namespace FeatureLogic

/-- For two operands, the limit and the scopes of the call whose outcome a cache has for them. -/
abbrev CallLog := Value × Value → Option (Nat × Scoping)

namespace Graph

variable {g h k : Graph} {v w u : Value} {scoping after : Scoping} {limit : Nat}
  {cache cache' : Cache} {log : CallLog} {out : Except Failure (Value × Scoping)}

structure PlainCall (g : Graph) (v w : Value) (scoping : Scoping) : Prop where
  left : g.Plain v
  right : g.Plain w
  scopes : scoping.All (Scope.Plain · g)

/-- The graphs that come of a well-formed one while plain calls use one cache, with the cache as it
is then and a log of the calls by which its entries were recorded. In between anything may be done
to the graph, and the cache may be cleared. -/
inductive Recorded : Graph → Cache → CallLog → Prop where
  | start {g : Graph} : g.WellFormed → Recorded g ∅ fun _ => none
  | other {g h : Graph} {cache : Cache} {log : CallLog} : Recorded g cache log →
    g.Becomes h → Recorded h cache log
  | clear {g : Graph} {cache : Cache} {log : CallLog} : Recorded g cache log →
    Recorded g ∅ fun _ => none
  | hit {g h : Graph} {cache cache' : Cache} {log : CallLog} {limit : Nat} {v w : Value}
    {scoping : Scoping} {entry : CacheEntry} {out : Except Failure (Value × Scoping)} :
    Recorded g cache log → cache.get? v w = some entry →
    g.unifyCached? limit v w scoping cache = some (out, h, cache') → Recorded h cache' log
  | miss {g h : Graph} {cache cache' : Cache} {log : CallLog} {limit : Nat} {v w : Value}
    {scoping : Scoping} {out : Except Failure (Value × Scoping)} :
    Recorded g cache log → g.PlainCall v w scoping → cache.get? v w = none →
    g.unifyCached? limit v w scoping cache = some (out, h, cache') →
    Recorded h cache' (Function.update log (v, w) (some (limit, scoping)))

theorem PlainCall.within (call : g.PlainCall v w scoping) :
    scoping.All (Scope.Within · g) :=
  call.scopes.imp fun _ plain => plain.within

theorem related_copyOperands {a b : Value} {copied : Scoping}
    (walked : g.copyOperands a b scoping = some (v, w, copied, h)) :
    scoping.Related (fun _ _ => True) copied := by
  cases scoping with
  | common scope =>
    simp only [copyOperands, Option.bind_eq_bind, Option.bind_eq_some_iff] at walked
    obtain ⟨_, -, _, -, eq⟩ := walked
    cases eq
    trivial
  | separate left right =>
    simp only [copyOperands, Option.bind_eq_bind, Option.bind_eq_some_iff] at walked
    obtain ⟨_, -, _, -, eq⟩ := walked
    cases eq
    exact ⟨trivial, trivial⟩

theorem WellFormed.replace_unify (wf : g.WellFormed) (call : g.PlainCall v w scoping)
    (ok : g.unify? limit v w scoping = some (.ok (u, after), h)) :
    scoping.replace after.left after.right = after := by
  obtain ⟨_, ends, how⟩ :=
    wf.exists_concludes limit (call.left.contains .refl) (call.right.contains .refl) call.within
  cases ends.symm.trans ok
  cases how with
  | @succeeds _ _ _ _ _ _ copied _ _ _ walked _ _ form =>
    have first := related_copyOperands walked
    have second := form.scopes
    cases scoping <;> cases copied <;> cases after <;>
      first | rfl | exact first.elim | exact second.elim

/-- Does an entry stem from a plain call, and was everything that this call read and gave back
retained since then? -/
def Stems (g : Graph) (limit : Nat) (v w : Value) (scoping : Scoping) (entry : CacheEntry) : Prop :=
  ∃ (start k : Graph) (out : Except Failure (Value × Scoping)), start.WellFormed ∧
    start.PlainCall v w scoping ∧ start.unify? limit v w scoping = some (out, k) ∧
    entry = .of scoping out ∧
    start.Retains g ∧ k.Retains g

variable {entry : CacheEntry}

theorem Stems.mono (stems : g.Stems limit v w scoping entry) (retains : g.Retains h) :
    h.Stems limit v w scoping entry := by
  obtain ⟨start, k, out, wf, call, ends, eq, before, since⟩ := stems
  exact ⟨start, k, out, wf, call, ends, eq, before.trans retains, since.trans retains⟩

/-- A call that the cache knows nothing about is recorded. -/
theorem WellFormed.exists_stems (wf : g.WellFormed) (call : g.PlainCall v w scoping)
    (unknown : cache.get? v w = none)
    (ends : g.unifyCached? limit v w scoping cache = some (out, h, cache')) :
    h.WellFormed ∧ g.Retains h ∧ ∃ entry, cache' = cache.insert v w entry ∧
      h.Stems limit v w scoping entry := by
  obtain ⟨hv, hw⟩ := And.intro (call.left.contains .refl) (call.right.contains .refl)
  obtain ⟨out', k, unified, leaves⟩ := wf.exists_unify limit hv hw call.within
  cases ends.symm.trans (unifyCached?_of_none unknown unified)
  have retains := (wf.alters_unify hv hw call.within unified).retains wf
  exact ⟨leaves.wellFormed wf, retains, .of scoping out, rfl, g, h, out, wf, call, unified, rfl,
    retains, .refl h⟩

/-- Every call of the log is known to the cache by an entry that stems from it. -/
theorem Recorded.stems {log : CallLog} (recorded : Recorded g cache log) :
    g.WellFormed ∧ ∀ {v w limit scoping}, log (v, w) = some (limit, scoping) →
      ∃ entry, cache.get? v w = some entry ∧ g.Stems limit v w scoping entry := by
  induction recorded with
  | start wf => exact ⟨wf, fun logged => by cases logged⟩
  | clear _ ih => exact ⟨ih.1, fun logged => by cases logged⟩
  | other _ becomes ih =>
    obtain ⟨wf, -, retains⟩ := ih.1.persists_run (.single becomes)
    refine ⟨wf, fun logged => ?_⟩
    obtain ⟨entry, known, stems⟩ := ih.2 logged
    exact ⟨entry, known, stems.mono retains⟩
  | hit _ known ends ih =>
    obtain ⟨out, same⟩ := unifyCached?_of_some known
    cases ends.symm.trans same
    exact ih
  | @miss g h cache cache' log limit v w scoping out _ call unknown ends ih =>
    obtain ⟨wf, retains, entry, rfl, stems⟩ := ih.1.exists_stems call unknown ends
    refine ⟨wf, fun {v' w' limit' scoping'} logged => ?_⟩
    by_cases same : (v', w') = (v, w)
    · cases same
      rw [Function.update_self] at logged
      cases logged
      exact ⟨entry, cache.get?_insert entry, stems⟩
    · rw [Function.update_of_ne same] at logged
      obtain ⟨entry', known, stems'⟩ := ih.2 logged
      exact ⟨entry', (cache.get?_insert_of_ne entry same).trans known, stems'.mono retains⟩

/-- What an entry gives back is what a unification now would give. -/
theorem Stems.exists_counterparts (stems : g.Stems limit v w scoping entry) (wf : g.WellFormed)
    (known : cache.get? v w = some entry) :
    ∃ out out' k, g.unifyCached? limit v w scoping cache = some (out, g, cache) ∧
      g.unify? limit v w scoping = some (out', k) ∧ g.Counterparts k out out' := by
  obtain ⟨start, h, out, wf₀, call, ends, rfl, before, since⟩ := stems
  obtain ⟨_, _, out', k, ends', again, counterparts⟩ :=
    before.exists_counterparts wf₀ wf call.left call.right call.scopes limit
  cases ends.symm.trans ends'
  refine ⟨out, out', k, ?_, again, ?_⟩
  · cases out with
    | error f => rw [unifyCached?, known, CacheEntry.of]
    | ok result =>
      rw [unifyCached?, known, CacheEntry.of]
      simp only [wf₀.replace_unify call ends]
  · cases counterparts with
    | failure => exact .failure
    | success couples =>
      obtain ⟨-, plain, scopes⟩ := wf₀.plain_unify (call.left.contains .refl)
        (call.right.contains .refl) call.within ends
      exact .success (since.couples plain scopes couples)

/-- A cache repeats what would come of the call now. If the last call to be recorded for two
operands was made under the limit and in the scopes of the present one, the cache knows it, and what
it gives back without a change to the graph is a counterpart of what the unification itself gives:
the same failure, or a result and scopes that are the same but for the numbers of nodes. -/
theorem Recorded.unifyCached?_repeats {log : CallLog} (recorded : Recorded g cache log)
    (logged : log (v, w) = some (limit, scoping)) :
    ∃ out out' k, g.unifyCached? limit v w scoping cache = some (out, g, cache) ∧
      g.unify? limit v w scoping = some (out', k) ∧ g.Counterparts k out out' := by
  obtain ⟨wf, known⟩ := recorded.stems
  obtain ⟨entry, known, stems⟩ := known logged
  exact stems.exists_counterparts wf known

/-- The sample graph after its first two structures were unified `n` times. -/
def remade (n : Nat) : Graph where
  structs := records.structs ++ ((List.replicate n
    [{ features := .ofList [("left", .atom (.int 1)), ("right", .atom (.int 1))] },
      { features := .ofList [("right", .atom (.int 1))] }]).flatten : List Structure).toArray
  vars := records.vars ++
    (List.replicate n { name := "n", binding := .bound (.atom (.int 1)) } : List Variable).toArray

def tied : Scoping := .common (.ofList [("m", .var ⟨0⟩)])

def told : Scoping := .common (.ofList [("m", .atom (.int 1)), ("n", .atom (.int 1))])

/-- The two structures are unified, once more without the cache, and then the first call is made
again. -/
theorem remade_repeated : ∃ (cache : Cache) (q : Pairing),
    (remade 2).unifyCached? 50 (.struct ⟨0⟩) (.struct ⟨1⟩) tied cache =
        some (.ok (.struct ⟨3⟩, told), remade 2, cache) ∧
      (remade 2).unify? 50 (.struct ⟨0⟩) (.struct ⟨1⟩) tied =
        some (.ok (.struct ⟨7⟩, told), remade 3) ∧
      q.Couples (remade 2) (.struct ⟨3⟩) told (remade 3) (.struct ⟨7⟩) told := by
  have call : records.PlainCall (.struct ⟨0⟩) (.struct ⟨1⟩) tied := by
    refine ⟨plain_records (.inl rfl), plain_records (.inr rfl), fun name v found => ?_⟩
    obtain ⟨rfl, rfl⟩ : name = "m" ∧ v = .var ⟨0⟩ := by
      simpa using NameMap.mem_of_get?_ofList found
    exact plain_of_plainOn plainOn_records (by simp)
  have first : records.unify? 50 (.struct ⟨0⟩) (.struct ⟨1⟩) tied =
      some (.ok (.struct ⟨3⟩, told), remade 1) := by decide +kernel
  have between : (remade 1).unify? 50 (.struct ⟨0⟩) (.struct ⟨1⟩) .fresh =
      some (.ok (.struct ⟨5⟩, .separate (.ofList [("n", .atom (.int 1))]) ∅), remade 2) := by
    decide +kernel
  have last : (remade 2).unify? 50 (.struct ⟨0⟩) (.struct ⟨1⟩) tied =
      some (.ok (.struct ⟨7⟩, told), remade 3) := by decide +kernel
  have becomes : (remade 1).Becomes (remade 2) :=
    ⟨.unify 50 (.struct ⟨0⟩) (.struct ⟨1⟩) .fresh ∅, ⟨by decide, by decide, by decide, by decide⟩,
      by rw [perform?, unifyCached?_of_none rfl between, Option.map_some]⟩
  have recorded := ((Recorded.start wellFormed_records).miss call rfl
    (unifyCached?_of_none rfl first)).other becomes
  obtain ⟨out, out', k, repeated, again, counterparts⟩ :=
    recorded.unifyCached?_repeats (Function.update_self ..)
  cases last.symm.trans again
  cases counterparts with
  | @success q u _ after _ couples =>
    obtain ⟨rfl, rfl⟩ : u = .struct ⟨3⟩ ∧ after = told := by
      cases repeated
      exact ⟨rfl, rfl⟩
    exact ⟨_, q, repeated, last, couples⟩

end Graph

end FeatureLogic
