import FeatureLogic.Proofs.Unification.Enclosure

/-!
# How far subsumption is a preorder

Every value subsumes itself. If one value subsumes a second and this one a third, the first value
subsumes the third whenever there is room for its sharing, which the second one need not have. Where
there is room, only the name of a variable may be in the way, as the result can have the name that
it has in the general value. Neither condition can be left out.
-/

namespace FeatureLogic.Graph

open Join

variable {g h : Graph} {a b c : Value}

theorem WellFormed.alike_of_coincide (wf : g.WellFormed) {u v : Value} (inside : g.Contains u)
    (left : g.deref? u = some u) (right : g.deref? v = some v) (same : g.Coincide u v) :
    g.Alike u g v := by
  cases u with
  | atom e => exact same.elim
  | struct s =>
    cases v with
    | struct s' =>
      cases same
      exact wf.alike_refl inside
    | atom e => exact same.elim
    | var x => exact same.elim
  | var x =>
    cases v with
    | var x' => exact alike_of_sameName left right same
    | atom e => exact same.elim
    | struct s => exact same.elim

theorem Plain.encloses_self (wf : g.WellFormed) (ha : g.Plain a) : g.Encloses a a := by
  have inside {path : List String} {u : Value} (leads : g.Leads a path u) : g.Contains u :=
    ha.contains (ha.below_of_leads leads)
  refine ⟨wf, ha, ha, fun path u leads => ⟨u, leads, u.fits_self⟩, ⟨?shared, ?common⟩⟩
  case shared =>
    intro p q u u' leads leads' same
    exact ⟨u, u', leads, leads', wf.alike_of_coincide (inside leads) (wf.deref?_of_leads leads)
      (wf.deref?_of_leads leads') same⟩
  case common =>
    intro p q u node leads leads'
    exact ⟨u, leads, wf.alike_refl (inside leads)⟩

theorem Plain.namesakes_self (ha : g.Plain a) : g.Namesakes a a := by
  intro path x y leads leads'
  cases leads.unique leads'
  obtain ⟨name, found⟩ := ha.free (ha.below_of_leads leads)
  exact ⟨name, by simp [name?, found], by simp [name?, found]⟩

theorem Encloses.isFatal (encloses : g.Encloses c a) {limit : Nat} {f : Failure}
    (failed : g.unify? limit a c .fresh = some (.error f, h)) : f.isFatal := by
  obtain ⟨k, m, left, right, walked, split, copies⟩ :=
    encloses.inner.exists_readyOperands encloses.wellFormed encloses.outer
  obtain ⟨out, st, ends, run⟩ := executes_joinWithin limit limit [] (m.images.apply a)
    (m.images.apply c) { graph := k } copies.invariant copies.ready
  cases out with
  | error f' =>
    cases (copies.unify?_of_error walked ends run).symm.trans failed
    exact encloses.solved split copies run
  | ok u =>
    obtain ⟨result, after, final, visited, done, -⟩ := copies.exists_unify?_of_ok walked ends run
    cases done.symm.trans failed

/-- A value subsumes one that has room for it exactly if no variable is renamed. -/
theorem Encloses.answer_iff (encloses : g.Encloses c a) {answer : Bool}
    (answered : g.subsumes? a c = some (.ok answer, h)) :
    ∃ r after, g.unify? defaultLimit a c .fresh = some (.ok (r, after), h) ∧
      (answer = true ↔ h.Namesakes r c) ∧ (g.Namesakes a c → answer = true) := by
  obtain ⟨result, answered', how⟩ :=
    encloses.inner.exists_answers encloses.wellFormed encloses.outer
  cases answered'.symm.trans answered
  generalize eq : (Except.ok answer, h) = result at how
  cases how with
  | fails failed =>
    rw [encloses.isFatal failed] at eq
    cases eq
  | compares passage unified iff =>
    cases eq
    have wf := passage.wellFormed_after encloses.wellFormed
    have iff' : answer = true ↔ passage.after.Namesakes passage.result c := by
      rw [iff, alike_iff wf wf]
      exact and_iff_right (passage.alikeButNames encloses)
    exact ⟨_, _, unified, iff', fun namesakes =>
      iff'.2 (passage.namesakes_after encloses namesakes)⟩

theorem Plain.exists_subsumes?_self (wf : g.WellFormed) (ha : g.Plain a) :
    ∃ h, g.subsumes? a a = some (.ok true, h) := by
  have encloses := ha.encloses_self wf
  obtain ⟨result, answered, how⟩ := ha.exists_answers wf ha
  cases how with
  | fails failed =>
    obtain ⟨k, m, left, right, walked, split, copies⟩ := ha.exists_readyOperands wf ha
    obtain ⟨u, st, joins⟩ := exists_joinWithin_self copies.invariant.closed copies.left rfl
      defaultLimit 49 []
    obtain ⟨out, st', ends, run⟩ := executes_joinWithin defaultLimit defaultLimit []
      (m.images.apply a) (m.images.apply a) { graph := k } copies.invariant copies.ready
    cases out with
    | error f => cases ends.symm.trans joins
    | ok u =>
      obtain ⟨result, after, final, visited, done, -⟩ := copies.exists_unify?_of_ok walked ends run
      cases done.symm.trans failed
  | @compares passage answer unified iff =>
    obtain ⟨r, after, -, -, right⟩ := encloses.answer_iff answered
    cases right ha.namesakes_self
    exact ⟨_, answered⟩

theorem Retains.namesakes (retains : g.Retains h) (ha : g.Plain a) (hc : g.Plain c)
    (namesakes : g.Namesakes a c) : h.Namesakes a c := by
  intro path x y leads leads'
  rw [retains.leads_iff ha] at leads
  rw [retains.leads_iff hc] at leads'
  obtain ⟨name, hx, hy⟩ := namesakes leads leads'
  have named {v : Value} (plain : g.Plain v) {x : VarId} (below : g.Below v (.var x)) :
      h.name? x = g.name? x := by
    rw [name?, retains.var (plain.of_below below), name?]
  exact ⟨name, (named ha (ha.below_of_leads leads)).trans hx,
    (named hc (hc.below_of_leads leads')).trans hy⟩

/-- Every plain value subsumes itself. If `a` subsumes `b` and `b` subsumes `c`, whatever else is
done to the graph before and between, then `a` subsumes `c` exactly if `c` has room for what `a`
shares and no variable of `c` gets another name in the result; and none does if `a` and `c` have no
variables of different names on the same path. -/
theorem subsumes?_preorder (wf : g.WellFormed) :
    (∀ {a}, g.Plain a → ∃ h, g.subsumes? a a = some (.ok true, h)) ∧
    ∀ {a b c : Value} {g₁ g₂ g₃ h₁ h₂ : Graph}, g.Plain a → g.Plain b → g.Plain c →
      Relation.ReflTransGen Becomes g g₁ → g₁.subsumes? a b = some (.ok true, h₁) →
      Relation.ReflTransGen Becomes g g₂ → g₂.subsumes? b c = some (.ok true, h₂) →
      Relation.ReflTransGen Becomes g g₃ → ∃ out h₃, g₃.subsumes? a c = some (out, h₃) ∧
        ∀ answer, out = .ok answer →
          (answer = true ↔ g.Accommodates c a ∧ ∀ r after,
            g₃.unify? defaultLimit a c .fresh = some (.ok (r, after), h₃) → h₃.Namesakes r c) ∧
          (g.Accommodates c a → g.Namesakes a c → answer = true) := by
  refine ⟨fun ha => ha.exists_subsumes?_self wf, ?_⟩
  intro a b c g₁ g₂ g₃ h₁ h₂ ha hb hc run₁ first run₂ second run₃
  obtain ⟨wf₁, persists₁, retains₁⟩ := wf.persists_run run₁
  obtain ⟨wf₂, persists₂, retains₂⟩ := wf.persists_run run₂
  obtain ⟨wf₃, persists₃, retains₃⟩ := wf.persists_run run₃
  have ha₃ := retains₃.plain ha
  have hc₃ := retains₃.plain hc
  have covers : g.Covers a c := by
    have left : g₁.Covers a b :=
      (subsumes?_covers wf₁ (retains₁.plain ha) (retains₁.plain hb) first).1
    have right : g₂.Covers b c :=
      (subsumes?_covers wf₂ (retains₂.plain hb) (retains₂.plain hc) second).1
    exact ((retains₁.covers_iff ha hb).1 left).trans ((retains₂.covers_iff hb hc).1 right)
  have room : g₃.Accommodates c a ↔ g.Accommodates c a :=
    persists₃.accommodates_iff retains₃ wf wf₃ ha hc
  have encloses (room' : g.Accommodates c a) : g₃.Encloses c a :=
    ⟨wf₃, ha₃, hc₃, (retains₃.covers_iff ha hc).2 covers, room.2 room'⟩
  obtain ⟨⟨out, h₃⟩, answered, -⟩ := ha₃.exists_answers wf₃ hc₃
  refine ⟨out, h₃, answered, ?_⟩
  rintro answer rfl
  refine ⟨⟨?_, ?_⟩, ?_⟩
  · rintro rfl
    have room' := room.1 (subsumes?_covers wf₃ ha₃ hc₃ answered).2
    obtain ⟨r, after, unified, iff, -⟩ := (encloses room').answer_iff answered
    refine ⟨room', fun r' after' unified' => ?_⟩
    cases unified.symm.trans unified'
    exact iff.1 rfl
  · rintro ⟨room', names⟩
    obtain ⟨r, after, unified, iff, -⟩ := (encloses room').answer_iff answered
    exact iff.2 (names r after unified)
  · intro room' namesakes
    obtain ⟨r, after, -, -, enough⟩ := (encloses room').answer_iff answered
    exact enough (retains₃.namesakes ha hc namesakes)

theorem leads_free {x : VarId} {name : String} (found : g.var? x = some ⟨name, .free⟩)
    {path : List String} {u : Value} (leads : g.Leads (.var x) path u) :
    path = [] ∧ u = .var x := by
  have stands := deref?_of_free found
  cases path with
  | nil => exact ⟨rfl, Option.some.inj ((leads_nil.1 leads).symm.trans stands)⟩
  | cons name path =>
    obtain ⟨s, _, _, reads, -⟩ := leads_cons.1 leads
    cases stands.symm.trans reads

theorem leads_features {s : StructId} {features : List (String × Value)}
    (found : g.features? s = some (.ofList features)) {path : List String} {u : Value}
    (leads : g.Leads (.struct s) path u) : (path = [] ∧ u = .struct s) ∨
      ∃ e ∈ features, ∃ rest, path = e.1 :: rest ∧ g.Leads e.2 rest u := by
  cases path with
  | nil => exact .inl ⟨rfl, (Option.some.inj (leads_nil.1 leads)).symm⟩
  | cons name rest =>
    obtain ⟨_, _, child, ⟨⟩, found', holds, inner⟩ := leads_cons.1 leads
    cases found.symm.trans found'
    exact .inr ⟨(name, child), NameMap.mem_of_get?_ofList holds, rest, rfl, inner⟩

/-- A structure that has an empty one twice, one with two of them, and one that has two different
structures in their places. -/
def doubled : Graph where
  structs := #[{ features := ∅ },
    { features := .ofList [("f", .struct ⟨0⟩), ("g", .struct ⟨0⟩)] },
    { features := ∅ }, { features := ∅ },
    { features := .ofList [("f", .struct ⟨2⟩), ("g", .struct ⟨3⟩)] },
    { features := .ofList [("a", .atom (.int 1))] },
    { features := .ofList [("a", .atom (.int 2))] },
    { features := .ofList [("f", .struct ⟨5⟩), ("g", .struct ⟨6⟩)] }]

theorem reached_doubled : doubled.Reached := by
  have plain (features : List (String × Value)) {g : Graph} (reached : g.Reached)
      (inside : ∀ e ∈ features, g.Contains e.2) : (g.newStruct features).2.Reached :=
    reached.step (.newStruct features) inside rfl
  have s₀ := plain [] .start (by simp)
  have s₁ := plain [("f", .struct ⟨0⟩), ("g", .struct ⟨0⟩)] s₀ (by simp; decide)
  have s₂ := plain [] s₁ (by simp)
  have s₃ := plain [] s₂ (by simp)
  have s₄ := plain [("f", .struct ⟨2⟩), ("g", .struct ⟨3⟩)] s₃ (by simp; decide)
  have s₅ := plain [("a", .atom (.int 1))] s₄ (by simp; decide)
  have s₆ := plain [("a", .atom (.int 2))] s₅ (by simp; decide)
  exact plain [("f", .struct ⟨5⟩), ("g", .struct ⟨6⟩)] s₆ (by simp; decide)

theorem plain_doubled {v : Value}
    (mem : v ∈ [.struct ⟨0⟩, .struct ⟨1⟩, .struct ⟨4⟩, .struct ⟨7⟩]) : doubled.Plain v := by
  have check : doubled.plainOn
      [.struct ⟨0⟩, .struct ⟨1⟩, .struct ⟨2⟩, .struct ⟨3⟩, .struct ⟨4⟩, .struct ⟨5⟩, .struct ⟨6⟩,
        .struct ⟨7⟩, .atom (.int 1), .atom (.int 2)] := by decide
  refine plain_of_plainOn check ?_
  simp only [List.mem_cons, List.not_mem_nil, or_false] at mem
  rcases mem with rfl | rfl | rfl | rfl <;> simp

/-- The empty structure subsumes the one with two of them, this one the last one, and so the empty
structure the last one. -/
theorem doubled_preorder :
    ∃ h, doubled.subsumes? (.struct ⟨0⟩) (.struct ⟨7⟩) = some (.ok true, h) := by
  have plain₀ : doubled.Plain (.struct ⟨0⟩) := plain_doubled (by simp)
  have plain₇ : doubled.Plain (.struct ⟨7⟩) := plain_doubled (by simp)
  -- nothing but the empty path leads from the empty structure
  have only {path : List String} {u : Value} (leads : doubled.Leads (.struct ⟨0⟩) path u) :
      path = [] ∧ u = .struct ⟨0⟩ := by
    have empty : doubled.features? ⟨0⟩ = some (.ofList []) := rfl
    obtain here | ⟨e, mem, -⟩ := leads_features empty leads
    · exact here
    · cases mem
  have apart : ¬ doubled.Below (.struct ⟨7⟩) (.struct ⟨0⟩) := by
    intro below
    have check : doubled.plainOn [.struct ⟨7⟩, .struct ⟨5⟩, .struct ⟨6⟩, .atom (.int 1),
        .atom (.int 2)] := by decide
    simpa using mem_of_below check (by simp) below
  have room : doubled.Accommodates (.struct ⟨7⟩) (.struct ⟨0⟩) := by
    refine ⟨fun {p q u u'} leads leads' _ => ?_, fun {p q u} node leads leads' => ?_⟩
    · obtain ⟨rfl, rfl⟩ := only leads
      obtain ⟨rfl, rfl⟩ := only leads'
      exact ⟨_, _, rfl, rfl, reached_doubled.wellFormed.alike_refl (plain₇.contains .refl)⟩
    · obtain ⟨rfl, rfl⟩ := only leads
      exact absurd (plain₇.below_of_leads leads') apart
  have first : ∃ h, doubled.subsumes? (.struct ⟨0⟩) (.struct ⟨4⟩) = some (.ok true, h) := ⟨_, rfl⟩
  have second : ∃ h, doubled.subsumes? (.struct ⟨4⟩) (.struct ⟨7⟩) = some (.ok true, h) := ⟨_, rfl⟩
  have third : ∃ answer h, doubled.subsumes? (.struct ⟨0⟩) (.struct ⟨7⟩) = some (.ok answer, h) :=
    ⟨_, _, rfl⟩
  obtain ⟨h₁, first⟩ := first
  obtain ⟨h₂, second⟩ := second
  obtain ⟨answer, h₃, third⟩ := third
  obtain ⟨out, h, answered, right⟩ := (subsumes?_preorder reached_doubled.wellFormed).2 plain₀
    (plain_doubled (by simp)) plain₇ .refl first .refl second .refl
  cases third.symm.trans answered
  have namesakes : doubled.Namesakes (.struct ⟨0⟩) (.struct ⟨7⟩) := by
    intro path x y leads
    cases (only leads).2
  cases (right answer rfl).2 room namesakes
  exact ⟨h₃, answered⟩

/-- The answers to the three questions of transitivity, asked one after the other. -/
def askInTurn? (g : Graph) (a b c : Value) : Option (Option Bool × Option Bool × Option Bool) :=
  (g.subsumes? a b).bind fun (first, h₁) =>
    (h₁.subsumes? b c).bind fun (second, h₂) =>
      (h₂.subsumes? a c).map fun (third, _) =>
        (first.toOption, second.toOption, third.toOption)

theorem exists_of_askInTurn? {answer : Bool}
    (asked : g.askInTurn? a b c = some (some true, some true, some answer)) :
    ∃ h₁ h₂ h₃, g.subsumes? a b = some (.ok true, h₁) ∧ h₁.subsumes? b c = some (.ok true, h₂) ∧
      h₂.subsumes? a c = some (.ok answer, h₃) := by
  obtain ⟨⟨out₁, h₁⟩, first, rest⟩ := Option.bind_eq_some_iff.1 asked
  obtain ⟨⟨out₂, h₂⟩, second, rest⟩ := Option.bind_eq_some_iff.1 rest
  obtain ⟨⟨out₃, h₃⟩, third, eq⟩ := Option.map_eq_some_iff.1 rest
  have ok {out : Except Failure Bool} {answer : Bool} (h : out.toOption = some answer) :
      out = .ok answer := by
    cases out with
    | error f => cases h
    | ok b => exact congrArg _ (Option.some.inj h)
  simp only [Prod.mk.injEq] at eq
  rw [ok eq.1] at first
  rw [ok eq.2.1] at second
  rw [ok eq.2.2] at third
  exact ⟨h₁, h₂, h₃, first, second, third⟩

/-- Subsumption is not transitive. The value between need not have what the others share. -/
theorem exists_gap : ¬ ∀ {g h₁ h₂ h₃ : Graph} {a b c : Value} {answer : Bool}, g.Reached →
    g.Plain a → g.Plain b → g.Plain c → g.subsumes? a b = some (.ok true, h₁) →
    h₁.subsumes? b c = some (.ok true, h₂) → h₂.subsumes? a c = some (.ok answer, h₃) →
      answer = true := by
  intro transitive
  have asked : doubled.askInTurn? (.struct ⟨1⟩) (.struct ⟨4⟩) (.struct ⟨7⟩) =
      some (some true, some true, some false) := by decide +kernel
  obtain ⟨h₁, h₂, h₃, first, second, third⟩ := exists_of_askInTurn? asked
  cases transitive reached_doubled (plain_doubled (by simp)) (plain_doubled (by simp))
    (plain_doubled (by simp)) first second third

/-- Three structures, read one after the other: `[a=?x, b=[e=?x, f=?p]]`,
`[a=[f=?y], b=[e=[f=?y], f=?y]]` and `[a=(1)[e->(1), f=?y], b=(2)[e->(2), f=?y]]`. -/
def misnamed : Graph where
  structs := #[
    { features := .ofList [("a", .var ⟨0⟩), ("b", .struct ⟨1⟩)] },
    { features := .ofList [("e", .var ⟨1⟩), ("f", .var ⟨2⟩)] },
    { features := .ofList [("a", .struct ⟨3⟩), ("b", .struct ⟨4⟩)] },
    { features := .ofList [("f", .var ⟨3⟩)] },
    { features := .ofList [("e", .struct ⟨5⟩), ("f", .var ⟨5⟩)] },
    { features := .ofList [("f", .var ⟨4⟩)] },
    { features := .ofList [("a", .struct ⟨7⟩), ("b", .struct ⟨8⟩)] },
    { features := .ofList [("e", .struct ⟨7⟩), ("f", .var ⟨6⟩)] },
    { features := .ofList [("e", .struct ⟨8⟩), ("f", .var ⟨7⟩)] }]
  vars := #[{ name := "x" }, { name := "x" }, { name := "p" }, { name := "y" }, { name := "y" },
    { name := "y" }, { name := "y" }, { name := "y" }]

theorem reached_misnamed : misnamed.Reached := by
  have read (text : String) {g : Graph} (reached : g.Reached) : (g.readStruct text).2.Reached :=
    reached.step (.readStruct text) trivial rfl
  have all := read "[a=(1)[e->(1), f=?y], b=(2)[e->(2), f=?y]]"
    (read "[a=[f=?y], b=[e=[f=?y], f=?y]]" (read "[a=?x, b=[e=?x, f=?p]]" .start))
  have eq : ((((∅ : Graph).readStruct "[a=?x, b=[e=?x, f=?p]]").2.readStruct
      "[a=[f=?y], b=[e=[f=?y], f=?y]]").2.readStruct
      "[a=(1)[e->(1), f=?y], b=(2)[e->(2), f=?y]]").2 = misnamed := by decide +kernel
  exact eq ▸ all

theorem plainOn_misnamed_general : misnamed.plainOn
    [.struct ⟨0⟩, .struct ⟨1⟩, .var ⟨0⟩, .var ⟨1⟩, .var ⟨2⟩] := by decide

theorem plainOn_misnamed_specific : misnamed.plainOn
    [.struct ⟨6⟩, .struct ⟨7⟩, .struct ⟨8⟩, .var ⟨6⟩, .var ⟨7⟩] := by decide

def misnamedPairs : List (Value × Value) :=
  [(.struct ⟨0⟩, .struct ⟨6⟩), (.var ⟨0⟩, .struct ⟨7⟩), (.struct ⟨1⟩, .struct ⟨8⟩),
    (.var ⟨1⟩, .struct ⟨8⟩), (.var ⟨2⟩, .var ⟨7⟩)]

theorem exists_misnamedPair {path : List String} {u : Value}
    (leads : misnamed.Leads (.struct ⟨0⟩) path u) :
    ∃ w, (u, w) ∈ misnamedPairs ∧ misnamed.Leads (.struct ⟨6⟩) path w := by
  obtain ⟨rfl, rfl⟩ | ⟨e, mem, rest, rfl, inner⟩ := leads_features rfl leads
  · exact ⟨.struct ⟨6⟩, by simp [misnamedPairs], rfl⟩
  simp only [List.mem_cons, List.not_mem_nil, or_false] at mem
  obtain rfl | rfl := mem
  · obtain ⟨rfl, rfl⟩ := leads_free rfl inner
    exact ⟨.struct ⟨7⟩, by simp [misnamedPairs], rfl⟩
  obtain ⟨rfl, rfl⟩ | ⟨e, mem, rest, rfl, inner⟩ := leads_features rfl inner
  · exact ⟨.struct ⟨8⟩, by simp [misnamedPairs], rfl⟩
  simp only [List.mem_cons, List.not_mem_nil, or_false] at mem
  obtain rfl | rfl := mem
  · obtain ⟨rfl, rfl⟩ := leads_free rfl inner
    exact ⟨.struct ⟨8⟩, by simp [misnamedPairs], rfl⟩
  · obtain ⟨rfl, rfl⟩ := leads_free rfl inner
    exact ⟨.var ⟨7⟩, by simp [misnamedPairs], rfl⟩

/-- The first structure has `?x` where the third one has two structures that look alike. -/
theorem accommodates_misnamed : misnamed.Accommodates (.struct ⟨6⟩) (.struct ⟨0⟩) := by
  have wf := reached_misnamed.wellFormed
  have plain : misnamed.Plain (.struct ⟨0⟩) := plain_of_plainOn plainOn_misnamed_general (by simp)
  have plain' : misnamed.Plain (.struct ⟨6⟩) :=
    plain_of_plainOn plainOn_misnamed_specific (by simp)
  have inside {v : Value} (plain : misnamed.Plain v) {path : List String} {u : Value}
      (leads : misnamed.Leads v path u) : misnamed.Contains u :=
    plain.contains (plain.below_of_leads leads)
  have agree : ∀ e ∈ misnamedPairs, ∀ e' ∈ misnamedPairs,
      misnamed.equal? e.1 e'.1 = some true → misnamed.equal? e.2 e'.2 = some true := by
    decide +kernel
  refine ⟨fun {p q u u'} leads leads' same => ?_, fun node leads leads' => ?_⟩
  · obtain ⟨w, mem, ends⟩ := exists_misnamedPair leads
    obtain ⟨w', mem', ends'⟩ := exists_misnamedPair leads'
    obtain ⟨answer, compared, iff⟩ := wf.equal?_iff (inside plain leads) (inside plain leads')
    cases iff.2 (wf.alike_of_coincide (inside plain leads) (wf.deref?_of_leads leads)
      (wf.deref?_of_leads leads') same)
    obtain ⟨answer, compared', iff'⟩ := wf.equal?_iff (inside plain' ends) (inside plain' ends')
    cases compared'.symm.trans (agree (u, w) mem (u', w') mem' compared)
    exact ⟨w, w', ends, ends', iff'.1 rfl⟩
  · have apart : misnamed.Unshared (.struct ⟨0⟩) (.struct ⟨6⟩) :=
      unshared_of_plainOn _ _ plainOn_misnamed_general plainOn_misnamed_specific (by decide)
        (by simp) (by simp)
    exact absurd (plain'.below_of_leads leads') (apart _ node (plain.below_of_leads leads))

/-- Room is not enough. In the result a variable of the most specific value can have the name that
it has in the most general one, which the value between does not have. -/
theorem exists_misnamed : ¬ ∀ {g h₁ h₂ h₃ : Graph} {a b c : Value} {answer : Bool}, g.Reached →
    g.Plain a → g.Plain b → g.Plain c → g.Accommodates c a →
    g.subsumes? a b = some (.ok true, h₁) → h₁.subsumes? b c = some (.ok true, h₂) →
    h₂.subsumes? a c = some (.ok answer, h₃) → answer = true := by
  intro transitive
  have between : misnamed.plainOn [.struct ⟨2⟩, .struct ⟨3⟩, .struct ⟨4⟩, .struct ⟨5⟩, .var ⟨3⟩,
      .var ⟨4⟩, .var ⟨5⟩] := by decide
  have asked : misnamed.askInTurn? (.struct ⟨0⟩) (.struct ⟨2⟩) (.struct ⟨6⟩) =
      some (some true, some true, some false) := by decide +kernel
  obtain ⟨h₁, h₂, h₃, first, second, third⟩ := exists_of_askInTurn? asked
  cases transitive reached_misnamed (plain_of_plainOn plainOn_misnamed_general (by simp))
    (plain_of_plainOn between (by simp)) (plain_of_plainOn plainOn_misnamed_specific (by simp))
    accommodates_misnamed first second third

end FeatureLogic.Graph
