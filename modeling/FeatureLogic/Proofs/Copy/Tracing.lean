import FeatureLogic.Graph.Correspondence
import FeatureLogic.Proofs.Copy.Copies
import FeatureLogic.Proofs.Copy.Imaging

/-!
# What copies look like

A renaming or a substitution that has ended has given every structure it went through one copy.
The copy has features of the same names, with the images of the original's values.
-/

namespace FeatureLogic

open FeatureLogic.Graph

namespace Ledger

variable {μ : Type} (l : Ledger μ)

def Lists (m : μ) (s t : StructId) : Prop := (l.copies m).lookup s = some t

/-- What holds of the copies on the way, while structures in `D` are copied. -/
structure Charts (g : Graph) (D : Value → Prop) (W : Graph × μ) : Prop where
  structs : g.structCount ≤ W.1.structCount
  vars : g.varCount ≤ W.1.varCount
  frames : (g.added W.1).Frames W.1
  copied : ∀ {s t}, l.Lists W.2 s t → D (.struct s) ∧ (g.added W.1).Has (.struct t)
  oneToOne : Relator.BiUnique (l.Lists W.2)
  sound : l.Sound W.1 W.2

/-- Is a relation of values and their images, as a memory has it, one that lists the copies and that
holds on when another structure is copied? -/
structure Images (image : μ → Value → Value → Prop) : Prop where
  known : ∀ {m s t}, l.Lists m s t → image m (.struct s) (.struct t)
  remember : ∀ {m s t v w}, (l.copies m).lookup s = none → image m v w →
    image (l.remember s t m) v w

def Complete (g : Graph) (image : μ → Value → Value → Prop) (W : Graph × μ) (t : StructId) : Prop :=
  ∃ s m n, l.Lists W.2 s t ∧ g.features? s = some m ∧ W.1.features? t = some n ∧
    ∀ name, Option.Rel (image W.2) (m.get? name) (n.get? name)

structure Traces (g : Graph) (D : Value → Prop) (image : μ → Value → Value → Prop)
    (W W' : Graph × μ) : Prop where
  charts : l.Charts g D W'
  more : ∀ {v w}, image W.2 v w → image W'.2 v w
  lists : ∀ {s t}, l.Lists W.2 s t → l.Lists W'.2 s t
  structs : W.1.structCount ≤ W'.1.structCount
  unchanged : ∀ t : StructId, t.index < W.1.structCount → W'.1.features? t = W.1.features? t
  complete : ∀ t : StructId, W.1.structCount ≤ t.index → t.index < W'.1.structCount →
    l.Complete g image W' t

structure Fills (g : Graph) (D : Value → Prop) (image : μ → Value → Value → Prop)
    (target : StructId) (entries : List (String × Value)) (W : Graph × μ) (filled : NameMap Value)
    (W' : Graph × μ) (filled' : NameMap Value) : Prop where
  charts : l.Charts g D W'
  more : ∀ {v w}, image W.2 v w → image W'.2 v w
  lists : ∀ {s t}, l.Lists W.2 s t → l.Lists W'.2 s t
  structs : W.1.structCount ≤ W'.1.structCount
  unchanged : ∀ t : StructId, t.index < W.1.structCount → t ≠ target →
    W'.1.features? t = W.1.features? t
  complete : ∀ t : StructId, W.1.structCount ≤ t.index → t.index < W'.1.structCount →
    l.Complete g image W' t
  own : W'.1.features? target = some filled'
  set : ∀ {name v}, NameMap.find? name entries = some v →
    ∃ w, filled'.get? name = some w ∧ image W'.2 v w
  rest : ∀ {name}, NameMap.find? name entries = none → filled'.get? name = filled.get? name

variable {l} {g : Graph} {D : Value → Prop} {image : μ → Value → Value → Prop}
  {W W₁ W' : Graph × μ} {target : StructId} {name : String} {v w : Value}
  {entries rest : List (String × Value)} {filled filled' : NameMap Value}

theorem Complete.mono {t : StructId} (complete : l.Complete g image W t)
    (more : ∀ {v w}, image W.2 v w → image W'.2 v w)
    (lists : ∀ {s t}, l.Lists W.2 s t → l.Lists W'.2 s t)
    (unchanged : W'.1.features? t = W.1.features? t) : l.Complete g image W' t := by
  obtain ⟨s, m, n, copied, found, found', related⟩ := complete
  refine ⟨s, m, n, lists copied, found, unchanged.trans found', fun name => ?_⟩
  have related := related name
  generalize m.get? name = u at related ⊢
  generalize n.get? name = u' at related ⊢
  cases related with
  | none => exact .none
  | some related => exact .some (more related)

theorem Traces.refl (charts : l.Charts g D W) : l.Traces g D image W W :=
  ⟨charts, id, id, Nat.le_refl _, fun _ _ => rfl,
    fun _ lower upper => absurd upper (Nat.not_lt.2 lower)⟩

theorem Traces.trans (first : l.Traces g D image W W₁) (second : l.Traces g D image W₁ W') :
    l.Traces g D image W W' where
  charts := second.charts
  more related := second.more (first.more related)
  lists listed := second.lists (first.lists listed)
  structs := first.structs.trans second.structs
  unchanged t old :=
    (second.unchanged t (old.trans_le first.structs)).trans (first.unchanged t old)
  complete t lower upper := by
    by_cases between : t.index < W₁.1.structCount
    · exact (first.complete t lower between).mono second.more second.lists
        (second.unchanged t between)
    · exact second.complete t (Nat.le_of_not_lt between) upper

theorem Charts.setFeature (charts : l.Charts g D W) (has : (g.added W.1).Has (.struct target))
    (name : String) (v : Value) : l.Charts g D (W.1.setFeature target name v, W.2) := by
  have region : g.added (W.1.setFeature target name v) = g.added W.1 := by simp [added]
  refine ⟨charts.structs.trans (by simp), charts.vars, ?_, fun listed => ?_, charts.oneToOne,
    l.sound_mono (by simp) (by rfl) charts.sound⟩
  · exact region ▸ charts.frames.setFeature has name v
  · exact ⟨(charts.copied listed).1, region ▸ (charts.copied listed).2⟩

theorem Fills.nil (charts : l.Charts g D W) (own : W.1.features? target = some filled) :
    l.Fills g D image target [] W filled W filled where
  charts := charts
  more := id
  lists := id
  structs := Nat.le_refl _
  unchanged _ _ _ := rfl
  complete _ lower upper := absurd upper (Nat.not_lt.2 lower)
  own := own
  set found := by cases found
  rest _ := rfl

theorem Fills.cons (traces : l.Traces g D image W W₁) (has : (g.added W.1).Has (.struct target))
    (related : image W₁.2 v w) (fresh : name ∉ rest.map Prod.fst)
    (fills : l.Fills g D image target rest (W₁.1.setFeature target name w, W₁.2)
      (filled.insert name w) W' filled') :
    l.Fills g D image target ((name, v) :: rest) W filled W' filled' := by
  have grown : W₁.1.structCount ≤ W'.1.structCount :=
    (structCount_setFeature ..).ge.trans fills.structs
  have kept {t : StructId} (old : t.index < W₁.1.structCount) (ne : t ≠ target) :
      W'.1.features? t = W₁.1.features? t := by
    rw [fills.unchanged t (old.trans_le (structCount_setFeature ..).ge) ne, features?_setFeature,
      if_neg ne.symm]
  refine ⟨fills.charts, fun related => fills.more (traces.more related),
    fun listed => fills.lists (traces.lists listed), traces.structs.trans grown,
    fun t old ne => ?_, fun t lower upper => ?_, fills.own, fun {key u} found => ?_,
    fun {key} found => ?_⟩
  · rw [kept (old.trans_le traces.structs) ne, traces.unchanged t old]
  · by_cases between : t.index < W₁.1.structCount
    · have ne : t ≠ target := by
        rintro rfl
        exact Nat.not_lt.2 lower has.2
      exact (traces.complete t lower between).mono fills.more fills.lists (kept between ne)
    · exact fills.complete t
        ((structCount_setFeature ..).le.trans (Nat.le_of_not_lt between)) upper
  · rw [NameMap.find?] at found
    split at found
    · next eq =>
      cases found
      subst eq
      exact ⟨w, (fills.rest (NameMap.find?_eq_none fresh)).trans (by simp), fills.more related⟩
    · exact fills.set found
  · rw [NameMap.find?] at found
    split at found
    · cases found
    · next ne => rw [fills.rest found, NameMap.get?_insert, if_neg ne]

theorem exists_fills {step : Value → Graph × μ → Option (Value × Graph × μ)}
    (traces : ∀ {v W w W'}, D v → l.Charts g D W → step v W = some (w, W') →
      l.Traces g D image W W' ∧ image W'.2 v w)
    (inside : ∀ e ∈ entries, D e.2) (nodup : (entries.map Prod.fst).Nodup)
    (charts : l.Charts g D W) (has : (g.added W.1).Has (.struct target))
    (own : W.1.features? target = some filled) (walked : fill step target entries W = some W') :
    ∃ filled', l.Fills g D image target entries W filled W' filled' := by
  induction entries generalizing W filled with
  | nil =>
    cases walked
    exact ⟨filled, .nil charts own⟩
  | cons e rest ih =>
    obtain ⟨name, v⟩ := e
    obtain ⟨fresh, nodupRest⟩ := List.nodup_cons.1 nodup
    obtain ⟨w, k, m, copied, walkedRest⟩ := fill_cons_eq_some_iff.1 walked
    obtain ⟨first, related⟩ := traces (inside _ List.mem_cons_self) charts copied
    have has' : (g.added k).Has (.struct target) := ⟨has.1, has.2.trans_le first.structs⟩
    obtain ⟨filled', fills⟩ := ih (W := (k.setFeature target name w, m))
      (fun e mem => inside e (List.mem_cons_of_mem _ mem)) nodupRest
      (first.charts.setFeature has' name w) (by simpa [added] using has')
      (features?_setFeature_self ((first.unchanged target has.2).trans own) ..) walkedRest
    exact ⟨filled', .cons first has related fresh fills⟩

theorem Charts.enter (charts : l.Charts g D W) {s : StructId} (hs : D (.struct s))
    (fresh : (l.copies W.2).lookup s = none) :
    l.Charts g D (W.1.addStruct ∅, l.remember s W.1.nextStruct W.2) := by
  have iff {t : StructId} : (g.added (W.1.addStruct ∅)).Has (.struct t) ↔
      (g.added W.1).Has (.struct t) ∨ t = W.1.nextStruct := added_addStruct charts.structs
  have lists {u t : StructId} : l.Lists (l.remember s W.1.nextStruct W.2) u t ↔
      u = s ∧ t = W.1.nextStruct ∨ u ≠ s ∧ l.Lists W.2 u t := by
    rw [Lists, l.copies_remember, Copying.lookup_cons_eq]
    split
    · next eq => simp [eq, eq_comm]
    · next ne => simp [ne, Lists]
  have newer {u : StructId} : ¬ l.Lists W.2 u W.1.nextStruct := fun listed =>
    not_added_nextStruct (charts.copied listed).2
  refine ⟨charts.structs.trans (by simp), charts.vars,
    frames_addStruct charts.structs charts.frames, fun listed => ?_,
    ⟨fun _ _ _ first second => ?_, fun _ _ _ first second => ?_⟩,
    l.sound_remember (l.sound_mono (by simp) (by rfl) charts.sound)⟩
  · rcases lists.1 listed with ⟨rfl, rfl⟩ | ⟨-, listed⟩
    · exact ⟨hs, iff.2 (.inr rfl)⟩
    · exact ⟨(charts.copied listed).1, iff.2 (.inl (charts.copied listed).2)⟩
  · rcases lists.1 first with ⟨rfl, rfl⟩ | ⟨-, before⟩
    · rcases lists.1 second with ⟨rfl, -⟩ | ⟨-, before'⟩
      · rfl
      · exact absurd before' newer
    · rcases lists.1 second with ⟨rfl, rfl⟩ | ⟨-, before'⟩
      · exact absurd before newer
      · exact charts.oneToOne.1 before before'
  · exact Option.some.inj (first.symm.trans second)

theorem Fills.traces {s : StructId} {features : NameMap Value} (images : l.Images image)
    (fresh : (l.copies W.2).lookup s = none) (found : g.features? s = some features)
    (fills : l.Fills g D image W.1.nextStruct features.entries
      (W.1.addStruct ∅, l.remember s W.1.nextStruct W.2) ∅ W' filled') :
    l.Traces g D image W W' ∧ l.Lists W'.2 s W.1.nextStruct := by
  have listed : l.Lists W'.2 s W.1.nextStruct := fills.lists (by simp [Lists, l.copies_remember])
  have other {t : StructId} (ne : t.index ≠ W.1.structCount) : t ≠ W.1.nextStruct := by
    rintro rfl
    exact ne rfl
  refine ⟨⟨fills.charts, fun related => fills.more (images.remember fresh related),
    fun {u t} before => fills.lists ?_, ?_, fun t old => ?_, fun t lower upper => ?_⟩, listed⟩
  · rw [Lists, l.copies_remember, Copying.lookup_cons_eq, if_neg, ← Lists]
    · exact before
    · rintro rfl
      cases fresh.symm.trans before
  · exact (Nat.le_succ _).trans ((structCount_addStruct ..).ge.trans fills.structs)
  · rw [fills.unchanged t (old.trans_le (by simp)) (other old.ne), features?_addStruct,
      if_neg (other old.ne)]
  · by_cases eq : t.index = W.1.structCount
    · obtain rfl : t = W.1.nextStruct := congrArg StructId.mk eq
      refine ⟨s, features, filled', listed, found, fills.own, fun name => ?_⟩
      cases holds : features.get? name with
      | none =>
        rw [fills.rest holds]
        exact .none
      | some v =>
        obtain ⟨w, holds', related⟩ := fills.set holds
        rw [holds']
        exact .some related
    · refine fills.complete t ?_ upper
      rw [structCount_addStruct]
      omega

/-- A structure is copied once. -/
theorem imageStruct_traces (source : g.Source D) (images : l.Images image)
    {step : Value → Graph × μ → Option (Value × Graph × μ)}
    (traces : ∀ {v W w W'}, D v → l.Charts g D W → step v W = some (w, W') →
      l.Traces g D image W W' ∧ image W'.2 v w) {s t : StructId}
    (hs : D (.struct s)) (charts : l.Charts g D W)
    (walked : (match (l.copies W.2).lookup s with
      | some t => some (t, W)
      | none => imageStruct l.remember step s W) = some (t, W')) :
    l.Traces g D image W W' ∧ image W'.2 (.struct s) (.struct t) := by
  obtain ⟨h, m⟩ := W
  cases known : (l.copies m).lookup s with
  | some t' =>
    simp only [known, Option.some.injEq, Prod.mk.injEq] at walked
    obtain ⟨rfl, rfl⟩ := walked
    exact ⟨.refl charts, images.known known⟩
  | none =>
    obtain ⟨features, found⟩ := exists_features_of_contains (source.contains hs)
    have read : (h.addStruct ∅).features? s = some features :=
      (features?_enter charts.structs charts.frames (source.contains hs)).trans found
    simp only [known, imageStruct, read, Option.map_eq_some_iff, Prod.mk.injEq] at walked
    obtain ⟨W', filled, rfl, rfl⟩ := walked
    obtain ⟨filled', fills⟩ := exists_fills traces
      (W := (h.addStruct ∅, l.remember s h.nextStruct m))
      (fun e mem => source.feature hs found (features.get?_eq_some_iff.2 mem)) features.nodup_keys
      (charts.enter hs known) ((added_addStruct charts.structs).2 (.inr rfl))
      (by rw [features?_addStruct, if_pos rfl]) filled
    obtain ⟨copied, listed⟩ := Fills.traces (W := (h, m)) images known found fills
    exact ⟨copied, images.known listed⟩

end Ledger

end FeatureLogic
