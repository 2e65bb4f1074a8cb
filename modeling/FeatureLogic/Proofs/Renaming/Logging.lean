import FeatureLogic.Proofs.Copy.Completion
import FeatureLogic.Proofs.Graph.Matching
import FeatureLogic.Proofs.Renaming.Visits

/-!
# A renaming with a log

The walk of a renaming keeps no account of the variables that it meets. With a log it does the same
and does keep one. Copying structures as any other walk does, it makes of a plain value a matching
one, in which every variable is what it has become at some visit.
-/

namespace FeatureLogic

namespace Graph

variable {μ ν : Type} {f : μ → ν} {image : Value → Graph × μ → Option (Value × Graph × μ)}
  {image' : Value → Graph × ν → Option (Value × Graph × ν)}

/-- Filling in features does the same with less memory, if that is all that images need. -/
theorem fill_map
    (same : ∀ v W, (image v W).map (Prod.map id (Prod.map id f)) = image' v (Prod.map id f W))
    (target : StructId) (entries : List (String × Value)) (W : Graph × μ) :
    (fill image target entries W).map (Prod.map id f) =
      fill image' target entries (Prod.map id f W) := by
  induction entries generalizing W with
  | nil => rfl
  | cons e rest ih =>
    obtain ⟨name, v⟩ := e
    simp only [fill, ← same]
    cases image v W with
    | none => rfl
    | some r => exact ih (r.2.1.setFeature target name r.1, r.2.2)

theorem imageStruct_map {remember : StructId → StructId → μ → μ}
    {remember' : StructId → StructId → ν → ν}
    (same : ∀ v W, (image v W).map (Prod.map id (Prod.map id f)) = image' v (Prod.map id f W))
    (remembers : ∀ s t m, f (remember s t m) = remember' s t (f m)) (s : StructId)
    (W : Graph × μ) :
    (imageStruct remember image s W).map (Prod.map id (Prod.map id f)) =
      imageStruct remember' image' s (Prod.map id f W) := by
  obtain ⟨g, m⟩ := W
  simp only [imageStruct, Prod.map_apply, id_eq]
  cases (g.addStruct ∅).features? s with
  | none => rfl
  | some features =>
    have filled := fill_map same g.nextStruct features.entries
      (g.addStruct ∅, remember s g.nextStruct m)
    rw [Prod.map_apply, id_eq, remembers] at filled
    dsimp only
    rw [← filled, Option.map_map, Option.map_map]
    rfl

end Graph

namespace Renaming

open FeatureLogic.Graph

def Logged.remember (s t : StructId) (m : Logged) : Logged :=
  { m with memory := { m.memory with copies := (s, t) :: m.memory.copies } }

def logVar (x : VarId) : Graph × Logged → Option (Value × Graph × Logged)
  | (g, m) => (renameVar x (g, m.memory)).map fun (w, h, memory) =>
    (w, h, ⟨memory, m.visits ++ (w.var?.map fun y => (x, y)).toList⟩)

def logValue (logStruct : StructId → Graph × Logged → Option (StructId × Graph × Logged))
    (v : Value) (W : Graph × Logged) : Option (Value × Graph × Logged) :=
  match W.1.deref? v with
  | none => none
  | some (.atom a) => some (.atom a, W)
  | some (.var x) => logVar x W
  | some (.struct s) => (logStruct s W).map fun r => (.struct r.1, r.2)

def logStruct : Nat → StructId → Graph × Logged → Option (StructId × Graph × Logged)
  | 0, _, _ => none
  | fuel + 1, s, (g, m) =>
    match m.memory.copies.lookup s with
    | some t => some (t, g, m)
    | none => imageStruct Logged.remember (logValue (logStruct fuel)) s (g, m)

theorem logVar_map (x : VarId) (W : Graph × Logged) :
    (logVar x W).map (Prod.map id (Prod.map id Logged.memory)) =
      renameVar x (Prod.map id Logged.memory W) := by
  obtain ⟨g, m⟩ := W
  rw [logVar, Option.map_map]
  exact congrFun Option.map_id _

theorem logValue_map {logStruct : StructId → Graph × Logged → Option (StructId × Graph × Logged)}
    {renameStruct : StructId → Walk → Option (StructId × Walk)}
    (same : ∀ s W, (logStruct s W).map (Prod.map id (Prod.map id Logged.memory)) =
      renameStruct s (Prod.map id Logged.memory W)) (v : Value) (W : Graph × Logged) :
    (logValue logStruct v W).map (Prod.map id (Prod.map id Logged.memory)) =
      renameValue renameStruct v (Prod.map id Logged.memory W) := by
  obtain ⟨g, m⟩ := W
  simp only [logValue, renameValue, Prod.map_apply, id_eq]
  cases g.deref? v with
  | none => rfl
  | some w =>
    cases w with
    | atom a => rfl
    | var x => exact logVar_map x (g, m)
    | struct s =>
      have same := same s (g, m)
      rw [Prod.map_apply, id_eq] at same
      dsimp only
      rw [← same, Option.map_map, Option.map_map]
      rfl

theorem logStruct_map (fuel : Nat) (s : StructId) (W : Graph × Logged) :
    (logStruct fuel s W).map (Prod.map id (Prod.map id Logged.memory)) =
      renameStruct fuel s (Prod.map id Logged.memory W) := by
  induction fuel generalizing s W with
  | zero => rfl
  | succ fuel ih =>
    obtain ⟨g, m⟩ := W
    simp only [logStruct, renameStruct, Prod.map_apply, id_eq]
    cases m.memory.copies.lookup s with
    | some t => rfl
    | none => exact imageStruct_map (logValue_map ih) (fun _ _ _ => rfl) s (g, m)

def logs (c : Call) (D : Value → Prop) : Ledger Logged where
  copies m := m.memory.copies
  remember := Logged.remember
  Sound h m := Tracks (c.upTo h) D m
  copies_remember := rfl
  sound_remember tracks :=
    ⟨tracks.replaced, tracks.taken, tracks.inside, tracks.met, tracks.follows⟩
  sound_mono {h k m} _ vars tracks := by
    refine tracks.upTo (h := k) (congrArg Array.size vars).le fun {y} _ => ?_
    show k.name? y = h.name? y
    simp only [name?, var?, vars]

def Logged.pairing (m : Logged) : Pairing where
  structs s t := m.memory.copies.lookup s = some t
  vars x y := (x, y) ∈ m.visits

variable {c : Call} {D : Value → Prop} {g : Graph} {W W' : Graph × Logged} {v w : Value}
  {x y : VarId}

theorem images_logs (c : Call) (D : Value → Prop) :
    (logs c D).Images fun m v w => m.pairing.Relates v w where
  known := id
  remember {m s t v w} fresh related := by
    refine Pairing.Relates.mono (r := m.pairing) (fun {u t'} listed => ?_) id related
    show ((s, t) :: m.memory.copies).lookup u = some t'
    rw [Copying.lookup_cons_eq, if_neg]
    · exact listed
    · rintro rfl
      cases fresh.symm.trans listed

/-- A step that copies no structure traces the copying, if the bookkeeping is right after it. -/
theorem traces_of_visit (charts : (logs c D).Charts g D W) (structs : W'.1.structs = W.1.structs)
    (vars : W.1.varCount ≤ W'.1.varCount) (frames : (g.added W'.1).Frames W'.1)
    (copies : W'.2.memory.copies = W.2.memory.copies) (visits : W.2.visits ⊆ W'.2.visits)
    (tracks : Tracks (c.upTo W'.1) D W'.2) :
    (logs c D).Traces g D (fun m v w => m.pairing.Relates v w) W W' := by
  have count : W'.1.structCount = W.1.structCount := congrArg Array.size structs
  have lists {s t : StructId} : (logs c D).Lists W'.2 s t ↔ (logs c D).Lists W.2 s t := by
    show W'.2.memory.copies.lookup s = some t ↔ W.2.memory.copies.lookup s = some t
    rw [copies]
  constructor
  case charts =>
    refine ⟨charts.structs.trans count.ge, charts.vars.trans vars, frames, fun {s t} listed => ?_,
      charts.oneToOne.mono lists.1, tracks⟩
    obtain ⟨below, has⟩ := charts.copied (lists.1 listed)
    exact ⟨below, added_mono count.ge vars has⟩
  case more =>
    intro v w related
    exact Pairing.Relates.mono (r := W.2.pairing) lists.2 (fun met => visits met) related
  case lists => exact lists.2
  case structs => exact count.ge
  case unchanged =>
    intro t _
    simp only [features?, struct?, structs]
  case complete =>
    intro t lower upper
    exact absurd upper (Nat.not_lt.2 (count.trans_le lower))

theorem exists_logVar (source : g.Source D) (start : c.before = g) (hx : D (.var x))
    (charts : (logs c D).Charts g D W) : ∃ y W', logVar x W = some (.var y, W') ∧
      (logs c D).Traces g D (fun m v w => m.pairing.Relates v w) W W' ∧ (x, y) ∈ W'.2.visits := by
  obtain ⟨h, m⟩ := W
  obtain ⟨name, found⟩ := source.free hx
  have called : c.before.name? x = some name := by simp [start, name?, found]
  have calledNow : h.name? x = some name := by
    rw [name?, charts.frames.var (source.contains hx)]
    simp [added, found]
  have tracks : Tracks (c.upTo h) D m := charts.sound
  have met (y : VarId) : (x, y) ∈ m.visits ++ [(x, y)] :=
    List.mem_append_right _ List.mem_cons_self
  have more (y : VarId) : m.visits ⊆ m.visits ++ [(x, y)] := List.subset_append_left _ _
  cases known : m.memory.replaced.get? name with
  | some y =>
    have visited := tracks.mapped hx called known
    exact ⟨y, (h, m.visit x y),
      by simp [logVar, renameVar, calledNow, known, Value.var?, Logged.visit],
      traces_of_visit charts rfl (Nat.le_refl _) charts.frames rfl (more y) visited, met y⟩
  | none =>
    by_cases inUse : name ∈ m.memory.taken
    · have visited := tracks.created (start ▸ charts.vars) hx called known inUse
      let fresh := unusedName m.memory.taken name
      exact ⟨h.nextVar, (h.addVar { name := fresh }, m.create x h.nextVar name fresh),
        by simp [logVar, renameVar, calledNow, known, inUse, newVar, Value.var?, Logged.create,
          fresh],
        traces_of_visit charts rfl (by simp) (frames_addVar charts.vars charts.frames) rfl
          (more h.nextVar) visited, met h.nextVar⟩
    · have visited := tracks.kept hx called known inUse
      exact ⟨x, (h, m.visit x x),
        by simp [logVar, renameVar, calledNow, known, inUse, Value.var?, Logged.visit],
        traces_of_visit charts rfl (Nat.le_refl _) charts.frames rfl (more x) visited, met x⟩

theorem deref?_of_charts (source : g.Source D) (hv : D v) (charts : (logs c D).Charts g D W) :
    W.1.deref? v = some v := by
  cases v with
  | atom a => rfl
  | struct s => rfl
  | var x =>
    obtain ⟨name, found⟩ := source.free hv
    exact charts.frames.deref?_eq_some (deref?_of_free found)

theorem logValue_traces (source : g.Source D) (start : c.before = g)
    {logStruct : StructId → Graph × Logged → Option (StructId × Graph × Logged)}
    (traces : ∀ {s W t W'}, D (.struct s) → (logs c D).Charts g D W →
      logStruct s W = some (t, W') →
      (logs c D).Traces g D (fun m v w => m.pairing.Relates v w) W W' ∧
        W'.2.pairing.Relates (.struct s) (.struct t))
    (hv : D v) (charts : (logs c D).Charts g D W)
    (walked : logValue logStruct v W = some (w, W')) :
    (logs c D).Traces g D (fun m v w => m.pairing.Relates v w) W W' ∧
      W'.2.pairing.Relates v w := by
  rw [logValue, deref?_of_charts source hv charts] at walked
  cases v with
  | atom a =>
    cases walked
    exact ⟨.refl charts, rfl⟩
  | var x =>
    obtain ⟨y, W₁, met, traced, visited⟩ := exists_logVar source start hv charts
    cases met.symm.trans walked
    exact ⟨traced, visited⟩
  | struct s =>
    obtain ⟨⟨t, W'⟩, copied, ⟨⟩⟩ := Option.map_eq_some_iff.1 walked
    exact traces hv charts copied

theorem logStruct_traces (source : g.Source D) (start : c.before = g) (fuel : Nat)
    {s t : StructId} (hs : D (.struct s)) (charts : (logs c D).Charts g D W)
    (walked : logStruct fuel s W = some (t, W')) :
    (logs c D).Traces g D (fun m v w => m.pairing.Relates v w) W W' ∧
      W'.2.pairing.Relates (.struct s) (.struct t) := by
  induction fuel generalizing s t W W' with
  | zero => cases walked
  | succ fuel ih =>
    exact Ledger.imageStruct_traces source (images_logs c D) (logValue_traces source start ih) hs
      charts walked

theorem logValue_finishes (source : g.Source D) (start : c.before = g) {fuel : Nat}
    {logStruct : StructId → Graph × Logged → Option (StructId × Graph × Logged)}
    (finishes : (logs c D).Finishes g D fuel Value.struct logStruct) :
    (logs c D).Finishes g D fuel id (logValue logStruct) := by
  intro v W hv charts few
  change D v at hv
  rw [logValue, deref?_of_charts source hv charts]
  cases v with
  | atom a => exact ⟨.atom a, W, rfl⟩
  | var x =>
    obtain ⟨y, W', met, -⟩ := exists_logVar source start hv charts
    exact ⟨.var y, W', met⟩
  | struct s =>
    obtain ⟨t, W', copied⟩ := finishes s W hv charts few
    exact ⟨.struct t, W', by simp [copied]⟩

theorem logStruct_finishes (source : g.Source D) (start : c.before = g) (fuel : Nat) :
    (logs c D).Finishes g D fuel Value.struct (logStruct fuel) := by
  induction fuel with
  | zero => exact fun _ _ _ _ few => absurd few (Nat.not_lt_zero _)
  | succ fuel ih =>
    exact Ledger.imageStruct_finishes source (logValue_finishes source start ih)
      (logValue_traces source start (logStruct_traces source start fuel))

/-- Does a call give a value that matches `v`, with every variable what it has become at a visit?
The visits are of variables below `v`, and they make the replacements. -/
structure Call.Performs (c : Call) (v w : Value) (replaced' : NameMap VarId) (p : Pairing)
    (visits : Visits) : Prop where
  pairs : p.Matches c.before v c.after w
  visited : ∀ {x y}, p.vars x y → (x, y) ∈ visits
  below : ∀ {x y}, (x, y) ∈ visits → c.before.Below v (.var x)
  follows : c.Follows visits
  replaced : ∀ {old y}, replaced'.get? old = some y ↔ c.Replaces visits old y
  inside : c.after.Replaces replaced'
  name : ∀ {x name}, c.before.name? x = some name → c.after.name? x = some name

theorem charts_start {replaced : NameMap VarId} {used names : List String}
    (replaces : g.Replaces replaced)
    (called : ∀ name, name ∈ names ↔ ∃ old y, replaced.get? old = some y ∧ g.name? y = some name)
    (D : Value → Prop) :
    (logs ⟨g, g, replaced, used⟩ D).Charts g D (g, ⟨{ replaced, taken := names ++ used }, []⟩) := by
  have start {old : String} {y : VarId} :
      (Call.mk g g replaced used).Replaces [] old y ↔ replaced.get? old = some y := by
    simp [Call.Replaces]
  refine ⟨Nat.le_refl _, Nat.le_refl _, ⟨fun _ => rfl, fun _ => rfl⟩, fun listed => ?_,
    ⟨fun _ _ _ listed => ?_, fun _ _ _ listed => ?_⟩, ?_⟩
  · cases listed
  · cases listed
  · cases listed
  · refine ⟨start.symm, fun {name} => ?_, fun held => replaces _ _ (start.1 held),
      fun met => ?_, .start⟩
    · show name ∈ names ++ used ↔ (Call.mk g g replaced used).InUse [] name
      simp only [Call.InUse, start, List.mem_append, called]
      exact Or.comm
    · cases met

/-- The renaming of a plain value ends and does what it has to. -/
theorem exists_performs (plain : g.Plain v) {replaced : NameMap VarId}
    (replaces : g.Replaces replaced) (used : List String) :
    ∃ w replaced' h p visits, g.rename? v replaced used = some (w, replaced', h) ∧
      (Call.mk g h replaced used).Performs v w replaced' p visits := by
  obtain ⟨names, called, named⟩ := exists_names replaces
  have source := plain.source_below
  let c : Call := ⟨g, g, replaced, used⟩
  let m : Logged := ⟨{ replaced, taken := names ++ used }, []⟩
  have start : (logs c (g.Below v)).Charts g (g.Below v) (g, m) :=
    charts_start replaces named (g.Below v)
  have few : ((logs c (g.Below v)).pending g m).card < 2 * (g.structCount + 1) :=
    (Ledger.card_pending_le g m).trans_lt (by omega)
  obtain ⟨w, ⟨h, m'⟩, walked⟩ :=
    logValue_finishes source rfl (logStruct_finishes source rfl _) v (g, m) .refl start few
  obtain ⟨traces, related⟩ :=
    logValue_traces source rfl (logStruct_traces source rfl _) .refl start walked
  have renamed := logValue_map (logStruct_map (2 * (g.structCount + 1))) v (g, m)
  rw [walked] at renamed
  have tracks : Tracks ⟨g, h, replaced, used⟩ (g.Below v) m' := traces.charts.sound
  refine ⟨w, m'.memory.replaced, h, m'.pairing.within (g.Below v) (h.Below w), m'.visits, ?_, ?_⟩
  · rw [rename?, called]
    exact congrArg (Option.bind · _) renamed.symm
  · refine ⟨Pairing.matches_of_maps traces.charts.oneToOne related fun {s t} listed => ?_, And.left,
      tracks.met, tracks.follows, tracks.replaced, fun old y held => ?_, fun {x name} held => ?_⟩
    · have has := (traces.charts.copied listed).2
      obtain ⟨s', features, features', listed', found, found', maps⟩ :=
        traces.complete t has.1 has.2
      cases traces.charts.oneToOne.1 listed listed'
      exact ⟨features, features', found, found', maps⟩
    · exact tracks.inside (tracks.replaced.1 held)
    · obtain ⟨node, found, rfl⟩ := Option.map_eq_some_iff.1 held
      show h.name? x = some node.name
      rw [name?, traces.charts.frames.var?_eq_some found, Option.map_some]

end Renaming

end FeatureLogic
