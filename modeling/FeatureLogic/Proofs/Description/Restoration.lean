import FeatureLogic.Proofs.Description.Building
import FeatureLogic.Proofs.Description.Depiction

/-!
# Depictions restore values

Building a description that depicts a value succeeds, and the structures that it adds are copies of
the structures of the value. The first one described is added first, so that the place of a
structure among those described tells which one its copy is.
-/

namespace FeatureLogic

open FeatureLogic.Graph

def copyOf (n : Nat) (met : List StructId) (s : StructId) : StructId := ⟨n + met.idxOf s⟩

variable {n : Nat} {met met' : List StructId} {s s' : StructId}

theorem copyOf_inj (mem : s ∈ met) :
    copyOf n met s = copyOf n met s' ↔ s = s' := by
  rw [copyOf, copyOf, StructId.mk.injEq, Nat.add_left_cancel_iff]
  exact List.idxOf_inj mem

theorem copyOf_of_isPrefix (mem : s ∈ met) (more : met <+: met') :
    copyOf n met' s = copyOf n met s := by
  obtain ⟨new, rfl⟩ := more
  rw [copyOf, copyOf, List.idxOf_append_of_mem mem]

theorem copyOf_append_singleton (fresh : s ∉ met) :
    copyOf n (met ++ [s]) s = ⟨n + met.length⟩ := by
  rw [copyOf, List.idxOf_append_of_notMem fresh]
  simp

theorem length_le_copyOf (more : met <+: met') (fresh : s ∉ met) :
    n + met.length ≤ (copyOf n met' s).index := by
  obtain ⟨new, rfl⟩ := more
  rw [copyOf, List.idxOf_append_of_notMem fresh]
  dsimp only
  omega

theorem copyOf_lt_length (mem : s ∈ met) : (copyOf n met s).index < n + met.length := by
  have := List.idxOf_lt_length_of_mem mem
  rw [copyOf]
  dsimp only
  omega

namespace Graph

inductive Restores (g h : Graph) (met : List StructId) : Value → Value → Prop where
  | atom (a : Atom) : Restores g h met (.atom a) (.atom a)
  | struct {s : StructId} : s ∈ met →
    Restores g h met (.struct s) (.struct (copyOf g.structCount met s))
  | var {x y : VarId} {name : String} : g.name? x = some name → h.var? y = some { name } →
    Restores g h met (.var x) (.var y)

def Mirrors (g h : Graph) (met : List StructId) (s : StructId) : Prop :=
  ∃ m n, g.features? s = some m ∧ h.features? (copyOf g.structCount met s) = some n ∧
    (∀ name v, m.get? name = some v → ∃ v' w, g.deref? v = some v' ∧ n.get? name = some w ∧
      Restores g h met v' w) ∧
    ∀ name, m.get? name = none → n.get? name = none

variable {g h k : Graph}

theorem Restores.mono {v w : Value} (restores : Restores g h met v w) (more : met <+: met')
    (vars : ∀ y node, h.var? y = some node → k.var? y = some node) : Restores g k met' v w := by
  cases restores with
  | atom a => exact .atom a
  | struct mem =>
    rw [← copyOf_of_isPrefix mem more]
    exact .struct (more.subset mem)
  | var named found => exact .var named (vars _ _ found)

theorem Mirrors.mono (mirrors : Mirrors g h met s) (mem : s ∈ met) (more : met <+: met')
    (unchanged : k.features? (copyOf g.structCount met s) =
      h.features? (copyOf g.structCount met s))
    (vars : ∀ y node, h.var? y = some node → k.var? y = some node) : Mirrors g k met' s := by
  obtain ⟨m, n, found, found', held, absent⟩ := mirrors
  refine ⟨m, n, found, ?_, fun name v holds => ?_, absent⟩
  · rw [copyOf_of_isPrefix mem more, unchanged, found']
  · obtain ⟨v', w, reads, holds', restores⟩ := held name v holds
    exact ⟨v', w, reads, holds', restores.mono more vars⟩

structure Listed (g : Graph) (l : Listing) (st : BuildState) : Prop where
  structCount : st.graph.structCount = g.structCount + l.met.length
  tagged : ∀ s ∈ l.tagged, s ∈ l.met ∧ st.introduced.lookup (l.tagged.idxOf s + 1) =
    some (.struct (copyOf g.structCount l.met s))
  unused : ∀ id, l.tagged.length < id → st.introduced.lookup id = none

/-- What a part of the building has done, which may set features of `target` besides. -/
structure Restored (g : Graph) (target : Option StructId) (l l' : Listing) (st st' : BuildState) :
    Prop where
  listed : Listed g l' st'
  more : l.met <+: l'.met
  unchanged : ∀ t : StructId, t.index < st.graph.structCount → target ≠ some t →
    st'.graph.features? t = st.graph.features? t
  vars : ∀ y node, st.graph.var? y = some node → st'.graph.var? y = some node
  mirrors : ∀ s ∈ l'.met, s ∉ l.met → Mirrors g st'.graph l'.met s

variable {target : Option StructId} {l l₁ l' : Listing} {st st₁ st' : BuildState}

theorem listed_start (g : Graph) : Listed g {} { graph := g } :=
  ⟨rfl, by simp, fun _ _ => rfl⟩

theorem Restored.refl (listed : Listed g l st) : Restored g target l l st st :=
  ⟨listed, List.prefix_rfl, fun _ _ _ => rfl, fun _ _ found => found,
    fun _ mem fresh => absurd mem fresh⟩

theorem Restored.weaken (restored : Restored g none l l' st st') :
    Restored g target l l' st st' :=
  ⟨restored.listed, restored.more, fun t old _ => restored.unchanged t old (by simp),
    restored.vars, restored.mirrors⟩

theorem Restored.structCount_le (restored : Restored g target l l' st st')
    (listed : Listed g l st) : st.graph.structCount ≤ st'.graph.structCount := by
  have := restored.more.length_le
  rw [restored.listed.structCount, listed.structCount]
  omega

theorem Restored.trans (listed : Listed g l st)
    (old : ∀ t ∈ target, t.index < st.graph.structCount)
    (first : Restored g target l l₁ st st₁) (second : Restored g target l₁ l' st₁ st') :
    Restored g target l l' st st' where
  listed := second.listed
  more := first.more.trans second.more
  unchanged t inside ne := by
    rw [second.unchanged t (inside.trans_le (first.structCount_le listed)) ne,
      first.unchanged t inside ne]
  vars y node found := second.vars y node (first.vars y node found)
  mirrors s mem fresh := by
    by_cases between : s ∈ l₁.met
    · refine (first.mirrors s between fresh).mono between second.more ?_ second.vars
      have lower := length_le_copyOf (n := g.structCount) first.more fresh
      have upper := copyOf_lt_length (n := g.structCount) between
      rw [← listed.structCount] at lower
      rw [← first.listed.structCount] at upper
      refine second.unchanged _ upper ?_
      rintro rfl
      exact Nat.not_lt.2 lower (old _ rfl)
    · exact second.mirrors s mem between

theorem Restored.setFeature (listed : Listed g l st) (t : StructId) (name : String) (v : Value) :
    Restored g (some t) l l st { st with graph := st.graph.setFeature t name v } where
  listed := ⟨by simpa using listed.structCount, listed.tagged, listed.unused⟩
  more := List.prefix_rfl
  unchanged u _ ne := by
    rw [features?_setFeature, if_neg]
    rintro rfl
    exact ne rfl
  vars _ _ found := found
  mirrors _ mem fresh := absurd mem fresh

theorem Restored.addVar (listed : Listed g l st) (name : String) :
    Restored g none l l st { st with graph := st.graph.addVar { name } } where
  listed := ⟨listed.structCount, listed.tagged, listed.unused⟩
  more := List.prefix_rfl
  unchanged _ _ _ := rfl
  vars y node found := by
    rw [var?_addVar, if_neg, found]
    rintro rfl
    exact Nat.lt_irrefl _ (contains_of_var? found)
  mirrors _ mem fresh := absurd mem fresh

/-- What is done between entering a structure and leaving it makes the copy of the structure. -/
theorem Restored.of_enter {tag : Option Nat} {introduced : Introduced}
    (restored : Restored g (some st.graph.nextStruct) (l.enter s tag) l'
      { graph := st.graph.addStruct ∅, introduced } st')
    (mirrors : Mirrors g st'.graph l'.met s) : Restored g none l l' st st' where
  listed := restored.listed
  more := (List.prefix_append l.met [s]).trans (l.met_enter s tag ▸ restored.more)
  unchanged t old _ := by
    have ne : t ≠ st.graph.nextStruct := by
      rintro rfl
      exact Nat.lt_irrefl _ old
    rw [restored.unchanged t (old.trans_le (by simp)) (by simpa using ne.symm),
      features?_addStruct, if_neg ne]
  vars := restored.vars
  mirrors u mem unlisted := by
    by_cases eq : u = s
    · exact eq ▸ mirrors
    · exact restored.mirrors u mem (by simpa using ⟨unlisted, eq⟩)

structure Sets (g : Graph) (t : StructId) (entries : List (String × Value)) (l l' : Listing)
    (st st' : BuildState) (filled filled' : NameMap Value) : Prop where
  restored : Restored g (some t) l l' st st'
  own : st'.graph.features? t = some filled'
  held : ∀ e ∈ entries, ∃ v w, g.deref? e.2 = some v ∧ filled'.get? e.1 = some w ∧
    Restores g st'.graph l'.met v w
  absent : ∀ name ∉ entries.map Prod.fst, filled'.get? name = filled.get? name

variable {t : StructId} {filled filled' : NameMap Value} {rest : List (String × Value)}

theorem Sets.nil (listed : Listed g l st) (own : st.graph.features? t = some filled) :
    Sets g t [] l l st st filled filled :=
  ⟨.refl listed, own, by simp, fun _ _ => rfl⟩

theorem Sets.cons {name : String} {v v' w : Value} (listed : Listed g l st)
    (inside : t.index < st.graph.structCount) (first : Restored g none l l₁ st st₁)
    (reads : g.deref? v = some v') (restores : Restores g st₁.graph l₁.met v' w)
    (fresh : name ∉ rest.map Prod.fst)
    (sets : Sets g t rest l₁ l' { st₁ with graph := st₁.graph.setFeature t name w } st'
      (filled.insert name w) filled') :
    Sets g t ((name, v) :: rest) l l' st st' filled filled' := by
  have old : ∀ u ∈ some t, u.index < st.graph.structCount := by
    rintro u ⟨⟩
    exact inside
  have set := first.weaken.trans listed old (.setFeature first.listed t name w)
  refine ⟨set.trans listed old sets.restored, sets.own, ?_, fun key other => ?_⟩
  · refine List.forall_mem_cons.2 ⟨⟨v', w, reads, ?_, ?_⟩, sets.held⟩
    · rw [sets.absent name fresh, NameMap.get?_insert, if_pos rfl]
    · exact restores.mono sets.restored.more sets.restored.vars
  · rw [List.map_cons, List.mem_cons, not_or] at other
    rw [sets.absent key other.2, NameMap.get?_insert, if_neg (Ne.symm other.1)]

/-- When all features of a structure are set on its copy, the copy mirrors the structure. -/
theorem Sets.mirrors {m : NameMap Value} (found : g.features? s = some m)
    (copy : copyOf g.structCount l'.met s = t) (sets : Sets g t m.entries l l' st st' ∅ filled') :
    Mirrors g st'.graph l'.met s := by
  refine ⟨m, filled', found, copy ▸ sets.own, fun name v holds => ?_, fun name none => ?_⟩
  · exact sets.held (name, v) (m.get?_eq_some_iff.1 holds)
  · rw [sets.absent name, NameMap.get?_empty]
    intro mem
    obtain ⟨v, holds⟩ := m.mem_keys_iff.1 mem
    cases none.symm.trans holds

end Graph

namespace Build

variable {g : Graph} {l l' : Listing} {st st' : BuildState}

theorem exists_enter (listed : Listed g l st) (fresh : s ∉ l.met) (tag : Option Tag)
    (numbered : ∀ id ∈ tag.map Tag.id, id = l.tagged.length + 1) :
    ∃ introduced, introduce? tag (.struct st.graph.nextStruct)
        { st with graph := st.graph.addStruct ∅ } =
          .ok () { graph := st.graph.addStruct ∅, introduced } ∧
      Listed g (l.enter s (tag.map Tag.id)) { graph := st.graph.addStruct ∅, introduced } := by
  have count : (st.graph.addStruct ∅).structCount =
      g.structCount + (l.enter s (tag.map Tag.id)).met.length := by
    simp [listed.structCount, Nat.add_assoc]
  have copies {u : StructId} (mem : u ∈ l.met) :
      copyOf g.structCount (l.met ++ [s]) u = copyOf g.structCount l.met u :=
    copyOf_of_isPrefix mem (List.prefix_append _ _)
  cases tag with
  | none =>
    refine ⟨st.introduced, rfl, count, fun u mem => ?_, listed.unused⟩
    obtain ⟨met, found⟩ := listed.tagged u mem
    rw [Listing.met_enter, copies met]
    exact ⟨List.mem_append_left _ met, found⟩
  | some tag =>
    have number : tag.id = l.tagged.length + 1 := numbered tag.id rfl
    have unused : st.introduced.lookup tag.id = none := listed.unused tag.id (by omega)
    have own : copyOf g.structCount (l.met ++ [s]) s = st.graph.nextStruct := by
      rw [copyOf_append_singleton fresh, ← listed.structCount]
      rfl
    refine ⟨(tag.id, .struct st.graph.nextStruct) :: st.introduced, ?_, count, fun u mem => ?_,
      fun id above => ?_⟩
    · rw [introduce?, introduce_apply, unused]
    · rw [Option.map_some, Listing.tagged_enter_some] at mem ⊢
      rw [Listing.met_enter, Copying.lookup_cons_eq]
      rcases List.mem_append.1 mem with mem | mem
      · obtain ⟨met, found⟩ := listed.tagged u mem
        have before := List.idxOf_lt_length_of_mem mem
        refine ⟨List.mem_append_left _ met, ?_⟩
        rw [List.idxOf_append_of_mem mem, if_neg (by omega), found, copies met]
      · obtain rfl := List.mem_singleton.1 mem
        have untagged : u ∉ l.tagged := fun mem => fresh (listed.tagged u mem).1
        refine ⟨List.mem_append_right _ mem, ?_⟩
        rw [List.idxOf_append_of_notMem untagged, List.idxOf_cons_self, if_pos number.symm, own]
    · rw [Option.map_some, Listing.tagged_enter_some, List.length_append,
        List.length_singleton] at above
      rw [Copying.lookup_cons_eq, if_neg (by omega)]
      exact listed.unused id (by omega)

theorem build_struct {tag : Option Tag} {features : Features Tag} {st₁ : BuildState}
    (tagged : introduce? tag (.struct st.graph.nextStruct)
      { st with graph := st.graph.addStruct ∅ } = .ok () st₁)
    (built : features.build st.graph.nextStruct st₁ = .ok () st') :
    (Description.struct tag features).build none st = .ok (.struct st.graph.nextStruct) st' := by
  have added : newStruct st =
      .ok st.graph.nextStruct { st with graph := st.graph.addStruct ∅ } := rfl
  rw [Description.build, bind_of_ok added, bind_of_ok (x := introduce? none _) rfl,
    bind_of_ok tagged, bind_of_ok built]
  rfl

theorem build_assign {name : String} {d : Description Tag} {features : Features Tag}
    {t : StructId} {w : Value} {st₁ : BuildState} (built : d.build none st = .ok w st₁)
    (builtRest : features.build t { st₁ with graph := st₁.graph.setFeature t name w } =
      .ok () st') : (Features.assign name none d features).build t st = .ok () st' := by
  rw [Features.build, bind_of_ok built, bind_of_ok (x := setFeature t name w) rfl, builtRest]

theorem build_refer {name : String} {tag : Tag} {features : Features Tag} {t : StructId}
    {w : Value} (known : st.introduced.lookup tag.id = some w)
    (builtRest : features.build t { st with graph := st.graph.setFeature t name w } =
      .ok () st') : (Features.refer name tag features).build t st = .ok () st' := by
  have referred : refer tag st = .ok w st := by rw [refer_apply, known]
  rw [Features.build, bind_of_ok referred, bind_of_ok (x := setFeature t name w) rfl, builtRest]

end Build

open Build

mutual

/-- Building a description restores what it depicts. -/
theorem Description.exists_build {g : Graph} (d : Description Tag) {v : Value} {l l' : Listing}
    {st : BuildState} (depicts : (d.map Tag.id).Depicts g v l l') (listed : Listed g l st) :
    ∃ w st', d.build none st = .ok w st' ∧ Restored g none l l' st st' ∧
      Restores g st'.graph l'.met v w := by
  match d with
  | .atom a =>
    obtain ⟨rfl, rfl⟩ := depicts
    exact ⟨.atom a, st, rfl, .refl listed, .atom a⟩
  | .var name =>
    obtain ⟨x, rfl, named, rfl⟩ := depicts
    refine ⟨.var st.graph.nextVar, _, rfl, .addVar listed name, .var named ?_⟩
    rw [var?_addVar, if_pos rfl]
  | .struct tag features =>
    obtain ⟨s, m, rfl, found, fresh, numbered, depicted⟩ := depicts
    obtain ⟨introduced, tagged, entered⟩ := exists_enter listed fresh tag numbered
    have inside : st.graph.nextStruct.index < (st.graph.addStruct ∅).structCount := by
      simp [nextStruct]
    have empty : (st.graph.addStruct ∅).features? st.graph.nextStruct = some ∅ := by
      rw [features?_addStruct, if_pos rfl]
    obtain ⟨st', filled, built, sets⟩ :=
      features.exists_build depicted entered inside empty m.nodup_keys
    have more : l.met ++ [s] <+: l'.met := l.met_enter s _ ▸ sets.restored.more
    have copy : copyOf g.structCount l'.met s = st.graph.nextStruct := by
      rw [copyOf_of_isPrefix (by simp) more, copyOf_append_singleton fresh, ← listed.structCount]
      rfl
    refine ⟨.struct st.graph.nextStruct, st', build_struct tagged built,
      sets.restored.of_enter (sets.mirrors found copy), ?_⟩
    rw [← copy]
    exact .struct (more.subset (by simp))

theorem Features.exists_build {g : Graph} (features : Features Tag)
    {entries : List (String × Value)} {l l' : Listing} {st : BuildState}
    (depicts : (features.map Tag.id).Depicts g entries l l') (listed : Listed g l st) {t : StructId}
    {filled : NameMap Value} (inside : t.index < st.graph.structCount)
    (own : st.graph.features? t = some filled) (nodup : (entries.map Prod.fst).Nodup) :
    ∃ st' filled', features.build t st = .ok () st' ∧
      Sets g t entries l l' st st' filled filled' := by
  match features with
  | .nil =>
    obtain ⟨rfl, rfl⟩ := depicts
    exact ⟨st, filled, rfl, .nil listed own⟩
  | .assign name tag d rest =>
    obtain ⟨v, others, v', l₁, rfl, reads, untagged, depicted, depictedRest⟩ := depicts
    obtain rfl := Option.map_eq_none_iff.1 untagged
    obtain ⟨fresh, nodupRest⟩ := List.nodup_cons.1 nodup
    obtain ⟨w, st₁, built, restored, restores⟩ := d.exists_build depicted listed
    have set := Restored.setFeature restored.listed t name w
    have own₁ : st₁.graph.features? t = some filled :=
      (restored.unchanged t inside (by simp)).trans own
    have inside₁ := inside.trans_le (restored.structCount_le listed)
    obtain ⟨st', filled', builtRest, sets⟩ := rest.exists_build depictedRest set.listed
      (inside₁.trans_le (by simp)) (features?_setFeature_self own₁ name w) nodupRest
    exact ⟨st', filled', build_assign built builtRest,
      .cons listed inside restored reads restores fresh sets⟩
  | .refer name tag rest =>
    obtain ⟨v, others, s, rfl, reads, known, number, depictedRest⟩ := depicts
    obtain ⟨fresh, nodupRest⟩ := List.nodup_cons.1 nodup
    obtain ⟨met, introduced⟩ := listed.tagged s known
    rw [← number] at introduced
    have set := Restored.setFeature listed t name (.struct (copyOf g.structCount l.met s))
    obtain ⟨st', filled', builtRest, sets⟩ := rest.exists_build depictedRest set.listed
      (inside.trans_le (by simp)) (features?_setFeature_self own name _) nodupRest
    exact ⟨st', filled', build_refer introduced builtRest,
      .cons listed inside (.refl listed) reads (.struct met) fresh sets⟩

end

end FeatureLogic
