/-!
# Finite maps from names

A map keeps its entries sorted by name, code point by code point, so that two maps with the same
look-ups are equal and every listing comes out in the order of the names.
-/

namespace FeatureLogic

theorem mem_of_lookup {α β : Type} [BEq α] [LawfulBEq α] {a : α} {b : β} {l : List (α × β)}
    (found : l.lookup a = some b) : (a, b) ∈ l := by
  obtain ⟨_, _, split, -⟩ := List.lookup_eq_some_iff.1 found
  rw [split]
  exact List.mem_append_right _ List.mem_cons_self

theorem lookup_of_mem {α β : Type} [BEq α] [LawfulBEq α] {a : α} {b : β} {l : List (α × β)}
    (nodup : (l.map Prod.fst).Nodup) (mem : (a, b) ∈ l) : l.lookup a = some b := by
  induction l with
  | nil => cases mem
  | cons e rest ih =>
    obtain ⟨once, nodup⟩ := List.nodup_cons.1 nodup
    rcases List.mem_cons.1 mem with rfl | mem
    · simp
    · have other : a ≠ e.1 := fun same => once (same ▸ List.mem_map_of_mem mem)
      rw [List.lookup_cons, beq_false_of_ne other]
      exact ih nodup mem

/-- Entries by strictly ascending name. -/
structure NameMap (α : Type) where
  entries : List (String × α) := []
  sorted : entries.Pairwise (fun x y => x.1 < y.1) := by exact List.Pairwise.nil

namespace NameMap

variable {α β : Type}

theorem eq_of_entries {m n : NameMap α} (h : m.entries = n.entries) : m = n := by
  cases m; cases n; cases h; rfl

instance [DecidableEq α] : DecidableEq (NameMap α) := fun m n =>
  decidable_of_iff (m.entries = n.entries) ⟨eq_of_entries, fun h => h ▸ rfl⟩

instance : EmptyCollection (NameMap α) := ⟨{}⟩

instance : Inhabited (NameMap α) := ⟨∅⟩

def size (m : NameMap α) : Nat := m.entries.length

def isEmpty (m : NameMap α) : Bool := m.entries.isEmpty

def keys (m : NameMap α) : List String := m.entries.map Prod.fst

def values (m : NameMap α) : List α := m.entries.map Prod.snd

def find? (name : String) : List (String × α) → Option α
  | [] => none
  | (key, value) :: rest => if key = name then some value else find? name rest

def get? (m : NameMap α) (name : String) : Option α := find? name m.entries

def contains (m : NameMap α) (name : String) : Bool := (m.get? name).isSome

def place (name : String) (value : α) : List (String × α) → List (String × α)
  | [] => [(name, value)]
  | (key, old) :: rest =>
    if name < key then (name, value) :: (key, old) :: rest
    else if name = key then (name, value) :: rest
    else (key, old) :: place name value rest

theorem mem_place {name : String} {value : α} {entries : List (String × α)} {e : String × α}
    (h : e ∈ place name value entries) : e = (name, value) ∨ e ∈ entries := by
  fun_induction place name value entries with
  | case1 => simpa using h
  | case2 => simpa [or_assoc] using h
  | case3 => rcases List.mem_cons.1 h with h | h <;> simp [h]
  | case4 _ _ _ _ _ ih =>
    rcases List.mem_cons.1 h with h | h
    · simp [h]
    · rcases ih h with h | h <;> simp [h]

theorem ne_of_lt {a b : String} (h : a < b) : a ≠ b := by
  rintro rfl
  exact String.lt_irrefl a h

theorem lt_of_not_lt_of_ne {a b : String} (h : ¬ a < b) (hne : a ≠ b) : b < a :=
  Decidable.byContradiction fun h' =>
    hne (String.le_antisymm (String.not_lt.1 h') (String.not_lt.1 h))

theorem sorted_place {name : String} {value : α} {entries : List (String × α)}
    (h : entries.Pairwise (fun x y => x.1 < y.1)) :
    (place name value entries).Pairwise (fun x y => x.1 < y.1) := by
  fun_induction place name value entries with
  | case1 => simp
  | case2 key old rest lt =>
    refine List.pairwise_cons.2 ⟨fun e he => ?_, h⟩
    rcases List.mem_cons.1 he with rfl | he
    · exact lt
    · exact String.lt_trans lt ((List.pairwise_cons.1 h).1 e he)
  | case3 =>
    exact List.pairwise_cons.2 ⟨(List.pairwise_cons.1 h).1, (List.pairwise_cons.1 h).2⟩
  | case4 key old rest notLt ne ih =>
    refine List.pairwise_cons.2 ⟨fun e he => ?_, ih (List.pairwise_cons.1 h).2⟩
    rcases mem_place he with rfl | he
    · exact lt_of_not_lt_of_ne notLt ne
    · exact (List.pairwise_cons.1 h).1 e he

def insert (m : NameMap α) (name : String) (value : α) : NameMap α :=
  ⟨place name value m.entries, sorted_place m.sorted⟩

def erase (m : NameMap α) (name : String) : NameMap α :=
  ⟨m.entries.filter (fun e => e.1 ≠ name), m.sorted.filter _⟩

def map (f : α → β) (m : NameMap α) : NameMap β :=
  ⟨m.entries.map (fun e => (e.1, f e.2)), List.pairwise_map.2 m.sorted⟩

def ofList (entries : List (String × α)) : NameMap α :=
  entries.foldl (fun m e => m.insert e.1 e.2) ∅

@[simp] theorem get?_empty (name : String) : (∅ : NameMap α).get? name = none := rfl

theorem find?_place (name key : String) (value : α) (entries : List (String × α)) :
    find? key (place name value entries) =
      if name = key then some value else find? key entries := by
  fun_induction place name value entries with
  | case1 => simp [find?]
  | case2 => simp [find?]
  | case3 => grind [find?]
  | case4 => grind [find?]

@[simp] theorem get?_insert (m : NameMap α) (name key : String) (value : α) :
    (m.insert name value).get? key = if name = key then some value else m.get? key :=
  find?_place name key value m.entries

theorem mem_of_get?_ofList {entries : List (String × α)} {name : String} {value : α}
    (found : (ofList entries).get? name = some value) : (name, value) ∈ entries := by
  have known (entries : List (String × α)) (m : NameMap α)
      (found : (entries.foldl (fun m e => m.insert e.1 e.2) m).get? name = some value) :
      (name, value) ∈ entries ∨ m.get? name = some value := by
    induction entries generalizing m with
    | nil => exact .inr found
    | cons e rest ih =>
      rcases ih (m.insert e.1 e.2) found with mem | found
      · exact .inl (List.mem_cons_of_mem _ mem)
      · rw [get?_insert] at found
        split at found
        · next eq =>
          cases found
          exact .inl (eq ▸ List.mem_cons_self)
        · exact .inr found
  rcases known entries ∅ found with mem | absent
  · exact mem
  · cases absent

theorem find?_filter (name key : String) (entries : List (String × α)) :
    find? key (entries.filter (fun e => e.1 ≠ name)) =
      if name = key then none else find? key entries := by
  induction entries with
  | nil => simp [find?]
  | cons e rest ih => grind [find?]

@[simp] theorem get?_erase (m : NameMap α) (name key : String) :
    (m.erase name).get? key = if name = key then none else m.get? key :=
  find?_filter name key m.entries

@[simp] theorem get?_map (f : α → β) (m : NameMap α) (name : String) :
    (m.map f).get? name = (m.get? name).map f := by
  simp only [get?, map]
  induction m.entries with
  | nil => rfl
  | cons e rest ih => by_cases h : e.1 = name <;> simp [find?, h, ih]

theorem mem_of_find? {name : String} {value : α} {entries : List (String × α)}
    (h : find? name entries = some value) : (name, value) ∈ entries := by
  fun_induction find? name entries with
  | case1 => cases h
  | case2 => cases h; exact List.mem_cons_self
  | case3 _ _ _ _ ih => exact List.mem_cons_of_mem _ (ih h)

theorem find?_eq_none {name : String} {entries : List (String × α)}
    (fresh : name ∉ entries.map Prod.fst) : find? name entries = none := by
  cases found : find? name entries with
  | none => rfl
  | some value => exact absurd (List.mem_map_of_mem (mem_of_find? found)) fresh

theorem find?_eq_some_iff {name : String} {value : α} {entries : List (String × α)}
    (h : entries.Pairwise (fun x y => x.1 < y.1)) :
    find? name entries = some value ↔ (name, value) ∈ entries := by
  induction entries with
  | nil => simp [find?]
  | cons e rest ih =>
    obtain ⟨key, old⟩ := e
    have above := (List.pairwise_cons.1 h).1
    have ih := ih (List.pairwise_cons.1 h).2
    by_cases hk : key = name
    · subst hk
      have fresh : (key, value) ∉ rest := fun hm => String.lt_irrefl key (above _ hm)
      simp [find?, fresh, eq_comm]
    · simp [find?, hk, ih, Ne.symm hk]

theorem get?_eq_some_iff (m : NameMap α) {name : String} {value : α} :
    m.get? name = some value ↔ (name, value) ∈ m.entries :=
  find?_eq_some_iff m.sorted

theorem forall_mem_values {m : NameMap α} {P : α → Prop} :
    (∀ v ∈ m.values, P v) ↔ ∀ name v, m.get? name = some v → P v := by
  constructor
  · intro all name v holds
    exact all v (List.mem_map.2 ⟨(name, v), m.get?_eq_some_iff.1 holds, rfl⟩)
  · intro all v mem
    obtain ⟨⟨name, _⟩, held, rfl⟩ := List.mem_map.1 mem
    exact all name _ (m.get?_eq_some_iff.2 held)

theorem mem_keys_iff (m : NameMap α) {name : String} :
    name ∈ m.keys ↔ ∃ value, m.get? name = some value := by
  simp [keys, get?_eq_some_iff]

theorem nodup_keys (m : NameMap α) : m.keys.Nodup :=
  List.pairwise_map.2 (m.sorted.imp ne_of_lt)

theorem ext {m n : NameMap α} (h : ∀ name, m.get? name = n.get? name) : m = n := by
  refine eq_of_entries ?_
  have mem (e : String × α) : e ∈ m.entries ↔ e ∈ n.entries := by
    obtain ⟨name, value⟩ := e
    rw [← get?_eq_some_iff, ← get?_eq_some_iff, h]
  have nodup {l : List (String × α)} (hl : l.Pairwise (fun x y => x.1 < y.1)) : l.Nodup :=
    hl.imp fun lt eq => ne_of_lt lt (congrArg Prod.fst eq)
  refine List.Perm.eq_of_pairwise (fun a b _ _ hab hba => ?_) m.sorted n.sorted
    ((List.perm_ext_iff_of_nodup (nodup m.sorted) (nodup n.sorted)).2 mem)
  exact absurd (String.lt_trans hab hba) (String.lt_irrefl _)

theorem keys_eq_of_mem_iff {m : NameMap α} {n : NameMap β}
    (h : ∀ name, name ∈ m.keys ↔ name ∈ n.keys) : m.keys = n.keys := by
  have names {γ : Type} (k : NameMap γ) : k.keys = (k.map fun _ => ()).keys := by
    simp [keys, map, Function.comp_def]
  rw [names m, names n]
  refine congrArg keys (ext fun name => ?_)
  have same := h name
  rw [mem_keys_iff, mem_keys_iff] at same
  rw [get?_map, get?_map]
  cases hm : m.get? name with
  | some v =>
    obtain ⟨w, hn⟩ := same.1 ⟨v, hm⟩
    rw [hn]
    rfl
  | none =>
    cases hn : n.get? name with
    | none => rfl
    | some w =>
      obtain ⟨v, held⟩ := same.2 ⟨w, hn⟩
      cases hm.symm.trans held

end NameMap

end FeatureLogic
