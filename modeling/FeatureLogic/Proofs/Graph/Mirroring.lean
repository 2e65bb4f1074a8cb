import FeatureLogic.Graph.Correspondence
import FeatureLogic.Proofs.Graph.Settlement

/-!
# Mirrored graphs

A pairing mirrors one graph in another when partners have the same features, pointers and contents,
except that partners take each other's place. Names of variables play no part. What is read in one
of the graphs has a partner in the other, and a write on both sides keeps them mirrored.
-/

namespace FeatureLogic

namespace NameMap

variable {R : Value → Value → Prop} {m n : NameMap Value}

theorem keys_eq_of_rel (related : ∀ name, Option.Rel R (m.get? name) (n.get? name)) :
    m.keys = n.keys := by
  refine keys_eq_of_mem_iff fun name => ?_
  rw [mem_keys_iff, mem_keys_iff]
  have related := related name
  generalize m.get? name = v at related
  generalize n.get? name = w at related
  cases related <;> simp

theorem forall₂_entries_of_rel (related : ∀ name, Option.Rel R (m.get? name) (n.get? name)) :
    List.Forall₂ (fun e e' => e.1 = e'.1 ∧ R e.2 e'.2) m.entries n.entries := by
  have keys := keys_eq_of_rel related
  have length : m.entries.length = n.entries.length := by
    simpa [NameMap.keys] using congrArg List.length keys
  refine List.forall₂_iff_get.2 ⟨length, fun i hi hi' => ?_⟩
  have same : m.entries[i].1 = n.entries[i].1 := by
    simpa [NameMap.keys, hi, hi'] using congrArg (·[i]?) keys
  refine ⟨same, ?_⟩
  have left : m.get? m.entries[i].1 = some m.entries[i].2 :=
    m.get?_eq_some_iff.2 (List.getElem_mem hi)
  have right : n.get? m.entries[i].1 = some n.entries[i].2 :=
    same ▸ n.get?_eq_some_iff.2 (List.getElem_mem hi')
  have related := related m.entries[i].1
  rw [left, right] at related
  cases related with
  | some related => exact related

theorem forall₂_values_of_rel (related : ∀ name, Option.Rel R (m.get? name) (n.get? name)) :
    List.Forall₂ R m.values n.values := by
  rw [values, values, List.forall₂_map_left_iff, List.forall₂_map_right_iff]
  exact (forall₂_entries_of_rel related).imp fun _ _ related => related.2

theorem rel_of_keys (keys : m.keys = n.keys)
    (values : ∀ {name v w}, m.get? name = some v → n.get? name = some w → R v w) (name : String) :
    Option.Rel R (m.get? name) (n.get? name) := by
  have same : name ∈ m.keys ↔ name ∈ n.keys := by rw [keys]
  rw [mem_keys_iff, mem_keys_iff] at same
  cases left : m.get? name with
  | none =>
    cases right : n.get? name with
    | none => exact .none
    | some w =>
      obtain ⟨v, found⟩ := same.2 ⟨w, right⟩
      cases left.symm.trans found
  | some v =>
    obtain ⟨w, right⟩ := same.1 ⟨v, left⟩
    rw [right]
    exact .some (values left right)

end NameMap

namespace Pairing

variable {q : Pairing} {g h : Graph}

def Holds (q : Pairing) : Binding → Binding → Prop
  | .free, .free => True
  | .bound v, .bound w => q.Relates v w
  | .link x, .link y => q.vars x y
  | _, _ => False

def Maps (q : Pairing) (m n : NameMap Value) : Prop :=
  ∀ name, Option.Rel q.Relates (m.get? name) (n.get? name)

structure Mirrors (q : Pairing) (g h : Graph) : Prop where
  struct : ∀ {s t}, q.structs s t → ∃ node node', g.struct? s = some node ∧
    h.struct? t = some node' ∧ q.Maps node.features node'.features ∧
    Option.Rel q.structs node.absorbedBy node'.absorbedBy
  var : ∀ {x y}, q.vars x y → ∃ node node', g.var? x = some node ∧ h.var? y = some node' ∧
    q.Holds node.binding node'.binding

theorem rel_imp {α β : Type} {R R' : α → β → Prop} (imp : ∀ {a b}, R a b → R' a b)
    {x : Option α} {y : Option β} (related : Option.Rel R x y) : Option.Rel R' x y := by
  cases related with
  | none => exact .none
  | some related => exact .some (imp related)

theorem biUnique_or {α β : Type} {p q : α → β → Prop} (first : Relator.BiUnique p)
    (second : Relator.BiUnique q) (apart : ∀ {s t t'}, p s t → ¬ q s t')
    (apart' : ∀ {s s' t}, p s t → ¬ q s' t) : Relator.BiUnique fun s t => p s t ∨ q s t := by
  constructor
  · rintro s s' t (hs | hs) (hs' | hs')
    · exact first.1 hs hs'
    · exact absurd hs' (apart' hs)
    · exact absurd hs (apart' hs')
    · exact second.1 hs hs'
  · rintro s t t' (hs | hs) (hs' | hs')
    · exact first.2 hs hs'
    · exact absurd hs' (apart hs)
    · exact absurd hs (apart hs')
    · exact second.2 hs hs'

theorem biUnique_relates (structs : Relator.BiUnique q.structs) (vars : Relator.BiUnique q.vars) :
    Relator.BiUnique q.Relates := by
  constructor
  · intro u v w hu hv
    cases u <;> cases v <;> cases w <;> first | exact hu.elim | exact hv.elim | skip
    · exact congrArg _ (Eq.trans hu (Eq.symm hv))
    · exact congrArg _ (structs.1 hu hv)
    · exact congrArg _ (vars.1 hu hv)
  · intro u v w hv hw
    cases u <;> cases v <;> cases w <;> first | exact hv.elim | exact hw.elim | skip
    · exact congrArg _ (Eq.trans (Eq.symm hv) hw)
    · exact congrArg _ (structs.2 hv hw)
    · exact congrArg _ (vars.2 hv hw)

theorem Relates.isNode_eq {v w : Value} (h : q.Relates v w) : v.isNode = w.isNode := by
  cases v <;> cases w <;> first | exact h.elim | rfl

theorem Relates.exists_var_left {v : Value} {y : VarId} (h : q.Relates v (.var y)) :
    ∃ x, v = .var x ∧ q.vars x y := by
  cases v with
  | atom a => exact h.elim
  | struct s => exact h.elim
  | var x => exact ⟨x, rfl, h⟩

theorem Relates.exists_var_right {x : VarId} {w : Value} (h : q.Relates (.var x) w) :
    ∃ y, w = .var y ∧ q.vars x y := by
  cases w with
  | atom a => exact h.elim
  | struct s => exact h.elim
  | var y => exact ⟨y, rfl, h⟩

theorem Relates.eq_unspecified_iff {v w : Value} (h : q.Relates v w) :
    v = .unspecified ↔ w = .unspecified := by
  cases v <;> cases w <;> first | exact h.elim | skip
  · cases h
    rfl
  · simp [Value.unspecified]
  · simp [Value.unspecified]

namespace Mirrors

variable (mirrors : q.Mirrors g h)

include mirrors

theorem features {s t : StructId} (partners : q.structs s t) {m n : NameMap Value}
    (hm : g.features? s = some m) (hn : h.features? t = some n) : q.Maps m n := by
  obtain ⟨node, node', found, found', maps, -⟩ := mirrors.struct partners
  simp only [Graph.features?, found, found', Option.map_some, Option.some.injEq] at hm hn
  exact hm ▸ hn ▸ maps

theorem contains {v w : Value} (related : q.Relates v w) : h.Contains w := by
  cases v <;> cases w <;> first | exact related.elim | skip
  · trivial
  · obtain ⟨_, _, -, found, -⟩ := mirrors.struct related
    exact Graph.contains_of_struct? found
  · obtain ⟨_, _, -, found, -⟩ := mirrors.var related
    exact Graph.contains_of_var? found

theorem forward {v w : Value} (related : q.Relates v w) :
    Option.Rel q.Relates (g.forward? v) (h.forward? w) := by
  cases v <;> cases w <;> first | exact related.elim | skip
  · exact .none
  · obtain ⟨⟨m, absorbedBy⟩, ⟨n, absorbedBy'⟩, found, found', -, absorbed⟩ :=
      mirrors.struct related
    simp only [Graph.forward?, found, found', Option.bind_some]
    cases absorbed with
    | none => exact .none
    | some partners => exact .some partners
  · obtain ⟨⟨name, binding⟩, ⟨name', binding'⟩, found, found', holds⟩ := mirrors.var related
    simp only [Graph.forward?, found, found', Option.bind_some]
    cases binding <;> cases binding' <;> first | exact holds.elim | skip
    · exact .none
    · exact .none
    · exact .some holds

theorem content {v w : Value} (related : q.Relates v w) :
    Option.Rel q.Relates (g.content? v) (h.content? w) := by
  cases v <;> cases w <;> first | exact related.elim | skip
  · exact .none
  · exact .none
  · obtain ⟨⟨name, binding⟩, ⟨name', binding'⟩, found, found', holds⟩ := mirrors.var related
    simp only [Graph.content?, found, found', Option.bind_some]
    cases binding <;> cases binding' <;> first | exact holds.elim | skip
    · exact .none
    · exact .some holds
    · exact .none

theorem exists_resolves {v w v' : Value} (related : q.Relates v w) (resolves : g.Resolves v v') :
    ∃ w', h.Resolves w w' ∧ q.Relates v' w' := by
  obtain ⟨path, stops, -⟩ := resolves
  induction path using Relation.ReflTransGen.head_induction_on generalizing w with
  | refl =>
    have forward := mirrors.forward related
    rw [stops] at forward
    generalize stops' : h.forward? w = none' at forward
    cases forward
    exact ⟨w, ⟨.refl, stops', mirrors.contains related⟩, related⟩
  | head step _ ih =>
    have forward := mirrors.forward related
    rw [show g.forward? _ = _ from step] at forward
    generalize step' : h.forward? w = some' at forward
    cases forward with
    | some related' =>
      obtain ⟨w', resolves, related⟩ := ih related'
      exact ⟨w', ⟨.head step' resolves.path, resolves.stops, resolves.contains⟩, related⟩

theorem resolves {v w v' w' : Value} (related : q.Relates v w) (left : g.Resolves v v')
    (right : h.Resolves w w') : q.Relates v' w' := by
  obtain ⟨_, right', related⟩ := mirrors.exists_resolves related left
  exact right.unique right' ▸ related

theorem settles {v w v' w' : Value} (related : q.Relates v w) (left : g.Settles v v')
    (right : h.Settles w w') : q.Relates v' w' := by
  obtain ⟨z, root, held⟩ := left
  obtain ⟨z', root', held'⟩ := right
  have roots := mirrors.resolves related root root'
  refine mirrors.resolves ?_ held held'
  have content := mirrors.content roots
  generalize g.content? z = c at content
  generalize h.content? z' = c' at content
  cases content with
  | none => exact roots
  | some related => exact related

theorem root {x y x' y' : VarId} (partners : q.vars x y) (left : g.root? x = some x')
    (right : h.root? y = some y') : q.vars x' y' :=
  mirrors.resolves (v := .var x) (w := .var y) partners (Graph.root?_eq_some_iff.1 left)
    (Graph.root?_eq_some_iff.1 right)

theorem survivor {s t s' t' : StructId} (partners : q.structs s t)
    (left : g.survivor? s = some s') (right : h.survivor? t = some t') : q.structs s' t' :=
  mirrors.resolves (v := .struct s) (w := .struct t) partners (Graph.survivor?_eq_some_iff.1 left)
    (Graph.survivor?_eq_some_iff.1 right)

theorem representative {v w v' w' : Value} (related : q.Relates v w)
    (left : g.representative? v = some v') (right : h.representative? w = some w') :
    q.Relates v' w' :=
  mirrors.resolves related (Graph.representative?_eq_some_iff.1 left)
    (Graph.representative?_eq_some_iff.1 right)

end Mirrors

section Writes

variable (unique : Relator.BiUnique q.Relates) (mirrors : q.Mirrors g h)

include unique

theorem structs_eq_iff {s s' t t' : StructId} (hs : q.structs s t) (hs' : q.structs s' t') :
    s = s' ↔ t = t' := by
  simpa using Relator.rel_eq unique (show q.Relates (.struct s) (.struct t) from hs)
    (show q.Relates (.struct s') (.struct t') from hs')

theorem vars_eq_iff {x x' y y' : VarId} (hx : q.vars x y) (hx' : q.vars x' y') :
    x = x' ↔ y = y' := by
  simpa using Relator.rel_eq unique (show q.Relates (.var x) (.var y) from hx)
    (show q.Relates (.var x') (.var y') from hx')

theorem biUnique_of_relates : Relator.BiUnique q.structs ∧ Relator.BiUnique q.vars :=
  ⟨⟨fun _ _ _ first second => (structs_eq_iff unique first second).2 rfl,
      fun _ _ _ first second => (structs_eq_iff unique first second).1 rfl⟩,
    fun _ _ _ first second => (vars_eq_iff unique first second).2 rfl,
    fun _ _ _ first second => (vars_eq_iff unique first second).1 rfl⟩

include mirrors

namespace Mirrors

theorem modifyStruct {s t : StructId} (partners : q.structs s t) {f f' : Structure → Structure}
    (features : ∀ {node node' : Structure}, q.Maps node.features node'.features →
      q.Maps (f node).features (f' node').features)
    (absorbed : ∀ {node node' : Structure}, Option.Rel q.structs node.absorbedBy node'.absorbedBy →
      Option.Rel q.structs (f node).absorbedBy (f' node').absorbedBy) :
    q.Mirrors (g.modifyStruct s f) (h.modifyStruct t f') where
  struct {u u'} partners' := by
    obtain ⟨node, node', found, found', maps, pointers⟩ := mirrors.struct partners'
    simp only [Graph.struct?_modifyStruct, structs_eq_iff unique partners partners']
    split
    · exact ⟨f node, f' node', by rw [found]; rfl, by rw [found']; rfl, features maps,
        absorbed pointers⟩
    · exact ⟨node, node', found, found', maps, pointers⟩
  var := mirrors.var

theorem setFeature {s t : StructId} (partners : q.structs s t) (name : String) {v w : Value}
    (related : q.Relates v w) : q.Mirrors (g.setFeature s name v) (h.setFeature t name w) := by
  refine mirrors.modifyStruct unique partners (fun maps key => ?_) fun absorbed => absorbed
  rw [NameMap.get?_insert, NameMap.get?_insert]
  split
  · exact .some related
  · exact maps key

theorem absorb {s t s' t' : StructId} (partners : q.structs s s') (partners' : q.structs t t') :
    q.Mirrors (g.absorb s t) (h.absorb s' t') :=
  mirrors.modifyStruct unique partners' (fun maps => maps) fun _ => .some partners

theorem setBinding {x y : VarId} (partners : q.vars x y) {binding binding' : Binding}
    (holds : q.Holds binding binding') :
    q.Mirrors (g.setBinding x binding) (h.setBinding y binding') where
  struct := mirrors.struct
  var {z z'} partners' := by
    obtain ⟨node, node', found, found', same⟩ := mirrors.var partners'
    simp only [Graph.var?_setBinding, vars_eq_iff unique partners partners']
    split
    · exact ⟨_, _, by rw [found]; rfl, by rw [found']; rfl, holds⟩
    · exact ⟨node, node', found, found', same⟩

end Mirrors

end Writes

theorem Maps.keys_eq {m n : NameMap Value} (maps : q.Maps m n) : m.keys = n.keys :=
  NameMap.keys_eq_of_rel maps

theorem Maps.forall₂_entries {m n : NameMap Value} (maps : q.Maps m n) :
    List.Forall₂ (fun e e' => e.1 = e'.1 ∧ q.Relates e.2 e'.2) m.entries n.entries :=
  NameMap.forall₂_entries_of_rel maps

end Pairing

end FeatureLogic
