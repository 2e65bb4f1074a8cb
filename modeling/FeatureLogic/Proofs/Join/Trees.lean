import FeatureLogic.Proofs.Copy.Plain
import FeatureLogic.Proofs.Graph.Trees
import FeatureLogic.Proofs.Join.Execution

/-!
# Joining two trees

A join of two trees that share nothing enters each of their structures once. What it has not come
to yet is as it was at the start, and no outcome is known for any part of it. So the features are
joined in the order of their names, each as if it were the first, and the join ends at the first
path that leads to values that clash, with their texts, or else succeeds.
-/

namespace FeatureLogic

open FeatureLogic.Graph

namespace Graph

variable {g : Graph} {s : StructId} {m : NameMap Value}

theorem survivor?_of_unabsorbed (found : g.struct? s = some { features := m }) :
    g.survivor? s = some s := by
  simp [survivor?, ascend, found]

end Graph

def Involves (P : Value → Prop) (v w : Value) : Prop :=
  ∃ n : Value, n.isNode ∧ (n = v ∨ n = w) ∧ P n

theorem Involves.mono {P Q : Value → Prop} {v w : Value} (h : Involves P v w)
    (imp : ∀ n : Value, n.isNode → P n → Q n) : Involves Q v w := by
  obtain ⟨n, node, eq, holds⟩ := h
  exact ⟨n, node, eq, imp n node holds⟩

namespace JoinState

structure Untouched (k : Graph) (P : Value → Prop) (st : JoinState) : Prop where
  struct : ∀ {s}, P (.struct s) → st.graph.struct? s = k.struct? s
  joined : ∀ {v w u}, ((v, w), u) ∈ st.joined → Involves (¬ P ·) v w

/-- Have only structures in `P` changed from one state to the other, and are the new outcomes for
pairs with a node in `P`? -/
structure Touches (P : Value → Prop) (st st' : JoinState) : Prop where
  struct : ∀ {s}, ¬ P (.struct s) → st'.graph.struct? s = st.graph.struct? s
  joined : ∀ {v w u}, ((v, w), u) ∈ st'.joined → ((v, w), u) ∈ st.joined ∨ Involves P v w

variable {k : Graph} {P Q : Value → Prop} {st st' st'' : JoinState} {v w : Value}

theorem Untouched.mono (untouched : Untouched k P st)
    (imp : ∀ n : Value, n.isNode → Q n → P n) : Untouched k Q st where
  struct hs := untouched.struct (imp _ rfl hs)
  joined mem := (untouched.joined mem).mono fun n node other hn => other (imp n node hn)

theorem Untouched.features (untouched : Untouched k P st) {s : StructId} (hs : P (.struct s)) :
    st.graph.features? s = k.features? s := by
  rw [features?, features?, untouched.struct hs]

theorem Untouched.lookup (untouched : Untouched k P st) (hv : P v) (hw : P w) :
    st.joined.lookup (v, w) = none := by
  cases found : st.joined.lookup (v, w) with
  | none => rfl
  | some u =>
    obtain ⟨n, -, rfl | rfl, other⟩ := untouched.joined (mem_of_lookup found)
    · exact absurd hv other
    · exact absurd hw other

theorem Touches.refl (P : Value → Prop) (st : JoinState) : Touches P st st := ⟨fun _ => rfl, .inl⟩

theorem Touches.mono (touches : Touches P st st') (imp : ∀ n : Value, n.isNode → P n → Q n) :
    Touches Q st st' where
  struct hs := touches.struct fun h => hs (imp _ rfl h)
  joined mem := (touches.joined mem).imp_right fun h => h.mono imp

theorem Touches.trans (first : Touches P st st') (second : Touches P st' st'') :
    Touches P st st'' where
  struct hs := (second.struct hs).trans (first.struct hs)
  joined mem := (second.joined mem).elim first.joined .inr

theorem touches_setFeature {s : StructId} (hs : P (.struct s)) (st : JoinState) (name : String)
    (v : Value) : Touches P st (st.write (·.setFeature s name v)) where
  struct {t} ht := by
    have ne : s ≠ t := fun eq => ht (eq ▸ hs)
    rw [graph_write, setFeature, struct?_modifyStruct, if_neg ne]
  joined := .inl

theorem touches_absorb {s t : StructId} (ht : P (.struct t)) (st : JoinState) :
    Touches P st (st.write (·.absorb s t)) where
  struct {u} hu := by
    have ne : t ≠ u := fun eq => hu (eq ▸ ht)
    rw [graph_write, absorb, struct?_modifyStruct, if_neg ne]
  joined := .inl

theorem touches_remember (hv : P v) (hw : P w) (st : JoinState) (u : Value) :
    Touches P st (st.remember v w u) where
  struct _ := by rw [graph_remember]
  joined {v' w' u'} mem := by
    unfold remember at mem
    split at mem
    · next node =>
      rcases List.mem_cons.1 mem with eq | mem
      · cases eq
        rcases Bool.or_eq_true_iff.1 node with node | node
        · exact .inr ⟨v, node, .inl rfl, hv⟩
        · exact .inr ⟨w, node, .inr rfl, hw⟩
      · exact .inl mem
    · exact .inl mem

theorem Untouched.after (untouched : Untouched k P st) (touches : Touches Q st st')
    (apart : ∀ n : Value, n.isNode → P n → ¬ Q n) : Untouched k P st' where
  struct hs := (touches.struct (apart _ rfl hs)).trans (untouched.struct hs)
  joined mem := by
    rcases touches.joined mem with mem | new
    · exact untouched.joined mem
    · exact new.mono fun n node hn other => apart n node other hn

theorem Untouched.representative? (untouched : Untouched k P st) (wf : k.WellFormed)
    (ground : k.Ground v) (hv : P v) : st.graph.representative? v = some v := by
  cases v with
  | atom a => rfl
  | var x => exact absurd .refl (ground.noVar x)
  | struct s =>
    obtain ⟨m, features⟩ := ground.exists_features .refl
    have found := (untouched.struct hv).trans (wf.struct?_of_features? features)
    rw [Graph.representative?, survivor?_of_unabsorbed found, Option.map_some]

end JoinState

open JoinState

namespace Join

/-- How a join may end at the end of `path`, given where the values that it joins clash: with the
texts of the values at the first such place, or else with success, such that `post` holds. -/
inductive Verdict {α : Type} (k : Graph) (clash : List String → Value → Value → Prop)
    (post : JoinState → Prop) (path : List String) : EStateM.Result Halt JoinState α → Prop where
  | clashes {p : List String} {u z : Value} {left right : String} {st : JoinState} :
    clash p u z → (∀ q u z, clash q u z → PathLE p q) → k.text? u = some left →
    k.text? z = some right → Verdict k clash post path
      (.error (.failure (.mismatch (path ++ p) left right)) st)
  | agrees {a : α} {st : JoinState} :
    (∀ p u z, ¬ clash p u z) → post st → Verdict k clash post path (.ok a st)

/-- Two trees that share nothing, to which a join has yet to come. The second one is less than
`budget` deep. -/
structure Pending (k : Graph) (budget : Nat) (v w : Value) (st : JoinState) : Prop where
  left : k.Tree v
  right : k.Tree w
  apart : k.Unshared v w
  deep : ∀ {p u}, k.Leads w p u → p.length < budget
  untouched : Untouched k (k.Operands v w) st

def JoinsTrees (k : Graph) (budget : Nat) (join : Joiner) : Prop :=
  ∀ path v w st, Pending k budget v w st →
    Verdict k (k.ClashesAt v w) (Touches (k.Operands v w) st) path (join path v w st)

section Verdict

variable {α β : Type} {k : Graph} {clash clash' : List String → Value → Value → Prop}
  {post post' : JoinState → Prop} {path : List String} {st : JoinState}

theorem Verdict.imp {result : EStateM.Result Halt JoinState α}
    (verdict : Verdict k clash post path result) (iff : ∀ p u z, clash' p u z ↔ clash p u z)
    (more : ∀ st, post st → post' st) : Verdict k clash' post' path result := by
  cases verdict with
  | clashes clash least left right =>
    exact .clashes ((iff _ _ _).2 clash) (fun q u z h => least q u z ((iff _ _ _).1 h)) left right
  | agrees none done => exact .agrees (fun p u z h => none p u z ((iff _ _ _).1 h)) (more _ done)

theorem Verdict.bind {program : Join α} {next : α → Join β}
    (verdict : Verdict k clash post path (program st))
    (ends : ∀ a st', post st' → ∃ b st'', next a st' = .ok b st'' ∧ post' st'') :
    Verdict k clash post' path ((program >>= next) st) := by
  generalize ran : program st = result at verdict
  cases verdict with
  | clashes clash least left right =>
    rw [bind_of_error ran]
    exact .clashes clash least left right
  | agrees none done =>
    obtain ⟨b, st'', ends, done'⟩ := ends _ _ done
    rw [bind_of_ok ran, ends]
    exact .agrees none done'

end Verdict

section Features

variable {k : Graph} {budget : Nat} {s t : StructId} {m n : NameMap Value}

def Ahead (k : Graph) (m : NameMap Value) (entries : List (String × Value)) (u : Value) : Prop :=
  ∃ e ∈ entries, k.Operands ((m.get? e.1).getD .unspecified) e.2 u

def EntryClash (k : Graph) (m : NameMap Value) (entries : List (String × Value))
    (path : List String) (u z : Value) : Prop :=
  ∃ e ∈ entries, ∃ rest, path = e.1 :: rest ∧
    k.ClashesAt ((m.get? e.1).getD .unspecified) e.2 rest u z

def TakenOver (k : Graph) (s : StructId) (m : NameMap Value) (entries : List (String × Value))
    (u : Value) : Prop :=
  u = .struct s ∨ Ahead k m entries u

/-- A structure with the features `m` is taking over those of `n`: the entries are still to come,
and for their names `s` still has what it had at first. -/
structure Taking (k : Graph) (s : StructId) (m n : NameMap Value) (entries : List (String × Value))
    (f : NameMap Value) (st : JoinState) : Prop where
  listed : ∀ e ∈ entries, e ∈ n.entries
  sorted : entries.Pairwise fun e e' => e.1 < e'.1
  untouched : Untouched k (Ahead k m entries) st
  found : st.graph.struct? s = some { features := f }
  kept : ∀ e ∈ entries, f.get? e.1 = m.get? e.1

theorem Ahead.cons {e : String × Value} {rest : List (String × Value)} {u : Value} :
    Ahead k m rest u → Ahead k m (e :: rest) u :=
  fun ⟨e', mem, operand⟩ => ⟨e', List.mem_cons_of_mem _ mem, operand⟩

theorem EntryClash.cons {e : String × Value} {rest : List (String × Value)} {p : List String}
    {u z : Value} : EntryClash k m rest p u z → EntryClash k m (e :: rest) p u z :=
  fun ⟨e', mem, clash⟩ => ⟨e', List.mem_cons_of_mem _ mem, clash⟩

theorem EntryClash.of_cons {e : String × Value} {rest : List (String × Value)} {p : List String}
    {u z : Value} (none : ∀ q u z, ¬ k.ClashesAt ((m.get? e.1).getD .unspecified) e.2 q u z) :
    EntryClash k m (e :: rest) p u z → EntryClash k m rest p u z := by
  rintro ⟨e', mem, q, rfl, clash⟩
  rcases List.mem_cons.1 mem with rfl | mem
  · exact absurd clash (none _ _ _)
  · exact ⟨e', mem, q, rfl, clash⟩

structure Meeting (k : Graph) (budget : Nat) (s t : StructId) (m n : NameMap Value) : Prop where
  wf : k.WellFormed
  left : k.Tree (.struct s)
  right : k.Tree (.struct t)
  apart : k.Unshared (.struct s) (.struct t)
  deep : ∀ {p u}, k.Leads (.struct t) p u → p.length < budget + 1
  ours : k.features? s = some m
  theirs : k.features? t = some n

theorem exists_feature_of_below {name : String} {u : Value} (node : u.isNode)
    (below : k.Below ((m.get? name).getD .unspecified) u) :
    ∃ v, m.get? name = some v ∧ k.Below v u := by
  cases held : m.get? name with
  | some v => exact ⟨v, rfl, by simpa [held] using below⟩
  | none =>
    rw [held, Option.getD_none] at below
    cases below_atom_iff.1 below
    cases node

/-- What lies below the features of one name lies below one of the two structures' own. -/
theorem operands_of_mem {e : String × Value} (mem : e ∈ n.entries) {u : Value} (node : u.isNode)
    (operand : k.Operands ((m.get? e.1).getD .unspecified) e.2 u) :
    (∃ v, m.get? e.1 = some v ∧ k.Below v u) ∨ n.get? e.1 = some e.2 ∧ k.Below e.2 u :=
  operand.imp (exists_feature_of_below node) fun below => ⟨n.get?_eq_some_iff.2 mem, below⟩

namespace Meeting

variable (meeting : Meeting k budget s t m n) {st : JoinState}

include meeting

theorem below_ours {name : String} {v u : Value} (holds : m.get? name = some v)
    (below : k.Below v u) : k.Below (.struct s) u :=
  Below.trans (.feature .refl meeting.ours holds) below

theorem below_theirs {name : String} {v u : Value} (holds : n.get? name = some v)
    (below : k.Below v u) : k.Below (.struct t) u :=
  Below.trans (.feature .refl meeting.theirs holds) below

theorem separate {e e' : String × Value} (mem : e ∈ n.entries) (mem' : e' ∈ n.entries)
    (ne : e.1 ≠ e'.1) {u : Value} (node : u.isNode)
    (operand : k.Operands ((m.get? e.1).getD .unspecified) e.2 u) :
    ¬ k.Operands ((m.get? e'.1).getD .unspecified) e'.2 u := by
  intro operand'
  obtain ⟨v, holds, below⟩ | ⟨holds, below⟩ := operands_of_mem mem node operand
  · obtain ⟨v', holds', below'⟩ | ⟨holds', below'⟩ := operands_of_mem mem' node operand'
    · exact meeting.left.unshared_of_ne meeting.wf meeting.ours holds holds' ne u node below below'
    · exact meeting.apart u node (meeting.below_ours holds below)
        (meeting.below_theirs holds' below')
  · obtain ⟨v', holds', below'⟩ | ⟨holds', below'⟩ := operands_of_mem mem' node operand'
    · exact meeting.apart u node (meeting.below_ours holds' below')
        (meeting.below_theirs holds below)
    · exact meeting.right.unshared_of_ne meeting.wf meeting.theirs holds holds' ne u node below
        below'

theorem not_operand {e : String × Value} (mem : e ∈ n.entries) {u : Value}
    (self : u = .struct s ∨ u = .struct t) :
    ¬ k.Operands ((m.get? e.1).getD .unspecified) e.2 u := by
  intro operand
  have node : u.isNode := by rcases self with rfl | rfl <;> rfl
  obtain ⟨v, holds, below⟩ | ⟨holds, below⟩ := operands_of_mem mem node operand
  · rcases self with rfl | rfl
    · exact meeting.left.not_below_feature meeting.wf meeting.ours holds below
    · exact meeting.apart _ rfl (meeting.below_ours holds below) .refl
  · rcases self with rfl | rfl
    · exact meeting.apart _ rfl .refl (meeting.below_theirs holds below)
    · exact meeting.right.not_below_feature meeting.wf meeting.theirs holds below

theorem pending {e : String × Value} (mem : e ∈ n.entries)
    (untouched : Untouched k (k.Operands ((m.get? e.1).getD .unspecified) e.2) st) :
    Pending k budget ((m.get? e.1).getD .unspecified) e.2 st where
  left := by
    cases held : m.get? e.1 with
    | none => exact tree_atom k .unspecified
    | some v => exact meeting.left.feature meeting.ours held
  right := meeting.right.feature meeting.theirs (n.get?_eq_some_iff.2 mem)
  apart u node below below' := by
    obtain ⟨v, holds, below⟩ := exists_feature_of_below node below
    exact meeting.apart u node (meeting.below_ours holds below)
      (meeting.below_theirs (n.get?_eq_some_iff.2 mem) below')
  deep leads :=
    Nat.lt_of_succ_lt_succ
      (meeting.deep (leads.feature meeting.theirs (n.get?_eq_some_iff.2 mem)))
  untouched := untouched

/-- One step of taking over features: what has been joined is put into the structure. -/
theorem takes {e : String × Value} {rest : List (String × Value)} {f : NameMap Value}
    {st₁ : JoinState} (taking : Taking k s m n (e :: rest) f st)
    (touches : Touches (k.Operands ((m.get? e.1).getD .unspecified) e.2) st st₁) (u : Value) :
    st₁.graph.struct? s = some { features := f } ∧
      Taking k s m n rest (f.insert e.1 u) (st₁.write (·.setFeature s e.1 u)) := by
  obtain ⟨listed, sorted, untouched, found, kept⟩ := taking
  obtain ⟨first, sorted⟩ := List.pairwise_cons.1 sorted
  have listedHead := listed e List.mem_cons_self
  have listedRest : ∀ e' ∈ rest, e' ∈ n.entries := fun e' h => listed e' (List.mem_cons_of_mem _ h)
  have other : ∀ e' ∈ rest, e.1 ≠ e'.1 := fun e' h => NameMap.ne_of_lt (first e' h)
  have found₁ : st₁.graph.struct? s = some { features := f } :=
    (touches.struct (meeting.not_operand listedHead (.inl rfl))).trans found
  have sets : Touches (· = .struct s) st₁ (st₁.write (·.setFeature s e.1 u)) :=
    touches_setFeature (P := (· = .struct s)) rfl st₁ e.1 u
  refine ⟨found₁, listedRest, sorted, ?_, ?_, fun e' h => ?_⟩
  -- neither the join of this feature nor its entry in `s` reaches what the others hold
  · have untouchedRest := untouched.mono fun n _ => Ahead.cons (e := e)
    refine (untouchedRest.after touches ?_).after sets ?_
    · rintro u node ⟨e', h, operand'⟩ operand
      exact meeting.separate listedHead (listedRest e' h) (other e' h) node operand operand'
    · rintro u - ⟨e', h, operand'⟩ self
      exact meeting.not_operand (listedRest e' h) (.inl self) operand'
  · rw [graph_write, setFeature, struct?_modifyStruct, if_pos rfl, found₁, Option.map_some]
  · rw [NameMap.get?_insert, if_neg (other e' h), kept e' (List.mem_cons_of_mem _ h)]

theorem verdict_takeOver {join : Joiner} (joins : JoinsTrees k budget join) (path : List String)
    {entries : List (String × Value)} {f : NameMap Value}
    (taking : Taking k s m n entries f st) :
    Verdict k (EntryClash k m entries)
      (fun st' => Touches (TakenOver k s m entries) st st' ∧
        ∃ f, st'.graph.struct? s = some { features := f })
      path (takeOver join path s entries st) := by
  induction entries generalizing st f with
  | nil =>
    refine .agrees (fun p u z => ?_) ⟨.refl _ st, f, taking.found⟩
    rintro ⟨e, mem, -⟩
    cases mem
  | cons e rest ih =>
    obtain ⟨name, theirs⟩ := e
    have features : st.graph.features? s = some f := by
      rw [features?, taking.found, Option.map_some]
    have head := joins (path ++ [name]) _ theirs st
      (meeting.pending (taking.listed _ List.mem_cons_self)
        (taking.untouched.mono fun n _ operand => ⟨_, List.mem_cons_self, operand⟩))
    unfold takeOver
    rw [bind_of_ok (look_of_some (survivor?_of_unabsorbed taking.found)),
      bind_of_ok (look_of_some features), taking.kept _ List.mem_cons_self]
    generalize ran : join (path ++ [name]) ((m.get? name).getD .unspecified) theirs st = result
      at head
    cases head with
    | @clashes p u z left right st₁ clash least writtenLeft writtenRight =>
      rw [bind_of_error ran, List.append_assoc, List.singleton_append]
      refine .clashes ⟨_, List.mem_cons_self, p, rfl, clash⟩ ?_ writtenLeft writtenRight
      rintro _ u' z' ⟨e, mem, q, rfl, clash'⟩
      -- a clash under this name is compared further down, one under a later name comes after it
      rcases List.mem_cons.1 mem with rfl | mem
      · exact (least q u' z' clash').cons
      · exact .of_lt ((List.pairwise_cons.1 taking.sorted).1 e mem)
    | @agrees u st₁ none touches =>
      obtain ⟨found₁, takingRest⟩ := meeting.takes taking touches u
      rw [bind_of_ok ran, bind_of_ok (look_of_some (survivor?_of_unabsorbed found₁)),
        bind_of_ok (update_apply _)]
      refine (ih takingRest).imp (fun p u z => ⟨.of_cons none, .cons⟩) ?_
      · rintro st' ⟨touchesRest, found'⟩
        have sets : Touches (TakenOver k s m ((name, theirs) :: rest)) st₁
            (st₁.write (·.setFeature s name u)) := touches_setFeature (.inl rfl) st₁ name u
        have touchesHead : Touches (TakenOver k s m ((name, theirs) :: rest)) st st₁ :=
          touches.mono fun n _ operand => .inr ⟨_, List.mem_cons_self, operand⟩
        exact ⟨(touchesHead.trans sets).trans
          (touchesRest.mono fun n _ => Or.imp_right Ahead.cons), found'⟩

theorem clashesAt_iff (p : List String) (u z : Value) :
    k.ClashesAt (.struct s) (.struct t) p u z ↔ EntryClash k m n.entries p u z := by
  rw [clashesAt_struct_iff meeting.ours meeting.theirs]
  constructor
  · rintro ⟨name, v, w, rest, rfl, hv, hw, clash⟩
    refine ⟨(name, w), n.get?_eq_some_iff.1 hw, rest, rfl, ?_⟩
    rwa [hv, Option.getD_some]
  · rintro ⟨⟨name, w⟩, mem, rest, rfl, clash⟩
    cases hv : m.get? name with
    | none =>
      rw [hv, Option.getD_none] at clash
      exact absurd clash not_clashesAt_unspecified_left
    | some v =>
      rw [hv, Option.getD_some] at clash
      exact ⟨name, v, w, rest, rfl, hv, n.get?_eq_some_iff.2 mem, clash⟩

theorem operands_of_ahead {u : Value} (node : u.isNode) (ahead : Ahead k m n.entries u) :
    k.Operands (.struct s) (.struct t) u := by
  obtain ⟨e, mem, operand⟩ := ahead
  obtain ⟨v, holds, below⟩ | ⟨holds, below⟩ := operands_of_mem mem node operand
  · exact .inl (meeting.below_ours holds below)
  · exact .inr (meeting.below_theirs holds below)

theorem verdict_absorbStruct {join : Joiner} (joins : JoinsTrees k budget join)
    (path : List String) (untouched : Untouched k (k.Operands (.struct s) (.struct t)) st) :
    Verdict k (k.ClashesAt (.struct s) (.struct t))
      (Touches (k.Operands (.struct s) (.struct t)) st) path (absorbStruct join path s t st) := by
  have ne : t ≠ s := fun eq => meeting.apart (.struct s) rfl .refl (eq ▸ .refl)
  have found : st.graph.struct? s = some { features := m } := by
    rw [untouched.struct (.inl .refl)]
    exact meeting.wf.struct?_of_features? meeting.ours
  have absorbs : Touches (· = .struct t) st (st.write (·.absorb s t)) :=
    touches_absorb (P := (· = .struct t)) rfl st
  have taking : Taking k s m n n.entries m (st.write (·.absorb s t)) := by
    refine ⟨fun _ mem => mem, n.sorted, ?_, ?_, fun _ _ => rfl⟩
    -- what is marked as absorbed is `t` alone, and no feature leads back to it
    · refine (untouched.mono fun u node => meeting.operands_of_ahead node).after absorbs ?_
      rintro u - ⟨e, mem, operand⟩ self
      exact meeting.not_operand mem (.inr self) operand
    · rw [graph_write, absorb, struct?_modifyStruct, if_neg ne, found]
  unfold absorbStruct
  rw [bind_of_ok (look_of_some ((untouched.features (.inr .refl)).trans meeting.theirs)),
    bind_of_ok (update_apply _)]
  have verdict :=
    (meeting.verdict_takeOver joins path taking).imp meeting.clashesAt_iff fun _ => id
  refine verdict.bind ?_
  rintro - st' ⟨touches, f, found'⟩
  rw [bind_of_ok (look_of_some (survivor?_of_unabsorbed found'))]
  refine ⟨_, _, rfl, (absorbs.mono ?_).trans (touches.mono ?_)⟩
  · rintro u - rfl
    exact .inr .refl
  · rintro u node (rfl | ahead)
    · exact .inl .refl
    · exact meeting.operands_of_ahead node ahead

end Meeting

end Features

section Values

variable {k : Graph} {budget : Nat} {v w : Value} {st : JoinState} {join : Joiner}

theorem Pending.verdict_mismatch (pending : Pending k budget v w st) (clash : v.Clashes w)
    {post : JoinState → Prop} (path : List String) :
    Verdict k (k.ClashesAt v w) post path (mismatch (α := Value) path v w st) := by
  obtain ⟨left, atFirst, now⟩ := pending.left.exists_text_of_features
    fun below => pending.untouched.features (.inl below)
  obtain ⟨right, atFirst', now'⟩ := pending.right.exists_text_of_features
    fun below => pending.untouched.features (.inr below)
  have stands : k.deref? v = some v := pending.left.plain.deref?
  have stands' : k.deref? w = some w := pending.right.plain.deref?
  have ends : mismatch (α := Value) path v w st =
      .error (.failure (.mismatch (path ++ []) left right)) st := by
    unfold mismatch
    rw [bind_of_ok (look_of_some now), bind_of_ok (look_of_some now'), List.append_nil]
    rfl
  -- the texts are read off the graph as it is now, but below `v` and `w` that is `k`
  rw [ends]
  exact .clashes ⟨leads_nil.2 stands, leads_nil.2 stands', clash⟩ (fun q _ _ _ => .nil q)
    atFirst atFirst'

theorem Pending.verdict_joinNodes (wf : k.WellFormed) (pending : Pending k (budget + 1) v w st)
    (joins : JoinsTrees k budget join) (hv : v ≠ .unspecified) (hw : w ≠ .unspecified)
    (ne : v ≠ w) (path : List String) :
    Verdict k (k.ClashesAt v w) (Touches (k.Operands v w) st) path
      (joinNodes join path v w st) := by
  have some {a : Atom} (h : Value.atom a ≠ .unspecified) : a ≠ .unspecified :=
    fun eq => h (eq ▸ rfl)
  cases v with
  | var x => exact absurd .refl (pending.left.noVar x)
  | atom a =>
    cases w with
    | var y => exact absurd .refl (pending.right.noVar y)
    | atom b => exact pending.verdict_mismatch ⟨fun eq => ne (eq ▸ rfl), some hv, some hw⟩ path
    | struct t => exact pending.verdict_mismatch (some hv) path
  | struct s =>
    cases w with
    | var y => exact absurd .refl (pending.right.noVar y)
    | atom b => exact pending.verdict_mismatch (some hw) path
    | struct t =>
      obtain ⟨m, hs⟩ := pending.left.exists_features .refl
      obtain ⟨n, ht⟩ := pending.right.exists_features .refl
      have meeting : Meeting k budget s t m n :=
        ⟨wf, pending.left, pending.right, pending.apart, pending.deep, hs, ht⟩
      exact meeting.verdict_absorbStruct joins path pending.untouched

theorem Pending.verdict_joinValues (wf : k.WellFormed) (pending : Pending k (budget + 1) v w st)
    (joins : JoinsTrees k budget join) (path : List String) :
    Verdict k (k.ClashesAt v w) (Touches (k.Operands v w) st) path
      (joinValues join path v w st) := by
  unfold joinValues
  split
  · next hv =>
    subst hv
    exact .agrees (fun _ _ _ => not_clashesAt_unspecified_left) (.refl _ st)
  split
  · next hw =>
    subst hw
    exact .agrees (fun _ _ _ => not_clashesAt_unspecified_right) (.refl _ st)
  next hv hw =>
  have self := pending.untouched.representative? wf pending.left.toGround (.inl .refl)
  have self' := pending.untouched.representative? wf pending.right.toGround (.inr .refl)
  rw [bind_of_ok (look_of_some self), bind_of_ok (look_of_some self')]
  split
  · next eq =>
    subst eq
    exact .agrees (fun _ _ _ => not_clashesAt_self) (.refl _ st)
  · next ne => exact pending.verdict_joinNodes wf joins hv hw ne path

/-- A join of two trees that share nothing ends at their first clash, or succeeds. -/
theorem joinsTrees_joinWithin (wf : k.WellFormed) (limit budget : Nat) :
    JoinsTrees k budget (joinWithin limit budget) := by
  induction budget with
  | zero =>
    -- the empty path leads somewhere, and its length is not below 0
    intro path v w st pending
    cases pending.deep (leads_nil.2 pending.right.plain.deref?)
  | succ budget ih =>
    intro path v w st pending
    rw [joinWithin, reuse_of_unknown (pending.untouched.lookup (.inl .refl) (.inr .refl))]
    refine (pending.verdict_joinValues wf ih path).bind fun u st' touches => ?_
    rw [bind_of_ok (record_apply v w u)]
    exact ⟨u, _, rfl, touches.trans (touches_remember (.inl .refl) (.inr .refl) st' u)⟩

end Values

end Join

end FeatureLogic
