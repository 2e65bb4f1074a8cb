import FeatureLogic.Proofs.Join.Execution

/-!
# The graphs that a join goes through

A traced program runs like a join and says besides which graphs it goes through, one for each write.
The traced join has the steps of the join; it runs exactly like it, and keeps the region closed
with every write, also when it fails in the end.
-/

namespace FeatureLogic

open Join

/-- A program with the graphs that it makes from a state, in turn. -/
structure Traced (α : Type) where
  run : Join α
  graphs : JoinState → List Graph

namespace Traced

variable {α β : Type} {st : JoinState} {g : Graph}

instance : Monad Traced where
  pure a := ⟨pure a, fun _ => []⟩
  bind p next := ⟨p.run >>= fun a => (next a).run, fun st => p.graphs st ++
    match p.run st with
    | .ok a st' => (next a).graphs st'
    | .error _ _ => []⟩

def quiet (p : Join α) : Traced α := ⟨p, fun _ => []⟩

def look (read : Graph → Option α) : Traced α := quiet (Join.look read)

def update (write : Graph → Graph) : Traced Unit :=
  ⟨Join.update write, fun st => [write st.graph]⟩

def reuse (v w : Value) (join : Traced Value) : Traced Value := do
  match (← quiet get).joined.lookup (v, w) with
  | some u => return u
  | none => join

abbrev Joiner := List String → Value → Value → Traced Value

def bindVar (join : Joiner) (path : List String) (x : VarId) (v : Value) : Traced Unit := do
  let root ← look (·.root? x)
  let node ← look (·.var? root)
  let bound ←
    match node.binding with
    | .bound old => join path old v
    | _ => pure v
  let root ← look (·.root? root)
  update (·.setBinding root (.bound bound))

def aliasVar (join : Joiner) (path : List String) (x y : VarId) : Traced Value := do
  let node ← look (·.var? x)
  update (·.setBinding x (.link y))
  match node.binding with
  | .bound v => bindVar join path y v
  | _ => pure ()
  return .var y

def takeOver (join : Joiner) (path : List String) (s : StructId) :
    List (String × Value) → Traced Unit
  | [] => return
  | (name, theirs) :: rest => do
    let target ← look (·.survivor? s)
    let features ← look (·.features? target)
    let ours := (features.get? name).getD .unspecified
    let v ← join (path ++ [name]) ours theirs
    let target ← look (·.survivor? s)
    update (·.setFeature target name v)
    takeOver join path s rest

def absorbStruct (join : Joiner) (path : List String) (s t : StructId) : Traced Value := do
  let features ← look (·.features? t)
  update (·.absorb s t)
  takeOver join path s features.entries
  return .struct (← look (·.survivor? s))

def joinNodes (join : Joiner) (path : List String) : Value → Value → Traced Value
  | .var x, .var y => aliasVar join path x y
  | .var x, v => do
    bindVar join path x v
    return .var x
  | v, .var y => do
    bindVar join path y v
    return .var y
  | .struct s, .struct t => absorbStruct join path s t
  | v, w => quiet (mismatch path v w)

def joinValues (join : Joiner) (path : List String) (v w : Value) : Traced Value := do
  if v = .unspecified then return w
  else if w = .unspecified then return v
  else
    let v ← look (·.representative? v)
    let w ← look (·.representative? w)
    if v = w then return v else joinNodes join path v w

def joinWithin (limit : Nat) : Nat → Joiner
  | 0, path, v, w => reuse v w (quiet (throw (.failure (.tooDeep limit path))))
  | budget + 1, path, v, w =>
    reuse v w do
      let u ← joinValues (joinWithin limit budget) path v w
      quiet (record v w u)
      return u

@[simp] theorem run_bind (p : Traced α) (next : α → Traced β) :
    (p >>= next).run = p.run >>= fun a => (next a).run := rfl

@[simp] theorem run_pure (a : α) : (pure a : Traced α).run = pure a := rfl

theorem run_reuse (v w : Value) (join : Traced Value) :
    (reuse v w join).run = Join.reuse v w join.run := by
  unfold reuse Join.reuse
  rw [run_bind]
  refine bind_congr fun st => ?_
  cases st.joined.lookup (v, w) <;> rfl

section Runs

variable (join : Joiner) (path : List String)

def untraced : Join.Joiner := fun path v w => (join path v w).run

theorem run_bindVar (x : VarId) (v : Value) :
    (bindVar join path x v).run = Join.bindVar (untraced join) path x v := by
  unfold bindVar Join.bindVar
  simp only [run_bind]
  refine bind_congr fun root => bind_congr fun node => ?_
  cases node.binding <;> rfl

theorem run_aliasVar (x y : VarId) :
    (aliasVar join path x y).run = Join.aliasVar (untraced join) path x y := by
  unfold aliasVar Join.aliasVar
  simp only [run_bind]
  refine bind_congr fun node => bind_congr fun _ => ?_
  cases node.binding <;> simp [run_bindVar]

theorem run_takeOver (s : StructId) (entries : List (String × Value)) :
    (takeOver join path s entries).run = Join.takeOver (untraced join) path s entries := by
  induction entries with
  | nil => rfl
  | cons e rest ih =>
    obtain ⟨name, theirs⟩ := e
    unfold takeOver Join.takeOver
    simp only [run_bind, ih]
    rfl

theorem run_absorbStruct (s t : StructId) :
    (absorbStruct join path s t).run = Join.absorbStruct (untraced join) path s t := by
  unfold absorbStruct Join.absorbStruct
  simp only [run_bind, run_takeOver]
  rfl

theorem run_joinNodes (v w : Value) :
    (joinNodes join path v w).run = Join.joinNodes (untraced join) path v w := by
  cases v <;> cases w <;>
    simp [joinNodes, Join.joinNodes, run_aliasVar, run_bindVar, run_absorbStruct, quiet]

theorem run_joinValues (v w : Value) :
    (joinValues join path v w).run = Join.joinValues (untraced join) path v w := by
  unfold joinValues Join.joinValues
  split
  · rfl
  · split
    · rfl
    · simp only [run_bind]
      refine bind_congr fun v => bind_congr fun w => ?_
      split
      · rfl
      · exact run_joinNodes join path v w

end Runs

/-- The traced join runs like the join. -/
theorem run_joinWithin (limit budget : Nat) (path : List String) (v w : Value) :
    (joinWithin limit budget path v w).run = Join.joinWithin limit budget path v w := by
  induction budget generalizing path v w with
  | zero => exact run_reuse v w _
  | succ budget ih =>
    have same : untraced (joinWithin limit budget) = Join.joinWithin limit budget := by
      funext path v w
      exact ih path v w
    unfold joinWithin Join.joinWithin
    simp only [run_reuse, run_bind, run_joinValues, same]
    rfl

inductive Writes : Graph → Graph → Prop where
  | binding (g : Graph) (x : VarId) (binding : Binding) : Writes g (g.setBinding x binding)
  | absorb (g : Graph) (s t : StructId) : Writes g (g.absorb s t)
  | feature (g : Graph) (s : StructId) (name : String) (v : Value) :
    Writes g (g.setFeature s name v)

/-- Is the second graph made from the first one by single writes that make the listed graphs? -/
inductive Makes : Graph → List Graph → Graph → Prop where
  | done (g : Graph) : Makes g [] g
  | write {g h k : Graph} {rest : List Graph} : Writes g h → Makes h rest k → Makes g (h :: rest) k

theorem Makes.append {h k : Graph} {first second : List Graph} (makes : Makes g first h)
    (makes' : Makes h second k) : Makes g (first ++ second) k := by
  induction makes with
  | done => exact makes'
  | write writes _ ih => exact .write writes (ih makes')

def left : EStateM.Result Halt JoinState α → Graph
  | .ok _ st => st.graph
  | .error _ st => st.graph

/-- Are the graphs of a program those that its writes make, up to the one that it leaves? -/
def Tracks (p : Traced α) : Prop := ∀ st, Makes st.graph (p.graphs st) (left (p.run st))

theorem tracks_quiet {p : Join α} (reads : ∀ st, left (p st) = st.graph) : Tracks (quiet p) := by
  intro st
  show Makes st.graph [] (left (p st))
  rw [reads]
  exact .done _

theorem tracks_pure (a : α) : Tracks (pure a : Traced α) := fun st => .done st.graph

theorem Tracks.bind {p : Traced α} {next : α → Traced β} (first : Tracks p)
    (second : ∀ a, Tracks (next a)) : Tracks (p >>= next) := by
  intro st
  have made := first st
  show Makes st.graph (p.graphs st ++ _) (left (EStateM.bind p.run _ st))
  rw [EStateM.bind]
  cases ran : p.run st with
  | ok a st' =>
    rw [ran] at made
    exact made.append (second a st')
  | error e st' =>
    rw [ran] at made
    exact made.append (.done _)

theorem tracks_look (read : Graph → Option α) : Tracks (look read) := by
  refine tracks_quiet fun st => ?_
  cases found : read st.graph with
  | some a => rw [look_of_some found, left]
  | none => rw [look_of_none found, left]

theorem tracks_mismatch (path : List String) (v w : Value) :
    Tracks (quiet (mismatch path v w) : Traced α) := by
  refine tracks_quiet fun st => ?_
  unfold mismatch
  cases written : st.graph.text? v with
  | none => rw [bind_of_error (look_of_none written), left]
  | some text =>
    rw [bind_of_ok (look_of_some written)]
    cases written' : st.graph.text? w with
    | none => rw [bind_of_error (look_of_none written'), left]
    | some text' =>
      rw [bind_of_ok (look_of_some written')]
      rfl

theorem tracks_update {write : Graph → Graph} (writes : ∀ g, Writes g (write g)) :
    Tracks (update write) :=
  fun st => .write (writes st.graph) (.done _)

theorem tracks_reuse {v w : Value} {join : Traced Value} (tracks : Tracks join) :
    Tracks (reuse v w join) := by
  refine (tracks_quiet fun st => rfl).bind fun st => ?_
  cases st.joined.lookup (v, w) with
  | some u => exact tracks_pure u
  | none => exact tracks

section Tracks

variable {join : Joiner} (joins : ∀ path v w, Tracks (join path v w)) (path : List String)

include joins

theorem tracks_bindVar (x : VarId) (v : Value) : Tracks (bindVar join path x v) := by
  refine (tracks_look _).bind fun root => (tracks_look _).bind fun node => ?_
  have rest (bound : Value) : Tracks (do
      let root ← look (·.root? root)
      update (·.setBinding root (.bound bound)) : Traced Unit) :=
    (tracks_look _).bind fun root => tracks_update fun g => .binding g root _
  cases node.binding with
  | free => exact (tracks_pure v).bind rest
  | link y => exact (tracks_pure v).bind rest
  | bound old => exact (joins path old v).bind rest

theorem tracks_aliasVar (x y : VarId) : Tracks (aliasVar join path x y) := by
  refine (tracks_look _).bind fun node => (tracks_update fun g => .binding g x _).bind fun _ => ?_
  cases node.binding with
  | free => exact tracks_pure _
  | link z => exact tracks_pure _
  | bound v => exact (tracks_bindVar joins path y v).bind fun _ => tracks_pure _

theorem tracks_takeOver (s : StructId) (entries : List (String × Value)) :
    Tracks (takeOver join path s entries) := by
  induction entries with
  | nil => exact tracks_pure ()
  | cons e rest ih =>
    refine (tracks_look _).bind fun target => (tracks_look _).bind fun features => ?_
    refine (joins _ _ _).bind fun v => (tracks_look _).bind fun target => ?_
    exact (tracks_update fun g => .feature g target _ v).bind fun _ => ih

theorem tracks_absorbStruct (s t : StructId) : Tracks (absorbStruct join path s t) := by
  refine (tracks_look _).bind fun features => ?_
  refine (tracks_update fun g => .absorb g s t).bind fun _ => ?_
  exact (tracks_takeOver joins path s _).bind fun _ => (tracks_look _).bind fun u => tracks_pure _

theorem tracks_joinNodes (v w : Value) : Tracks (joinNodes join path v w) := by
  have bound (x : VarId) (v : Value) :
      Tracks (do bindVar join path x v; return .var x : Traced Value) :=
    (tracks_bindVar joins path x v).bind fun _ => tracks_pure _
  cases v with
  | var x =>
    cases w with
    | var y => exact tracks_aliasVar joins path x y
    | atom b => exact bound x _
    | struct t => exact bound x _
  | atom a =>
    cases w with
    | var y => exact bound y _
    | atom b => exact tracks_mismatch path _ _
    | struct t => exact tracks_mismatch path _ _
  | struct s =>
    cases w with
    | var y => exact bound y _
    | atom b => exact tracks_mismatch path _ _
    | struct t => exact tracks_absorbStruct joins path s t

theorem tracks_joinValues (v w : Value) : Tracks (joinValues join path v w) := by
  unfold joinValues
  split
  · exact tracks_pure w
  · split
    · exact tracks_pure v
    · refine (tracks_look _).bind fun v => (tracks_look _).bind fun w => ?_
      split
      · exact tracks_pure v
      · exact tracks_joinNodes joins path v w

end Tracks

/-- The graphs of a traced join are made one by one, up to the graph that the join leaves. -/
theorem tracks_joinWithin (limit budget : Nat) (path : List String) (v w : Value) :
    Tracks (joinWithin limit budget path v w) := by
  induction budget generalizing path v w with
  | zero => exact tracks_reuse (tracks_quiet fun st => rfl)
  | succ budget ih =>
    refine tracks_reuse ((tracks_joinValues ih path v w).bind fun u => ?_)
    refine (tracks_quiet fun st => ?_).bind fun _ => tracks_pure u
    rw [record_apply, left, JoinState.graph_remember]

end Traced

end FeatureLogic
