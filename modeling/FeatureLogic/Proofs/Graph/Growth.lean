import FeatureLogic.Proofs.Graph.Forwarding

/-!
# Growth of a joined graph

What each write of a join does to the pointers, and what all of them together keep: nodes and
names stay, pointers stay, and what a variable holds is still held, up to absorption, at the end
of its pointers.
-/

namespace FeatureLogic.Graph

@[simp] theorem forward?_setFeature (g : Graph) (s : StructId) (name : String) (u v : Value) :
    (g.setFeature s name u).forward? v = g.forward? v := by
  cases v with
  | atom a => rfl
  | struct t =>
    by_cases h : s = t
    · cases found : g.struct? t <;>
        simp [forward?, setFeature, struct?_modifyStruct, h, found]
    · simp [forward?, setFeature, struct?_modifyStruct, h]
  | var x => rfl

@[simp] theorem content?_setFeature (g : Graph) (s : StructId) (name : String) (u v : Value) :
    (g.setFeature s name u).content? v = g.content? v := by
  cases v <;> rfl

theorem forward?_absorb (g : Graph) (s t : StructId) (v : Value) :
    (g.absorb s t).forward? v =
      if v = .struct t then (g.struct? t).map fun _ => .struct s else g.forward? v := by
  cases v with
  | atom a => simp
  | struct u =>
    by_cases h : t = u
    · subst h
      cases found : g.struct? t <;> simp [forward?, absorb, struct?_modifyStruct, found]
    · simp [forward?, absorb, struct?_modifyStruct, h, Ne.symm h]
  | var x => rfl

@[simp] theorem content?_absorb (g : Graph) (s t : StructId) (v : Value) :
    (g.absorb s t).content? v = g.content? v := by
  cases v <;> rfl

theorem features?_absorb (g : Graph) (s t u : StructId) :
    (g.absorb s t).features? u = g.features? u := by
  by_cases h : t = u
  · cases found : g.struct? u <;> simp [features?, absorb, struct?_modifyStruct, h, found]
  · simp [features?, absorb, struct?_modifyStruct, h]

theorem forward?_setBinding (g : Graph) (x : VarId) (binding : Binding) (v : Value) :
    (g.setBinding x binding).forward? v =
      if v = .var x then (g.var? x).bind fun _ => binding.alias?.map .var else g.forward? v := by
  cases v with
  | atom a => simp
  | struct s => rfl
  | var y =>
    by_cases h : x = y
    · subst h
      cases found : g.var? x <;> simp [forward?, var?_setBinding, found]
    · simp [forward?, var?_setBinding, h, Ne.symm h]

theorem forward?_setBinding_of_root {g : Graph} {x : VarId} (root : g.forward? (.var x) = none)
    (binding : Binding) {v w : Value} (step : g.forward? v = some w) :
    (g.setBinding x binding).forward? v = some w := by
  rw [forward?_setBinding, if_neg]
  · exact step
  · rintro rfl
    rw [root] at step
    cases step

theorem forward?_bind_of_root {g : Graph} {x : VarId} (root : g.forward? (.var x) = none)
    (u v : Value) : (g.setBinding x (.bound u)).forward? v = g.forward? v := by
  rw [forward?_setBinding]
  split
  · next h =>
    rw [h, root]
    cases g.var? x <;> rfl
  · rfl

theorem content?_setBinding (g : Graph) (x : VarId) (binding : Binding) (v : Value) :
    (g.setBinding x binding).content? v =
      if v = .var x then (g.var? x).bind fun _ => binding.value? else g.content? v := by
  cases v with
  | atom a => simp
  | struct s => rfl
  | var y =>
    by_cases h : x = y
    · subst h
      cases found : g.var? x <;> simp [content?, var?_setBinding, found]
    · simp [content?, var?_setBinding, h, Ne.symm h]

@[simp] theorem name?_setFeature (g : Graph) (s : StructId) (name : String) (v : Value)
    (x : VarId) : (g.setFeature s name v).name? x = g.name? x := rfl

@[simp] theorem name?_absorb (g : Graph) (s t : StructId) (x : VarId) :
    (g.absorb s t).name? x = g.name? x := rfl

@[simp] theorem varCount_absorb (g : Graph) (s t : StructId) :
    (g.absorb s t).varCount = g.varCount := rfl

structure GrowsTo (g g' : Graph) : Prop where
  structCount : g'.structCount = g.structCount
  varCount : g'.varCount = g.varCount
  name : ∀ x, g'.name? x = g.name? x
  forward : ∀ {v w}, g.forward? v = some w → g'.forward? v = some w
  content : ∀ {v c}, g.content? v = some c → ∃ w c', Relation.ReflTransGen g'.Forwards v w ∧
    g'.content? w = some c' ∧ g'.Same c c'

namespace GrowsTo

variable {g h k : Graph}

theorem path (grows : g.GrowsTo h) {v w : Value} (path : Relation.ReflTransGen g.Forwards v w) :
    Relation.ReflTransGen h.Forwards v w :=
  Relation.ReflTransGen.mono (fun _ _ step => grows.forward step) _ _ path

theorem same (grows : g.GrowsTo h) {v w : Value} : g.Same v w → h.Same v w :=
  fun ⟨z, hv, hw⟩ => ⟨z, grows.path hv, grows.path hw⟩

theorem refl (g : Graph) : g.GrowsTo g where
  structCount := rfl
  varCount := rfl
  name _ := rfl
  forward h := h
  content {v c} held := ⟨v, c, .refl, held, .refl g c⟩

theorem trans (first : g.GrowsTo h) (second : h.GrowsTo k) : g.GrowsTo k where
  structCount := second.structCount.trans first.structCount
  varCount := second.varCount.trans first.varCount
  name x := (second.name x).trans (first.name x)
  forward step := second.forward (first.forward step)
  content held := by
    obtain ⟨w, c', path, held', same⟩ := first.content held
    obtain ⟨w', c'', path', held'', same'⟩ := second.content held'
    exact ⟨w', c'', (second.path path).trans path', held'', (second.same same).trans same'⟩

theorem setFeature (g : Graph) (s : StructId) (name : String) (v : Value) :
    g.GrowsTo (g.setFeature s name v) where
  structCount := by simp
  varCount := by simp
  name _ := rfl
  forward step := by simpa using step
  content {w c} held := ⟨w, c, .refl, by simpa using held, .refl _ c⟩

theorem absorb {s t : StructId} (unabsorbed : g.forward? (.struct t) = none) :
    g.GrowsTo (g.absorb s t) where
  structCount := by simp
  varCount := by simp
  name _ := rfl
  forward {v w} step := by
    rw [forward?_absorb, if_neg]
    · exact step
    · rintro rfl
      rw [unabsorbed] at step
      cases step
  content {w c} held := ⟨w, c, .refl, by simpa using held, .refl _ c⟩

theorem link {x y : VarId} (root : g.forward? (.var x) = none)
    (free : g.content? (.var x) = none) : g.GrowsTo (g.setBinding x (.link y)) where
  structCount := rfl
  varCount := by simp
  name z := by simp
  forward := forward?_setBinding_of_root root _
  content {v c} held := by
    refine ⟨v, c, .refl, ?_, .refl _ c⟩
    rw [content?_setBinding, if_neg]
    · exact held
    · rintro rfl
      rw [free] at held
      cases held

/-- A root may be bound to a value that is identified with the one it holds already. -/
theorem bind {x : VarId} {v : Value} (root : g.forward? (.var x) = none)
    (held : ∀ c, g.content? (.var x) = some c → g.Same c v) :
    g.GrowsTo (g.setBinding x (.bound v)) := by
  have forward {u w : Value} (step : g.forward? u = some w) :
      (g.setBinding x (.bound v)).forward? u = some w :=
    forward?_setBinding_of_root root _ step
  refine ⟨rfl, by simp, by simp, forward, fun {u c} holds => ?_⟩
  by_cases h : u = .var x
  · subst h
    obtain ⟨z, hc, hv⟩ := held c holds
    obtain ⟨node, found, -⟩ := content?_var_eq_some.1 holds
    have path : Relation.ReflTransGen g.Forwards ≤
        Relation.ReflTransGen (g.setBinding x (.bound v)).Forwards :=
      Relation.ReflTransGen.mono fun _ _ step => forward step
    refine ⟨.var x, v, .refl, ?_, z, path _ _ hc, path _ _ hv⟩
    rw [content?_setBinding, if_pos rfl, found]
    rfl
  · exact ⟨u, c, .refl, by rwa [content?_setBinding, if_neg h], .refl _ c⟩

end GrowsTo

end FeatureLogic.Graph
