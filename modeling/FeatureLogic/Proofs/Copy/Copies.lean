import FeatureLogic.Graph.Reachability
import FeatureLogic.Proofs.Copy.Added

/-!
# Copies of plain operands

While operands without bound variables are copied, every added structure is the copy of one
structure of theirs, and every added variable is the copy of all their variables of its name. The
memory of the copying lists these copies, each of them also as the copy of itself.
-/

namespace FeatureLogic

namespace Graph

/-- A set of values that is left neither by features nor by dereferencing. -/
structure Domain (g : Graph) (D : Value → Prop) : Prop where
  contains : ∀ {v}, D v → g.Contains v
  feature : ∀ {s m name v}, D (.struct s) → g.features? s = some m → m.get? name = some v → D v
  deref : ∀ {v w}, D v → g.deref? v = some w → D w

/-- A set of values that features do not leave, with free variables only. -/
structure Source (g : Graph) (D : Value → Prop) : Prop where
  contains : ∀ {v}, D v → g.Contains v
  free : ∀ {x}, D (.var x) → ∃ name, g.var? x = some { name }
  feature : ∀ {s m name v}, D (.struct s) → g.features? s = some m → m.get? name = some v → D v

theorem Source.domain {g : Graph} {D : Value → Prop} (source : g.Source D) : g.Domain D where
  contains := source.contains
  feature := source.feature
  deref {v w} hv reads := by
    cases v with
    | atom a =>
      cases reads
      exact hv
    | struct s =>
      cases reads
      exact hv
    | var x =>
      obtain ⟨name, found⟩ := source.free hv
      cases (deref?_of_free found).symm.trans reads
      exact hv

theorem Plain.source_below {g : Graph} {v : Value} (plain : g.Plain v) : g.Source (g.Below v) :=
  ⟨plain.contains, plain.free, .feature⟩

/-- What holds of the graph and the memory while values in `D` are copied. -/
structure Copies (g : Graph) (D : Value → Prop) (h : Graph) (m : Copying) : Prop where
  structs : g.structCount ≤ h.structCount
  vars : g.varCount ≤ h.varCount
  frames : (g.added h).Frames h
  image : ∀ {s t}, m.images.structs.lookup s = some t →
    (g.added h).Has (.struct t) ∧ (s = t ∨ D (.struct s))
  self : ∀ {t}, (g.added h).Has (.struct t) → m.images.structs.lookup t = some t
  origin : ∀ {t}, (g.added h).Has (.struct t) →
    ∃ s, D (.struct s) ∧ m.images.structs.lookup s = some t
  injective : ∀ {s s' t}, D (.struct s) → D (.struct s') →
    m.images.structs.lookup s = some t → m.images.structs.lookup s' = some t → s = s'
  unabsorbed : ∀ {t}, (g.added h).Has (.struct t) →
    ∃ features, h.struct? t = some { features }
  imageVar : ∀ {x v}, m.images.vars.lookup x = some v → ∃ y, v = .var y ∧
    (g.added h).Has (.var y) ∧ (x = y ∨ D (.var x) ∧ h.name? y = g.name? x)
  selfVar : ∀ {y}, (g.added h).Has (.var y) → m.images.vars.lookup y = some (.var y)
  originVar : ∀ {y}, (g.added h).Has (.var y) →
    ∃ x, D (.var x) ∧ m.images.vars.lookup x = some (.var y)
  named : ∀ {y}, (g.added h).Has (.var y) →
    ∃ name, h.var? y = some { name } ∧ m.scope.get? name = some (.var y)
  scope : ∀ {name v}, m.scope.get? name = some v → ∃ y, v = .var y ∧
    (g.added h).Has (.var y) ∧ h.var? y = some { name }

variable {g h : Graph} {D : Value → Prop} {m : Copying}

theorem Source.not_added (source : g.Source D) {v : Value} (hv : D v) (node : v.isNode) :
    ¬ (g.added h).Has v :=
  not_added_of_contains (source.contains hv) node

theorem copies_start (g : Graph) (D : Value → Prop) : g.Copies D g {} := by
  refine ⟨Nat.le_refl _, Nat.le_refl _, ⟨fun _ => rfl, fun _ => rfl⟩, ?_, ?_, ?_, ?_, ?_, ?_, ?_,
    ?_, ?_, ?_⟩
  · intro s t found
    cases found
  · exact fun has => absurd has (not_added_self rfl)
  · exact fun has => absurd has (not_added_self rfl)
  · intro s s' t _ _ found
    cases found
  · exact fun has => absurd has (not_added_self rfl)
  · intro x v found
    cases found
  · exact fun has => absurd has (not_added_self rfl)
  · exact fun has => absurd has (not_added_self rfl)
  · exact fun has => absurd has (not_added_self rfl)
  · intro name v found
    cases found

theorem Copies.addStruct (copies : g.Copies D h m) (source : g.Source D) {s : StructId}
    (hs : D (.struct s)) (fresh : m.images.structs.lookup s = none) :
    g.Copies D (h.addStruct ∅) (m.addStruct s h.nextStruct) := by
  have iff {t : StructId} : (g.added (h.addStruct ∅)).Has (.struct t) ↔
      (g.added h).Has (.struct t) ∨ t = h.nextStruct := added_addStruct copies.structs
  have own {u t : StructId} (hu : D (.struct u))
      (found : (m.addStruct s h.nextStruct).images.structs.lookup u = some t) :
      t = h.nextStruct ∧ u = s ∨ m.images.structs.lookup u = some t := by
    rcases Copying.lookup_addStruct_eq_some found with ⟨rfl, rfl | rfl⟩ | found
    · exact absurd (iff.2 (.inr rfl)) (source.not_added hu rfl)
    · exact .inl ⟨rfl, rfl⟩
    · exact .inr found
  refine ⟨copies.structs.trans (by simp), copies.vars,
    frames_addStruct copies.structs copies.frames, ?_, ?_, ?_, ?_, ?_, copies.imageVar,
    copies.selfVar, copies.originVar, copies.named, copies.scope⟩
  · intro u t found
    rcases Copying.lookup_addStruct_eq_some found with ⟨rfl, rfl | rfl⟩ | found
    · exact ⟨iff.2 (.inr rfl), .inl rfl⟩
    · exact ⟨iff.2 (.inr rfl), .inr hs⟩
    · exact (copies.image found).imp_left fun has => iff.2 (.inl has)
  · exact Copying.lookup_self_addStruct copies.structs (source.contains hs) copies.self
  · exact Copying.exists_origin_addStruct copies.structs source.contains hs fresh copies.origin
  · intro u u' t hu hu' found found'
    rcases own hu found with ⟨rfl, rfl⟩ | before
    · rcases own hu' found' with ⟨-, rfl⟩ | before'
      · rfl
      · exact absurd (copies.image before').1 not_added_nextStruct
    · rcases own hu' found' with ⟨rfl, rfl⟩ | before'
      · exact absurd (copies.image before).1 not_added_nextStruct
      · exact copies.injective hu hu' before before'
  · intro t has
    rw [struct?_addStruct]
    split
    · exact ⟨∅, rfl⟩
    · next ne => exact copies.unabsorbed ((iff.1 has).resolve_right ne)

theorem Copies.setFeature (copies : g.Copies D h m) {t : StructId}
    (has : (g.added h).Has (.struct t)) (name : String) (v : Value) :
    g.Copies D (h.setFeature t name v) m := by
  have region : g.added (h.setFeature t name v) = g.added h := by simp [added]
  refine ⟨copies.structs.trans (by simp), copies.vars, ?_, ?_, ?_, ?_, copies.injective, ?_, ?_,
    ?_, ?_, ?_, ?_⟩ <;> rw [region]
  · exact copies.frames.setFeature has name v
  · exact copies.image
  · exact copies.self
  · exact copies.origin
  · intro u hasU
    obtain ⟨features, found⟩ := copies.unabsorbed hasU
    rw [Graph.setFeature, struct?_modifyStruct, found]
    split
    · exact ⟨features.insert name v, rfl⟩
    · exact ⟨features, rfl⟩
  · exact copies.imageVar
  · exact copies.selfVar
  · exact copies.originVar
  · exact copies.named
  · exact copies.scope

theorem Copies.get?_of_image (copies : g.Copies D h m) (source : g.Source D) {x y : VarId}
    {name : String} (hx : D (.var x)) (called : g.name? x = some name)
    (found : m.images.vars.lookup x = some (.var y)) : m.scope.get? name = some (.var y) := by
  obtain ⟨_, ⟨⟩, has, rfl | ⟨-, same⟩⟩ := copies.imageVar found
  · exact absurd has (source.not_added hx rfl)
  · obtain ⟨name', found', listed⟩ := copies.named has
    rw [name?, found', called] at same
    cases same
    exact listed

theorem Copies.addFirst (copies : g.Copies D h m) (source : g.Source D) {x : VarId} {name : String}
    (hx : D (.var x)) (called : g.name? x = some name) (unnamed : m.scope.get? name = none) :
    g.Copies D (h.addVar { name }) (m.addFirst x h.nextVar name) := by
  have iff {y : VarId} : (g.added (h.addVar { name })).Has (.var y) ↔
      (g.added h).Has (.var y) ∨ y = h.nextVar := added_addVar copies.vars
  have new : (g.added (h.addVar { name })).Has (.var h.nextVar) := iff.2 (.inr rfl)
  have latest : (h.addVar { name }).var? h.nextVar = some { name } := by simp [var?_addVar]
  have kept {y : VarId} (has : (g.added h).Has (.var y)) :
      (h.addVar { name }).var? y = h.var? y := by
    rw [var?_addVar, if_neg]
    rintro rfl
    exact not_added_nextVar has
  refine
    { copies with
      vars := copies.vars.trans (by simp)
      frames := frames_addVar copies.vars copies.frames
      imageVar := ?imageVar
      selfVar := ?selfVar
      originVar := ?originVar
      named := ?named
      scope := ?scope }
  case imageVar =>
    intro z v found
    rw [Copying.lookup_addFirst] at found
    split at found
    · next eq =>
      cases found
      rcases eq with rfl | rfl
      · exact ⟨h.nextVar, rfl, new, .inr ⟨hx, by rw [name?, latest, called]; rfl⟩⟩
      · exact ⟨h.nextVar, rfl, new, .inl rfl⟩
    · obtain ⟨y, rfl, has, own⟩ := copies.imageVar found
      refine ⟨y, rfl, iff.2 (.inl has), ?_⟩
      rcases own with rfl | ⟨hz, same⟩
      · exact .inl rfl
      · refine .inr ⟨hz, ?_⟩
        rw [name?, kept has]
        exact same
  case selfVar =>
    intro y has
    rcases iff.1 has with before | rfl
    · rw [Copying.lookup_addFirst, if_neg, copies.selfVar before]
      rintro (rfl | rfl)
      · exact source.not_added hx rfl before
      · exact not_added_nextVar before
    · rw [Copying.lookup_addFirst, if_pos (.inr rfl)]
  case originVar =>
    intro y has
    rcases iff.1 has with before | rfl
    · obtain ⟨z, hz, found⟩ := copies.originVar before
      refine ⟨z, hz, ?_⟩
      rw [Copying.lookup_addFirst, if_neg, found]
      rintro (rfl | rfl)
      · -- `x` had no copy before, or its name would have been in the scope
        cases unnamed.symm.trans (copies.get?_of_image source hz called found)
      · exact absurd new (source.not_added hz rfl)
    · exact ⟨x, hx, by rw [Copying.lookup_addFirst, if_pos (.inl rfl)]⟩
  case named =>
    intro y has
    rcases iff.1 has with before | rfl
    · obtain ⟨key, found, listed⟩ := copies.named before
      refine ⟨key, (kept before).trans found, ?_⟩
      rw [Copying.get?_addFirst, if_neg, listed]
      rintro rfl
      cases unnamed.symm.trans listed
    · exact ⟨name, latest, by rw [Copying.get?_addFirst, if_pos rfl]⟩
  case scope =>
    intro key v found
    rw [Copying.get?_addFirst] at found
    split at found
    · next eq =>
      cases found
      exact ⟨h.nextVar, rfl, new, eq ▸ latest⟩
    · obtain ⟨y, rfl, has, found'⟩ := copies.scope found
      exact ⟨y, rfl, iff.2 (.inl has), (kept has).trans found'⟩

theorem Copies.again (copies : g.Copies D h m) (source : g.Source D) {x y : VarId} {name : String}
    (hx : D (.var x)) (called : g.name? x = some name)
    (known : m.scope.get? name = some (.var y)) : g.Copies D h (m.addVar x (.var y)) := by
  obtain ⟨_, ⟨⟩, hasY, found⟩ := copies.scope known
  refine
    { copies with
      imageVar := ?imageVar
      selfVar := ?selfVar
      originVar := ?originVar }
  case imageVar =>
    intro z v holds
    rw [Copying.lookup_addVar] at holds
    split at holds
    · next eq =>
      cases holds
      exact ⟨y, rfl, hasY, .inr ⟨eq ▸ hx, by rw [eq, called, name?, found]; rfl⟩⟩
    · exact copies.imageVar holds
  case selfVar =>
    intro z has
    rw [Copying.lookup_addVar, if_neg, copies.selfVar has]
    rintro rfl
    exact source.not_added hx rfl has
  case originVar =>
    intro z has
    obtain ⟨u, hu, holds⟩ := copies.originVar has
    by_cases eq : u = x
    · subst eq
      cases known.symm.trans (copies.get?_of_image source hu called holds)
      exact ⟨u, hu, by rw [Copying.lookup_addVar, if_pos rfl]⟩
    · exact ⟨u, hu, by rw [Copying.lookup_addVar, if_neg eq, holds]⟩

end Graph

end FeatureLogic
