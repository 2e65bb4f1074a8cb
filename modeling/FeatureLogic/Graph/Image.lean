import FeatureLogic.Graph

/-!
# Images of structures

Renaming, substitution and the copying of operands all build a new structure for an old one, whose
features hold the images of the old features. They differ in what a value becomes and in what the
walk remembers. The state of such a walk is the graph built so far and its memory.
-/

namespace FeatureLogic

/-- The images of the structures and variables visited so far. The latest entry counts. -/
structure Images where
  structs : List (StructId × StructId) := []
  vars : List (VarId × Value) := []

namespace Images

def addStruct (images : Images) (s t : StructId) : Images :=
  { images with structs := (s, t) :: images.structs }

def addVar (images : Images) (x : VarId) (v : Value) : Images :=
  { images with vars := (x, v) :: images.vars }

/-- The image of a node visited before. Any other value stands for itself. -/
def apply (images : Images) : Value → Value
  | .atom a => .atom a
  | .struct s => (images.structs.lookup s).elim (.struct s) .struct
  | .var x => (images.vars.lookup x).getD (.var x)

end Images

namespace Graph

variable {μ : Type}

def fill (image : Value → Graph × μ → Option (Value × Graph × μ)) (target : StructId) :
    List (String × Value) → Graph × μ → Option (Graph × μ)
  | [], walk => some walk
  | (name, v) :: rest, walk =>
    match image v walk with
    | none => none
    | some (w, g, memory) => fill image target rest (g.setFeature target name w, memory)

/-- A new structure with the images of the features of `s`. The image of `s` itself is remembered
before its features are visited, so that a cycle through `s` ends at the new structure. -/
def imageStruct (remember : StructId → StructId → μ → μ)
    (image : Value → Graph × μ → Option (Value × Graph × μ)) (s : StructId) :
    Graph × μ → Option (StructId × Graph × μ)
  | (g, memory) =>
    let target := g.nextStruct
    let extended := g.addStruct ∅
    match extended.features? s with
    | none => none
    | some features =>
      (fill image target features.entries (extended, remember s target memory)).map (target, ·)

@[simp] theorem fill_nil (image : Value → Graph × μ → Option (Value × Graph × μ))
    (target : StructId) (walk : Graph × μ) : fill image target [] walk = some walk := rfl

theorem fill_cons_eq_some_iff {image : Value → Graph × μ → Option (Value × Graph × μ)}
    {target : StructId} {name : String} {v : Value} {rest : List (String × Value)}
    {walk final : Graph × μ} :
    fill image target ((name, v) :: rest) walk = some final ↔
      ∃ w g memory, image v walk = some (w, g, memory) ∧
        fill image target rest (g.setFeature target name w, memory) = some final := by
  simp only [fill]
  cases image v walk with
  | none => simp
  | some r =>
    obtain ⟨w, g, memory⟩ := r
    exact ⟨fun h => ⟨w, g, memory, rfl, h⟩, by rintro ⟨_, _, _, ⟨⟩, h⟩; exact h⟩

end Graph

end FeatureLogic
