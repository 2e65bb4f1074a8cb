import FeatureLogic.Description.Denotation

/-!
# The layout of a description

What a description denotes, said without building it. Its brackets and variables take places in the
order of the text, and each bracket holds the features that are written in it, with a given value
for each tag. Whether there is such a value for every tag can be told from the mentions of tags
alone: a number may be introduced once, and referred to from there on.
-/

namespace FeatureLogic

inductive Mention where
  /-- In front of an equals sign or a bracket. -/
  | introduction (tag : Tag)
  /-- Behind an arrow. -/
  | reference (tag : Tag)
deriving DecidableEq

def introducedIds (mentions : List Mention) : List Nat :=
  mentions.filterMap fun
    | .introduction tag => some tag.id
    | .reference _ => none

namespace Mention

def tag : Mention → Tag
  | introduction tag => tag
  | reference tag => tag

/-- Does a mention introduce what was introduced earlier, or refer to what was not? -/
def Misplaced (earlier : List Mention) : Mention → Prop
  | introduction tag => tag.id ∈ introducedIds earlier
  | reference tag => tag.id ∉ introducedIds earlier

instance (earlier : List Mention) : (m : Mention) → Decidable (m.Misplaced earlier)
  | introduction _ => inferInstanceAs (Decidable (_ ∈ _))
  | reference _ => inferInstanceAs (Decidable (¬ _ ∈ _))

def error : Mention → SyntaxError
  | introduction tag => ⟨.newIdentifier tag.id, tag.start⟩
  | reference tag => ⟨.boundIdentifier tag.id, tag.start⟩

def SomeMisplaced (mentions : List Mention) : Prop :=
  ∃ earlier m later, mentions = earlier ++ m :: later ∧ m.Misplaced earlier

def IsFirstMisplaced (mentions : List Mention) (m : Mention) : Prop :=
  ∃ earlier later, mentions = earlier ++ m :: later ∧ m.Misplaced earlier ∧ ¬ SomeMisplaced earlier

end Mention

/-- How many structures and variables stand in front. -/
structure Place where
  structs : Nat
  vars : Nat
deriving DecidableEq

namespace Place

def inside (p : Place) : Place := ⟨p.structs + 1, p.vars⟩

def past (p : Place) (structs vars : Nat) : Place := ⟨p.structs + structs, p.vars + vars⟩

end Place

mutual

def Description.mentions : Description Tag → List Mention
  | .atom _ => []
  | .var _ => []
  | .struct tag features => tag.toList.map .introduction ++ features.mentions

def Features.mentions : Features Tag → List Mention
  | .nil => []
  | .assign _ tag value rest =>
    tag.toList.map .introduction ++ (value.mentions ++ rest.mentions)
  | .refer _ tag rest => .reference tag :: rest.mentions

end

mutual

def Description.brackets {τ : Type} : Description τ → Nat
  | .atom _ => 0
  | .var _ => 0
  | .struct _ features => features.brackets + 1

def Features.brackets {τ : Type} : Features τ → Nat
  | .nil => 0
  | .assign _ _ value rest => value.brackets + rest.brackets
  | .refer _ _ rest => rest.brackets

end

mutual

def Description.occurrences {τ : Type} : Description τ → List String
  | .atom _ => []
  | .var name => [name]
  | .struct _ features => features.occurrences

def Features.occurrences {τ : Type} : Features τ → List String
  | .nil => []
  | .assign _ _ value rest => value.occurrences ++ rest.occurrences
  | .refer _ _ rest => rest.occurrences

end

/-- The value of a description whose first structure and variable come at a place. -/
def Description.handle {τ : Type} (p : Place) : Description τ → Value
  | .atom a => .atom a
  | .var _ => .var ⟨p.vars⟩
  | .struct _ _ => .struct ⟨p.structs⟩

def Place.behind {τ : Type} (p : Place) (d : Description τ) : Place :=
  p.past d.brackets d.occurrences.length

mutual

/-- Each number that is introduced, with the value that it marks. -/
def Description.marks (p : Place) : Description Tag → List (Nat × Value)
  | .atom _ => []
  | .var _ => []
  | .struct tag features =>
    tag.toList.map (fun t => (t.id, .struct ⟨p.structs⟩)) ++ features.marks p.inside

def Features.marks (p : Place) : Features Tag → List (Nat × Value)
  | .nil => []
  | .assign _ tag value rest =>
    tag.toList.map (fun t => (t.id, value.handle p)) ++
      (value.marks p ++ rest.marks (p.behind value))
  | .refer _ _ rest => rest.marks p

end

/-- The features that are written in one pair of brackets, given what the tags mark. -/
def Features.listed (known : Nat → Value) (p : Place) : Features Tag → List (String × Value)
  | .nil => []
  | .assign name _ value rest => (name, value.handle p) :: rest.listed known (p.behind value)
  | .refer name tag rest => (name, known tag.id) :: rest.listed known p

mutual

def Description.contents (known : Nat → Value) (p : Place) : Description Tag → List (NameMap Value)
  | .atom _ => []
  | .var _ => []
  | .struct _ features =>
    .ofList (features.listed known p.inside) :: features.contents known p.inside

def Features.contents (known : Nat → Value) (p : Place) : Features Tag → List (NameMap Value)
  | .nil => []
  | .assign _ _ value rest => value.contents known p ++ rest.contents known (p.behind value)
  | .refer _ _ rest => rest.contents known p

end

namespace Graph

def nextPlace (g : Graph) : Place := ⟨g.structCount, g.varCount⟩

def extend (g : Graph) (contents : List (NameMap Value)) (names : List String) : Graph where
  structs := g.structs ++ (contents.map fun features => { features }).toArray
  vars := g.vars ++ (names.map fun name => { name }).toArray

end Graph

end FeatureLogic
