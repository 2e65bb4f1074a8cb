import FeatureLogic.Description.Layout

/-!
# Extending a graph

A graph may be extended by several structures and variables at once. Adding the nodes one by one,
and the features of an added structure one after another, comes to the same.
-/

namespace FeatureLogic

namespace Place

theorem past_past (p : Place) (i j k l : Nat) : (p.past i j).past k l = p.past (i + k) (j + l) := by
  simp [past, Nat.add_assoc]

theorem inside_past (p : Place) (i j : Nat) : p.inside.past i j = p.past (i + 1) j := by
  simp [past, inside, Nat.add_comm, Nat.add_left_comm]

end Place

namespace Graph

variable {g : Graph} {s : StructId}

def setFeatures (g : Graph) (s : StructId) (features : List (String × Value)) : Graph :=
  features.foldl (fun g e => g.setFeature s e.1 e.2) g

@[simp] theorem extend_nil (g : Graph) : g.extend [] [] = g := by simp [extend]

theorem extend_extend (g : Graph) (contents contents' : List (NameMap Value))
    (names names' : List String) : (g.extend contents names).extend contents' names' =
      g.extend (contents ++ contents') (names ++ names') := by
  simp [extend, Array.append_assoc]

theorem addStruct_eq_extend (g : Graph) (features : NameMap Value) :
    g.addStruct features = g.extend [features] [] := by
  simp [addStruct, extend]

theorem addVar_eq_extend (g : Graph) (name : String) :
    g.addVar { name } = g.extend [] [name] := by
  simp [addVar, extend]

theorem nextPlace_extend (g : Graph) (contents : List (NameMap Value)) (names : List String) :
    (g.extend contents names).nextPlace = g.nextPlace.past contents.length names.length := by
  simp [nextPlace, extend, Place.past, structCount, varCount]

theorem nextPlace_setFeature (g : Graph) (s : StructId) (name : String) (v : Value) :
    (g.setFeature s name v).nextPlace = g.nextPlace := by
  simp [nextPlace]

/-- A feature of an old structure may be set before as well as after others are added. -/
theorem setFeature_extend (inside : s.index < g.structCount) (contents : List (NameMap Value))
    (names : List String) (name : String) (v : Value) :
    (g.extend contents names).setFeature s name v =
      (g.setFeature s name v).extend contents names := by
  have old (a b : Array Structure) (i : Nat) (f : Structure → Structure) (lt : i < a.size) :
      (a ++ b).modify i f = a.modify i f ++ b := by
    apply Array.ext_getElem?
    intro j
    simp only [Array.getElem?_modify, Array.getElem?_append]
    grind
  simp only [setFeature, modifyStruct, extend]
  rw [old _ _ _ _ inside]

theorem setFeatures_extend (inside : s.index < g.structCount) (contents : List (NameMap Value))
    (names : List String) (listed : List (String × Value)) :
    (g.extend contents names).setFeatures s listed =
      (g.setFeatures s listed).extend contents names := by
  induction listed generalizing g with
  | nil => rfl
  | cons e listed ih =>
    have moved := setFeature_extend inside contents names e.1 e.2
    refine (congrArg (setFeatures · s listed) moved).trans (ih ?_)
    rwa [structCount_setFeature]

theorem setFeature_addStruct (g : Graph) (features : NameMap Value) (name : String) (v : Value) :
    (g.addStruct features).setFeature g.nextStruct name v =
      g.addStruct (features.insert name v) := by
  have last (a : Array Structure) (x : Structure) (f : Structure → Structure) :
      (a.push x).modify a.size f = a.push (f x) := by
    apply Array.ext_getElem?
    intro j
    simp only [Array.getElem?_modify, Array.getElem?_push]
    grind
  simp only [setFeature, modifyStruct, addStruct, nextStruct, structCount]
  rw [last]

theorem setFeatures_addStruct (g : Graph) (listed : List (String × Value)) :
    (g.addStruct ∅).setFeatures g.nextStruct listed = g.addStruct (.ofList listed) := by
  have from_ (features : NameMap Value) : (g.addStruct features).setFeatures g.nextStruct listed =
      g.addStruct (listed.foldl (fun m e => m.insert e.1 e.2) features) := by
    induction listed generalizing features with
    | nil => rfl
    | cons e listed ih =>
      refine (congrArg (setFeatures · _ listed) (setFeature_addStruct g features e.1 e.2)).trans ?_
      exact ih _
  exact from_ ∅

end Graph

end FeatureLogic
