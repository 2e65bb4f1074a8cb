import FeatureLogic.Value

/-!
# Feature descriptions

The tree that a text such as `[agr=(1)[num=sg], subj=[agr->(1)]]` denotes. A tag marks a node that
is referred to from elsewhere; the type of tags is a parameter, because a reader knows where each
tag was written and a printer does not.
-/

namespace FeatureLogic

mutual

inductive Description (τ : Type) where
  | atom (a : Atom)
  | var (name : String)
  | struct (tag : Option τ) (features : Features τ)
deriving DecidableEq

inductive Features (τ : Type) where
  | nil
  | assign (name : String) (tag : Option τ) (value : Description τ) (rest : Features τ)
  | refer (name : String) (tag : τ) (rest : Features τ)
deriving DecidableEq

end

mutual

def Description.map {τ σ : Type} (f : τ → σ) : Description τ → Description σ
  | .atom a => .atom a
  | .var name => .var name
  | .struct tag features => .struct (tag.map f) (features.map f)

def Features.map {τ σ : Type} (f : τ → σ) : Features τ → Features σ
  | .nil => .nil
  | .assign name tag value rest => .assign name (tag.map f) (value.map f) (rest.map f)
  | .refer name tag rest => .refer name (f tag) (rest.map f)

end

/-- Where a tag was written: from `start` up to but excluding `stop`, counted in characters. -/
structure Tag where
  id : Nat
  start : Nat
  stop : Nat
deriving DecidableEq

def tagWritten (id : Nat) : List Char := '(' :: Nat.toDigits 10 id ++ [')']

def tagWritten? : Option Nat → List Char
  | none => []
  | some id => tagWritten id

mutual

def Description.written : Description Nat → List Char
  | .atom a => a.written
  | .var name => '?' :: name.toList
  | .struct tag features => tagWritten? tag ++ '[' :: features.written [] ++ [']']

def Features.written (gap : List Char) : Features Nat → List Char
  | .nil => []
  | .assign name tag value rest =>
    gap ++ name.toList ++ tagWritten? tag ++ '=' :: value.written ++ rest.written [',', ' ']
  | .refer name tag rest =>
    gap ++ name.toList ++ '-' :: '>' :: tagWritten tag ++ rest.written [',', ' ']

end

end FeatureLogic
