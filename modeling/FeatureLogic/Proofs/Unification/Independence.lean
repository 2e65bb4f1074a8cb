import FeatureLogic.Proofs.Copy.Likeness
import FeatureLogic.Proofs.Graph.Plainness
import FeatureLogic.Proofs.History
import FeatureLogic.Proofs.Unification.Renumbering

/-!
# Names in one scope mean nothing in another

When two plain operands that share no node are unified in empty scopes of their own, it makes no
difference what the variables of one of them are called, even if names of the other operand are
taken. The copies of the operands are mirrored, so both joins keep step, and their outcomes are
brought into the same normal form.
-/

namespace FeatureLogic

namespace Graph

open Join

variable {g g' h h' : Graph} {a b a' b' : Value}

/-- Operands that look alike are unified alike. -/
theorem unify?_of_likens (wf : g.WellFormed) (wf' : g'.WellFormed) (ha : g.Plain a)
    (hb : g.Plain b) (ha' : g'.Plain a') (hb' : g'.Plain b') {r : Pairing}
    (likens : r.Likens g a b g' a' b') (limit : Nat) :
    ∃ out out' k k', g.unify? limit a b .fresh = some (out, k) ∧
      g'.unify? limit a' b' .fresh = some (out', k') ∧
      ((∃ f f', out = .error f ∧ out' = .error f' ∧ f.Agrees f') ∨
        ∃ w after w' after', out = .ok (w, after) ∧ out' = .ok (w', after') ∧
          k.IsomorphicUpToNames w k' w') := by
  obtain ⟨h, m, left, right, walked, split, operands⟩ := ha.exists_readyOperands wf hb
  obtain ⟨h', m', left', right', walked', split', operands'⟩ := ha'.exists_readyOperands wf' hb'
  have unique := likens.biUnique_copies split split' ha hb ha' hb'
  have mirrors := likens.mirrors_copies split split' ha hb ha' hb' operands.wellFormed
    operands'.wellFormed
  obtain ⟨_, _, ends, ends', alike⟩ := operands.exists_concludesAlike
    (M := Measure.nameless (r.copies m m')) unique walked operands' walked' mirrors trivial
    (likens.relates_copies split split' likens.left split.imagedLeft split'.imagedLeft)
    (likens.relates_copies split split' likens.right split.imagedRight split'.imagedRight) limit
  cases alike with
  | fails agrees => exact ⟨_, _, _, _, ends, ends', .inl ⟨_, _, rfl, rfl, agrees⟩⟩
  | succeeds form form' mirrors keeps outcomes =>
    exact ⟨_, _, _, _, ends, ends', .inr ⟨_, _, _, _, rfl, rfl,
      form.isomorphicUpToNames form' mirrors unique outcomes⟩⟩

/-- Unifying `a` with `b` and unifying it with a `b` whose variables have got other names, each time
in empty scopes of their own: both fail for the same reason at the same place, or the results are
the same up to the names of variables. The graphs may be different ones; `a` and `a'` are the same
value in them. -/
theorem unify?_renamed (wf : g.WellFormed) (wf' : g'.WellFormed) (ha : g.Plain a) (hb : g.Plain b)
    (ha' : g'.Plain a') (hb' : g'.Plain b') (unshared : g.Unshared a b)
    (unshared' : g'.Unshared a' b') {rename : String → String}
    (injective : Function.Injective rename) (same : g.Isomorphic a g' a')
    (renamed : g.IsomorphicBy rename b g' b') (limit : Nat) :
    ∃ out out' k k', g.unify? limit a b .fresh = some (out, k) ∧
      g'.unify? limit a' b' .fresh = some (out', k') ∧
      ((∃ f f', out = .error f ∧ out' = .error f' ∧ f.Agrees f') ∨
        ∃ w after w' after', out = .ok (w, after) ∧ out' = .ok (w', after') ∧
          k.IsomorphicUpToNames w k' w') := by
  obtain ⟨structs, unique, closed, pairs⟩ := same
  obtain ⟨structs', unique', closed', pairs'⟩ := renamed
  have first := Pairing.matches_within ha ha' unique closed pairs
  have second := Pairing.matches_within hb hb' unique' closed' pairs'
  exact unify?_of_likens wf wf' ha hb ha' hb' (first.likens second unshared unshared'
    Function.injective_id injective (fun partners => partners.1) fun partners => partners.1) limit

/-- Three structures with a variable each. The variable of the third one is called like that of the
first, and the second and third are the same but for the names. -/
def namesakes : Graph where
  structs := #[{ features := .ofList [("f", .var ⟨0⟩)] },
    { features := .ofList [("f", .atom (.int 1)), ("g", .var ⟨1⟩)] },
    { features := .ofList [("f", .atom (.int 1)), ("g", .var ⟨2⟩)] }]
  vars := #[{ name := "n" }, { name := "m" }, { name := "n" }]

theorem reached_namesakes : namesakes.Reached := by
  have first := Reached.start.step (.newVar (some "n")) trivial rfl
  have second := first.step (.newVar (some "m")) trivial rfl
  have third := second.step (.newVar (some "n")) trivial rfl
  have fourth := third.step (.newStruct [("f", .var ⟨0⟩)])
    (by simp [Operation.Within]; decide) rfl
  have fifth := fourth.step (.newStruct [("f", .atom (.int 1)), ("g", .var ⟨1⟩)])
    (by simp [Operation.Within]; decide) rfl
  exact fifth.step (.newStruct [("f", .atom (.int 1)), ("g", .var ⟨2⟩)])
    (by simp [Operation.Within]; decide) rfl

theorem plainOn_namesakes {s : StructId} {x : VarId}
    (h : s = ⟨0⟩ ∧ x = ⟨0⟩ ∨ s = ⟨1⟩ ∧ x = ⟨1⟩ ∨ s = ⟨2⟩ ∧ x = ⟨2⟩) :
    namesakes.plainOn [.struct s, .var x, .atom (.int 1)] := by
  rcases h with ⟨rfl, rfl⟩ | ⟨rfl, rfl⟩ | ⟨rfl, rfl⟩ <;> decide +kernel

theorem unshared_namesakes {s : StructId} (h : s = ⟨1⟩ ∨ s = ⟨2⟩) :
    namesakes.Unshared (.struct ⟨0⟩) (.struct s) := by
  intro u node below below'
  have left := mem_of_below (plainOn_namesakes (.inl ⟨rfl, rfl⟩)) (by simp) below
  have right : u ∈ [.struct s, .var ⟨s.index⟩, .atom (.int 1)] := by
    rcases h with rfl | rfl
    · exact mem_of_below (plainOn_namesakes (.inr (.inl ⟨rfl, rfl⟩))) (by simp) below'
    · exact mem_of_below (plainOn_namesakes (.inr (.inr ⟨rfl, rfl⟩))) (by simp) below'
  simp only [List.mem_cons, List.not_mem_nil, or_false] at left
  rcases left with rfl | rfl | rfl
  · rcases h with rfl | rfl <;> simp at right
  · rcases h with rfl | rfl <;> simp at right
  · cases node

theorem isomorphic_namesakes : namesakes.Isomorphic (.struct ⟨0⟩) namesakes (.struct ⟨0⟩) := by
  refine ⟨fun s t => s = ⟨0⟩ ∧ t = ⟨0⟩, Relator.biUnique_single _ _, ?_, ?_⟩
  · rintro _ _ ⟨rfl, rfl⟩
    refine ⟨_, _, rfl, rfl, rfl, fun {name v w} hv hw => ?_⟩
    cases hv.symm.trans hw
    obtain ⟨rfl, rfl⟩ : name = "f" ∧ v = .var ⟨0⟩ := by
      simpa using NameMap.mem_of_get?_ofList hv
    exact ⟨_, _, rfl, rfl, "n", rfl, rfl⟩
  · exact ⟨_, _, rfl, rfl, rfl, rfl⟩

theorem isomorphicBy_namesakes : namesakes.IsomorphicBy (Equiv.swap "m" "n") (.struct ⟨1⟩)
    namesakes (.struct ⟨2⟩) := by
  refine ⟨fun s t => s = ⟨1⟩ ∧ t = ⟨2⟩, Relator.biUnique_single _ _, ?_, ?_⟩
  · rintro _ _ ⟨rfl, rfl⟩
    refine ⟨_, _, rfl, rfl, rfl, fun {name v w} hv hw => ?_⟩
    have left := NameMap.mem_of_get?_ofList hv
    have right := NameMap.mem_of_get?_ofList hw
    simp only [List.mem_cons, Prod.mk.injEq, List.not_mem_nil, or_false] at left right
    rcases left with ⟨rfl, rfl⟩ | ⟨rfl, rfl⟩
    · obtain ⟨-, rfl⟩ := right.resolve_right (by simp)
      exact ⟨_, _, rfl, rfl, rfl⟩
    · obtain ⟨-, rfl⟩ := right.resolve_left (by simp)
      exact ⟨_, _, rfl, rfl, "m", rfl, by rw [Equiv.swap_apply_left]; rfl⟩
  · exact ⟨_, _, rfl, rfl, rfl, rfl⟩

/-- The first structure is unified with the second and with the third: that the variable of the
third one is called like its own makes no difference. -/
theorem namesakes_unify_alike : ∃ (w w' : Value) (after after' : Scoping) (k k' : Graph),
    namesakes.unify? 50 (.struct ⟨0⟩) (.struct ⟨1⟩) .fresh = some (.ok (w, after), k) ∧
      namesakes.unify? 50 (.struct ⟨0⟩) (.struct ⟨2⟩) .fresh = some (.ok (w', after'), k') ∧
      k.IsomorphicUpToNames w k' w' := by
  have plain {s : StructId} {x : VarId}
      (h : s = ⟨0⟩ ∧ x = ⟨0⟩ ∨ s = ⟨1⟩ ∧ x = ⟨1⟩ ∨ s = ⟨2⟩ ∧ x = ⟨2⟩) :
      namesakes.Plain (.struct s) := plain_of_plainOn (plainOn_namesakes h) (by simp)
  obtain ⟨out, out', k, k', first, second, related⟩ :=
    unify?_renamed reached_namesakes.wellFormed reached_namesakes.wellFormed
      (plain (.inl ⟨rfl, rfl⟩)) (plain (.inr (.inl ⟨rfl, rfl⟩))) (plain (.inl ⟨rfl, rfl⟩))
      (plain (.inr (.inr ⟨rfl, rfl⟩))) (unshared_namesakes (.inl rfl))
      (unshared_namesakes (.inr rfl)) (Equiv.swap "m" "n").injective isomorphic_namesakes
      isomorphicBy_namesakes 50
  have ok : ∃ (result : Value × Scoping) (h : Graph), namesakes.unify? 50 (.struct ⟨0⟩)
      (.struct ⟨1⟩) .fresh = some (.ok result, h) := ⟨_, _, rfl⟩
  obtain ⟨result, h, ok⟩ := ok
  cases first.symm.trans ok
  rcases related with ⟨_, _, failed, -⟩ | ⟨w, after, w', after', eq, rfl, iso⟩
  · cases failed
  · exact ⟨w, w', after, after', k, k', eq ▸ first, second, iso⟩

end Graph

end FeatureLogic
