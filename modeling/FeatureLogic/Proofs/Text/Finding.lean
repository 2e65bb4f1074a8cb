import FeatureLogic.Proofs.Text.Taking

/-!
# What readers find in a text

A reader that stands in a text, behind the part of it that was read before, accepts values that say
where they were found. There is a law for each combinator that such values are put together with.
-/

namespace FeatureLogic.Text.Reader

variable {α β : Type} {text : List Char} {p p' : Reader α} {q : Reader β}
  {P : List Char → α → Prop} {G : α → Prop} {H : β → Prop}

def Finds (text : List Char) (p : Reader α) (G : α → Prop) : Prop :=
  ∀ before c a kept c', Cursor.Passes { rest := text } before c →
    p c = .accept a kept c' → G a

theorem Finds.imp {G' : α → Prop} (finds : Finds text p G) (imp : ∀ a, G a → G' a) :
    Finds text p G' :=
  fun _ _ _ _ _ passes accepted => imp _ (finds _ _ _ _ _ passes accepted)

theorem finds_of_forall (all : ∀ a, G a) : Finds text p G := fun _ _ a _ _ _ _ => all a

theorem Finds.map {f : α → β} (finds : Finds text p G) (imp : ∀ a, G a → H (f a)) :
    Finds text (p.map f) H := by
  intro before c b kept c' passes accepted
  obtain ⟨a, read, rfl⟩ := accept_of_map accepted
  exact imp a (finds _ _ _ _ _ passes read)

theorem Finds.andThen (takes : Takes p P) (first : Finds text p G) (second : Finds text q H) :
    Finds text (p.andThen q) fun r => G r.1 ∧ H r.2 := by
  intro before c r kept c' passes accepted
  obtain ⟨_, c₁, _, read, read', -⟩ := accept_of_andThen accepted
  obtain ⟨cs, passes', -⟩ := takes _ _ _ _ read
  exact ⟨first _ _ _ _ _ passes read, second _ _ _ _ _ (passes.append passes') read'⟩

theorem Finds.before (takes : Takes p P) (second : Finds text q H) :
    Finds text (p.before q) H :=
  (Finds.andThen takes (finds_of_forall fun _ => trivial) second).map fun _ found => found.2

theorem Finds.followedBy (takes : Takes p P) (first : Finds text p G) :
    Finds text (p.followedBy q) G :=
  (first.andThen takes (finds_of_forall (G := fun _ => True) fun _ => trivial)).map
    fun _ found => found.1

theorem Finds.orElse (first : Finds text p G) (second : Finds text p' G) :
    Finds text (p.orElse p') G := by
  intro before c a kept c' passes accepted
  rcases accept_of_orElse accepted with read | read
  · exact first _ _ _ _ _ passes read
  · exact second _ _ _ _ _ passes read

theorem Finds.optional (finds : Finds text p G) :
    Finds text p.optional fun o => ∀ a ∈ o, G a := by
  intro before c o kept c' passes accepted a mem
  rcases accept_of_optional accepted with ⟨a', read, rfl⟩ | ⟨r, -, rfl, -, -⟩ <;> cases mem
  exact finds _ _ _ _ _ passes read

theorem Finds.labelled (finds : Finds text p G) (l : Label) : Finds text (p.labelled l) G := by
  intro before c a kept c' passes accepted
  obtain ⟨kept', read, -⟩ := accept_of_labelled accepted
  exact finds _ _ _ _ _ passes read

theorem Finds.padded (finds : Finds text p G) : Finds text p.padded G := by
  intro before c a kept c' passes accepted
  obtain ⟨c₁, read, -⟩ := accept_of_padded accepted
  obtain ⟨blanks, passes', -⟩ := c.passes_skipBlanks
  exact finds _ _ _ _ _ (passes.append passes') read

theorem Finds.separatedFrom {Q : List Char → β → Prop} (takes : Takes p P) (separator : Takes q Q)
    (finds : Finds text p G) (fuel : Nat) (kept : Option Rejection) {before : List Char}
    {c : Cursor} (passes : Cursor.Passes { rest := text } before c) :
    ∀ a ∈ (Reader.separatedFrom p q fuel kept c).1, G a := by
  induction fuel generalizing kept before c with
  | zero => exact List.forall_mem_nil _
  | succ fuel ih =>
    rw [Reader.separatedFrom]
    split
    · exact List.forall_mem_nil _
    · next b kept₁ c₁ read =>
      dsimp only
      split
      · exact List.forall_mem_nil _
      · next a kept₂ c₂ read' =>
        obtain ⟨ds, passes₁, -⟩ := separator _ _ _ _ read
        obtain ⟨es, passes₂, -⟩ := takes _ _ _ _ read'
        have behind := passes.append passes₁
        exact List.forall_mem_cons.2
          ⟨finds _ _ _ _ _ behind read', ih _ (behind.append passes₂)⟩

theorem Finds.separatedBy {Q : List Char → β → Prop} (takes : Takes p P) (separator : Takes q Q)
    (finds : Finds text p G) : Finds text (p.separatedBy q) fun as => ∀ a ∈ as, G a := by
  intro before c as kept c' passes accepted
  rcases accept_of_separatedBy accepted with ⟨r, -, rfl, -, -⟩ | ⟨a, kept₁, c₁, bs, read, rfl, more⟩
  · exact List.forall_mem_nil _
  · obtain ⟨ds, passes', -⟩ := takes _ _ _ _ read
    have others := finds.separatedFrom takes separator (c₁.rest.length + 1) kept₁
      (passes.append passes')
    rw [more] at others
    exact List.forall_mem_cons.2 ⟨finds _ _ _ _ _ passes read, others⟩

end FeatureLogic.Text.Reader
