import FeatureLogic.Proofs.Description.Positions

/-!
# The order of tags

A description lists its tags in the order of the text. Every reader of the grammar keeps to the
piece of text that it takes, so that the tags which one reader finds start in front of those of the
next.
-/

namespace FeatureLogic

open Text Text.Reader Grammar

/-- Do the tags start one behind the other, between two places of a text? -/
structure Tag.Ascending (i j : Nat) (tags : List Tag) : Prop where
  le : i ≤ j
  pairwise : tags.Pairwise fun t t' => t.start < t'.start
  between : ∀ t ∈ tags, i ≤ t.start ∧ t.start < j

namespace Tag.Ascending

variable {i j k : Nat} {tags tags' : List Tag}

theorem nil (le : i ≤ j) : Ascending i j [] := ⟨le, .nil, List.forall_mem_nil _⟩

theorem append (first : Ascending i j tags) (second : Ascending j k tags') :
    Ascending i k (tags ++ tags') := by
  refine ⟨first.le.trans second.le, List.pairwise_append.2 ⟨first.pairwise, second.pairwise, ?_⟩,
    List.forall_mem_append.2 ⟨fun t mem => ?_, fun t mem => ?_⟩⟩
  · exact fun t mem t' mem' => (first.between t mem).2.trans_le (second.between t' mem').1
  · exact ⟨(first.between t mem).1, (first.between t mem).2.trans_le second.le⟩
  · exact ⟨first.le.trans (second.between t mem).1, (second.between t mem).2⟩

end Tag.Ascending

/-- Do the tags of whatever is read ascend, in the piece of text that it is read from? -/
def Text.Reader.Orders {α : Type} (p : Reader α) (tags : α → List Tag) : Prop :=
  ∀ c a kept c', p c = .accept a kept c' → Tag.Ascending c.index c'.index (tags a)

namespace Text.Reader

variable {α β : Type} {p p' : Reader α} {q : Reader β} {P : List Char → α → Prop}
  {Q : List Char → β → Prop} {tags : α → List Tag} {tags' : β → List Tag}

theorem Takes.index_le (takes : Takes p P) {c c' : Cursor} {a : α} {kept : Option Rejection}
    (accepted : p c = .accept a kept c') : c.index ≤ c'.index := by
  obtain ⟨cs, passes, -⟩ := takes _ _ _ _ accepted
  exact passes.index ▸ Nat.le_add_right _ _

theorem Takes.orders (takes : Takes p P) : Orders p fun _ => [] :=
  fun _ _ _ _ accepted => .nil (takes.index_le accepted)

theorem Orders.map {f : α → β} (orders : Orders p tags) (same : ∀ a, tags' (f a) = tags a) :
    Orders (p.map f) tags' := by
  intro c b kept c' accepted
  obtain ⟨a, read, rfl⟩ := accept_of_map accepted
  exact same a ▸ orders _ _ _ _ read

theorem Orders.andThen (first : Orders p tags) (second : Orders q tags') :
    Orders (p.andThen q) fun r => tags r.1 ++ tags' r.2 := by
  intro c r kept c' accepted
  obtain ⟨_, c₁, _, read, read', -⟩ := accept_of_andThen accepted
  exact (first _ _ _ _ read).append (second _ _ _ _ read')

theorem Orders.before (takes : Takes p P) (second : Orders q tags') : Orders (p.before q) tags' :=
  (takes.orders.andThen second).map fun _ => rfl

theorem Orders.followedBy (first : Orders p tags) (takes : Takes q Q) :
    Orders (p.followedBy q) tags :=
  (first.andThen takes.orders).map fun _ => (List.append_nil _).symm

theorem Orders.orElse (first : Orders p tags) (second : Orders p' tags) :
    Orders (p.orElse p') tags := by
  intro c a kept c' accepted
  rcases accept_of_orElse accepted with read | read
  · exact first _ _ _ _ read
  · exact second _ _ _ _ read

theorem Orders.optional (orders : Orders p tags) :
    Orders p.optional fun o => o.toList.flatMap tags := by
  intro c o kept c' accepted
  rcases accept_of_optional accepted with ⟨a, read, rfl⟩ | ⟨r, -, rfl, -, rfl⟩
  · simpa using orders _ _ _ _ read
  · exact .nil (Nat.le_refl _)

theorem Orders.padded (orders : Orders p tags) : Orders p.padded tags := by
  intro c a kept c' accepted
  obtain ⟨c₁, read, rfl⟩ := accept_of_padded accepted
  have front : Tag.Ascending c.index c.skipBlanks.index [] := .nil (Nat.le_add_right _ _)
  have back : Tag.Ascending c₁.index c₁.skipBlanks.index [] := .nil (Nat.le_add_right _ _)
  simpa using (front.append (orders _ _ _ _ read)).append back

theorem Orders.separatedFrom (orders : Orders p tags) (takes : Takes q Q) (fuel : Nat)
    (kept : Option Rejection) (c : Cursor) :
    Tag.Ascending c.index (Reader.separatedFrom p q fuel kept c).2.2.index
      ((Reader.separatedFrom p q fuel kept c).1.flatMap tags) := by
  induction fuel generalizing kept c with
  | zero => exact .nil (Nat.le_refl _)
  | succ fuel ih =>
    rw [Reader.separatedFrom]
    split
    · exact .nil (Nat.le_refl _)
    · next b kept₁ c₁ read =>
      dsimp only
      split
      · exact .nil (Nat.le_refl _)
      · next a kept₂ c₂ read' =>
        have front : Tag.Ascending c.index c₁.index [] := .nil (takes.index_le read)
        exact (front.append (orders _ _ _ _ read')).append (ih _ c₂)

theorem Orders.separatedBy (orders : Orders p tags) (takes : Takes q Q) :
    Orders (p.separatedBy q) fun as => as.flatMap tags := by
  intro c as kept c' accepted
  rcases accept_of_separatedBy accepted with ⟨r, -, rfl, -, rfl⟩ |
    ⟨a, kept₁, c₁, bs, read, rfl, more⟩
  · exact .nil (Nat.le_refl _)
  · have others := orders.separatedFrom takes (c₁.rest.length + 1) kept₁ c₁
    rw [more] at others
    exact (orders _ _ _ _ read).append others

end Text.Reader

namespace Grammar

variable {v : Reader (Description Tag)}

theorem orders_tag : Orders tag fun t => [t] := by
  intro c t kept c' accepted
  obtain ⟨cs, passes, written⟩ := follows_tag.takes _ _ _ _ accepted
  obtain ⟨s, located, rfl⟩ := accept_of_map accepted
  obtain ⟨ds, -, rfl⟩ := accept_of_located located
  have longer : c.index < c'.index := by
    rw [passes.index]
    cases written
    simp
  exact ⟨longer.le, List.pairwise_singleton _ _,
    List.forall_mem_singleton.2 ⟨Nat.le_refl _, longer⟩⟩

theorem orders_optionalTag : Orders tag.optional Option.toList := by
  intro c o kept c' accepted
  have ascending := orders_tag.optional _ _ _ _ accepted
  dsimp only at ascending
  rwa [List.flatMap_singleton'] at ascending

theorem orders_feature (orders : Orders v Description.tags) :
    Orders (feature v) fun r => r.2.tags := by
  have arrow := ((follows_expect '-').before (follows_expect '>')).padded.takes
  have refer : Orders ((((expect '-').before (expect '>')).padded.before tag).map .refer)
      FeatureBody.tags := (orders_tag.before arrow).map fun _ => rfl
  have assign : Orders ((((optional tag).followedBy (expect '=').padded).andThen v).map
      fun r => .assign r.1 r.2) FeatureBody.tags :=
    ((orders_optionalTag.followedBy (follows_token '=').takes).andThen orders).map fun _ => rfl
  exact follows_name.takes.orders.andThen (refer.orElse assign)

theorem orders_struct (orders : Orders v Description.tags) :
    Orders (struct v) Description.tags := by
  have features := (orders_feature orders).separatedBy (follows_token ',').takes
  have body := (features.before (follows_token '[').takes).followedBy (follows_token ']').takes
  refine (orders_optionalTag.andThen body).map ?_
  rintro ⟨t, as⟩
  exact congrArg _ (Features.tags_ofList as)

theorem orders_leaf {α : Type} {p : Reader α} {f : α → Description Tag} {l : Label}
    (follows : Follows ((p.map f).labelled l) fun cs d => ValueText cs (d.map Tag.id))
    (none : ∀ a, (f a).tags = []) : Orders ((p.map f).labelled l) Description.tags := by
  intro c d kept c' accepted
  obtain ⟨_, read, -⟩ := accept_of_labelled accepted
  obtain ⟨a, -, rfl⟩ := accept_of_map read
  rw [none a]
  exact .nil (follows.takes.index_le accepted)

theorem orders_value (depth : Nat) : Orders (value depth) Description.tags := by
  induction depth with
  | zero => exact nofun
  | succ depth ih =>
    exact (((orders_struct ih).orElse (orders_leaf follows_string fun _ => rfl)).orElse
      (orders_leaf follows_var fun _ => rfl)).orElse (orders_leaf follows_word fun _ => rfl)

end Grammar

theorem Description.pairwise_start_of_read {text : String} {d : Description Tag}
    (accepted : read text = .ok d) : d.tags.Pairwise fun t t' => t.start < t'.start := by
  have whole := (orders_value (text.length + 1)).padded.followedBy follows_endOfText.takes
  unfold read at accepted
  split at accepted
  · next read =>
    cases accepted
    exact (whole _ _ _ _ read).pairwise
  · cases accepted

end FeatureLogic
