import FeatureLogic.Proofs.Copy.Idempotence
import FeatureLogic.Proofs.Graph.Alikeness
import FeatureLogic.Proofs.Scope.Sense

/-!
# Rendered values

All that a scope renders a value as is isomorphic. What a substitution makes of a value renders it.
-/

namespace FeatureLogic.Scope

open FeatureLogic.Graph

variable {scope : Scope} {g g' h h' : Graph} {v w w' : Value} {name next : String}
  {copies copies' : StructId → StructId → Prop}

/-- Where a value is rendered twice, the results are isomorphic. -/
theorem Renders.isomorphic (first : scope.Renders g v h w) (second : scope.Renders g v h' w') :
    h.Isomorphic w h' w' := by
  obtain ⟨copies, oneToOne, shows, features⟩ := first
  obtain ⟨copies', oneToOne', shows', features'⟩ := second
  let r := (Pairing.flip ⟨copies, SameName g h⟩).comp ⟨copies', SameName g h'⟩
  have names {y y' : VarId} (named : r.vars y y') : SameName h h' y y' := by
    obtain ⟨x, ⟨name, called, called'⟩, ⟨name', also, also'⟩⟩ := named
    cases called.symm.trans also
    exact ⟨name, called', also'⟩
  -- what shows one value is the same atom, of the same name, or copies of one structure
  have pairs {u a a' : Value} (left : scope.Shows g h copies u a)
      (right : scope.Shows g h' copies' u a') :
      Pairing.Pairs ⟨r.structs, SameName h h'⟩ h h' a a' := by
    obtain ⟨m, meant, pairs⟩ := left
    obtain ⟨m', meant', pairs'⟩ := right
    cases meant.symm.trans meant'
    obtain ⟨b, b', reads, reads', related⟩ := pairs.flip.comp pairs'
    exact ⟨b, b', reads, reads', Pairing.Relates.mono (r := r) id names related⟩
  refine ⟨r.structs, oneToOne.flip.comp oneToOne', ?_, pairs shows shows'⟩
  rintro t t' ⟨s, listed, listed'⟩
  obtain ⟨m, n, found, foundN, related⟩ := features listed
  obtain ⟨m', n', found', foundN', related'⟩ := features' listed'
  cases found.symm.trans found'
  refine ⟨n, n', foundN, foundN', (NameMap.keys_eq_of_rel related).symm.trans
    (NameMap.keys_eq_of_rel related'), fun {name a a'} holds holds' => ?_⟩
  have left := related name
  have right := related' name
  rw [holds] at left
  rw [holds'] at right
  generalize m.get? name = o at left right
  cases left with
  | some shows =>
    cases right with
    | some shows' => exact pairs shows shows'

/-! ### Later graphs -/

theorem Trail.retained {names : List String} (trail : scope.Trail g v names w)
    (retains : g.Retains h) (entries : scope.Plain g) (plain : g.Plain v) :
    scope.Trail h v names w := by
  induction trail with
  | nil => exact .nil
  | cons called listed _ ih =>
    exact .cons (by rwa [name?, retains.var plain]) listed (ih (entries _ _ listed))

theorem meaning?_retained (retains : g.Retains h) (entries : scope.Plain g) (plain : g.Plain v)
    (meant : scope.meaning? g v = some w) : scope.meaning? h v = some w := by
  obtain ⟨names, trail, nodup, rests⟩ := (meaning?_eq_some_iff entries plain).1 meant
  refine (meaning?_eq_some_iff (entries.retained retains) (retains.plain plain)).2
    ⟨names, trail.retained retains entries plain, nodup, ?_⟩
  rintro x name rfl called
  exact rests x name rfl (by rwa [name?, ← retains.var (trail.plain entries plain)])

theorem Chained.retained (chained : scope.Chained g) (retains : g.Retains h) : scope.Chained h := by
  have entries := chained.plain
  have entry {name : String} {v : Value} (listed : scope.get? name = some v) :
      (∃ a, v = .atom a) ∨ ∃ x next, v = .var x ∧ g.var? x = some { name := next } ∧
        h.var? x = some { name := next } := by
    refine (chained.entry listed).imp_right ?_
    rintro ⟨x, next, rfl, found⟩
    exact ⟨x, next, rfl, found, (retains.var (plain_of_free found)).trans found⟩
  have before {name next : String} (tie : scope.Alias h name next) : scope.Alias g name next := by
    obtain ⟨x, listed⟩ := tie.exists_entry
    rcases entry listed with ⟨a, eq⟩ | ⟨y, other, eq, found, found'⟩
    · cases eq
    · cases eq
      cases (alias_of_entry listed found').unique tie
      exact alias_of_entry listed found
  have after {name next : String} (tie : scope.Alias g name next) : scope.Alias h name next := by
    obtain ⟨x, listed, found⟩ := chained.exists_entry tie
    exact alias_of_entry listed ((retains.var (plain_of_free found)).trans found)
  refine ⟨fun listed => (entry listed).imp_right ?_, fun cycle => ?_⟩
  · rintro ⟨x, next, eq, -, found⟩
    exact ⟨x, next, eq, found⟩
  · exact after (chained.straight (Relation.TransGen.mono (fun _ _ => before) _ _ cycle))

/-- A rendered value is rendered in later graphs as well. -/
theorem Renders.retained (renders : scope.Renders g v h w) (entries : scope.Plain g)
    (plain : g.Plain v) (retains : g.Retains g') (plainW : h.Plain w) (retains' : h.Retains h') :
    scope.Renders g' v h' w := by
  obtain ⟨copies, oneToOne, shows, features⟩ := renders
  -- the copies that are come by
  let met (s t : StructId) : Prop :=
    copies s t ∧ scope.Meets g v (.struct s) ∧ h.Below w (.struct t)
  have later {u u' : Value} (meets : scope.Meets g v u) (below : h.Below w u')
      (shows : scope.Shows g h copies u u') : scope.Shows g' h' met u u' := by
    obtain ⟨m, meant, b, b', reads, reads', related⟩ := shows
    have plainU := meets.plain entries plain
    have plainM := (meaning?_meaning? entries plainU meant).1
    have plainU' := plainW.of_below below
    cases plainM.deref?.symm.trans reads
    cases plainU'.deref?.symm.trans reads'
    refine ⟨m, meaning?_retained retains entries plainU meant, m, u', (retains.plain plainM).deref?,
      (retains'.plain plainU').deref?, ?_⟩
    cases m with
    | atom a => cases u' <;> first | exact related.elim | exact related
    | struct s =>
      cases u' <;> first | exact related.elim | exact ⟨related, meets.meaning meant, below⟩
    | var x =>
      cases u' with
      | atom a => exact related.elim
      | struct s => exact related.elim
      | var y =>
        obtain ⟨name, called, called'⟩ := related
        exact ⟨name, by rwa [name?, retains.var plainM], by rwa [name?, retains'.var plainU']⟩
  refine ⟨met, oneToOne.mono And.left, later .refl .refl shows, ?_⟩
  rintro s t ⟨copied, meets, below⟩
  obtain ⟨m, n, found, found', related⟩ := features copied
  refine ⟨m, n, (retains.features (meets.plain entries plain)).trans found,
    (retains'.features (plainW.of_below below)).trans found', fun name => ?_⟩
  have related := related name
  cases left : m.get? name with
  | none =>
    cases right : n.get? name with
    | none => exact .none
    | some u' => rw [left, right] at related; cases related
  | some u =>
    cases right : n.get? name with
    | none => rw [left, right] at related; cases related
    | some u' =>
      rw [left, right] at related
      cases related with
      | some shows =>
        exact .some (later (meets.feature found left) (below.feature found' right) shows)

/-! ### Substitutions -/

/-- What a substitution makes renders the value. -/
theorem Substitutes.renders (substitutes : scope.Substitutes g v h w copies) (part : g.PartOf h)
    (entries : scope.Plain g) (plain : g.Plain v) : scope.Renders g v h w := by
  have shows {u u' : Value} (meets : scope.Meets g v u) (made : scope.Makes g copies u u') :
      scope.Shows g h copies u u' := by
    obtain ⟨m, meant, related⟩ := made
    have plainM := (meaning?_meaning? entries (meets.plain entries plain) meant).1
    have read := plainM.deref?
    refine ⟨m, meant, ?_⟩
    cases m with
    | atom a => cases u' <;> first | exact related.elim | exact ⟨_, _, rfl, rfl, related⟩
    | struct s => cases u' <;> first | exact related.elim | exact ⟨_, _, rfl, rfl, related⟩
    | var x =>
      cases u' with
      | atom a => exact related.elim
      | struct s => exact related.elim
      | var y =>
        obtain rfl : x = y := related
        obtain ⟨name, found⟩ := plainM.free .refl
        have called : g.name? x = some name := by simp [name?, found]
        exact ⟨_, _, read, part.frames.deref?_eq_some read, name, called,
          (part.name?_eq (plainM.contains .refl)).trans called⟩
  refine ⟨copies, substitutes.oneToOne, shows .refl substitutes.makes, fun {s t} listed => ?_⟩
  have meets := substitutes.met.2 ⟨t, listed⟩
  obtain ⟨m, n, found, found', related⟩ := substitutes.features listed
  refine ⟨m, n, found, found', fun name => ?_⟩
  have related := related name
  generalize holds : m.get? name = o at related
  generalize n.get? name = o' at related
  cases related with
  | none => exact .none
  | some made => exact .some (shows (meets.feature found holds) made)

end FeatureLogic.Scope
