import FeatureLogic.Proofs.Concurrence
import FeatureLogic.Proofs.Copy.Added
import FeatureLogic.Proofs.Graph.Matching
import FeatureLogic.Proofs.Graph.Wording
import FeatureLogic.Unification

/-!
# Copying in concert

Two walks that copy partners do the same step by step: they add nodes at the same time, which become
partners, and remember partners under partners. So the copies are partners, in graphs that are still
mirrored, and the scopes list partners under the same names.
-/

namespace FeatureLogic

namespace Pairing

variable {q q' q'' : Pairing} {g h : Graph}

structure Grows (q q' : Pairing) : Prop where
  structs : ∀ {s t}, q.structs s t → q'.structs s t
  vars : ∀ {x y}, q.vars x y → q'.vars x y

namespace Grows

theorem refl (q : Pairing) : q.Grows q := ⟨id, id⟩

theorem trans (first : q.Grows q') (second : q'.Grows q'') : q.Grows q'' :=
  ⟨fun partners => second.structs (first.structs partners),
    fun partners => second.vars (first.vars partners)⟩

variable (grows : q.Grows q')

include grows

theorem relates {v w : Value} (related : q.Relates v w) : q'.Relates v w :=
  related.mono grows.structs grows.vars

theorem maps {m n : NameMap Value} (maps : q.Maps m n) : q'.Maps m n :=
  maps.mono grows.structs grows.vars

theorem holds {binding binding' : Binding} (holds : q.Holds binding binding') :
    q'.Holds binding binding' := by
  cases binding <;> cases binding' <;> first | exact holds.elim | skip
  · trivial
  · exact grows.relates holds
  · exact grows.vars holds

end Grows

def addStruct (q : Pairing) (s t : StructId) : Pairing where
  structs u w := q.structs u w ∨ u = s ∧ w = t
  vars := q.vars

def addVar (q : Pairing) (x y : VarId) : Pairing where
  structs := q.structs
  vars z w := q.vars z w ∨ z = x ∧ w = y

theorem grows_addStruct (q : Pairing) (s t : StructId) : q.Grows (q.addStruct s t) := ⟨.inl, id⟩

theorem grows_addVar (q : Pairing) (x y : VarId) : q.Grows (q.addVar x y) := ⟨id, .inl⟩

theorem biUnique_insert {α β : Type} {r : α → β → Prop} (unique : Relator.BiUnique r) {a : α}
    {b : β} (left : ∀ {d}, ¬ r a d) (right : ∀ {c}, ¬ r c b) :
    Relator.BiUnique fun c d => r c d ∨ c = a ∧ d = b :=
  biUnique_or unique (Relator.biUnique_single a b)
    (fun partners new => left (new.1 ▸ partners)) fun partners new => right (new.2 ▸ partners)

theorem maps_empty (q : Pairing) : q.Maps ∅ ∅ := fun _ => .none

theorem Maps.insert {m n : NameMap Value} (maps : q.Maps m n) (name : String) {v w : Value}
    (related : q.Relates v w) : q.Maps (m.insert name v) (n.insert name w) := by
  intro key
  rw [NameMap.get?_insert, NameMap.get?_insert]
  split
  · exact .some related
  · exact maps key

namespace Mirrors

variable (mirrors : q.Mirrors g h)

include mirrors

theorem contains_struct {s t : StructId} (partners : q.structs s t) :
    g.Contains (.struct s) ∧ h.Contains (.struct t) := by
  obtain ⟨_, _, found, found', -⟩ := mirrors.struct partners
  exact ⟨Graph.contains_of_struct? found, Graph.contains_of_struct? found'⟩

theorem contains_var {x y : VarId} (partners : q.vars x y) :
    g.Contains (.var x) ∧ h.Contains (.var y) := by
  obtain ⟨_, _, found, found', -⟩ := mirrors.var partners
  exact ⟨Graph.contains_of_var? found, Graph.contains_of_var? found'⟩

theorem addStruct : (q.addStruct g.nextStruct h.nextStruct).Mirrors (g.addStruct ∅)
    (h.addStruct ∅) where
  struct {s t} := by
    rintro (partners | ⟨rfl, rfl⟩)
    · obtain ⟨node, node', found, found', maps, absorbed⟩ := mirrors.struct partners
      have grows := q.grows_addStruct g.nextStruct h.nextStruct
      refine ⟨node, node', ?_, ?_, grows.maps maps, ?_⟩
      · rw [Graph.struct?_addStruct, if_neg, found]
        rintro rfl
        exact Nat.lt_irrefl _ (Graph.contains_of_struct? found)
      · rw [Graph.struct?_addStruct, if_neg, found']
        rintro rfl
        exact Nat.lt_irrefl _ (Graph.contains_of_struct? found')
      · exact rel_imp .inl absorbed
    · exact ⟨{ features := ∅ }, { features := ∅ }, by rw [Graph.struct?_addStruct, if_pos rfl],
        by rw [Graph.struct?_addStruct, if_pos rfl], maps_empty _, .none⟩
  var {x y} partners := by
    obtain ⟨node, node', found, found', holds⟩ := mirrors.var partners
    exact ⟨node, node', found, found', (q.grows_addStruct _ _).holds holds⟩

theorem addVar {new new' : Variable} (holds : q.Holds new.binding new'.binding) :
    (q.addVar g.nextVar h.nextVar).Mirrors (g.addVar new) (h.addVar new') where
  struct {s t} partners := by
    obtain ⟨node, node', found, found', maps, absorbed⟩ := mirrors.struct partners
    exact ⟨node, node', found, found', (q.grows_addVar _ _).maps maps, absorbed⟩
  var {x y} := by
    have grows := q.grows_addVar g.nextVar h.nextVar
    rintro (partners | ⟨rfl, rfl⟩)
    · obtain ⟨node, node', found, found', same⟩ := mirrors.var partners
      refine ⟨node, node', ?_, ?_, grows.holds same⟩
      · rw [Graph.var?_addVar, if_neg, found]
        rintro rfl
        exact Nat.lt_irrefl _ (Graph.contains_of_var? found)
      · rw [Graph.var?_addVar, if_neg, found']
        rintro rfl
        exact Nat.lt_irrefl _ (Graph.contains_of_var? found')
    · exact ⟨new, new', by rw [Graph.var?_addVar, if_pos rfl],
        by rw [Graph.var?_addVar, if_pos rfl], grows.holds holds⟩

end Mirrors

end Pairing

namespace Copying

open Pairing

variable {q q' : Pairing} {W W' : Walk}

/-- What holds of two walks that go in concert. -/
structure Paired (q : Pairing) (W W' : Walk) : Prop where
  structs : Relator.BiUnique q.structs
  vars : Relator.BiUnique q.vars
  mirrors : q.Mirrors W.1 W'.1
  named : q.Named W.1 W'.1
  imageStructs : List.Forall₂ (fun e e' => q.structs e.1 e'.1 ∧ q.structs e.2 e'.2)
    W.2.images.structs W'.2.images.structs
  imageVars : List.Forall₂ (fun e e' => q.vars e.1 e'.1 ∧ q.Relates e.2 e'.2)
    W.2.images.vars W'.2.images.vars
  scope : q.Maps W.2.scope W'.2.scope

namespace Paired

variable (paired : Paired q W W')

include paired

theorem unique : Relator.BiUnique q.Relates := biUnique_relates paired.structs paired.vars

theorem lookupStruct {s s' : StructId} (partners : q.structs s s') :
    Option.Rel q.structs (W.2.images.structs.lookup s) (W'.2.images.structs.lookup s') :=
  lookup_of_forall₂ paired.structs paired.imageStructs partners

theorem lookupVar {x x' : VarId} (partners : q.vars x x') :
    Option.Rel q.Relates (W.2.images.vars.lookup x) (W'.2.images.vars.lookup x') :=
  lookup_of_forall₂ paired.vars paired.imageVars partners

theorem apply {v v' : Value} (related : q.Relates v v') :
    q.Relates (W.2.images.apply v) (W'.2.images.apply v') := by
  cases v <;> cases v' <;> first | exact related.elim | skip
  · exact related
  · have found := paired.lookupStruct related
    simp only [Images.apply]
    generalize W.2.images.structs.lookup _ = t at found
    generalize W'.2.images.structs.lookup _ = t' at found
    cases found with
    | none => exact related
    | some partners => exact partners
  · have found := paired.lookupVar related
    simp only [Images.apply]
    generalize W.2.images.vars.lookup _ = u at found
    generalize W'.2.images.vars.lookup _ = u' at found
    cases found with
    | none => exact related
    | some related => exact related

theorem addStruct {s s' : StructId} (partners : q.structs s s') :
    ∃ q', q.Grows q' ∧ q'.structs W.1.nextStruct W'.1.nextStruct ∧
      Paired q' (W.1.addStruct ∅, W.2.addStruct s W.1.nextStruct)
        (W'.1.addStruct ∅, W'.2.addStruct s' W'.1.nextStruct) := by
  have grows := q.grows_addStruct W.1.nextStruct W'.1.nextStruct
  have new : (q.addStruct W.1.nextStruct W'.1.nextStruct).structs W.1.nextStruct
      W'.1.nextStruct := .inr ⟨rfl, rfl⟩
  refine ⟨_, grows, new, ?_⟩
  constructor
  case structs =>
    refine biUnique_insert paired.structs (fun partners => ?_) fun partners => ?_
    · exact Nat.lt_irrefl _ (paired.mirrors.contains_struct partners).1
    · exact Nat.lt_irrefl _ (paired.mirrors.contains_struct partners).2
  case vars => exact paired.vars
  case mirrors => exact paired.mirrors.addStruct
  case named => exact paired.named
  case imageStructs =>
    exact .cons ⟨new, new⟩ (.cons ⟨.inl partners, new⟩
      (paired.imageStructs.imp fun _ _ both => both.imp .inl .inl))
  case imageVars =>
    exact paired.imageVars.imp fun _ _ both => ⟨both.1, grows.relates both.2⟩
  case scope => exact grows.maps paired.scope

theorem setFeature {t t' : StructId} (partners : q.structs t t') (name : String) {v v' : Value}
    (related : q.Relates v v') :
    Paired q (W.1.setFeature t name v, W.2) (W'.1.setFeature t' name v', W'.2) :=
  { paired with
    mirrors := paired.mirrors.setFeature paired.unique partners name related
    named := fun partners => by simpa using paired.named partners }

theorem addImage {x x' : VarId} (partners : q.vars x x') {v v' : Value}
    (related : q.Relates v v') : Paired q (W.1, W.2.addVar x v) (W'.1, W'.2.addVar x' v') :=
  { paired with imageVars := .cons ⟨partners, related⟩ paired.imageVars }

theorem addVar (new new' : Variable) (holds : q.Holds new.binding new'.binding)
    (called : new.name = new'.name) :
    ∃ q', q.Grows q' ∧ q'.vars W.1.nextVar W'.1.nextVar ∧
      Paired q' (W.1.addVar new, W.2) (W'.1.addVar new', W'.2) := by
  have grows := q.grows_addVar W.1.nextVar W'.1.nextVar
  refine ⟨_, grows, .inr ⟨rfl, rfl⟩, ?_⟩
  constructor
  case structs => exact paired.structs
  case vars =>
    refine biUnique_insert paired.vars (fun partners => ?_) fun partners => ?_
    · exact Nat.lt_irrefl _ (paired.mirrors.contains_var partners).1
    · exact Nat.lt_irrefl _ (paired.mirrors.contains_var partners).2
  case mirrors => exact paired.mirrors.addVar holds
  case named =>
    rintro x y (partners | ⟨rfl, rfl⟩)
    · obtain ⟨left, right⟩ := paired.mirrors.contains_var partners
      rw [Graph.name?_addVar, Graph.name?_addVar, if_neg, if_neg, paired.named partners]
      · rintro rfl
        exact Nat.lt_irrefl _ right
      · rintro rfl
        exact Nat.lt_irrefl _ left
    · rw [Graph.name?_addVar, Graph.name?_addVar, if_pos rfl, if_pos rfl, called]
  case imageStructs => exact paired.imageStructs
  case imageVars =>
    exact paired.imageVars.imp fun _ _ both => ⟨.inl both.1, grows.relates both.2⟩
  case scope => exact grows.maps paired.scope

end Paired

section Walks

variable {α β : Type}

/-- What two steps give: related outcomes, with walks that are in concert as before. -/
def Gives (q : Pairing) (R : Pairing → α → β → Prop) (r : α × Walk) (r' : β × Walk) : Prop :=
  ∃ q', q.Grows q' ∧ Paired q' r.2 r'.2 ∧ R q' r.1 r'.1

def ConcertedStructs (copy copy' : StructId → Walk → Option (StructId × Walk)) : Prop :=
  ∀ {q : Pairing} {W W' : Walk} {s s' : StructId}, Paired q W W' → q.structs s s' →
    Concur (Gives q Pairing.structs) (copy s W) (copy' s' W')

def ConcertedVars (copy copy' : VarId → Walk → Option (Value × Walk)) : Prop :=
  ∀ {q : Pairing} {W W' : Walk} {x x' : VarId}, Paired q W W' → q.vars x x' →
    Concur (Gives q Relates) (copy x W) (copy' x' W')

def ConcertedValues (copy copy' : Value → Walk → Option (Value × Walk)) : Prop :=
  ∀ {q : Pairing} {W W' : Walk} {v v' : Value}, Paired q W W' → q.Relates v v' →
    Concur (Gives q Relates) (copy v W) (copy' v' W')

variable {copyStruct copyStruct' : StructId → Walk → Option (StructId × Walk)}
  {copyVar copyVar' : VarId → Walk → Option (Value × Walk)}
  {image image' : Value → Walk → Option (Value × Walk)}

theorem ConcertedStructs.value (structs : ConcertedStructs copyStruct copyStruct')
    {W W' : Walk} {s s' : StructId} (paired : Paired q W W') (partners : q.structs s s') :
    Concur (Gives q Relates) ((copyStruct s W).map fun r => (.struct r.1, r.2))
      ((copyStruct' s' W').map fun r => (.struct r.1, r.2)) :=
  (structs paired partners).map fun ⟨q', grows, paired', partners'⟩ =>
    ⟨q', grows, paired', partners'⟩

theorem concerted_copyValue (structs : ConcertedStructs copyStruct copyStruct')
    (vars : ConcertedVars copyVar copyVar') :
    ConcertedValues (copyValue copyStruct copyVar) (copyValue copyStruct' copyVar') := by
  intro q W W' v v' paired related
  cases v <;> cases v' <;> first | exact related.elim | skip
  · exact concur_some ⟨q, .refl q, paired, related⟩
  · exact structs.value paired related
  · have found := paired.lookupVar related
    simp only [copyValue]
    generalize W.2.images.vars.lookup _ = u at found
    generalize W'.2.images.vars.lookup _ = u' at found
    cases found with
    | some known => exact concur_some ⟨q, .refl q, paired, known⟩
    | none =>
      refine (vars paired related).map ?_
      rintro _ _ ⟨q', grows, paired', copies⟩
      exact ⟨q', grows, paired'.addImage (grows.vars related) copies, copies⟩

theorem concur_fill (values : ConcertedValues image image') {t t' : StructId}
    {entries entries' : List (String × Value)}
    (related : List.Forall₂ (fun e e' => e.1 = e'.1 ∧ q.Relates e.2 e'.2) entries entries')
    {W W' : Walk} (paired : Paired q W W') (partners : q.structs t t') :
    Concur (fun V V' => ∃ q', q.Grows q' ∧ Paired q' V V') (Graph.fill image t entries W)
      (Graph.fill image' t' entries' W') := by
  induction entries generalizing q entries' W W' with
  | nil =>
    cases related
    exact concur_some ⟨q, .refl q, paired⟩
  | cons e rest ih =>
    obtain ⟨name, v⟩ := e
    cases related with
    | @cons _ e' _ rest' head tail =>
      obtain ⟨_, v'⟩ := e'
      obtain ⟨rfl, head⟩ := head
      have copies := values paired head
      simp only [Graph.fill]
      cases left : image v W with
      | none => exact concur_none_left
      | some r =>
        cases right : image' v' W' with
        | none => exact concur_none_right
        | some r' =>
          obtain ⟨q₁, grows, paired₁, copied⟩ := copies r r' left right
          have tail₁ := tail.imp fun _ _ both => And.imp_right grows.relates both
          have partners₁ := grows.structs partners
          refine (ih tail₁ (paired₁.setFeature partners₁ name copied) partners₁).imp ?_
          rintro _ _ ⟨q', grows', paired'⟩
          exact ⟨q', grows.trans grows', paired'⟩

theorem concerted_copyNode (values : ConcertedValues image image') :
    ConcertedStructs (copyNode image) (copyNode image') := by
  intro q W W' s s' paired partners
  have found := paired.lookupStruct partners
  simp only [copyNode]
  generalize W.2.images.structs.lookup s = t at found
  generalize W'.2.images.structs.lookup s' = t' at found
  cases found with
  | some known => exact concur_some ⟨q, .refl q, paired, known⟩
  | none =>
    obtain ⟨q₁, grows, new, paired₁⟩ := paired.addStruct partners
    simp only [Graph.imageStruct]
    cases left : (W.1.addStruct ∅).features? s with
    | none => exact concur_none_left
    | some m =>
      cases right : (W'.1.addStruct ∅).features? s' with
      | none => exact concur_none_right
      | some n =>
        have maps := paired₁.mirrors.features (grows.structs partners) left right
        refine (concur_fill values maps.forall₂_entries paired₁ new).map ?_
        rintro V V' ⟨q', grows', paired'⟩
        exact ⟨q', grows.trans grows', paired', grows'.structs new⟩

theorem concur_copyVar {W W' : Walk} (paired : Paired q W W') {x x' : VarId}
    (partners : q.vars x x') :
    Concur (fun r r' => ∃ q', q.Grows q' ∧ Paired q' (r.2, W.2) (r'.2, W'.2) ∧ q'.vars r.1 r'.1)
      (W.1.copyVar? x) (W'.1.copyVar? x') := by
  have bindings : Concur (Option.Rel q.Relates) (W.1.binding? x) (W'.1.binding? x') := by
    refine Concur.bind (R := q.vars) (fun _ _ => paired.mirrors.root partners) fun roots => ?_
    refine Concur.bind (R := fun node node' => q.Holds node.binding node'.binding)
      (fun node node' left right => ?_) fun {node node'} holds => concur_some ?_
    · obtain ⟨_, _, found, found', holds⟩ := paired.mirrors.var roots
      cases left.symm.trans found
      cases right.symm.trans found'
      exact holds
    · obtain ⟨name, binding⟩ := node
      obtain ⟨name', binding'⟩ := node'
      cases binding <;> cases binding' <;> first | exact holds.elim | skip
      · exact .none
      · exact .some holds
      · exact .none
  refine Concur.bind (R := fun node node' => node.name = node'.name)
    (fun node node' left right => ?_) fun {node node'} called => ?_
  · have named := paired.named partners
    rw [Graph.name?, Graph.name?, left, right] at named
    exact Option.some.inj named
  refine bindings.bind fun {binding binding'} holds => concur_some ?_
  have new : q.Holds (binding.elim .free .bound) (binding'.elim .free .bound) := by
    cases holds with
    | none => trivial
    | some related => exact related
  obtain ⟨q', grows, partners', paired'⟩ := paired.addVar
    { node with binding := binding.elim .free .bound }
    { node' with binding := binding'.elim .free .bound } new called
  exact ⟨q', grows, paired', partners'⟩

theorem concerted_copyVarPlain (structs : ConcertedStructs copyStruct copyStruct') :
    ConcertedVars (copyVarPlain copyStruct) (copyVarPlain copyStruct') := by
  intro q W W' x x' paired partners
  simp only [copyVarPlain]
  cases left : W.1.deref? (.var x) with
  | none => exact concur_none_left
  | some w =>
    cases right : W'.1.deref? (.var x') with
    | none => exact concur_none_right
    | some w' =>
      have ends := paired.mirrors.deref (v := .var x) (w := .var x') partners left right
      cases w <;> cases w' <;> first | exact ends.elim | skip
      · exact concur_some ⟨q, .refl q, paired, ends⟩
      · exact structs.value paired ends
      · have found := paired.lookupVar ends
        dsimp only
        generalize W.2.images.vars.lookup _ = u at found
        generalize W'.2.images.vars.lookup _ = u' at found
        cases found with
        | some known => exact concur_some ⟨q, .refl q, paired, known⟩
        | none =>
          refine (concur_copyVar paired ends).map ?_
          rintro ⟨y, g⟩ ⟨y', g'⟩ ⟨q', grows, paired', new⟩
          have related : q'.Relates (.var y) (.var y') := new
          exact ⟨q', grows, (paired'.addImage (grows.vars ends) related).addImage new related, new⟩

theorem concerted_copyStructPlain (fuel fuel' : Nat) :
    ConcertedStructs (copyStructPlain fuel) (copyStructPlain fuel') := by
  induction fuel generalizing fuel' with
  | zero => exact fun _ _ => concur_none_left
  | succ fuel ih =>
    cases fuel' with
    | zero => exact fun _ _ => concur_none_right
    | succ fuel' =>
      exact concerted_copyNode
        (concerted_copyValue (ih fuel') (concerted_copyVarPlain (ih fuel')))

theorem concerted_copyPlain : ConcertedValues copyPlain copyPlain := by
  intro q W W' v v' paired related
  exact concerted_copyValue (concerted_copyStructPlain _ _)
    (concerted_copyVarPlain (concerted_copyStructPlain _ _)) paired related

/-- The same names are tied to a name in both scopes, and the last of them stands for partners. -/
theorem concur_aliases {W W' : Walk} (paired : Paired q W W') (fuel fuel' : Nat) (name : String)
    (names : List String) {v v' : Value} (related : q.Relates v v') :
    Concur (fun r r' => r.1 = r'.1 ∧ q.Relates r.2 r'.2)
      (aliases W.1 W.2.scope fuel name names v) (aliases W'.1 W'.2.scope fuel' name names v') := by
  induction fuel generalizing fuel' name names v v' with
  | zero => exact concur_none_left
  | succ fuel ih =>
    cases fuel' with
    | zero => exact concur_none_right
    | succ fuel' =>
      have listed := paired.scope name
      simp only [aliases]
      generalize W.2.scope.get? name = entry at listed
      generalize W'.2.scope.get? name = entry' at listed
      cases listed with
      | none => exact concur_some ⟨rfl, related⟩
      | @some u u' entries =>
        dsimp only
        cases left : W.1.deref? u with
        | none => exact concur_none_left
        | some w =>
          cases right : W'.1.deref? u' with
          | none => exact concur_none_right
          | some w' =>
            have ends := paired.mirrors.deref entries left right
            cases w <;> cases w' <;> first | exact ends.elim | skip
            · exact concur_some ⟨rfl, entries⟩
            · exact concur_some ⟨rfl, entries⟩
            · simp only [paired.named ends]
              cases W'.1.name? _ with
              | none => exact concur_none_left
              | some next =>
                dsimp only
                split
                · exact concur_some ⟨rfl, entries⟩
                · exact ih fuel' next (next :: names) entries

theorem Paired.insertAll {W W' : Walk} (paired : Paired q W W') (names : List String)
    {v v' : Value} (related : q.Relates v v') :
    q.Maps (names.foldl (fun scope name => scope.insert name v) W.2.scope)
      (names.foldl (fun scope name => scope.insert name v') W'.2.scope) := by
  have insert {scope scope' : Scope} (maps : q.Maps scope scope') :
      q.Maps (names.foldl (fun scope name => scope.insert name v) scope)
        (names.foldl (fun scope name => scope.insert name v') scope') := by
    induction names generalizing scope scope' with
    | nil => exact maps
    | cons name names ih => exact ih (maps.insert name related)
  exact insert paired.scope

theorem concerted_copyVarScoped : ConcertedVars copyVarScoped copyVarScoped := by
  intro q W W' x x' paired partners
  simp only [copyVarScoped]
  refine Concur.bind (R := Eq) (fun name name' left right => ?_) fun {name name'} same => ?_
  · exact Option.some.inj (left.symm.trans ((paired.named partners).trans right))
  cases same
  have roots : q.Relates (.var x) (.var x') := partners
  refine (concur_aliases paired _ _ name [name] roots).bind ?_
  rintro ⟨names, v⟩ ⟨_, v'⟩ ⟨rfl, related⟩
  refine (concerted_copyPlain paired related).bind ?_
  rintro ⟨w, g, m⟩ ⟨w', g', m'⟩ ⟨q', grows, paired', copies⟩
  exact concur_some
    ⟨q', grows, { paired' with scope := paired'.insertAll names copies }, copies⟩

theorem concerted_copyStructScoped (fuel fuel' : Nat) :
    ConcertedStructs (copyStructScoped fuel) (copyStructScoped fuel') := by
  induction fuel generalizing fuel' with
  | zero => exact fun _ _ => concur_none_left
  | succ fuel ih =>
    cases fuel' with
    | zero => exact fun _ _ => concur_none_right
    | succ fuel' =>
      exact concerted_copyNode (concerted_copyValue (ih fuel') concerted_copyVarScoped)

/-- Operands that are partners are copied in concert. -/
theorem concerted_copyScoped : ConcertedValues copyScoped copyScoped := by
  intro q W W' v v' paired related
  exact concerted_copyValue (concerted_copyStructScoped _ _) concerted_copyVarScoped paired related

end Walks

end Copying

open Copying

/-- What the copying of partners gives, in graphs that are mirrored by a larger pairing. -/
structure CopiesMirrored (q : Pairing) (r r' : Value × Value × Scoping × Graph) : Prop where
  structs : Relator.BiUnique q.structs
  vars : Relator.BiUnique q.vars
  mirrors : q.Mirrors r.2.2.2 r'.2.2.2
  named : q.Named r.2.2.2 r'.2.2.2
  left : q.Relates r.1 r'.1
  right : q.Relates r.2.1 r'.2.1
  scopes : r.2.2.1.Related q.Maps r'.2.2.1

/-- Operands that are partners have copies that are partners, and so have the entries of scopes. -/
theorem concur_copyOperands {q : Pairing} {g g' : Graph} (structs : Relator.BiUnique q.structs)
    (vars : Relator.BiUnique q.vars) (mirrors : q.Mirrors g g') (named : q.Named g g')
    {v v' w w' : Value} (left : q.Relates v v') (right : q.Relates w w')
    {scoping scoping' : Scoping} (scopes : scoping.Related q.Maps scoping') :
    Concur (fun r r' => ∃ q', q.Grows q' ∧ CopiesMirrored q' r r') (g.copyOperands v w scoping)
      (g'.copyOperands v' w' scoping') := by
  have start {scope scope' : Scope} (maps : q.Maps scope scope') :
      Paired q (g, { scope }) (g', { scope := scope' }) :=
    ⟨structs, vars, mirrors, named, .nil, .nil, maps⟩
  have applied {q' : Pairing} {W W' : Walk} (paired : Paired q' W W') {scope scope' : Scope}
      (maps : q'.Maps scope scope') :
      q'.Maps (scope.map W.2.images.apply) (scope'.map W'.2.images.apply) := by
    intro name
    rw [NameMap.get?_map, NameMap.get?_map]
    have related := maps name
    generalize scope.get? name = v at related
    generalize scope'.get? name = v' at related
    cases related with
    | none => exact .none
    | some related => exact .some (paired.apply related)
  cases scoping with
  | common scope =>
    cases scoping' with
    | separate => exact scopes.elim
    | common scope' =>
      refine (concerted_copyScoped (start scopes) left).bind ?_
      rintro ⟨c, h, m⟩ ⟨c', h', m'⟩ ⟨q₁, grows₁, paired₁, copies₁⟩
      refine (concerted_copyScoped paired₁ (grows₁.relates right)).bind ?_
      rintro ⟨d, k, l⟩ ⟨d', k', l'⟩ ⟨q₂, grows₂, paired₂, copies₂⟩
      exact concur_some ⟨q₂, grows₁.trans grows₂, paired₂.structs, paired₂.vars, paired₂.mirrors,
        paired₂.named, grows₂.relates copies₁, copies₂, applied paired₂ paired₂.scope⟩
  | separate first second =>
    cases scoping' with
    | common => exact scopes.elim
    | separate first' second' =>
      refine (concerted_copyScoped (start scopes.1) left).bind ?_
      rintro ⟨c, h, m⟩ ⟨c', h', m'⟩ ⟨q₁, grows₁, paired₁, copies₁⟩
      have turn : Paired q₁ (h, { m with scope := second }) (h', { m' with scope := second' }) :=
        { paired₁ with scope := grows₁.maps scopes.2 }
      refine (concerted_copyScoped turn (grows₁.relates right)).bind ?_
      rintro ⟨d, k, l⟩ ⟨d', k', l'⟩ ⟨q₂, grows₂, paired₂, copies₂⟩
      exact concur_some ⟨q₂, grows₁.trans grows₂, paired₂.structs, paired₂.vars, paired₂.mirrors,
        paired₂.named, grows₂.relates copies₁, copies₂,
        applied paired₂ (grows₂.maps paired₁.scope), applied paired₂ paired₂.scope⟩

end FeatureLogic
