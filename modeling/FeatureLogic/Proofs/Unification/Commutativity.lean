import FeatureLogic.Graph.Correspondence
import FeatureLogic.Proofs.Graph.Plainness
import FeatureLogic.Proofs.Unification.Universality

/-!
# Commutativity of unification

Each of two most general results embeds into the other, and the two embeddings undo each other on
what comes from the operands. So the results of unifying two operands in either order are the same
up to the names of variables.
-/

namespace FeatureLogic

open FeatureLogic.Graph

/-- Is `v` what the variable name denotes beside the result `w`? A name without an entry denotes
the free variable of that name below the result. -/
def Scope.Denotes (scope : Scope) (g : Graph) (w : Value) (name : String) (v : Value) : Prop :=
  scope.get? name = some v ∨
    scope.get? name = none ∧ ∃ x, v = .var x ∧ g.Below w (.var x) ∧ g.var? x = some { name }

/-- Does the pairing carry what is below `v` in `g` one to one onto what is below `w` in `h`? -/
structure Pairing.Renames (p : Pairing) (g : Graph) (v : Value) (h : Graph) (w : Value) : Prop where
  structs : Relator.BiUnique p.structs
  vars : Relator.BiUnique p.vars
  closed : p.Closed g h
  pairs : p.Pairs g h v w
  below : ∀ s, (∃ t, p.structs s t) ↔ g.Below v (.struct s)
  below' : ∀ t, (∃ s, p.structs s t) ↔ h.Below w (.struct t)
  belowVar : ∀ x, (∃ y, p.vars x y) ↔ g.Below v (.var x)
  belowVar' : ∀ y, (∃ x, p.vars x y) ↔ h.Below w (.var y)
  free : ∀ x y, p.vars x y → ∃ m n, g.var? x = some { name := m } ∧ h.var? y = some { name := n }

structure Rivals (g : Graph) (a b : Value) (h : Graph) (w : Value) (scope : Scope) (e : Embedding)
    (h' : Graph) (w' : Value) (scope' : Scope) (e' : Embedding) (there back : Embedding) :
    Prop where
  first : Universal g a b h w scope e
  second : Universal g a b h' w' scope' e'
  embeds : there.Embeds h w h' w'
  structs : ∀ s, g.Operands a b (.struct s) → there.structs (e.structs s) = e'.structs s
  names : ∀ x name, g.Operands a b (.var x) → g.name? x = some name →
    there.Sends h (e.names name) (e'.names name)
  embedsBack : back.Embeds h' w' h w
  structsBack : ∀ s, g.Operands a b (.struct s) → back.structs (e'.structs s) = e.structs s
  namesBack : ∀ x name, g.Operands a b (.var x) → g.name? x = some name →
    back.Sends h' (e'.names name) (e.names name)

variable {g h h' : Graph} {a b w w' : Value} {scope scope' : Scope}
  {e e' there back : Embedding}

theorem operands_comm {v : Value} : g.Operands b a v ↔ g.Operands a b v := Or.comm

/-- A result for the operands in one order is one for the other order. -/
theorem Universal.swap (universal : Universal g b a h w scope e) :
    Universal g a b h w scope e where
  left := universal.right
  right := universal.left
  factors left right := by
    obtain ⟨e', embeds, structs, names⟩ := universal.factors right left
    exact ⟨e', embeds, fun s hs => structs s (operands_comm.2 hs),
      fun x name hx => names x name (operands_comm.2 hx)⟩
  settled := universal.settled
  features := universal.features
  struct := universal.struct.trans
    (exists_congr fun _ => and_congr_left fun _ => operands_comm)
  var below := by
    obtain ⟨x, name, hx, rest⟩ := universal.var below
    exact ⟨x, name, operands_comm.1 hx, rest⟩
  name hx := universal.name (operands_comm.2 hx)
  entry hx := universal.entry (operands_comm.2 hx)

theorem Universal.exists_rivals (first : Universal g a b h w scope e)
    (second : Universal g a b h' w' scope' e') :
    ∃ there back, Rivals g a b h w scope e h' w' scope' e' there back := by
  obtain ⟨there, embeds, structs, names⟩ := first.factors second.left second.right
  obtain ⟨back, embedsBack, structsBack, namesBack⟩ := second.factors first.left first.right
  exact ⟨there, back, first, second, embeds, structs, names, embedsBack, structsBack, namesBack⟩

namespace Rivals

theorem flip (rivals : Rivals g a b h w scope e h' w' scope' e' there back) :
    Rivals g a b h' w' scope' e' h w scope e back there :=
  ⟨rivals.second, rivals.first, rivals.embedsBack, rivals.structsBack, rivals.namesBack,
    rivals.embeds, rivals.structs, rivals.names⟩

def pairing (g : Graph) (a b : Value) (e e' : Embedding) : Pairing where
  structs t u := ∃ s, g.Operands a b (.struct s) ∧ e.structs s = t ∧ e'.structs s = u
  vars x y := ∃ z name, g.Operands a b (.var z) ∧ g.name? z = some name ∧
    e.names name = .var x ∧ e'.names name = .var y

theorem structs_unique (rivals : Rivals g a b h w scope e h' w' scope' e' there back)
    {t u u' : StructId} (hu : (pairing g a b e e').structs t u)
    (hu' : (pairing g a b e e').structs t u') : u = u' := by
  obtain ⟨s, hs, rfl, rfl⟩ := hu
  obtain ⟨s', hs', same, rfl⟩ := hu'
  rw [← rivals.structs s hs, ← same, rivals.structs s' hs']

theorem vars_unique (rivals : Rivals g a b h w scope e h' w' scope' e' there back)
    {x y y' : VarId} (hy : (pairing g a b e e').vars x y)
    (hy' : (pairing g a b e e').vars x y') : y = y' := by
  obtain ⟨z, name, hz, called, eq, eqY⟩ := hy
  obtain ⟨z', name', hz', called', eq', eqY'⟩ := hy'
  have sends := rivals.names z name hz called
  have sends' := rivals.names z' name' hz' called'
  rw [eq, eqY] at sends
  rw [eq', eqY'] at sends'
  exact Value.var.inj (sends.unique (by simp [Value.unspecified]) sends')

theorem pairing_flip : (pairing g a b e e').flip = pairing g a b e' e := by
  simp only [Pairing.flip, pairing]
  congr 1
  · funext t s
    exact propext (exists_congr fun _ => and_congr_right fun _ => and_comm)
  · funext y x
    exact propext (exists_congr fun _ => exists_congr fun _ => and_congr_right fun _ =>
      and_congr_right fun _ => and_comm)

theorem exists_var (rivals : Rivals g a b h w scope e h' w' scope' e' there back) {x : VarId}
    {v : Value} (below : h.Below w (.var x)) (below' : h'.Below w' v)
    (sends : there.Sends h (.var x) v) (sendsBack : back.Sends h' v (.var x)) :
    ∃ y, v = .var y ∧ (pairing g a b e e').vars x y := by
  obtain ⟨z, name, hz, called, -, eq⟩ := rivals.first.var below
  have sent := rivals.names z name hz called
  rw [eq] at sent
  have same : v = e'.names name := sends.unique (by simp [Value.unspecified]) sent
  cases v with
  | atom c =>
    rcases sendsBack with rfl | h
    · exact absurd same.symm (rivals.second.name hz called).2
    · cases h
  | struct t => cases sendsBack
  | var y => exact ⟨y, rfl, z, name, hz, called, eq, same.symm⟩

theorem relates (rivals : Rivals g a b h w scope e h' w' scope' e' there back) {v v' : Value}
    (below : h.Below w v) (below' : h'.Below w' v') (sends : there.Sends h v v')
    (sendsBack : back.Sends h' v' v) : (pairing g a b e e').Relates v v' := by
  cases v with
  | struct t =>
    obtain ⟨s, hs, rfl⟩ := rivals.first.struct.1 below
    rw [show v' = .struct (there.structs (e.structs s)) from sends, rivals.structs s hs]
    exact ⟨s, hs, rfl, rfl⟩
  | var x =>
    obtain ⟨y, rfl, partners⟩ := rivals.exists_var below below' sends sendsBack
    exact partners
  | atom c =>
    cases v' with
    | atom d =>
      rcases sends with rfl | same
      · rcases sendsBack with rfl | same
        · rfl
        · exact Value.atom.inj same
      · exact (Value.atom.inj same).symm
    | struct u => cases sendsBack
    | var y =>
      obtain ⟨x, eq, -⟩ := rivals.flip.exists_var below' below sendsBack sends
      cases eq

theorem pairs (rivals : Rivals g a b h w scope e h' w' scope' e' there back) {v v' : Value}
    (below : h.Below w v) (below' : h'.Below w' v') (sends : there.Sends h v v')
    (sendsBack : back.Sends h' v' v) : (pairing g a b e e').Pairs h h' v v' :=
  ⟨v, v', rivals.first.settled below, rivals.second.settled below',
    rivals.relates below below' sends sendsBack⟩

theorem exists_feature (rivals : Rivals g a b h w scope e h' w' scope' e' there back)
    {t u : StructId} (partners : (pairing g a b e e').structs t u) {m n : NameMap Value}
    (found : h.features? t = some m) (found' : h'.features? u = some n) {name : String}
    {v : Value} (holds : m.get? name = some v) :
    ∃ v', n.get? name = some v' ∧ h'.Below w' v' ∧ there.Sends h v v' := by
  obtain ⟨s, hs, rfl, rfl⟩ := partners
  obtain ⟨n', found'', values⟩ :=
    rivals.embeds.feature (rivals.first.struct.2 ⟨s, hs, rfl⟩) found
  rw [rivals.structs s hs] at found''
  cases found'.symm.trans found''
  obtain ⟨v', u, holds', reads, sends⟩ := values holds
  have below := (rivals.second.struct.2 ⟨s, hs, rfl⟩).feature found' holds'
  cases reads.symm.trans (rivals.second.settled below)
  exact ⟨v', holds', below, sends⟩

theorem closed (rivals : Rivals g a b h w scope e h' w' scope' e' there back) :
    (pairing g a b e e').Closed h h' := by
  intro t u partners
  have flipped : (pairing g a b e' e).structs u t := pairing_flip (e := e) ▸ partners
  obtain ⟨s, hs, rfl, rfl⟩ := id partners
  have below := rivals.first.struct.2 ⟨s, hs, rfl⟩
  have below' := rivals.second.struct.2 ⟨s, hs, rfl⟩
  obtain ⟨m, found⟩ := rivals.first.features below
  obtain ⟨n, found'⟩ := rivals.second.features below'
  refine ⟨m, n, found, found', NameMap.keys_eq_of_mem_iff fun name => ?_,
    fun {name v v'} holds holds' => ?_⟩
  · rw [NameMap.mem_keys_iff, NameMap.mem_keys_iff]
    constructor
    · rintro ⟨v, holds⟩
      obtain ⟨v', holds', -⟩ := rivals.exists_feature partners found found' holds
      exact ⟨v', holds'⟩
    · rintro ⟨v', holds'⟩
      obtain ⟨v, holds, -⟩ := rivals.flip.exists_feature flipped found' found holds'
      exact ⟨v, holds⟩
  · obtain ⟨_, held, lower', sends⟩ := rivals.exists_feature partners found found' holds
    cases holds'.symm.trans held
    obtain ⟨_, held, lower, sendsBack⟩ :=
      rivals.flip.exists_feature flipped found' found holds'
    cases holds.symm.trans held
    exact rivals.pairs lower lower' sends sendsBack

theorem pairs_results (rivals : Rivals g a b h w scope e h' w' scope' e' there back) :
    (pairing g a b e e').Pairs h h' w w' := by
  obtain ⟨u, reads, sends⟩ := rivals.embeds.root
  obtain ⟨u', reads', sendsBack⟩ := rivals.embedsBack.root
  cases reads.symm.trans (rivals.second.settled .refl)
  cases reads'.symm.trans (rivals.first.settled .refl)
  exact rivals.pairs .refl .refl sends sendsBack

theorem pairs_names (rivals : Rivals g a b h w scope e h' w' scope' e' there back) {x : VarId}
    {name : String} (hx : g.Operands a b (.var x)) (called : g.name? x = some name) :
    (pairing g a b e e').Pairs h h' (e.names name) (e'.names name) :=
  rivals.pairs (rivals.first.name hx called).1 (rivals.second.name hx called).1
    (rivals.names x name hx called) (rivals.namesBack x name hx called)

theorem exists_partner_iff (rivals : Rivals g a b h w scope e h' w' scope' e' there back)
    (x : VarId) : (∃ y, (pairing g a b e e').vars x y) ↔ h.Below w (.var x) := by
  constructor
  · rintro ⟨y, z, name, hz, called, eq, -⟩
    exact eq ▸ (rivals.first.name hz called).1
  · intro below
    obtain ⟨z, name, hz, called, -, eq⟩ := rivals.first.var below
    have sends := rivals.names z name hz called
    have sendsBack := rivals.namesBack z name hz called
    rw [eq] at sends sendsBack
    obtain ⟨y, -, partners⟩ :=
      rivals.exists_var below (rivals.second.name hz called).1 sends sendsBack
    exact ⟨y, partners⟩

theorem renames (rivals : Rivals g a b h w scope e h' w' scope' e' there back) :
    (pairing g a b e e').Renames h w h' w' := by
  have flipStructs {t u : StructId} : (pairing g a b e e').structs t u →
      (pairing g a b e' e).structs u t := fun partners => pairing_flip (e := e) ▸ partners
  have flipVars {x y : VarId} : (pairing g a b e e').vars x y →
      (pairing g a b e' e).vars y x := fun partners => pairing_flip (e := e) ▸ partners
  refine ⟨⟨fun _ _ _ first second =>
      rivals.flip.structs_unique (flipStructs first) (flipStructs second),
        fun _ _ _ => rivals.structs_unique⟩,
    ⟨fun _ _ _ first second => rivals.flip.vars_unique (flipVars first) (flipVars second),
      fun _ _ _ => rivals.vars_unique⟩,
    rivals.closed, rivals.pairs_results, fun t => ?_, fun u => ?_, rivals.exists_partner_iff,
    fun y => ?_, ?_⟩
  · rw [rivals.first.struct]
    exact ⟨fun ⟨_, s, hs, eq, _⟩ => ⟨s, hs, eq⟩, fun ⟨s, hs, eq⟩ => ⟨_, s, hs, eq, rfl⟩⟩
  · rw [rivals.second.struct]
    exact ⟨fun ⟨_, s, hs, _, eq⟩ => ⟨s, hs, eq⟩, fun ⟨s, hs, eq⟩ => ⟨_, s, hs, rfl, eq⟩⟩
  · rw [← rivals.flip.exists_partner_iff]
    exact exists_congr fun _ => ⟨flipVars, fun partners => pairing_flip (e := e') ▸ partners⟩
  · intro x y partners
    obtain ⟨_, m, -, -, found, -⟩ := rivals.first.var
      ((rivals.exists_partner_iff x).1 ⟨y, partners⟩)
    obtain ⟨_, n, -, -, found', -⟩ := rivals.second.var
      ((rivals.flip.exists_partner_iff y).1 ⟨x, flipVars partners⟩)
    exact ⟨m, n, found, found'⟩

end Rivals

/-- A name of the operands denotes what it goes to, and nothing else. -/
theorem Universal.denotes_iff (universal : Universal g a b h w scope e) {x : VarId} {name : String}
    (hx : g.Operands a b (.var x)) (called : g.name? x = some name) {v : Value} :
    scope.Denotes h w name v ↔ v = e.names name := by
  rcases universal.entry hx called with present | ⟨absent, y, eq, found⟩
  · simp [Scope.Denotes, present, eq_comm]
  · constructor
    · rintro (present | ⟨-, z, rfl, below, found'⟩)
      · cases absent.symm.trans present
      · obtain ⟨_, name', -, -, found'', eq'⟩ := universal.var below
        cases found'.symm.trans found''
        exact eq'.symm
    · rintro rfl
      exact .inr ⟨absent, y, eq, eq ▸ (universal.name hx called).1, found⟩

namespace Graph

/-- Unifying two operands in either order, both times from the same graph and with an empty scope:
unless one of the runs reaches its limit, both find the operands incompatible, or the results are
the same up to the names of variables, and so is what the names of the operands denote. -/
theorem unify?_comm {g : Graph} {a b : Value} (ha : g.Plain a) (hb : g.Plain b) (limit : Nat) :
    ∃ out out' g₁ g₂, g.unify? limit a b (.common ∅) = some (out, g₁) ∧
      g.unify? limit b a (.common ∅) = some (out', g₂) ∧
      ((∀ l path, out ≠ .error (.tooDeep l path)) → (∀ l path, out' ≠ .error (.tooDeep l path)) →
        (∃ path l r path' l' r', out = .error (.mismatch path l r) ∧
          out' = .error (.mismatch path' l' r')) ∨
        ∃ w scope w' scope', ∃ p : Pairing, out = .ok (w, .common scope) ∧
          out' = .ok (w', .common scope') ∧ p.Renames g₁ w g₂ w' ∧
          ∀ x name, g.Operands a b (.var x) → g.name? x = some name →
            (∃ v v', scope.Denotes g₁ w name v ∧ scope'.Denotes g₂ w' name v') ∧
            ∀ v v', scope.Denotes g₁ w name v → scope'.Denotes g₂ w' name v' →
              p.Pairs g₁ g₂ v v') := by
  obtain ⟨⟨out, g₁⟩, ends, how⟩ := ha.exists_ends hb limit
  obtain ⟨⟨out', g₂⟩, ends', how'⟩ := hb.exists_ends ha limit
  refine ⟨out, out', g₁, g₂, ends, ends', fun within within' => ?_⟩
  cases how with
  | @fails c f st run =>
    cases f with
    | tooDeep l path => exact absurd rfl (within l path)
    | mismatch path l r =>
      cases how' with
      | @fails c' f' st' run' =>
        cases f' with
        | tooDeep l path => exact absurd rfl (within' l path)
        | mismatch path' l' r' => exact .inl ⟨path, l, r, path', l', r', rfl, rfl⟩
      | succeeds stages =>
        obtain ⟨e, universal⟩ := stages.exists_universal
        cases CopiedOperands.isFatal_of_fails universal.right universal.left run
  | succeeds stages =>
    obtain ⟨e, universal⟩ := stages.exists_universal
    cases how' with
    | @fails c' f' st' run' =>
      cases f' with
      | tooDeep l path => exact absurd rfl (within' l path)
      | mismatch path' l' r' =>
        cases CopiedOperands.isFatal_of_fails universal.right universal.left run'
    | succeeds stages' =>
      obtain ⟨e', universal'⟩ := stages'.exists_universal
      obtain ⟨there, back, rivals⟩ := universal.exists_rivals universal'.swap
      refine .inr ⟨_, _, _, _, Rivals.pairing g a b e e', rfl, rfl, rivals.renames,
        fun x name hx called => ⟨⟨e.names name, e'.names name, ?_, ?_⟩, fun v v' hv hv' => ?_⟩⟩
      · exact (rivals.first.denotes_iff hx called).2 rfl
      · exact (rivals.second.denotes_iff hx called).2 rfl
      · cases (rivals.first.denotes_iff hx called).1 hv
        cases (rivals.second.denotes_iff hx called).1 hv'
        exact rivals.pairs_names hx called

/-- The two orders on the sample graph: both succeed, so the results correspond. -/
theorem records_comm : ∃ (w w' : Value) (scope scope' : Scope) (g₁ g₂ : Graph) (p : Pairing),
    records.unify? 50 (.struct ⟨0⟩) (.struct ⟨1⟩) (.common ∅) =
        some (.ok (w, .common scope), g₁) ∧
      records.unify? 50 (.struct ⟨1⟩) (.struct ⟨0⟩) (.common ∅) =
        some (.ok (w', .common scope'), g₂) ∧
      p.Renames g₁ w g₂ w' := by
  obtain ⟨out, out', g₁, g₂, first, second, related⟩ :=
    unify?_comm (plain_records (.inl rfl)) (plain_records (.inr rfl)) 50
  have ok : ∃ (result : Value × Scoping) (h : Graph), records.unify? 50 (.struct ⟨0⟩)
      (.struct ⟨1⟩) (.common ∅) = some (.ok result, h) := ⟨_, _, rfl⟩
  have ok' : ∃ (result : Value × Scoping) (h : Graph), records.unify? 50 (.struct ⟨1⟩)
      (.struct ⟨0⟩) (.common ∅) = some (.ok result, h) := ⟨_, _, rfl⟩
  obtain ⟨result, h, ok⟩ := ok
  obtain ⟨result', h', ok'⟩ := ok'
  cases first.symm.trans ok
  cases second.symm.trans ok'
  rcases related (fun _ _ eq => by cases eq) (fun _ _ eq => by cases eq) with
    ⟨_, _, _, _, _, _, failed, -⟩ | ⟨w, scope, w', scope', p, eq, eq', renames, -⟩
  · cases failed
  · exact ⟨w, w', scope, scope', g₁, g₂, p, eq ▸ first, eq' ▸ second, renames⟩

end Graph

end FeatureLogic
