import FeatureLogic.Proofs.Copy.Doubling
import FeatureLogic.Proofs.Graph.Isomorphism
import FeatureLogic.Proofs.Graph.Part

/-!
# A copy has the shape of its original

The originals and their copies are a one-to-one pairing that keeps features. It takes all nodes that
paths lead to from a value to all nodes that the copying adds. So the copy is isomorphic to the
value and hangs together in the same places, and another value that is copied with the same memory
shares with the first copy what the two values share.
-/

namespace FeatureLogic

open FeatureLogic.Graph

/-- The nodes of `g` that stand for themselves, with their copies. -/
def Images.pairing (images : Images) (g : Graph) : Pairing where
  structs s t := g.Contains (.struct s) ∧ images.structs.lookup s = some t
  vars x y := g.deref? (.var x) = some (.var x) ∧ images.vars.lookup x = some (.var y)

namespace Graph

open Copying

def Attains (g : Graph) (v u : Value) : Prop := ∃ path z, g.deref? u = some z ∧ g.Leads v path z

/-- Are the nodes in `N` paired one-to-one with the nodes that `h` has and `g` has not, so that
partners have partners for features, variables have their names, and the new ones are free? -/
structure Duplicates (g : Graph) (N : Value → Prop) (h : Graph) (r : Pairing) : Prop where
  part : g.PartOf h
  closed : r.Closed g h
  structs : Relator.BiUnique r.structs
  vars : Relator.BiUnique r.vars
  sameName : ∀ {x y}, r.vars x y → SameName g h x y
  original : ∀ {u}, u.isNode → ((∃ c, r.Relates u c) ↔ N u)
  copy : ∀ {c}, c.isNode → ((∃ u, r.Relates u c) ↔ (g.added h).Has c)
  free : ∀ {y}, (g.added h).Has (.var y) → ∃ name, h.var? y = some { name }

/-- Is `v'` a copy of `v`, of partners from the pairing? No node from before lies below it, and two
paths meet in it if and only if they meet in the value. -/
structure FreshCopy (g : Graph) (v : Value) (h : Graph) (v' : Value) (r : Pairing) : Prop where
  pairs : r.Pairs g h v v'
  isomorphic : h.isomorphic? v' v = some true
  fresh : ∀ {u}, h.Below v' u → u.isNode → ¬ g.Contains u
  meet : ∀ {p q u z c c'}, g.Leads v p u → g.Leads v q z → h.Leads v' p c → h.Leads v' q c' →
    (c = c' ↔ u = z)

/-- Has every copy the copies of its original's features, all of which are in `D`? -/
structure Finished (g : Graph) (D : Value → Prop) (h : Graph) (m : Copying) : Prop where
  domain : g.Domain D
  doubles : g.Doubles D h m
  complete : ∀ t, (g.added h).Has (.struct t) → Complete g D (h, m) t

structure Doubled (g : Graph) (D : Value → Prop) (h : Graph) (m : Copying) : Prop
    extends g.Finished D h m where
  imaged : ∀ {u}, D u → g.deref? u = some u → Imaged m u

variable {g h k : Graph} {D D' : Value → Prop} {N : Value → Prop} {m l : Copying}
  {v v' w u u' c c' : Value} {r : Pairing}

theorem contains_of_reads (inside : g.Contains w) (reads : g.deref? u = some w) :
    g.Contains u := by
  cases u with
  | atom a => trivial
  | struct s =>
    cases reads
    exact inside
  | var x => exact contains_of_deref? reads

theorem WellFormed.contains_of_leads (wf : g.WellFormed) {path : List String}
    (inside : g.Contains v) (leads : g.Leads v path w) : g.Contains w := by
  induction path generalizing v with
  | nil =>
    obtain ⟨u, reads, insideU⟩ := wf.exists_deref inside
    cases reads.symm.trans (leads_nil.1 leads)
    exact insideU
  | cons name path ih =>
    obtain ⟨s, m, child, -, found, holds, rest⟩ := leads_cons.1 leads
    obtain ⟨node, present, rfl⟩ := Option.map_eq_some_iff.1 found
    exact ih (wf.feature present holds) rest

theorem WellFormed.domain_attains (wf : g.WellFormed) (inside : g.Contains v) :
    g.Domain (g.Attains v) where
  contains := by
    rintro u ⟨path, z, reads, leads⟩
    exact contains_of_reads (wf.contains_of_leads inside leads) reads
  feature := by
    rintro s m name u ⟨path, z, reads, leads⟩ found holds
    cases reads
    obtain ⟨node, present, rfl⟩ := Option.map_eq_some_iff.1 found
    obtain ⟨z, reads', -⟩ := wf.exists_deref (wf.feature present holds)
    have step : g.Leads (.struct s) [name] z :=
      leads_cons.2 ⟨s, _, u, rfl, found, holds, leads_nil.2 reads'⟩
    exact ⟨path ++ [name], z, reads', wf.leads_append leads step⟩
  deref := by
    rintro u w ⟨path, z, reads, leads⟩ reads'
    cases reads.symm.trans reads'
    exact ⟨path, _, wf.deref?_deref? reads, leads⟩

theorem WellFormed.attains_self (wf : g.WellFormed) (inside : g.Contains v) : g.Attains v v := by
  obtain ⟨z, reads, -⟩ := wf.exists_deref inside
  exact ⟨[], z, reads, leads_nil.2 reads⟩

theorem WellFormed.attains_iff (wf : g.WellFormed) :
    g.Attains v u ∧ g.deref? u = some u ↔ ∃ path, g.Leads v path u := by
  constructor
  · rintro ⟨⟨path, z, reads, leads⟩, self⟩
    cases reads.symm.trans self
    exact ⟨path, leads⟩
  · rintro ⟨path, leads⟩
    have self := wf.deref?_of_leads leads
    exact ⟨⟨path, u, self, leads⟩, self⟩

theorem Domain.or (first : g.Domain D) (second : g.Domain D') :
    g.Domain fun u => D u ∨ D' u where
  contains hu := hu.elim first.contains second.contains
  feature hs found holds :=
    hs.imp (fun hs => first.feature hs found holds) fun hs => second.feature hs found holds
  deref hu reads := hu.imp (fun hu => first.deref hu reads) fun hu => second.deref hu reads

namespace Finished

theorem exists_features (finished : g.Finished D h m) {s t : StructId} (hs : g.Contains (.struct s))
    (found : m.images.structs.lookup s = some t) : ∃ features, D (.struct s) ∧
      g.features? s = some features ∧ h.features? t = some (features.map m.images.apply) ∧
      ∀ name u, features.get? name = some u → D u ∧ Imaged m u := by
  obtain ⟨s', features, hs', found', features', copied, imaged⟩ :=
    finished.complete t (finished.doubles.confines.image found)
  cases finished.doubles.injective hs (finished.domain.contains hs') found found'
  exact ⟨features, hs', features', copied,
    fun name u holds => ⟨finished.domain.feature hs' features' holds, imaged name u holds⟩⟩

theorem imaged_of_leads (finished : g.Finished D h m) (hv : D v) (imaged : Imaged m v)
    {path : List String} (leads : g.Leads v path w) : Imaged m w := by
  induction path generalizing v with
  | nil => exact (finished.doubles.apply_eq imaged (leads_nil.1 leads)).1
  | cons name path ih =>
    obtain ⟨s, features, u, reads, found, holds, rest⟩ := leads_cons.1 leads
    obtain ⟨t, copied⟩ := (finished.doubles.apply_eq imaged reads).1
    have inside := finished.domain.contains (finished.domain.deref hv reads)
    obtain ⟨features', -, found', -, each⟩ := finished.exists_features inside copied
    cases found.symm.trans found'
    exact ih (each name u holds).1 (each name u holds).2 rest

end Finished

namespace Doubled

theorem relates (doubled : g.Doubled D h m) (hu : D u) (imaged : Imaged m u)
    (self : g.deref? u = some u) : (m.images.pairing g).Relates u (m.images.apply u) := by
  cases u with
  | atom a => exact rfl
  | struct s =>
    obtain ⟨t, found⟩ := imaged
    simpa [Images.apply, found] using ⟨doubled.domain.contains hu, found⟩
  | var x =>
    obtain ⟨v, found⟩ := imaged
    obtain ⟨y, rfl, -⟩ := doubled.doubles.root self found
    simpa [Images.apply, found] using ⟨self, found⟩

theorem pairs (doubled : g.Doubled D h m) (wf : g.WellFormed) (hu : D u) (imaged : Imaged m u) :
    (m.images.pairing g).Pairs g h u (m.images.apply u) := by
  obtain ⟨w, reads, -⟩ := wf.exists_deref (doubled.domain.contains hu)
  obtain ⟨imaged', same⟩ := doubled.doubles.apply_eq imaged reads
  have related := doubled.relates (doubled.domain.deref hu reads) imaged' (wf.deref?_deref? reads)
  refine ⟨w, m.images.apply w, reads, ?_, related⟩
  rw [← same]
  have has := doubled.doubles.has_apply imaged'
  generalize m.images.apply w = c at has
  cases c with
  | atom a => rfl
  | struct t => rfl
  | var y =>
    obtain ⟨name, found⟩ := doubled.doubles.confines.free has
    exact deref?_of_free found

theorem closed (doubled : g.Doubled D h m) (wf : g.WellFormed) :
    (m.images.pairing g).Closed g h := by
  rintro s t ⟨inside, found⟩
  obtain ⟨features, -, found', copied, each⟩ := doubled.exists_features inside found
  refine ⟨features, _, found', copied, NameMap.keys_eq_of_mem_iff fun name => ?_,
    fun {name u c} holds holds' => ?_⟩
  · simp [NameMap.mem_keys_iff]
  · rw [NameMap.get?_map, holds] at holds'
    cases holds'
    exact doubled.pairs wf (each name u holds).1 (each name u holds).2

theorem duplicates (doubled : g.Doubled D h m) (wf : g.WellFormed) :
    g.Duplicates (fun u => D u ∧ g.deref? u = some u) h (m.images.pairing g) := by
  have doubles := doubled.doubles
  have confines := doubles.confines
  constructor
  case part => exact ⟨confines.wellFormed, confines.structs, confines.vars, confines.frames⟩
  case closed => exact doubled.closed wf
  case structs =>
    refine ⟨fun _ _ _ first second => doubles.injective first.1 second.1 first.2 second.2, ?_⟩
    exact fun _ _ _ first second => Option.some.inj (first.2.symm.trans second.2)
  case vars =>
    refine ⟨fun _ _ _ first second => ?_, fun _ _ _ first second => ?_⟩
    · exact doubles.injectiveVar first.1 second.1 first.2 second.2
    · cases first.2.symm.trans second.2
      rfl
  case sameName =>
    rintro x y ⟨self, found⟩
    obtain ⟨_, ⟨⟩, called⟩ := doubles.root self found
    obtain ⟨name, present⟩ := wf.free_of_deref? self
    have named : g.name? x = some name := by simp [name?, present]
    exact ⟨name, named, called.trans named⟩
  case original =>
    intro u node
    refine ⟨?_, fun ⟨hu, self⟩ => ⟨_, doubled.relates hu (doubled.imaged hu self) self⟩⟩
    rintro ⟨c, related⟩
    cases u <;> cases c <;> first | exact related.elim | cases node
    · obtain ⟨inside, found⟩ := related
      obtain ⟨-, hs, -⟩ := doubled.exists_features inside found
      exact ⟨hs, rfl⟩
    · obtain ⟨self, found⟩ := related
      rcases doubles.stands found with has | ⟨hx, -⟩
      · exact absurd has (not_added_of_contains (contains_of_deref? self) rfl)
      · exact ⟨hx, self⟩
  case copy =>
    intro c node
    constructor
    · rintro ⟨u, related⟩
      cases u <;> cases c <;> first | exact related.elim | cases node
      · exact confines.image related.2
      · exact confines.imageVar related.2
    · intro has
      cases c with
      | atom a => cases node
      | struct t =>
        obtain ⟨s, hs, found⟩ := doubles.origin has
        exact ⟨.struct s, doubled.domain.contains hs, found⟩
      | var y =>
        obtain ⟨x, -, self, found⟩ := doubles.originVar has
        exact ⟨.var x, self, found⟩
  case free => exact confines.free

theorem exists_copy (doubled : g.Doubled D h m) (wf : g.WellFormed) (inside : g.Contains w) :
    ∃ k l, copyPlain w (h, m) = some (l.images.apply w, k, l) ∧ Imaged l w ∧
      Extends (h, m) (k, l) ∧ g.Doubled (fun u => D u ∨ g.Attains w u) k l ∧
      h.varCount ≤ k.varCount ∧
      ∀ t : StructId, t.index < h.structCount → k.features? t = h.features? t := by
  have domain := doubled.domain.or (wf.domain_attains inside)
  have attained := wf.attains_self inside
  have confines := doubled.doubles.confines
  obtain ⟨⟨k, l⟩, walked, copied, imaged⟩ := copyPlain_doubles (W := (h, m)) wf domain
    (.inr attained) (doubled.doubles.mono .inl)
  obtain ⟨_, _, walked', -, advances⟩ :=
    copyPlain_stays (W := (h, m)) (inside.mono confines.structs confines.vars) confines
  cases walked.symm.trans walked'
  have finished : g.Finished (fun u => D u ∨ g.Attains w u) k l := by
    refine ⟨domain, copied.kept, fun t has => ?_⟩
    by_cases old : t.index < h.structCount
    · obtain ⟨s, features, hs, complete⟩ :=
        (doubled.complete t ⟨has.1, old⟩).mono copied.more (copied.unchanged t old)
      exact ⟨s, features, .inl hs, complete⟩
    · exact copied.complete t (Nat.le_of_not_lt old) has.2
  refine ⟨k, l, walked, imaged, copied.more, ⟨finished, fun {u} hu self => ?_⟩, advances.vars,
    copied.unchanged⟩
  rcases hu with before | attained'
  · exact copied.more.imaged (doubled.imaged before self)
  · obtain ⟨path, leads⟩ := wf.attains_iff.1 ⟨attained', self⟩
    exact finished.imaged_of_leads (.inr attained) imaged leads

theorem partOf (doubled : g.Doubled D h m) (doubled' : g.Doubled D' k l)
    (more : Extends (h, m) (k, l)) (vars : h.varCount ≤ k.varCount)
    (unchanged : ∀ t : StructId, t.index < h.structCount → k.features? t = h.features? t) :
    h.PartOf k := by
  have confines := doubled.doubles.confines
  have confines' := doubled'.doubles.confines
  refine ⟨confines'.wellFormed, more.structCount, vars, fun {t} old => ?_, fun {y} old => ?_⟩
  · obtain ⟨features, found⟩ := exists_features_of_contains (g := h) (s := t) old
    have found' : k.features? t = some features := (unchanged t old).trans found
    rw [confines'.wellFormed.struct?_of_features? found']
    exact (confines.wellFormed.struct?_of_features? found).symm
  · by_cases first : y.index < g.varCount
    · rw [confines'.frames.var first]
      exact (confines.frames.var first).symm
    · -- a new variable is free, and has the name of its original
      obtain ⟨x, -, self, found⟩ := doubled.doubles.originVar ⟨Nat.le_of_not_lt first, old⟩
      obtain ⟨_, ⟨⟩, called⟩ := doubled.doubles.root self found
      obtain ⟨_, ⟨⟩, called'⟩ := doubled'.doubles.root self (more.vars found)
      obtain ⟨name, present⟩ := confines.free ⟨Nat.le_of_not_lt first, old⟩
      obtain ⟨name', present'⟩ := confines'.free (confines'.imageVar (more.vars found))
      have same : k.name? y = h.name? y := called'.trans called.symm
      rw [name?, name?, present, present'] at same
      cases same
      exact present'.trans present.symm

end Doubled

namespace Duplicates

theorem reads (duplicates : g.Duplicates N h r) (reads : g.deref? u = some w) :
    h.deref? u = some w :=
  duplicates.part.frames.deref?_eq_some reads

theorem eq_iff (duplicates : g.Duplicates N h r) (related : r.Relates u c)
    (related' : r.Relates u' c') : c = c' ↔ u = u' := by
  cases u <;> cases c <;> first | exact related.elim | skip
  all_goals cases u' <;> cases c' <;> first | exact related'.elim | skip
  case atom.atom.atom.atom =>
    cases related
    cases related'
    exact Iff.rfl
  case struct.struct.struct.struct =>
    simpa using (Relator.rel_eq duplicates.structs related related').symm
  case var.var.var.var => simpa using (Relator.rel_eq duplicates.vars related related').symm
  all_goals simp

theorem pairs_within (duplicates : g.Duplicates N h r) (pairs : r.Pairs g h u c) :
    Pairing.Pairs ⟨fun t s => r.structs s t, SameName h h⟩ h h c u := by
  obtain ⟨w, c', readsU, readsC, related⟩ := pairs
  refine ⟨c', w, readsC, duplicates.reads readsU, ?_⟩
  refine Pairing.Relates.mono (r := r.flip) id (fun {y x} partners => ?_) related.flip
  obtain ⟨name, called, called'⟩ := duplicates.sameName partners
  obtain ⟨node, found, rfl⟩ := Option.map_eq_some_iff.1 called
  exact ⟨node.name, called',
    (duplicates.part.name?_eq (contains_of_var? found)).trans called⟩

theorem isomorphic (duplicates : g.Duplicates N h r) (pairs : r.Pairs g h v v') :
    h.Isomorphic v' h v := by
  refine ⟨fun t s => r.structs s t, duplicates.structs.flip, fun {t s} partners => ?_,
    duplicates.pairs_within pairs⟩
  obtain ⟨features, copied, found, found', keys, each⟩ := duplicates.closed partners
  have inside := contains_of_features? found
  exact ⟨copied, features, found', (duplicates.part.features?_eq inside).trans found, keys.symm,
    fun holds' holds => duplicates.pairs_within (each holds holds')⟩

theorem relates_of_leads (duplicates : g.Duplicates N h r) (pairs : r.Pairs g h v v')
    {path : List String} (leads : g.Leads v path u) (leads' : h.Leads v' path c) :
    r.Relates u c := by
  obtain ⟨c', leads'', related⟩ := Pairing.Closed.exists_leads duplicates.closed pairs leads
  cases leads'.unique leads''
  exact related

end Duplicates

theorem Confines.has_of_below (confines : g.Confines h m) (has : (g.added h).Has v)
    (below : h.Below v u) : (g.added h).Has u := by
  induction below with
  | refl => exact has
  | feature _ found holds ih => exact confines.feature ih found holds

theorem Doubled.freshCopy (doubled : g.Doubled D h m) (wf : g.WellFormed) (hv : D v)
    (imaged : Imaged m v) : g.FreshCopy v h (m.images.apply v) (m.images.pairing g) := by
  have duplicates := doubled.duplicates wf
  have pairs := doubled.pairs wf hv imaged
  have has := doubled.doubles.has_apply imaged
  have inside := duplicates.part.contains (doubled.domain.contains hv)
  refine ⟨pairs, ?_, fun {u} below node old => ?_, fun leads leads' copied copied' => ?_⟩
  · exact (duplicates.part.wellFormed.isomorphic?_eq_true_iff (contains_of_added has) inside).2
      (duplicates.isomorphic pairs)
  · exact not_added_of_contains old node (doubled.doubles.confines.has_of_below has below)
  · exact duplicates.eq_iff (duplicates.relates_of_leads pairs leads copied)
      (duplicates.relates_of_leads pairs leads' copied')

/-- A copy from the second copying is one from the first if and only if its original was copied
then. -/
theorem Duplicates.contains_iff {N' : Value → Prop} {r' : Pairing}
    (duplicates : g.Duplicates N h r) (duplicates' : g.Duplicates N' k r')
    (more : ∀ u c, r.Relates u c → r'.Relates u c) (related : r'.Relates u c) (node : c.isNode) :
    h.Contains c ↔ N u := by
  have original : u.isNode := by
    cases u <;> cases c <;> first | exact related.elim | exact node
  have new : (g.added k).Has c := (duplicates'.copy node).1 ⟨u, related⟩
  rw [← duplicates.original original]
  constructor
  · intro old
    have has : (g.added h).Has c := by
      cases c with
      | atom a => trivial
      | struct t => exact ⟨new.1, old⟩
      | var y => exact ⟨new.1, old⟩
    obtain ⟨u', related'⟩ := (duplicates.copy node).2 has
    obtain rfl := (duplicates'.eq_iff related (more u' c related')).1 rfl
    exact ⟨c, related'⟩
  · rintro ⟨c', related'⟩
    obtain rfl := (duplicates'.eq_iff related (more u c' related')).2 rfl
    exact contains_of_added ((duplicates.copy node).1 ⟨u, related'⟩)

theorem Doubled.relates_mono (more : Extends (h, m) (k, l))
    (related : (m.images.pairing g).Relates u c) : (l.images.pairing g).Relates u c :=
  Pairing.Relates.mono (r := m.images.pairing g)
    (fun ⟨inside, found⟩ => ⟨inside, more.structs found⟩)
    (fun ⟨self, found⟩ => ⟨self, more.vars found⟩) related

theorem Duplicates.congr {N' : Value → Prop} (duplicates : g.Duplicates N h r)
    (same : ∀ u, N u ↔ N' u) : g.Duplicates N' h r :=
  { duplicates with original := fun node => (duplicates.original node).trans (same _) }

theorem doubled_start (wf : g.WellFormed) : g.Doubled (fun _ => False) g {} where
  domain := ⟨fun no => no.elim, fun no => no.elim, fun no => no.elim⟩
  doubles := doubles_start wf _
  complete _ has := absurd has (not_added_self rfl)
  imaged no := no.elim

/-- Outside of any scope and with nothing remembered, the copying of a value ends. What paths lead
to from the value is paired one-to-one with the nodes that the copying adds, nothing else changes,
and the copy is isomorphic to the value. Another value that is copied after that with what was
remembered has a copy of the same kind, and shares with the first copy what the values share. -/
theorem WellFormed.copyPlain_duplicates (wf : g.WellFormed) (inside : g.Contains v) :
    ∃ v' h m r, copyPlain v (g, {}) = some (v', h, m) ∧
      g.Duplicates (fun u => ∃ path, g.Leads v path u) h r ∧ g.FreshCopy v h v' r ∧
      ∀ w, g.Contains w → ∃ w' k l r', copyPlain w (h, m) = some (w', k, l) ∧ h.PartOf k ∧
        g.Duplicates (fun u => (∃ path, g.Leads v path u) ∨ ∃ path, g.Leads w path u) k r' ∧
        g.FreshCopy w k w' r' ∧ (∀ u c, r.Relates u c → r'.Relates u c) ∧
        (∀ p q u z c c', g.Leads v p u → g.Leads w q z → h.Leads v' p c → k.Leads w' q c' →
          (c = c' ↔ u = z)) ∧
        ∀ q z c, g.Leads w q z → k.Leads w' q c → c.isNode →
          (h.Contains c ↔ ∃ path, g.Leads v path z) := by
  obtain ⟨h, m, walked, imaged, -, first, -, -⟩ := (doubled_start wf).exists_copy wf inside
  have attained : False ∨ g.Attains v v := .inr (wf.attains_self inside)
  have duplicates : g.Duplicates (fun u => ∃ path, g.Leads v path u) h (m.images.pairing g) :=
    (first.duplicates wf).congr fun u => by rw [false_or]; exact wf.attains_iff
  have copy := first.freshCopy wf attained imaged
  refine ⟨_, h, m, _, walked, duplicates, copy, fun w insideW => ?_⟩
  obtain ⟨k, l, walked', imaged', more, second, vars, unchanged⟩ := first.exists_copy wf insideW
  have duplicates' : g.Duplicates (fun u => (∃ path, g.Leads v path u) ∨
      ∃ path, g.Leads w path u) k (l.images.pairing g) :=
    (second.duplicates wf).congr fun u => by
      rw [false_or, or_and_right, wf.attains_iff, wf.attains_iff]
  have copy' := second.freshCopy wf (.inr (wf.attains_self insideW)) imaged'
  have grown (u c : Value) (related : (m.images.pairing g).Relates u c) :
      (l.images.pairing g).Relates u c := Doubled.relates_mono more related
  refine ⟨_, k, l, _, walked', first.partOf second more vars unchanged, duplicates', copy', grown,
    fun p q u z c c' leads leads' copied copied' => ?_, fun q z c leads copied node => ?_⟩
  · exact duplicates'.eq_iff (grown u c (duplicates.relates_of_leads copy.pairs leads copied))
      (duplicates'.relates_of_leads copy'.pairs leads' copied')
  · exact duplicates.contains_iff duplicates' grown
      (duplicates'.relates_of_leads copy'.pairs leads copied) node

/-- A structure that leads back to itself through a bound variable, with an alias and the variable
that it is an alias of, and another structure that leads to some of this. -/
def threaded : Graph where
  structs := #[{ features := .ofList [("a", .var ⟨0⟩), ("b", .var ⟨1⟩), ("c", .var ⟨2⟩)] },
    { features := .ofList [("up", .struct ⟨0⟩)] },
    { features := .ofList [("down", .struct ⟨1⟩), ("left", .var ⟨3⟩), ("right", .var ⟨0⟩)] }]
  vars := #[{ name := "x", binding := .link ⟨1⟩ }, { name := "y" },
    { name := "z", binding := .bound (.struct ⟨1⟩) }, { name := "y" }]

theorem wellFormed_threaded : threaded.WellFormed :=
  wellFormed_of_admits (by decide +kernel) (by decide +kernel) (by decide +kernel)

/-- The first structure is copied, and then the last one with the same memory. -/
theorem threaded_duplicates : threaded.WellFormed ∧ threaded.Contains (.struct ⟨0⟩) ∧
    threaded.Contains (.struct ⟨2⟩) ∧
    ∃ v' h m r, copyPlain (.struct ⟨0⟩) (threaded, {}) = some (v', h, m) ∧
      threaded.Duplicates (fun u => ∃ path, threaded.Leads (.struct ⟨0⟩) path u) h r ∧
      threaded.FreshCopy (.struct ⟨0⟩) h v' r ∧
      ∃ w' k l r', copyPlain (.struct ⟨2⟩) (h, m) = some (w', k, l) ∧ h.PartOf k ∧
        threaded.FreshCopy (.struct ⟨2⟩) k w' r' := by
  have inside : threaded.Contains (.struct ⟨0⟩) := by decide
  have inside' : threaded.Contains (.struct ⟨2⟩) := by decide
  obtain ⟨v', h, m, r, copied, duplicates, copy, next⟩ :=
    wellFormed_threaded.copyPlain_duplicates inside
  obtain ⟨w', k, l, r', copied', part, -, copy', -⟩ := next _ inside'
  exact ⟨wellFormed_threaded, inside, inside', v', h, m, r, copied, duplicates, copy,
    w', k, l, r', copied', part, copy'⟩

end Graph

end FeatureLogic
