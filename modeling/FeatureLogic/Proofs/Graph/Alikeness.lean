import FeatureLogic.Proofs.Graph.Matching
import FeatureLogic.Proofs.Join.Entirety

/-!
# Values that look alike

Looking alike and being isomorphic are equivalences on the values of a well-formed graph, and every
path leads from two values that look alike to two such values. So each value has a place, made of
the values that look like it; places have features in their turn.
-/

namespace FeatureLogic

namespace Pairing

variable {r r' : Pairing} {g h k : Graph} {v w : Value}

/-- A path that leads from a value leads from its partner, to the partner of its end. -/
theorem Closed.exists_leads (closed : r.Closed g h) {path : List String} {v' : Value}
    (pairs : r.Pairs g h v w) (leads : g.Leads v path v') :
    ∃ w', h.Leads w path w' ∧ r.Relates v' w' := by
  induction path generalizing v w with
  | nil =>
    obtain ⟨u, w', reads, reads', related⟩ := pairs
    cases reads.symm.trans (Graph.leads_nil.1 leads)
    exact ⟨w', Graph.leads_nil.2 reads', related⟩
  | cons name path ih =>
    obtain ⟨s, m, child, reads, found, holds, rest⟩ := Graph.leads_cons.1 leads
    obtain ⟨u, w', reads₁, reads', related⟩ := pairs
    cases reads.symm.trans reads₁
    cases w' with
    | atom a => exact related.elim
    | var x => exact related.elim
    | struct t =>
      obtain ⟨m', n, found₁, found', keys, each⟩ := closed related
      cases found.symm.trans found₁
      have listed : name ∈ n.keys := keys ▸ (m.mem_keys_iff).2 ⟨child, holds⟩
      obtain ⟨child', holds'⟩ := n.mem_keys_iff.1 listed
      obtain ⟨w', leads', related'⟩ := ih (each holds holds') rest
      exact ⟨w', Graph.leads_cons.2 ⟨t, n, child', reads', found', holds', leads'⟩, related'⟩

def comp (r r' : Pairing) : Pairing where
  structs s u := ∃ t, r.structs s t ∧ r'.structs t u
  vars x z := ∃ y, r.vars x y ∧ r'.vars y z

theorem Relates.comp {u : Value} (first : r.Relates v w) (second : r'.Relates w u) :
    (r.comp r').Relates v u := by
  cases v <;> cases w <;> first | exact first.elim | skip
  · cases u <;> first | exact second.elim | skip
    exact Eq.trans first second
  · cases u <;> first | exact second.elim | skip
    exact ⟨_, first, second⟩
  · cases u <;> first | exact second.elim | skip
    exact ⟨_, first, second⟩

theorem Pairs.comp {u : Value} (first : r.Pairs g h v w) (second : r'.Pairs h k w u) :
    (r.comp r').Pairs g k v u := by
  obtain ⟨v', w', hv, hw, related⟩ := first
  obtain ⟨w'', u', hw', hu, related'⟩ := second
  cases hw.symm.trans hw'
  exact ⟨v', u', hv, hu, related.comp related'⟩

theorem Closed.comp (first : r.Closed g h) (second : r'.Closed h k) :
    (r.comp r').Closed g k := by
  rintro s u ⟨t, partners, partners'⟩
  obtain ⟨m, n, hm, hn, keys, each⟩ := first partners
  obtain ⟨n', l, hn', hl, keys', each'⟩ := second partners'
  cases hn.symm.trans hn'
  refine ⟨m, l, hm, hl, keys.trans keys', fun {name v w} hv hw => ?_⟩
  have listed : name ∈ n.keys := keys ▸ m.mem_keys_iff.2 ⟨v, hv⟩
  obtain ⟨u', hu⟩ := n.mem_keys_iff.1 listed
  exact (each hv hu).comp (each' hu hw)

end Pairing

namespace Graph

variable {g h k : Graph} {v w : Value}

theorem SameName.trans {x y z : VarId} (first : g.SameName h x y) (second : h.SameName k y z) :
    g.SameName k x z := by
  obtain ⟨name, hx, hy⟩ := first
  obtain ⟨name', hy', hz⟩ := second
  cases hy.symm.trans hy'
  exact ⟨name, hx, hz⟩

theorem WellFormed.isomorphic_refl (wf : g.WellFormed) (inside : g.Contains v) :
    g.Isomorphic v g v := by
  have pairs {u : Value} (inside : g.Contains u) :
      Pairing.Pairs ⟨fun s t => s = t ∧ g.Contains (.struct s), SameName g g⟩ g g u u := by
    obtain ⟨w, reads, inside⟩ := wf.exists_deref inside
    refine ⟨w, w, reads, reads, ?_⟩
    cases w with
    | atom a => exact rfl
    | struct s => exact ⟨rfl, inside⟩
    | var x =>
      obtain ⟨node, found⟩ := exists_var_of_contains inside
      exact ⟨node.name, by simp [name?, found], by simp [name?, found]⟩
  refine ⟨_, Relator.biUnique_eq.mono And.left, ?_, pairs inside⟩
  rintro s t ⟨rfl, inside⟩
  obtain ⟨node, found⟩ := exists_struct_of_contains inside
  have features : g.features? s = some node.features := by simp [features?, found]
  refine ⟨_, _, features, features, rfl, fun {name u w} hu hw => ?_⟩
  cases hu.symm.trans hw
  exact pairs (wf.feature found hu)

theorem WellFormed.alike_refl (wf : g.WellFormed) (inside : g.Contains v) : g.Alike v g v :=
  (wf.isomorphic_refl inside).alike

theorem closed_comp_byName {structs structs' : StructId → StructId → Prop} {u : Value}
    (closed : Pairing.Closed ⟨structs, SameName g h⟩ g h)
    (closed' : Pairing.Closed ⟨structs', SameName h k⟩ h k)
    (pairs : Pairing.Pairs ⟨structs, SameName g h⟩ g h v w)
    (pairs' : Pairing.Pairs ⟨structs', SameName h k⟩ h k w u) :
    Pairing.Closed ⟨Relation.Comp structs structs', SameName g k⟩ g k ∧
      Pairing.Pairs ⟨Relation.Comp structs structs', SameName g k⟩ g k v u := by
  let r := Pairing.comp ⟨structs, SameName g h⟩ ⟨structs', SameName h k⟩
  have names {x z : VarId} (named : ∃ y, SameName g h x y ∧ SameName h k y z) :
      SameName g k x z := by
    obtain ⟨y, hx, hz⟩ := named
    exact hx.trans hz
  have more {v u : Value} (pairs : r.Pairs g k v u) :
      Pairing.Pairs ⟨r.structs, SameName g k⟩ g k v u := by
    obtain ⟨v', u', hv, hu, related⟩ := pairs
    exact ⟨v', u', hv, hu, Pairing.Relates.mono (r := r) id names related⟩
  refine ⟨?_, more (pairs.comp pairs')⟩
  intro s t partners
  obtain ⟨m, n, hm, hn, keys, each⟩ := closed.comp closed' partners
  exact ⟨m, n, hm, hn, keys, fun hv hw => more (each hv hw)⟩

theorem Isomorphic.trans {u : Value} (first : g.Isomorphic v h w) (second : h.Isomorphic w k u) :
    g.Isomorphic v k u := by
  obtain ⟨structs, oneToOne, closed, pairs⟩ := first
  obtain ⟨structs', oneToOne', closed', pairs'⟩ := second
  exact ⟨_, oneToOne.comp oneToOne', closed_comp_byName closed closed' pairs pairs'⟩

namespace Alike

theorem trans {u : Value} (first : g.Alike v h w) (second : h.Alike w k u) : g.Alike v k u := by
  obtain ⟨structs, closed, pairs⟩ := first
  obtain ⟨structs', closed', pairs'⟩ := second
  exact ⟨_, closed_comp_byName closed closed' pairs pairs'⟩

theorem exists_leads (wf : g.WellFormed) (wf' : h.WellFormed) (alike : g.Alike v h w)
    {path : List String} {v' : Value} (leads : g.Leads v path v') :
    ∃ w', h.Leads w path w' ∧ g.Alike v' h w' := by
  obtain ⟨structs, closed, pairs⟩ := alike
  obtain ⟨w', leads', related⟩ := closed.exists_leads pairs leads
  exact ⟨w', leads', structs, closed, v', w', wf.deref?_of_leads leads,
    wf'.deref?_of_leads leads', related⟩

theorem relates (alike : g.Alike v h w) (left : g.deref? v = some v)
    (right : h.deref? w = some w) :
    Pairing.Relates ⟨fun _ _ => True, SameName g h⟩ v w := by
  obtain ⟨structs, -, v', w', reads, reads', related⟩ := alike
  cases left.symm.trans reads
  cases right.symm.trans reads'
  exact Pairing.Relates.mono (r := ⟨structs, SameName g h⟩) (fun _ => trivial) id related

end Alike

theorem Leads.unique {path : List String} {u : Value} (first : g.Leads v path w)
    (second : g.Leads v path u) : w = u :=
  Option.some.inj (Option.some.inj (Eq.trans (Eq.symm first) second))

/-- Partners whose variables have one name on all paths are partners by name. Only the structures at
the end of a path count, so that every variable is at the end of one. -/
theorem exists_byName (wf : g.WellFormed) (wf' : h.WellFormed)
    {structs : StructId → StructId → Prop} (closed : Pairing.Closed ⟨structs, fun _ _ => True⟩ g h)
    (pairs : Pairing.Pairs ⟨structs, fun _ _ => True⟩ g h v w)
    (names : ∀ {path : List String} {x y : VarId}, g.Leads v path (.var x) →
      h.Leads w path (.var y) → g.SameName h x y) :
    ∃ reached : StructId → StructId → Prop, (∀ {s t}, reached s t → structs s t) ∧
      Pairing.Closed ⟨reached, SameName g h⟩ g h ∧
      Pairing.Pairs ⟨reached, SameName g h⟩ g h v w := by
  let reached (s t : StructId) : Prop :=
    structs s t ∧ ∃ path, g.Leads v path (.struct s) ∧ h.Leads w path (.struct t)
  have named {path : List String} {u u' : Value} (left : g.Leads v path u)
      (right : h.Leads w path u')
      (related : Pairing.Relates ⟨structs, fun _ _ => True⟩ u u') :
      Pairing.Relates ⟨reached, SameName g h⟩ u u' := by
    cases u <;> cases u' <;> first | exact related.elim | skip
    · exact related
    · exact ⟨related, path, left, right⟩
    · exact names left right
  refine ⟨reached, And.left, ?closed, ?pairs⟩
  case closed =>
    rintro s t ⟨partners, path, left, right⟩
    obtain ⟨m, n, hm, hn, keys, each⟩ := closed partners
    refine ⟨m, n, hm, hn, keys, fun {name u u'} hu hu' => ?_⟩
    obtain ⟨z, z', reads, reads', related⟩ := each hu hu'
    have step : g.Leads (.struct s) [name] z :=
      leads_cons.2 ⟨s, m, u, rfl, hm, hu, leads_nil.2 reads⟩
    have step' : h.Leads (.struct t) [name] z' :=
      leads_cons.2 ⟨t, n, u', rfl, hn, hu', leads_nil.2 reads'⟩
    exact ⟨z, z', reads, reads',
      named (wf.leads_append left step) (wf'.leads_append right step') related⟩
  case pairs =>
    obtain ⟨z, z', reads, reads', related⟩ := pairs
    exact ⟨z, z', reads, reads', named (leads_nil.2 reads) (leads_nil.2 reads') related⟩

/-- Values look alike if they do but for names, and the names are the same on all paths. -/
theorem alike_iff (wf : g.WellFormed) (wf' : h.WellFormed) : g.Alike v h w ↔
    g.AlikeButNames v h w ∧ ∀ {path : List String} {x y : VarId}, g.Leads v path (.var x) →
      h.Leads w path (.var y) → g.SameName h x y := by
  constructor
  · intro alike
    refine ⟨?_, fun {path x y} left right => ?_⟩
    · obtain ⟨structs, closed, v', w', hv, hw, related⟩ := alike
      have less {v : Value} {w : Value}
          (related : Pairing.Relates ⟨structs, SameName g h⟩ v w) :
          Pairing.Relates ⟨structs, fun _ _ => True⟩ v w :=
        Pairing.Relates.mono (r := ⟨structs, SameName g h⟩) id (fun _ => trivial) related
      refine ⟨structs, fun {s t} partners => ?_, v', w', hv, hw, less related⟩
      obtain ⟨m, n, hm, hn, keys, each⟩ := closed partners
      refine ⟨m, n, hm, hn, keys, fun hv hw => ?_⟩
      obtain ⟨u, u', hu, hu', related⟩ := each hv hw
      exact ⟨u, u', hu, hu', less related⟩
    · obtain ⟨w', right', alike'⟩ := alike.exists_leads wf wf' left
      cases right.unique right'
      exact alike'.relates (wf.deref?_of_leads left) (wf'.deref?_of_leads right)
  · rintro ⟨⟨structs, closed, pairs⟩, names⟩
    obtain ⟨reached, -, closed', pairs'⟩ := exists_byName wf wf' closed pairs names
    exact ⟨reached, closed', pairs'⟩

def looks (g : Graph) (w : Value) : Value → Prop := g.Alike w g

theorem looks_eq (alike : g.Alike v g w) : g.looks v = g.looks w :=
  funext fun _ => propext ⟨alike.symm.trans, alike.trans⟩

theorem WellFormed.alike_of_looks (wf : g.WellFormed) (inside : g.Contains w)
    (same : g.looks v = g.looks w) : g.Alike v g w :=
  (congrFun same w).mpr (wf.alike_refl inside)

end Graph

end FeatureLogic
