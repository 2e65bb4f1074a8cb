import FeatureLogic.Proofs.Description.Restoration
import FeatureLogic.Proofs.Graph.Comparing
import FeatureLogic.Proofs.Graph.Legibility
import FeatureLogic.Proofs.Join.Execution

/-!
# The text of a value denotes the value

The text of a value is read as the description that was written, building it restores what it
depicts, and what is restored is isomorphic to the value.
-/

namespace FeatureLogic.Graph

variable {g h : Graph} {l : Listing} {v v' w : Value}

theorem deref?_of_restores {met : List StructId} (restores : Restores g h met v w) :
    h.deref? w = some w := by
  cases restores with
  | atom a => rfl
  | struct mem => rfl
  | var named found => exact deref?_of_free found

/-- The structures of a value are paired with their copies. -/
theorem isomorphic_of_restores (part : g.PartOf h)
    (mirrors : ∀ s ∈ l.met, Mirrors g h l.met s) (reads : g.deref? v = some v')
    (restores : Restores g h l.met v' w) : h.Isomorphic v h w := by
  let copies (s t : StructId) : Prop := s ∈ l.met ∧ t = copyOf g.structCount l.met s
  have pairs {v v' w : Value} (reads : g.deref? v = some v')
      (restores : Restores g h l.met v' w) : Pairing.Pairs ⟨copies, SameName h h⟩ h h v w := by
    refine ⟨v', w, part.frames.deref?_eq_some reads, deref?_of_restores restores, ?_⟩
    cases restores with
    | atom a => exact rfl
    | struct mem => exact ⟨mem, rfl⟩
    | @var x y name named found =>
      obtain ⟨node, old, rfl⟩ := Option.map_eq_some_iff.1 named
      refine ⟨node.name, ?_, ?_⟩
      · rw [name?, part.frames.var?_eq_some old, Option.map_some]
      · rw [name?, found, Option.map_some]
  refine ⟨copies, ⟨?_, ?_⟩, ?_, pairs reads restores⟩
  · rintro s s' t ⟨mem, rfl⟩ ⟨-, same⟩
    exact (copyOf_inj mem).1 same
  · rintro s t t' ⟨-, rfl⟩ ⟨-, rfl⟩
    rfl
  · rintro s t ⟨mem, rfl⟩
    obtain ⟨m, n, found, found', held, absent⟩ := mirrors s mem
    refine ⟨m, n, part.frames.features?_eq_some found, found', ?_, fun {name v w} hv hw => ?_⟩
    · refine NameMap.keys_eq_of_mem_iff fun name => ?_
      rw [NameMap.mem_keys_iff, NameMap.mem_keys_iff]
      constructor
      · rintro ⟨v, hv⟩
        obtain ⟨-, w, -, hw, -⟩ := held name v hv
        exact ⟨w, hw⟩
      · rintro ⟨w, hw⟩
        cases hv : m.get? name with
        | some v => exact ⟨v, rfl⟩
        | none => cases (absent name hv).symm.trans hw
    · obtain ⟨v', w', reads, hw', restores⟩ := held name v hv
      cases hw.symm.trans hw'
      exact pairs reads restores

theorem readValue_of_build {text : String} {d : Description Tag} {st : BuildState}
    (read : Description.read text = .ok d) (built : d.build none { graph := g } = .ok w st) :
    g.readValue text = (.ok w, st.graph) := by
  unfold readValue
  generalize Description.read text = outcome at read ⊢
  subst read
  dsimp only
  rw [build, built]

/-- A value has a text, and reading that text gives a copy of the value, with the same features and
the same sharing. -/
theorem WellFormed.readValue_text (wf : g.WellFormed) (inside : g.Contains v)
    (writable : g.Writable v) : ∃ text w h, g.text? v = some text ∧
      g.readValue text = (.ok w, h) ∧ h.isomorphic? v w = some true := by
  obtain ⟨d, described⟩ := wf.closed.legible.exists_description (entirety_has.2 inside)
  obtain ⟨v', l, reads, depicts⟩ := describe?_depicts described
  obtain ⟨d', read, rfl⟩ :=
    Description.read_written (d.spelled_of_depicts writable.spelled reads depicts)
  obtain ⟨w, st, built, restored, restores⟩ := d'.exists_build depicts (listed_start g)
  have outcome := readValue_of_build read built
  obtain ⟨part, contains⟩ : g.Receives (.ok w, st.graph) := outcome ▸ wf.receives_readValue _
  have isomorphic : st.graph.Isomorphic v st.graph w :=
    isomorphic_of_restores part (fun s mem => restored.mirrors s mem (by simp)) reads restores
  obtain ⟨answer, compared, iff⟩ :=
    part.wellFormed.isomorphic?_iff (part.contains inside) contains
  refine ⟨_, w, st.graph, ?_, outcome, compared.trans (congrArg some (iff.2 isomorphic))⟩
  rw [text?, described, Option.map_some]

def ledger : Graph :=
  let nodes := (((∅ : Graph).addStruct ∅).addStruct ∅).addVar { name := "rest" }
  let bound := nodes.addVar { name := "item", binding := .bound (.struct ⟨1⟩) }
  let root := (bound.setFeature ⟨0⟩ "owner" (.struct ⟨0⟩)).setFeature ⟨0⟩ "item" (.var ⟨1⟩)
  (root.setFeature ⟨1⟩ "owner" (.struct ⟨0⟩)).setFeature ⟨1⟩ "tail" (.var ⟨0⟩)

theorem wellFormed_ledger : ledger.WellFormed :=
  wellFormed_of_admits (by decide +kernel) (by decide +kernel) (by decide +kernel)

theorem ledger_readValue_text : ∃ w h,
    ledger.text? (.struct ⟨0⟩) =
      some "(1)[item=[owner->(1), tail=?rest], owner->(1)]" ∧
    ledger.readValue "(1)[item=[owner->(1), tail=?rest], owner->(1)]" = (.ok w, h) ∧
    h.isomorphic? (.struct ⟨0⟩) w = some true := by
  obtain ⟨text, w, h, written, read, isomorphic⟩ := wellFormed_ledger.readValue_text
    (v := .struct ⟨0⟩) (by decide) (writable_of_stored (by decide) (by decide) _)
  have shown : ledger.text? (.struct ⟨0⟩) =
      some "(1)[item=[owner->(1), tail=?rest], owner->(1)]" := by decide +kernel
  cases written.symm.trans shown
  exact ⟨w, h, shown, read, isomorphic⟩

end FeatureLogic.Graph
