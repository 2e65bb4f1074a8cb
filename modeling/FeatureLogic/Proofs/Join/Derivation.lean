import FeatureLogic.Proofs.Graph.Forwarding
import FeatureLogic.Unification.Join

/-!
# Derivations of a join

What a join can do, one rule for each of its branches, without the limit on nested joins and
without the paths. Everything that holds of all joins is proved by induction on these rules.
-/

namespace FeatureLogic

namespace JoinState

def write (st : JoinState) (f : Graph → Graph) : JoinState := { st with graph := f st.graph }

def remember (st : JoinState) (v w u : Value) : JoinState :=
  if v.isNode || w.isNode then { st with joined := ((v, w), u) :: st.joined } else st

@[simp] theorem graph_write (st : JoinState) (f : Graph → Graph) :
    (st.write f).graph = f st.graph := rfl

@[simp] theorem joined_write (st : JoinState) (f : Graph → Graph) :
    (st.write f).joined = st.joined := rfl

@[simp] theorem graph_remember (st : JoinState) (v w u : Value) :
    (st.remember v w u).graph = st.graph := by
  unfold remember
  split <;> rfl

theorem mem_remember {st : JoinState} {v w u : Value} {p : (Value × Value) × Value}
    (h : p ∈ (st.remember v w u).joined) : p = ((v, w), u) ∨ p ∈ st.joined := by
  unfold remember at h
  split at h
  · exact List.mem_cons.1 h
  · exact .inr h

end JoinState

namespace Join

/-- The parts of a join: two values with the outcomes known before, two values, two values each of
which stands for itself, a variable and a value it is bound to, and a structure with the features
that it has to take over. -/
inductive Task where
  | join (v w : Value)
  | merge (v w : Value)
  | nodes (v w : Value)
  | bind (x : VarId) (v : Value)
  | takeOver (s : StructId) (entries : List (String × Value))

/-- How a task goes from one state to another. A binding results in the value that the variable
holds afterwards. -/
inductive Runs : Task → JoinState → Except Failure Value → JoinState → Prop where
  | hit {v w u st} : ((v, w), u) ∈ st.joined → Runs (.join v w) st (.ok u) st
  | tooDeep {v w limit path st} : Runs (.join v w) st (.error (.tooDeep limit path)) st
  | miss {v w u st st'} : Runs (.merge v w) st (.ok u) st' →
      Runs (.join v w) st (.ok u) (st'.remember v w u)
  | abandon {v w f st st'} : Runs (.merge v w) st (.error f) st' →
      Runs (.join v w) st (.error f) st'
  | left {w st} : Runs (.merge .unspecified w) st (.ok w) st
  | right {v st} : v ≠ .unspecified → Runs (.merge v .unspecified) st (.ok v) st
  | same {v w u st} : v ≠ .unspecified → w ≠ .unspecified → st.graph.Resolves v u →
      st.graph.Resolves w u → Runs (.merge v w) st (.ok u) st
  | nodes {v w v' w' out st st'} : v ≠ .unspecified → w ≠ .unspecified →
      st.graph.Resolves v v' → st.graph.Resolves w w' → v' ≠ w' →
      Runs (.nodes v' w') st out st' → Runs (.merge v w) st out st'
  | clash {v w path left right st} : (∀ x, v ≠ .var x) → (∀ x, w ≠ .var x) →
      (∀ s t, v = .struct s → w ≠ .struct t) →
      Runs (.nodes v w) st (.error (.mismatch path left right)) st
  | link {x y st} : st.graph.content? (.var x) = none →
      Runs (.nodes (.var x) (.var y)) st (.ok (.var y)) (st.write (·.setBinding x (.link y)))
  | carry {x y c out st st'} : st.graph.content? (.var x) = some c →
      Runs (.bind y c) (st.write (·.setBinding x (.link y))) out st' →
      Runs (.nodes (.var x) (.var y)) st (out.map fun _ => .var y) st'
  | bindLeft {x v out st st'} : (∀ y, v ≠ .var y) → Runs (.bind x v) st out st' →
      Runs (.nodes (.var x) v) st (out.map fun _ => .var x) st'
  | bindRight {v y out st st'} : (∀ x, v ≠ .var x) → Runs (.bind y v) st out st' →
      Runs (.nodes v (.var y)) st (out.map fun _ => .var y) st'
  | absorb {s t u m st st'} : st.graph.features? t = some m →
      Runs (.takeOver s m.entries) (st.write (·.absorb s t)) (.ok (.struct s)) st' →
      st'.graph.Resolves (.struct s) (.struct u) →
      Runs (.nodes (.struct s) (.struct t)) st (.ok (.struct u)) st'
  | absorbFails {s t m f st st'} : st.graph.features? t = some m →
      Runs (.takeOver s m.entries) (st.write (·.absorb s t)) (.error f) st' →
      Runs (.nodes (.struct s) (.struct t)) st (.error f) st'
  | bindFree {x root v st} : st.graph.Resolves (.var x) (.var root) →
      st.graph.content? (.var root) = none →
      Runs (.bind x v) st (.ok v) (st.write (·.setBinding root (.bound v)))
  | bindBound {x root root' v c u st st'} : st.graph.Resolves (.var x) (.var root) →
      st.graph.content? (.var root) = some c → Runs (.join c v) st (.ok u) st' →
      st'.graph.Resolves (.var root) (.var root') →
      Runs (.bind x v) st (.ok u) (st'.write (·.setBinding root' (.bound u)))
  | bindFails {x root v c f st st'} : st.graph.Resolves (.var x) (.var root) →
      st.graph.content? (.var root) = some c → Runs (.join c v) st (.error f) st' →
      Runs (.bind x v) st (.error f) st'
  | done {s st} : Runs (.takeOver s []) st (.ok (.struct s)) st
  | feature {s target target' name theirs rest m u out st st₁ st₂} :
      st.graph.Resolves (.struct s) (.struct target) → st.graph.features? target = some m →
      Runs (.join ((m.get? name).getD .unspecified) theirs) st (.ok u) st₁ →
      st₁.graph.Resolves (.struct s) (.struct target') →
      Runs (.takeOver s rest) (st₁.write (·.setFeature target' name u)) out st₂ →
      Runs (.takeOver s ((name, theirs) :: rest)) st out st₂
  | featureFails {s target name theirs rest m f st st₁} :
      st.graph.Resolves (.struct s) (.struct target) → st.graph.features? target = some m →
      Runs (.join ((m.get? name).getD .unspecified) theirs) st (.error f) st₁ →
      Runs (.takeOver s ((name, theirs) :: rest)) st (.error f) st₁

end Join

end FeatureLogic
