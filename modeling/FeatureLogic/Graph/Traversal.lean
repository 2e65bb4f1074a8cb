import FeatureLogic.Graph.Reachability

/-!
# Traversals

A traversal goes from value to value by single steps: from an alias to the next variable, from a
bound variable to its value, and from a structure to one of its features. The names of the features
taken are its path. It may stop at any value, also at a variable that is an alias or bound. Every
path that leads somewhere is traversed.
-/

namespace FeatureLogic.Graph

/-- Does one get from the one value to the other with the features named in the path, going on from
aliases and bound variables wherever one comes to them? -/
inductive Traverses (g : Graph) : Value → List String → Value → Prop where
  | stay (v : Value) : Traverses g v [] v
  | link {x y : VarId} {path : List String} {w : Value} : g.IsAlias x y →
    Traverses g (.var y) path w → Traverses g (.var x) path w
  | bound {x : VarId} {node : Variable} {v w : Value} {path : List String} :
    g.var? x = some node → node.binding = .bound v → Traverses g v path w →
      Traverses g (.var x) path w
  | feature {s : StructId} {features : NameMap Value} {name : String} {v w : Value}
    {path : List String} : g.features? s = some features → features.get? name = some v →
      Traverses g v path w → Traverses g (.struct s) (name :: path) w

variable {g : Graph} {u v w : Value} {p q path : List String}

theorem Traverses.trans (first : g.Traverses u p v) (second : g.Traverses v q w) :
    g.Traverses u (p ++ q) w := by
  induction first with
  | stay => exact second
  | link isAlias _ ih => exact .link isAlias (ih second)
  | bound found holds _ ih => exact .bound found holds (ih second)
  | feature found holds _ ih => exact .feature found holds (ih second)

theorem WellFormed.contains_of_traverses (wf : g.WellFormed) (inside : g.Contains v)
    (traverses : g.Traverses v path w) : g.Contains w := by
  induction traverses with
  | stay => exact inside
  | link isAlias _ ih => exact ih (wf.link isAlias)
  | bound found holds _ ih => exact ih (wf.bound found holds).1
  | feature found holds _ ih =>
    exact ih (wf.contains_of_below inside (.feature .refl found holds))

theorem traverses_of_chase {fuel : Nat} {x root : VarId} (chased : g.chase fuel x = some root) :
    g.Traverses (.var x) [] (.var root) := by
  fun_induction chase g fuel x with
  | case1 => cases chased
  | case2 => cases chased
  | case3 _ _ _ _ found ih => exact .link ⟨_, found, rfl⟩ (ih chased)
  | case4 =>
    cases chased
    exact .stay _

theorem traverses_of_deref? (reads : g.deref? v = some w) : g.Traverses v [] w := by
  cases v with
  | atom a =>
    cases reads
    exact .stay _
  | struct s =>
    cases reads
    exact .stay _
  | var x =>
    simp only [deref?, Option.bind_eq_bind, Option.bind_eq_some_iff, Option.pure_def,
      Option.some.injEq] at reads
    obtain ⟨root, chased, node, found, rfl⟩ := reads
    have climbed : g.Traverses (.var x) [] (.var root) := traverses_of_chase chased
    cases binding : node.binding with
    | free => exact climbed
    | link y => exact climbed
    | bound v => exact climbed.trans (.bound found binding (.stay v))

theorem Leads.traverses (leads : g.Leads v path w) : g.Traverses v path w := by
  induction path generalizing v with
  | nil => exact traverses_of_deref? (leads_nil.1 leads)
  | cons name path ih =>
    obtain ⟨s, features, child, reads, found, holds, rest⟩ := leads_cons.1 leads
    exact (traverses_of_deref? reads).trans (.feature found holds (ih rest))

end FeatureLogic.Graph
