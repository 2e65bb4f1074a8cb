import FeatureLogic.Unification

/-!
# Remembered unifications

A cache keeps the outcome of a unification under its two operands, and the scopes as they were
afterwards. It serves callers that unify the same pair again under the same scopes.
-/

namespace FeatureLogic

structure CacheEntry where
  result : Except Failure Value
  left : Scope
  right : Scope

/-- Outcomes by operands, without repetition of a pair. -/
structure Cache where
  entries : List ((Value × Value) × CacheEntry) := []

namespace Cache

instance : EmptyCollection Cache := ⟨{}⟩

def size (cache : Cache) : Nat := cache.entries.length

def get? (cache : Cache) (v w : Value) : Option CacheEntry := cache.entries.lookup (v, w)

def insert (cache : Cache) (v w : Value) (outcome : CacheEntry) : Cache :=
  ⟨((v, w), outcome) :: cache.entries.filter (·.1 ≠ (v, w))⟩

variable (cache : Cache) {v w v' w' : Value} (entry : CacheEntry)

theorem get?_insert : (cache.insert v w entry).get? v w = some entry := by
  simp [get?, insert]

theorem get?_insert_of_ne (ne : (v', w') ≠ (v, w)) :
    (cache.insert v w entry).get? v' w' = cache.get? v' w' := by
  rw [get?, insert, List.lookup_cons, beq_eq_false_iff_ne.2 ne]
  show (cache.entries.filter _).lookup (v', w') = cache.entries.lookup (v', w')
  induction cache.entries with
  | nil => rfl
  | cons e rest ih =>
    obtain ⟨pair, outcome⟩ := e
    by_cases same : pair = (v, w)
    · rw [List.filter_cons_of_neg (by simp [same]), ih, List.lookup_cons, same,
        beq_eq_false_iff_ne.2 ne]
    · rw [List.filter_cons_of_pos (by simp [same]), List.lookup_cons, List.lookup_cons, ih]

end Cache

def CacheEntry.of (scoping : Scoping) : Except Failure (Value × Scoping) → CacheEntry
  | .ok (u, after) => ⟨.ok u, after.left, after.right⟩
  | .error f => ⟨.error f, scoping.left, scoping.right⟩

/-- Unifies two values, or repeats the outcome that the cache has for them: a result sets the
scopes to what they were after it, and a failure leaves them alone. -/
def Graph.unifyCached? (g : Graph) (limit : Nat) (v w : Value) (scoping : Scoping) (cache : Cache) :
    Option (Except Failure (Value × Scoping) × Graph × Cache) :=
  match cache.get? v w with
  | some outcome =>
    match outcome.result with
    | .ok u => some (.ok (u, scoping.replace outcome.left outcome.right), g, cache)
    | .error f => some (.error f, g, cache)
  | none =>
    match g.unify? limit v w scoping with
    | none => none
    | some (.ok (u, after), g) =>
      some (.ok (u, after), g, cache.insert v w ⟨.ok u, after.left, after.right⟩)
    | some (.error f, g) =>
      some (.error f, g, cache.insert v w ⟨.error f, scoping.left, scoping.right⟩)

namespace Graph

variable {g h : Graph} {limit : Nat} {v w : Value} {scoping : Scoping} {cache : Cache}

theorem unifyCached?_of_none {out : Except Failure (Value × Scoping)}
    (unknown : cache.get? v w = none) (ends : g.unify? limit v w scoping = some (out, h)) :
    g.unifyCached? limit v w scoping cache =
      some (out, h, cache.insert v w (.of scoping out)) := by
  rw [unifyCached?, unknown, ends]
  cases out <;> rfl

theorem unifyCached?_of_some {entry : CacheEntry} (known : cache.get? v w = some entry) :
    ∃ out, g.unifyCached? limit v w scoping cache = some (out, g, cache) := by
  obtain ⟨result, left, right⟩ := entry
  cases result with
  | ok u => exact ⟨_, by rw [unifyCached?, known]⟩
  | error f => exact ⟨_, by rw [unifyCached?, known]⟩

end Graph

end FeatureLogic
