import Lox.Proofs.RegionRuns

/-! Closures encapsulate their scopes. What runs in a scope leaves the scopes alone that cannot be
reached from there, and gives away none of them. -/

namespace Lox

/-- The scopes that can be reached from one: its parents, and the scopes that functions bound in
such scopes are closed over. -/
inductive Heap.Reaches (heap : Heap) (start : ScopeId) : ScopeId → Prop where
  | start : Reaches heap start start
  | parent {inner outer : ScopeId} {scope : Scope} (reached : Reaches heap start inner)
      (made : heap[inner]? = some scope) (outside : scope.parent = some outer) :
      Reaches heap start outer
  | closure {inner : ScopeId} {scope : Scope} {closure : Closure}
      (reached : Reaches heap start inner) (made : heap[inner]? = some scope)
      (bound : (name, some (.function closure)) ∈ scope.bindings) :
      Reaches heap start closure.scope

namespace Heap

/-- The scopes that a run may give away: those it could reach at first, and those it made. -/
def Disclosed (before : Heap) (start : ScopeId) (after : Heap) (id : ScopeId) : Prop :=
  before.Reaches start id ∨ before.size ≤ id ∧ id < after.size

/-- What a run in a scope does to the heap. -/
structure Encapsulates (before : Heap) (start : ScopeId) (after : Heap) : Prop where
  untouched : ∀ id < before.size, ¬ before.Reaches start id → after[id]? = before[id]?
  reached : ∀ id, after.Reaches start id → before.Disclosed start after id

/-- A run in a scope encapsulates the others however it ends, and what it gives, if it gives
anything, is closed over nothing else. -/
def Guards {α : Type} (before : Heap) (start : ScopeId) (within : (ScopeId → Prop) → α → Prop) :
    EStateM.Result Stop Machine α → Prop
  | .ok value machine => before.Encapsulates start machine.heap ∧
      within (before.Disclosed start machine.heap) value
  | .error _ machine => before.Encapsulates start machine.heap

end Heap

namespace Region

/-- The region of what can be reached from a scope. -/
def reached (heap : Heap) (start : ScopeId) : Region := ⟨heap, heap.Reaches start⟩

variable {heap after : Heap} {start : ScopeId}

theorem reached_keeps (heap : Heap) (start : ScopeId) : (reached heap start).Keeps heap := by
  have first (id : ScopeId) (inside : (reached heap start).Inside heap.size id) :
      heap.Reaches start id := by
    rcases inside with first | ⟨made, bound⟩
    · exact first
    · exact absurd bound (Nat.not_lt.mpr made)
  refine ⟨Nat.le_refl _, fun _ _ _ => rfl, fun id scope inside made => ⟨?_, ?_⟩, ?_⟩
  · intro parent outer
    exact .inl (.parent (first id inside) made outer)
  · intro name value bound
    cases value with
    | function closure => exact .inl (.closure (first id inside) made bound)
    | nil | bool | number | string | native => trivial
  · exact fun founded id inside => founded id (first id inside)

theorem Keeps.encapsulates (keeps : (reached heap start).Keeps after) :
    heap.Encapsulates start after := by
  refine ⟨keeps.untouched, fun id reaches => ?_⟩
  induction reaches with
  | start => exact .inl .start
  | parent _ made outer ih => exact (keeps.closed _ _ ih made).1 _ outer
  | closure _ made bound ih => exact (keeps.closed _ _ ih made).2 _ _ bound

theorem Stays.guards {α : Type} {run : Run α} {machine : Machine}
    {within : (ScopeId → Prop) → α → Prop}
    (stays : (reached machine.heap start).Stays run machine fun size value =>
      within ((reached machine.heap start).Inside size) value) :
    machine.heap.Guards start within (run machine) := by
  unfold Stays at stays
  cases ran : run machine with
  | ok value last =>
    rw [ran] at stays
    obtain ⟨keeps, -, held⟩ := stays
    exact ⟨keeps.encapsulates, held⟩
  | error stop last =>
    rw [ran] at stays
    exact stays.1.encapsulates

end Region

/-- In every state and scope, an expression and a statement leave every scope as it was that could
not be reached, and afterwards only those scopes can be reached, from there or through what was
given, that could be reached before or were made by the run. -/
theorem Interpreter.closures_encapsulate (settings : Settings) (fuel : Nat) (machine : Machine)
    (scope : ScopeId) :
    (∀ expr, machine.heap.Guards scope Value.Within
      (evaluate settings scope fuel expr machine)) ∧
    ∀ stmt, machine.heap.Guards scope Signal.Within
      (execute settings scope fuel stmt machine) := by
  have confines : (Region.reached machine.heap scope).Confines settings fuel := .everywhere fuel
  have keeps := Region.reached_keeps machine.heap scope
  have inside : (Region.reached machine.heap scope).Inside machine.heap.size scope := .inl .start
  constructor
  · exact fun expr => (confines.evaluate expr keeps inside).guards
  · exact fun stmt => (confines.execute stmt keeps inside).guards

/-- The scopes that can be reached from one exist, each within an older one. -/
def Heap.Founded (heap : Heap) (start : ScopeId) : Prop := Region.Founded heap (heap.Reaches start)

/-- A run in such a scope misses no scope, however it ends, and makes all others the same way. -/
theorem Interpreter.executeTop_founded {settings : Settings} {fuel : Nat} {machine : Machine}
    {scope : ScopeId} (founded : machine.heap.Founded scope) (program : Program) :
    match executeTop settings scope fuel program machine with
    | .ok _ after => after.heap.Founded scope
    | .error stop after => stop ≠ .dangling ∧ after.heap.Founded scope := by
  have kept {after : Heap} (keeps : (Region.reached machine.heap scope).Keeps after) :
      after.Founded scope :=
    fun id reaches => keeps.founded founded id (keeps.encapsulates.reached id reaches)
  have stays : (Region.reached machine.heap scope).Stays
      (executeTop settings scope fuel program) machine fun _ _ => True :=
    .executeTop program (Region.reached_keeps machine.heap scope) (.inl .start)
  unfold Region.Stays at stays
  split at stays
  next ran =>
    rw [ran]
    exact kept stays.1
  next ran =>
    rw [ran]
    exact ⟨fun missing => stays.2 missing founded, kept stays.1⟩

end Lox
