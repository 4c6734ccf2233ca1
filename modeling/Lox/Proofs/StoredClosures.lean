import Lox.Session

/-! What holds of every function that can be got at: of those among some values, in some bindings or
in the scopes of a heap. -/

namespace Lox

/-- A value is no function, or one with the property. -/
def Value.Meets (property : Closure → Prop) : Value → Prop
  | .function closure => property closure
  | _ => True

variable {property : Closure → Prop}

theorem Value.Meets.mono {wider : Closure → Prop} {value : Value} (meets : value.Meets property)
    (grows : ∀ closure, property closure → wider closure) : value.Meets wider := by
  cases value with
  | function closure => exact grows closure meets
  | nil | bool | number | string | native => trivial

theorem UnaryOperator.apply_meets {operator : UnaryOperator} {operand value : Value}
    (applied : operator.apply operand = .ok value) : value.Meets property := by
  unfold apply at applied
  split at applied <;> cases applied <;> trivial

theorem BinaryOperator.calculate_meets {operator : BinaryOperator} {left right : Float}
    {value : Value} (calculated : operator.calculate left right = .ok value) :
    value.Meets property := by
  cases operator <;> simp only [calculate] at calculated
  case divide => split at calculated <;> cases calculated; trivial
  all_goals
    cases calculated
    trivial

theorem BinaryOperator.apply_meets {operator : BinaryOperator} {left right value : Value}
    (applied : operator.apply left right = .ok value) : value.Meets property := by
  unfold apply at applied
  split at applied
  case h_4 => exact calculate_meets applied
  all_goals
    cases applied
    try trivial

namespace Bindings

variable {bindings : Bindings}

def Meets (property : Closure → Prop) (bindings : Bindings) : Prop :=
  ∀ name value, (name, some value) ∈ bindings → value.Meets property

theorem Meets.mono {wider : Closure → Prop} (meets : bindings.Meets property)
    (grows : ∀ closure, property closure → wider closure) : bindings.Meets wider :=
  fun name value bound => (meets name value bound).mono grows

theorem Meets.lookup (meets : bindings.Meets property) {name : String} {value : Value}
    (found : bindings.lookup name = some (some value)) : value.Meets property := by
  obtain ⟨front, back, rfl, -⟩ := List.lookup_eq_some_iff.mp found
  exact meets name value (by simp)

theorem Meets.set (meets : bindings.Meets property) (name : String) {value : Option Value}
    (held : ∀ own, value = some own → own.Meets property) :
    (bindings.set name value).Meets property := by
  induction bindings with
  | nil =>
    intro key own bound
    simp only [Bindings.set, List.mem_singleton, Prod.mk.injEq] at bound
    exact held own bound.2.symm
  | cons entry rest ih =>
    obtain ⟨key, old⟩ := entry
    have later : Bindings.Meets property rest := fun other own bound =>
      meets other own (List.mem_cons_of_mem _ bound)
    intro other own bound
    simp only [Bindings.set] at bound
    split at bound <;> rcases List.mem_cons.mp bound with same | bound
    · exact held own (Prod.mk.inj same).2.symm
    · exact later other own bound
    · exact meets other own (same ▸ List.mem_cons_self)
    · exact ih later other own bound

/-- What a call binds its parameters to, when its arguments have the property. -/
theorem Meets.ofArguments {arguments : List Value} (params : List String)
    (held : ∀ value ∈ arguments, value.Meets property) :
    Meets property ((params.zip arguments).foldl
      (fun bindings (name, value) => Bindings.set name (some value) bindings) []) := by
  have filled : ∀ (pairs : List (String × Value)) (bindings : Bindings),
      (∀ pair ∈ pairs, pair.2.Meets property) → bindings.Meets property →
      Meets property (pairs.foldl
        (fun bindings (name, value) => Bindings.set name (some value) bindings) bindings) := by
    intro pairs
    induction pairs with
    | nil => exact fun _ _ meets => meets
    | cons pair pairs ih =>
      intro bindings all meets
      rw [List.foldl_cons]
      refine ih _ (fun other member => all other (List.mem_cons_of_mem _ member)) ?_
      refine meets.set pair.1 fun own same => ?_
      cases same
      exact all pair List.mem_cons_self
  refine filled _ _ (fun pair member => held pair.2 (List.of_mem_zip member).2) ?_
  intro name value bound
  cases bound

end Bindings

namespace Heap

variable {heap : Heap} {name : String} {scope : ScopeId}

theorem bind_getElem? (heap : Heap) (name : String) (value : Option Value) (scope id : ScopeId) :
    (heap.bind name value scope)[id]? = if scope = id then
      heap[id]?.map fun scope => { scope with bindings := scope.bindings.set name value }
    else heap[id]? :=
  Array.getElem?_modify

theorem bind_size (heap : Heap) (name : String) (value : Option Value) (scope : ScopeId) :
    (heap.bind name value scope).size = heap.size := Array.size_modify

/-- A binding takes no scope away and gives none another parent. -/
theorem bind_eq_some {value : Option Value} {id : ScopeId} {after : Scope}
    (made : (heap.bind name value scope)[id]? = some after) : ∃ old, heap[id]? = some old ∧
      after.parent = old.parent ∧
        (after.bindings = old.bindings ∨ scope = id ∧ after.bindings = old.bindings.set name value) := by
  rw [bind_getElem?] at made
  split at made
  next same =>
    obtain ⟨old, found, rfl⟩ := Option.map_eq_some_iff.mp made
    exact ⟨old, found, rfl, .inr ⟨same, rfl⟩⟩
  next => exact ⟨after, made, rfl, .inl rfl⟩

/-- A new scope stands behind the old ones, which stay as they are. -/
theorem push_eq_some {made after : Scope} {id : ScopeId}
    (found : (heap.push made)[id]? = some after) :
    id = heap.size ∧ after = made ∨ id < heap.size ∧ heap[id]? = some after := by
  rw [Array.getElem?_push] at found
  split at found
  next same => exact .inl ⟨same, (Option.some.inj found).symm⟩
  next => exact .inr ⟨(Array.getElem?_eq_some_iff.mp found).1, found⟩

/-- Some scopes lead only to one another, or to scopes that are still to be made; and every function
that a variable of theirs holds has the property. -/
structure Meets (inside : ScopeId → Prop) (property : Closure → Prop) (heap : Heap) : Prop where
  unmade : ∀ id, heap.size ≤ id → inside id
  outward : ∀ (id : ScopeId) (scope : Scope), inside id → heap[id]? = some scope →
    ∀ parent, scope.parent = some parent → inside parent
  held : ∀ (id : ScopeId) (scope : Scope), inside id → heap[id]? = some scope →
    scope.bindings.Meets property

variable {inside : ScopeId → Prop}

theorem Meets.find (meets : heap.Meets inside property) (within : inside scope) {owner : ScopeId}
    {value : Value} (found : heap.find name scope = .ok (owner, some value)) :
    value.Meets property := by
  fun_induction Heap.find heap name scope with
  | case1 _ missing => cases found
  | case2 id scope made value' bound =>
    cases found
    exact (meets.held owner scope within made).lookup bound
  | case3 id scope made unbound last => cases found
  | case4 id scope made unbound parent outer older ih =>
    exact ih (meets.outward id scope within made parent outer) found
  | case5 id scope made unbound parent outer younger => cases found

theorem Meets.bind (meets : heap.Meets inside property) {value : Option Value}
    (held : ∀ own, value = some own → own.Meets property) :
    (heap.bind name value scope).Meets inside property := by
  constructor
  · rw [bind_size]
    exact meets.unmade
  · intro id after within made
    obtain ⟨old, found, parent, -⟩ := bind_eq_some made
    rw [parent]
    exact meets.outward id old within found
  · intro id after within made
    obtain ⟨old, found, -, bindings⟩ := bind_eq_some made
    have before := meets.held id old within found
    rcases bindings with same | ⟨-, same⟩
    · rwa [same]
    · rw [same]
      exact before.set name held

theorem Meets.push (meets : heap.Meets inside property) {bindings : Bindings} (within : inside scope)
    (held : bindings.Meets property) :
    Heap.Meets inside property (heap.push ⟨bindings, some scope⟩) := by
  constructor
  · intro id later
    rw [Array.size_push] at later
    exact meets.unmade id (Nat.le_of_succ_le later)
  · intro id after inside' made parent outer
    rcases push_eq_some made with ⟨-, rfl⟩ | ⟨-, before⟩
    · cases outer
      exact within
    · exact meets.outward id after inside' before parent outer
  · intro id after inside' made
    rcases push_eq_some made with ⟨-, rfl⟩ | ⟨-, before⟩
    · exact held
    · exact meets.held id after inside' before

end Heap

/-- A new session holds no functions of programs. -/
theorem Session.start_meets (settings : Settings) {inside : ScopeId → Prop}
    (later : ∀ id, 1 ≤ id → inside id) :
    (Session.start settings).machine.heap.Meets inside property := by
  have empty : Heap.Meets inside property #[⟨[], none⟩] := by
    constructor
    · exact later
    · intro id scope _ made parent outer
      cases id with
      | zero =>
        cases made
        cases outer
      | succ id => cases made
    · intro id scope _ made
      cases id with
      | zero =>
        cases made
        exact nofun
      | succ id => cases made
  have native (own : Value) (same : some (.native .clock) = some own) : own.Meets property := by
    cases same
    trivial
  have bound : Heap.Meets inside property
      (Heap.bind #[⟨[], none⟩] "clock" (some (.native .clock)) 0) := empty.bind native
  exact bound

end Lox
