import Lox.Proofs.Sequencing
import Lox.Proofs.StoredClosures

/-! Evaluation stays in a region of the heap. A region is a set of scopes that lead nowhere else,
neither to their parents nor through the functions they hold. What runs in a scope of the region
reads and writes no other scope that was there before, and the scopes it makes join the region. -/

namespace Lox

/-- A function may only be closed over some scopes. -/
def Value.Within (inside : ScopeId → Prop) : Value → Prop
  | .function closure => inside closure.scope
  | _ => True

theorem Value.within_iff {inside : ScopeId → Prop} {value : Value} :
    value.Within inside ↔ value.Meets fun closure => inside closure.scope := by
  cases value <;> rfl

theorem Value.Within.mono {inside wider : ScopeId → Prop} {value : Value}
    (within : value.Within inside) (grows : ∀ id, inside id → wider id) : value.Within wider :=
  within_iff.mpr ((within_iff.mp within).mono fun closure => grows closure.scope)

/-- What a statement passes on to those around it. -/
def Signal.Within (inside : ScopeId → Prop) : Signal → Prop
  | .returning value _ => value.Within inside
  | .normal | .jumping _ _ => True

namespace Bindings

variable {inside : ScopeId → Prop} {bindings : Bindings}

def Within (inside : ScopeId → Prop) (bindings : Bindings) : Prop :=
  ∀ name value, (name, some value) ∈ bindings → value.Within inside

theorem within_iff :
    bindings.Within inside ↔ bindings.Meets fun closure => inside closure.scope := by
  simp only [Within, Meets, Value.within_iff]

theorem Within.mono {wider : ScopeId → Prop} (within : bindings.Within inside)
    (grows : ∀ id, inside id → wider id) : bindings.Within wider :=
  within_iff.mpr ((within_iff.mp within).mono fun closure => grows closure.scope)

theorem Within.lookup (within : bindings.Within inside) {name : String} {value : Value}
    (found : bindings.lookup name = some (some value)) : value.Within inside :=
  Value.within_iff.mpr ((within_iff.mp within).lookup found)

theorem Within.set (within : bindings.Within inside) (name : String) {value : Option Value}
    (held : ∀ own, value = some own → own.Within inside) : (bindings.set name value).Within inside :=
  within_iff.mpr ((within_iff.mp within).set name fun own same => Value.within_iff.mp (held own same))

theorem Within.ofArguments {arguments : List Value} (params : List String)
    (held : ∀ value ∈ arguments, value.Within inside) :
    Within inside ((params.zip arguments).foldl
      (fun bindings (name, value) => Bindings.set name (some value) bindings) []) :=
  within_iff.mpr (.ofArguments params fun value member => Value.within_iff.mp (held value member))

end Bindings

/-- A set of scopes in the heap that a run begins with. -/
structure Region where
  before : Heap
  first : ScopeId → Prop

namespace Region

variable (region : Region)

/-- The region in a heap of some size: the scopes it began with and those made since. -/
def Inside (size : Nat) (id : ScopeId) : Prop :=
  region.first id ∨ region.before.size ≤ id ∧ id < size

/-- What the region may hold as a value. -/
abbrev Holds (size : Nat) (value : Value) : Prop := value.Within (region.Inside size)

/-- The scopes of a heap exist, and each is inside an older one, as far as some scopes go. -/
def Founded (heap : Heap) (inside : ScopeId → Prop) : Prop :=
  ∀ id, inside id → id < heap.size ∧ ∀ scope parent, heap[id]? = some scope →
    scope.parent = some parent → parent < id

/-- What a run in the region keeps of the heap. That scopes exist is kept if it held at first. -/
structure Keeps (heap : Heap) : Prop where
  grown : region.before.size ≤ heap.size
  untouched : ∀ id < region.before.size, ¬ region.first id → heap[id]? = region.before[id]?
  closed : ∀ id scope, region.Inside heap.size id → heap[id]? = some scope →
    (∀ parent, scope.parent = some parent → region.Inside heap.size parent) ∧
      scope.bindings.Within (region.Inside heap.size)
  founded : Founded region.before region.first → Founded heap (region.Inside heap.size)

variable {region} {heap : Heap} {scope : ScopeId} {name : String}

theorem Inside.mono {size larger : Nat} (grown : size ≤ larger) {id : ScopeId}
    (inside : region.Inside size id) : region.Inside larger id := by
  rcases inside with first | ⟨made, bound⟩
  · exact .inl first
  · exact .inr ⟨made, Nat.lt_of_lt_of_le bound grown⟩

/-- Looking outwards does not leave the region. -/
theorem Keeps.find (keeps : region.Keeps heap) {owner : ScopeId} {binding : Option Value}
    (inside : region.Inside heap.size scope) (found : heap.find name scope = .ok (owner, binding)) :
    region.Inside heap.size owner ∧
      ∀ value, binding = some value → value.Within (region.Inside heap.size) := by
  fun_induction Heap.find heap name scope with
  | case1 id missing => cases found
  | case2 id scope made value bound =>
    cases found
    refine ⟨inside, ?_⟩
    rintro value rfl
    exact (keeps.closed owner scope inside made).2.lookup bound
  | case3 id scope made unbound last => cases found
  | case4 id scope made unbound parent outer older ih =>
    exact ih ((keeps.closed id scope inside made).1 parent outer) found
  | case5 id scope made unbound parent outer younger => cases found

theorem Keeps.missing (keeps : region.Keeps heap) (inside : region.Inside heap.size scope)
    (absent : heap.size ≤ scope) : ¬ Founded region.before region.first := fun founded =>
  Nat.not_lt.mpr absent (keeps.founded founded scope inside).1

theorem Keeps.dangling (keeps : region.Keeps heap) (inside : region.Inside heap.size scope)
    (missing : heap.find name scope = .error .dangling) :
    ¬ Founded region.before region.first := by
  fun_induction Heap.find heap name scope with
  | case1 id absent => exact keeps.missing inside (Array.getElem?_eq_none_iff.mp absent)
  | case2 id scope made value bound => cases missing
  | case3 id scope made unbound last => cases missing
  | case4 id scope made unbound parent outer older ih =>
    exact ih ((keeps.closed id scope inside made).1 parent outer) missing
  | case5 id scope made unbound parent outer younger =>
    exact fun founded => younger ((keeps.founded founded id inside).2 scope parent made outer)

theorem Keeps.bind (keeps : region.Keeps heap) (inside : region.Inside heap.size scope)
    {value : Option Value} (held : ∀ own, value = some own → own.Within (region.Inside heap.size)) :
    region.Keeps (heap.bind name value scope) where
  grown := by
    rw [Heap.bind_size]
    exact keeps.grown
  untouched id old outside := by
    have other : scope ≠ id := by
      rintro rfl
      rcases inside with first | ⟨made, -⟩
      · exact outside first
      · omega
    rw [Heap.bind_getElem?, if_neg other]
    exact keeps.untouched id old outside
  closed id after inside' made := by
    rw [Heap.bind_size] at inside' ⊢
    obtain ⟨old, found, parent, bindings⟩ := Heap.bind_eq_some made
    obtain ⟨outer, within⟩ := keeps.closed id old inside' found
    rw [parent]
    refine ⟨outer, ?_⟩
    rcases bindings with same | ⟨-, same⟩
    · rwa [same]
    · rw [same]
      exact within.set name held
  founded founded id inside' := by
    rw [Heap.bind_size] at inside' ⊢
    obtain ⟨exists', older⟩ := keeps.founded founded id inside'
    refine ⟨exists', fun after parent made outer => ?_⟩
    obtain ⟨old, found, same, -⟩ := Heap.bind_eq_some made
    exact older old parent found (same ▸ outer)

theorem Keeps.push (keeps : region.Keeps heap) {parent : ScopeId} {bindings : Bindings}
    (inside : region.Inside heap.size parent) (made : parent < heap.size)
    (within : bindings.Within (region.Inside heap.size)) :
    region.Keeps (heap.push ⟨bindings, some parent⟩) := by
  have grows : ∀ id, region.Inside heap.size id → region.Inside (heap.size + 1) id :=
    fun _ => .mono (Nat.le_succ _)
  -- The region has grown by the new scope only.
  have earlier (id : ScopeId) (old : id < heap.size) (inside : region.Inside (heap.size + 1) id) :
      region.Inside heap.size id := by
    rcases inside with first | ⟨made, -⟩
    · exact .inl first
    · exact .inr ⟨made, old⟩
  constructor
  · rw [Array.size_push]
    exact Nat.le_succ_of_le keeps.grown
  · intro id old outside
    have other : id ≠ heap.size := by
      have grown := keeps.grown
      omega
    rw [Array.getElem?_push, if_neg other]
    exact keeps.untouched id old outside
  · intro id scope inside' found
    rw [Array.size_push] at inside' ⊢
    rcases Heap.push_eq_some found with ⟨rfl, rfl⟩ | ⟨old, found⟩
    · refine ⟨?_, within.mono grows⟩
      rintro _ ⟨⟩
      exact grows parent inside
    · obtain ⟨outer, within⟩ := keeps.closed id scope (earlier id old inside') found
      exact ⟨fun parent same => grows parent (outer parent same), within.mono grows⟩
  · intro founded id inside'
    rw [Array.size_push] at inside' ⊢
    have exists' : id < heap.size + 1 := by
      rcases inside' with first | ⟨-, bound⟩
      · exact Nat.lt_succ_of_lt (keeps.founded founded id (.inl first)).1
      · exact bound
    refine ⟨exists', fun scope outer found same => ?_⟩
    rcases Heap.push_eq_some found with ⟨rfl, rfl⟩ | ⟨old, found⟩
    · cases same
      exact made
    · exact (keeps.founded founded id (earlier id old inside')).2 scope outer found same

/-- A run from a machine stays in the region, and what it gives is as described for the size that
the heap has then. A scope can be missing only if the region was not founded. -/
def Stays {α : Type} (region : Region) (run : Run α) (machine : Machine)
    (post : Nat → α → Prop) : Prop :=
  match run machine with
  | .ok value after => region.Keeps after.heap ∧ machine.heap.size ≤ after.heap.size ∧
      post after.heap.size value
  | .error stop after => region.Keeps after.heap ∧
      (stop = .dangling → ¬ Founded region.before region.first)

namespace Stays

variable {α β : Type} {machine : Machine} {post : Nat → α → Prop}

theorem pure (keeps : region.Keeps machine.heap) {value : α} (holds : post machine.heap.size value) :
    region.Stays (Pure.pure value) machine post :=
  ⟨keeps, Nat.le_refl _, holds⟩

theorem fail (keeps : region.Keeps machine.heap) {line : Nat} {fault : RuntimeFault} :
    region.Stays (Run.fail line fault) machine post :=
  ⟨keeps, nofun⟩

theorem exhausted (keeps : region.Keeps machine.heap) :
    region.Stays (throw .exhausted) machine post :=
  ⟨keeps, nofun⟩

theorem bind {run : Run α} {next : α → Run β} {final : Nat → β → Prop}
    (first : region.Stays run machine post)
    (goesOn : ∀ value after, region.Keeps after.heap → machine.heap.size ≤ after.heap.size →
      post after.heap.size value → region.Stays (next value) after final) :
    region.Stays (run >>= next) machine final := by
  unfold Stays at first ⊢
  cases ran : run machine with
  | ok value middle =>
    rw [ran] at first
    obtain ⟨keeps, grown, holds⟩ := first
    have rest := goesOn value middle keeps grown holds
    rw [Sequencing.bind_ok ran]
    unfold Stays at rest
    split <;> rename_i last <;> rw [last] at rest
    · exact ⟨rest.1, Nat.le_trans grown rest.2.1, rest.2.2⟩
    · exact rest
  | error stop middle =>
    rw [ran] at first
    rw [Sequencing.bind_error ran]
    exact first

/-- Nothing after an error is run. -/
theorem failing {next : α → Run β} {final : Nat → β → Prop} (keeps : region.Keeps machine.heap)
    {line : Nat} {fault : RuntimeFault} :
    region.Stays (Run.fail line fault >>= next) machine final :=
  ⟨keeps, nofun⟩

theorem lift (keeps : region.Keeps machine.heap) {line : Nat} {result : Except RuntimeFault α}
    (holds : ∀ value, result = .ok value → post machine.heap.size value) :
    region.Stays (Run.lift line result) machine post := by
  cases result with
  | ok value => exact pure keeps (holds value rfl)
  | error fault => exact fail keeps

theorem get (keeps : region.Keeps machine.heap) {line : Nat}
    (inside : region.Inside machine.heap.size scope) :
    region.Stays (Run.get line name scope) machine region.Holds := by
  unfold Stays Run.get Heap.get
  cases found : machine.heap.find name scope with
  | ok binding =>
    obtain ⟨owner, binding⟩ := binding
    cases binding with
    | some value => exact ⟨keeps, Nat.le_refl _, (keeps.find inside found).2 value rfl⟩
    | none => exact ⟨keeps, nofun⟩
  | error error =>
    cases error with
    | undefined | uninitialized => exact ⟨keeps, nofun⟩
    | dangling => exact ⟨keeps, fun _ => keeps.dangling inside found⟩

theorem assign (keeps : region.Keeps machine.heap) {line : Nat}
    (inside : region.Inside machine.heap.size scope) {value : Value}
    (within : region.Holds machine.heap.size value) :
    region.Stays (Run.assign line name value scope) machine fun _ _ => True := by
  unfold Stays Run.assign
  cases found : machine.heap.find name scope with
  | ok binding =>
    refine ⟨keeps.bind (keeps.find inside found).1 ?_, Nat.le_of_eq (Heap.bind_size ..).symm, trivial⟩
    rintro _ ⟨⟩
    exact within
  | error error =>
    cases error with
    | undefined | uninitialized => exact ⟨keeps, nofun⟩
    | dangling => exact ⟨keeps, fun _ => keeps.dangling inside found⟩

theorem bindName (keeps : region.Keeps machine.heap)
    (inside : region.Inside machine.heap.size scope) {value : Option Value}
    (held : ∀ own, value = some own → region.Holds machine.heap.size own) :
    region.Stays (Run.bind name value scope) machine fun _ _ => True := by
  unfold Stays Run.bind
  split
  next made ran =>
    split at ran <;> cases ran
    exact ⟨keeps.bind inside held, Nat.le_of_eq (Heap.bind_size ..).symm, trivial⟩
  next stop after ran =>
    split at ran
    next => cases ran
    next absent =>
      cases ran
      exact ⟨keeps, fun _ => keeps.missing inside (Nat.not_lt.mp absent)⟩

theorem enter (keeps : region.Keeps machine.heap) {bindings : Bindings} {parent : ScopeId}
    (inside : region.Inside machine.heap.size parent)
    (within : bindings.Within (region.Inside machine.heap.size)) :
    region.Stays (Run.enter bindings parent) machine fun size scope => region.Inside size scope := by
  unfold Stays
  by_cases made : parent < machine.heap.size
  · simp only [Run.enter, if_pos made, Array.size_push]
    exact ⟨keeps.push inside made within, Nat.le_succ _, .inr ⟨keeps.grown, Nat.lt_succ_self _⟩⟩
  · simp only [Run.enter, if_neg made]
    exact ⟨keeps, fun _ => keeps.missing inside (Nat.not_lt.mp made)⟩

theorem declareFunction (keeps : region.Keeps machine.heap) {params : List String}
    {body : List (Stmt Place)} (inside : region.Inside machine.heap.size scope) :
    region.Stays (Run.declareFunction name params body scope) machine fun _ _ => True := by
  have counted : region.Stays Run.newFunction machine fun size _ => size = machine.heap.size :=
    ⟨keeps, Nat.le_refl _, rfl⟩
  refine counted.bind fun id after keeps _ same => bindName keeps (same ▸ inside) ?_
  rintro _ ⟨⟩
  exact same ▸ inside

theorem mayEnter (keeps : region.Keeps machine.heap) (settings : Settings) (line : Nat) :
    region.Stays (Run.mayEnter settings line) machine fun _ _ => True := by
  unfold Stays Run.mayEnter
  cases settings.maxDepth with
  | none => exact ⟨keeps, Nat.le_refl _, trivial⟩
  | some limit =>
    by_cases deep : limit ≤ machine.depth
    · simp only [deep, if_true]
      exact ⟨keeps, nofun⟩
    · simp only [deep, if_false]
      exact ⟨keeps, Nat.le_refl _, trivial⟩

theorem inFrame {frame : Frame} {body : Run Signal}
    (stays : region.Stays body { machine with depth := machine.depth + 1 } fun size signal =>
      signal.Within (region.Inside size)) :
    region.Stays (Run.inFrame frame body) machine region.Holds := by
  unfold Stays Run.inFrame at *
  cases ran : body { machine with depth := machine.depth + 1 } with
  | ok signal after =>
    rw [ran] at stays
    obtain ⟨keeps, grown, within⟩ := stays
    cases signal with
    | normal => exact ⟨keeps, grown, trivial⟩
    | returning value line => exact ⟨keeps, grown, within⟩
    | jumping jump line => exact ⟨keeps, nofun⟩
  | error stop after =>
    rw [ran] at stays
    cases stop with
    | failed error => exact ⟨stays.1, nofun⟩
    | exhausted | dangling => exact stays

end Stays
end Region
end Lox
