import Mathlib.Logic.Function.Basic
import Lox.Proofs.Lookups
import Lox.Proofs.VariableLevels

/-! Scopes as a program plans them. Each scope that a run makes only ever binds names that were planned
for it, and the functions that are stored name no variables but those of the program. -/

namespace Lox

/-- The names that each scope may ever bind. -/
abbrev Plan := ScopeId → List String

/-- The scopes from one outwards are as some layers say. -/
def Heap.Fits (heap : Heap) (plan : Plan) : ScopeId → List Layer → Prop
  | id, [] => ∃ scope, heap[id]? = some scope ∧ scope.parent = none
  | id, layer :: outer => ∃ scope parent, heap[id]? = some scope ∧ scope.parent = some parent ∧
      parent < id ∧ (∀ name ∈ layer.bound, (scope.bindings.lookup name).isSome) ∧
      (layer.deferred = false → ∀ name, (scope.bindings.lookup name).isSome → name ∈ layer.bound) ∧
      (∀ name ∈ plan id, name ∈ layer.bound ∨ name ∈ layer.ahead) ∧ Fits heap plan parent outer

/-- The function was declared where some layers are around it, and the table holds what it names. -/
def Closure.Planned (table : List Occurrence) (plan : Plan) (heap : Heap) (closure : Closure) :
    Prop :=
  ∃ layers : List Layer, heap.Fits plan closure.scope (layers.map Layer.defer) ∧
    Stmt.allOrderly closure.body ∧
      Stmt.occurrencesIn closure.params (layers.map Layer.defer) closure.body ⊆ table

structure Heap.Planned (table : List Occurrence) (plan : Plan) (heap : Heap) : Prop where
  named : ∀ (id : ScopeId) (scope : Scope), heap[id]? = some scope → scope.parent ≠ none →
    ∀ name, (scope.bindings.lookup name).isSome → name ∈ plan id
  held : ∀ (id : ScopeId) (scope : Scope), heap[id]? = some scope →
    scope.bindings.Meets (Closure.Planned table plan heap)

/-- What the later plan says of the scopes there are. -/
def Plan.Extends (plan' plan : Plan) (heap : Heap) : Prop := ∀ id < heap.size, plan' id = plan id

variable {table : List Occurrence} {plan plan' : Plan} {heap heap' : Heap}
  {declares : ScopeId → String → Bool → Prop}

namespace Heap.Fits

variable {id : ScopeId} {layers : List Layer}

theorem made (fits : heap.Fits plan id layers) : id < heap.size := by
  cases layers with
  | nil =>
    obtain ⟨scope, made, -⟩ := fits
    exact (Array.getElem?_eq_some_iff.mp made).1
  | cons layer outer =>
    obtain ⟨scope, parent, made, -⟩ := fits
    exact (Array.getElem?_eq_some_iff.mp made).1

/-- Where no names come in, the scopes stay as the layers say. -/
theorem still (fits : heap.Fits plan id layers) (evolves : heap.Evolves declares heap')
    (none : ∀ other ≤ id, ∀ name valued, ¬ declares other name valued)
    (extended : plan'.Extends plan heap) : heap'.Fits plan' id layers := by
  induction layers generalizing id with
  | nil =>
    obtain ⟨scope, made, last⟩ := fits
    obtain ⟨later, made', change⟩ := evolves id scope made
    exact ⟨later, made', change.parent.trans last⟩
  | cons layer outer ih =>
    have old := fits.made
    obtain ⟨scope, parent, made, outward, older, bound, exact', planned, around⟩ := fits
    obtain ⟨later, made', change⟩ := evolves id scope made
    refine ⟨later, parent, made', change.parent.trans outward, older, ?_, ?_, ?_, ih around ?_⟩
    · exact fun name member => change.kept name (bound name member)
    · intro direct name there
      rcases change.added name there with before | ⟨valued, declared⟩
      · exact exact' direct name before
      · exact (none id (Nat.le_refl id) name valued declared).elim
    · rw [extended id old]
      exact planned
    · exact fun other outside => none other (Nat.le_trans outside (Nat.le_of_lt older))

theorem steady (fits : heap.Fits plan id layers) (evolves : heap.Evolves (fun _ _ _ => False) heap')
    (extended : plan'.Extends plan heap) : heap'.Fits plan' id layers :=
  fits.still evolves (fun _ _ _ _ => not_false) extended

/-- Deferred layers stay right whatever names come in. -/
theorem defer (fits : heap.Fits plan id layers) (evolves : heap.Evolves declares heap')
    (extended : plan'.Extends plan heap) : heap'.Fits plan' id (layers.map Layer.defer) := by
  induction layers generalizing id with
  | nil =>
    obtain ⟨scope, made, last⟩ := fits
    obtain ⟨later, made', change⟩ := evolves id scope made
    exact ⟨later, made', change.parent.trans last⟩
  | cons layer outer ih =>
    have old := fits.made
    obtain ⟨scope, parent, made, outward, older, bound, -, planned, around⟩ := fits
    obtain ⟨later, made', change⟩ := evolves id scope made
    refine ⟨later, parent, made', change.parent.trans outward, older, ?_, nofun, ?_, ih around⟩
    · exact fun name member => change.kept name (bound name member)
    · rw [extended id old]
      exact planned

/-- A variable is found so many scopes outwards as the layers say. -/
theorem links (fits : heap.Fits plan id layers) (planned : heap.Planned table plan) {name : String}
    {near links : Nat} (found : heap.distance name id = some near)
    (said : Layer.links name layers = some links) : near = links := by
  induction layers generalizing id near links with
  | nil =>
    obtain ⟨scope, made, last⟩ := fits
    obtain rfl := Option.some.inj said
    rw [Heap.distance, made] at found
    simp only [last] at found
    split at found <;> cases found
    rfl
  | cons layer outer ih =>
    obtain ⟨scope, parent, made, outward, older, bound, exact', all, around⟩ := fits
    rw [Heap.distance, made] at found
    simp only [outward] at found
    rw [Layer.links] at said
    by_cases there : (scope.bindings.lookup name).isSome
    · rw [if_pos there] at found
      obtain rfl := Option.some.inj found
      split at said
      next => exact Option.some.inj said
      next unbound =>
        split at said
        next => cases said
        next settled =>
          -- The name is bound in the scope, so it was declared before or may have been since.
          have inPlan := planned.named id scope made (by simp [outward]) name there
          rcases all name inPlan with before | later
          · exact absurd before unbound
          · cases deferred : layer.deferred with
            | false => exact absurd (exact' deferred name there) unbound
            | true => exact absurd ⟨deferred, later⟩ settled
    · rw [if_neg there, if_pos older] at found
      obtain ⟨within, inside, rfl⟩ := Option.map_eq_some_iff.mp found
      split at said
      next before => exact absurd (bound name before) there
      next =>
        split at said
        next => cases said
        next =>
          obtain ⟨_, same, rfl⟩ := Option.map_eq_some_iff.mp said
          exact congrArg (· + 1) (ih around inside same)

/-- A name comes in where the scopes are deferred. -/
theorem declare (fits : heap.Fits plan id layers) (name : String) (value : Option Value) :
    (heap.bind name value id).Fits plan id ((Layer.declare name layers).map Layer.defer) := by
  have evolves : heap.Evolves (fun _ _ _ => True) (heap.bind name value id) :=
    .bind fun _ _ => .inl trivial
  cases layers with
  | nil => exact fits.defer evolves fun _ _ => rfl
  | cons layer outer =>
    obtain ⟨scope, parent, made, outward, older, bound, -, all, around⟩ := fits
    refine ⟨{ scope with bindings := scope.bindings.set name value }, parent, ?_, outward, older, ?_,
      nofun, ?_, around.defer evolves fun _ _ => rfl⟩
    · rw [Heap.bind_getElem?, if_pos rfl, made]
      rfl
    · intro other member
      rw [Bindings.lookup_set]
      split
      next => rfl
      next different => exact bound other ((List.mem_cons.mp member).resolve_left different)
    · intro other member
      exact (all other member).imp_left (List.mem_cons_of_mem _)

/-- A new scope is made inside another one. -/
theorem enter (fits : heap.Fits plan id layers) {bindings : Bindings} {bound ahead names : List String}
    (same : ∀ name, (bindings.lookup name).isSome ↔ name ∈ bound)
    (all : ∀ name ∈ names, name ∈ bound ∨ name ∈ ahead) :
    Heap.Fits (heap.push ⟨bindings, some id⟩) (Function.update plan heap.size names) heap.size
      (⟨bound, ahead, false⟩ :: layers) := by
  refine ⟨⟨bindings, some id⟩, id, Array.getElem?_push_size, rfl, fits.made, ?_, ?_, ?_, ?_⟩
  · exact fun name member => (same name).mpr member
  · exact fun _ name there => (same name).mp there
  · rwa [Function.update_self]
  · refine fits.steady (.push heap _) fun other old => ?_
    exact Function.update_of_ne (Nat.ne_of_lt old) _ _

/-- A statement in the innermost scope has declared what it declares. -/
theorem advance {bound : List String} {stmt : Stmt Place} {rest : List (Stmt Place)}
    (fits : heap.Fits plan id (⟨bound, Stmt.declaredAll (stmt :: rest), false⟩ :: layers))
    (evolves : heap.Evolves (fun other name _ => other = id ∧ stmt.declared = some name) heap')
    (there : ∀ name, stmt.declared = some name →
      ∀ made, heap'[id]? = some made → (made.bindings.lookup name).isSome)
    (extended : plan'.Extends plan heap) : heap'.Fits plan' id
      (⟨stmt.declared.toList ++ bound, Stmt.declaredAll rest, false⟩ :: layers) := by
  have old := fits.made
  obtain ⟨scope, parent, made, outward, older, named, direct, all, around⟩ := fits
  obtain ⟨later, made', change⟩ := evolves id scope made
  refine ⟨later, parent, made', change.parent.trans outward, older, ?_, ?_, ?_, ?_⟩
  · intro name member
    rcases List.mem_append.mp member with new | before
    · exact there name (Option.mem_toList.mp new) later made'
    · exact change.kept name (named name before)
  · intro _ name bound
    rcases change.added name bound with before | ⟨_, -, new⟩
    · exact List.mem_append_right _ (direct rfl name before)
    · exact List.mem_append_left _ (Option.mem_toList.mpr new)
  · intro name member
    rw [extended id old] at member
    rcases all name member with before | later
    · exact .inl (List.mem_append_right _ before)
    · simp only [Stmt.declaredAll_cons, List.mem_append] at later
      exact later.imp_left (List.mem_append_left _)
  · refine around.still evolves (fun other outside name _ declared => ?_) extended
    exact absurd declared.1 (Nat.ne_of_lt (Nat.lt_of_le_of_lt outside older))

end Heap.Fits

theorem Closure.Planned.later {closure : Closure} (planned : closure.Planned table plan heap)
    (evolves : heap.Evolves declares heap') (extended : plan'.Extends plan heap) :
    closure.Planned table plan' heap' := by
  obtain ⟨layers, fits, orderly, named⟩ := planned
  have fits := fits.defer evolves extended
  rw [Layer.defer_defer] at fits
  exact ⟨layers, fits, orderly, named⟩

namespace Heap.Planned

variable {name : String} {value : Option Value} {scope : ScopeId}

/-- A name that is planned for a scope is bound there. -/
theorem bind (planned : heap.Planned table plan)
    (named : ∀ made, heap[scope]? = some made → made.parent ≠ none → name ∈ plan scope)
    (held : ∀ own, value = some own →
      own.Meets (Closure.Planned table plan (heap.bind name value scope))) :
    (heap.bind name value scope).Planned table plan := by
  have evolves : heap.Evolves (fun _ _ _ => True) (heap.bind name value scope) :=
    .bind fun _ _ => .inl trivial
  constructor
  · intro id after made inner key there
    obtain ⟨old, found, parent, same | ⟨rfl, same⟩⟩ := bind_eq_some made
    · exact planned.named id old found (parent ▸ inner) key (same ▸ there)
    · rw [same, Bindings.lookup_set] at there
      split at there
      next own => exact own ▸ named old found (parent ▸ inner)
      next => exact planned.named scope old found (parent ▸ inner) key there
  · intro id after made
    obtain ⟨old, found, -, bindings⟩ := bind_eq_some made
    have before : old.bindings.Meets (Closure.Planned table plan (heap.bind name value scope)) :=
      (planned.held id old found).mono fun _ was => was.later evolves fun _ _ => rfl
    rcases bindings with same | ⟨-, same⟩
    · rwa [same]
    · rw [same]
      exact before.set name held

theorem push (planned : heap.Planned table plan) {bindings : Bindings} {names : List String}
    (named : ∀ name, (bindings.lookup name).isSome → name ∈ names)
    (held : bindings.Meets (Closure.Planned table plan heap)) (parent : ScopeId) :
    Heap.Planned table (Function.update plan heap.size names)
      (heap.push ⟨bindings, some parent⟩) := by
  have evolves : heap.Evolves (fun _ _ _ => True) (heap.push ⟨bindings, some parent⟩) :=
    .push heap _
  have extended : Plan.Extends (Function.update plan heap.size names) plan heap :=
    fun other old => Function.update_of_ne (Nat.ne_of_lt old) _ _
  have later (closure : Closure) (was : closure.Planned table plan heap) :=
    was.later evolves extended
  constructor
  · intro id after made inner name there
    rcases push_eq_some made with ⟨rfl, rfl⟩ | ⟨old, before⟩
    · rw [Function.update_self]
      exact named name there
    · rw [extended id old]
      exact planned.named id after before inner name there
  · intro id after made
    rcases push_eq_some made with ⟨-, rfl⟩ | ⟨-, before⟩
    · exact held.mono later
    · exact (planned.held id after before).mono later

/-- The function that a search for a name ends at. -/
theorem find (planned : heap.Planned table plan) {owner : ScopeId} {own : Value}
    (found : heap.find name scope = .ok (owner, some own)) :
    own.Meets (Closure.Planned table plan heap) := by
  obtain ⟨made, at', bound⟩ := Heap.find_bound found
  exact (planned.held owner made at').lookup bound

end Heap.Planned
end Lox
