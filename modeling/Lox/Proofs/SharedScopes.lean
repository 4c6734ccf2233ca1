import Mathlib.Logic.Relation
import Lox.Proofs.ScopeNames

/-! Scopes are shared maps. What a handle gives for a name is what was last written to the nearest
scope outwards that the name was ever written to, through whichever handle that was done. -/

namespace Lox

/-- What was written to a scope. A declaration leaves the name without a value. -/
structure Write where
  scope : ScopeId
  name : String
  value : Option Value

/-- What a name of a scope was last bound to, if it ever was. The latest write comes first. -/
def latest (writes : List Write) (scope : ScopeId) (name : String) : Option (Option Value) :=
  (writes.find? fun write => write.scope = scope ∧ write.name = name).map Write.value

theorem latest_cons (write : Write) (writes : List Write) (scope : ScopeId) (name : String) :
    latest (write :: writes) scope name =
      if scope = write.scope ∧ name = write.name then some write.value
      else latest writes scope name := by
  rw [latest, List.find?_cons]
  by_cases same : scope = write.scope ∧ name = write.name
  · simp [same]
  · have other : ¬ (write.scope = scope ∧ write.name = name) := fun ⟨scopes, names⟩ =>
      same ⟨scopes.symm, names.symm⟩
    simp [same, other, latest]

namespace Heap

/-- What a scope by itself binds a name to. -/
def bound (heap : Heap) (scope : ScopeId) (name : String) : Option (Option Value) :=
  heap[scope]?.bind fun made => made.bindings.lookup name

/-- The scope around a scope. -/
def outer (heap : Heap) (scope : ScopeId) : Option ScopeId := heap[scope]?.bind Scope.parent

/-- The chain of a scope: the scope itself and those around it. -/
def Chain (heap : Heap) : ScopeId → ScopeId → Prop :=
  Relation.ReflTransGen fun scope parent => heap.outer scope = some parent

/-- The chain of a scope comes to another, and no scope before that one has the name. -/
inductive Sees (heap : Heap) (writes : List Write) (name : String) : ScopeId → ScopeId → Prop where
  | here : Sees heap writes name scope scope
  | outwards (free : latest writes scope name = none) (outer : heap.outer scope = some parent)
      (further : Sees heap writes name parent target) : Sees heap writes name scope target

theorem Sees.chain {heap : Heap} {writes : List Write} {name : String} {scope target : ScopeId}
    (sees : heap.Sees writes name scope target) : heap.Chain scope target := by
  induction sees with
  | here => exact .refl
  | outwards free outer further ih => exact .head outer ih

/-- The nearest scope on the chain of a scope that has the name. -/
def Resolves (heap : Heap) (writes : List Write) (name : String) (scope owner : ScopeId) : Prop :=
  heap.Sees writes name scope owner ∧ latest writes owner name ≠ none

end Heap

/-- Heaps that are built through handles, with the handles that were given out and what was written.
A handle is the number of its scope, so that another handle to the scope is the same number. -/
inductive Built : Heap → List ScopeId → List Write → Prop where
  | start : Built #[] [] []
  | newGlobal (built : Built heap handles writes) (made : heap.make ⟨[], none⟩ = (scope, after)) :
      Built after (scope :: handles) writes
  | child (built : Built heap handles writes) (handle : parent ∈ handles)
      (made : heap.make ⟨[], some parent⟩ = (scope, after)) : Built after (scope :: handles) writes
  | share (built : Built heap handles writes) (handle : scope ∈ handles) :
      Built heap (scope :: handles) writes
  | define (built : Built heap handles writes) (handle : scope ∈ handles) :
      Built (heap.define name value scope) handles (⟨scope, name, some value⟩ :: writes)
  | declare (built : Built heap handles writes) (handle : scope ∈ handles) :
      Built (heap.declare name scope) handles (⟨scope, name, none⟩ :: writes)
  | assign (built : Built heap handles writes) (handle : scope ∈ handles)
      (done : heap.assign name value scope = .ok after)
      (nearest : heap.Resolves writes name scope owner) :
      Built after handles (⟨owner, name, some value⟩ :: writes)
  | refuse (built : Built heap handles writes) (handle : scope ∈ handles)
      (failed : heap.assign name value scope = .error error) : Built heap handles writes

/-- Handles lead to scopes, scopes to older ones, and each binds what was last written to it. -/
structure Kept (heap : Heap) (handles : List ScopeId) (writes : List Write) : Prop where
  handles : ∀ scope ∈ handles, scope < heap.size
  older : ∀ scope parent, heap.outer scope = some parent → parent < scope
  bound : ∀ scope name, heap.bound scope name = latest writes scope name

namespace Heap

variable {heap : Heap} {handles : List ScopeId} {writes : List Write} {name key : String}
  {value : Option Value} {scope owner parent : ScopeId}

theorem bound_make (made : Scope) (id : ScopeId) (name : String) :
    bound (heap.make made).2 id name =
      if id = heap.size then made.bindings.lookup name else heap.bound id name := by
  simp only [bound, make, Array.getElem?_push]
  split <;> rfl

theorem outer_make (made : Scope) (id : ScopeId) :
    outer (heap.make made).2 id = if id = heap.size then made.parent else heap.outer id := by
  simp only [outer, make, Array.getElem?_push]
  split <;> rfl

theorem bound_bind (inside : owner < heap.size) (id : ScopeId) (key : String) :
    (heap.bind name value owner).bound id key =
      if id = owner ∧ key = name then some value else heap.bound id key := by
  have there : heap[owner]? = some heap[owner] := Array.getElem?_eq_getElem inside
  simp only [bound, bind, Array.getElem?_modify]
  by_cases same : owner = id
  · subst same
    simp [there, Bindings.lookup_set]
  · simp [same, Ne.symm same]

theorem outer_bind (id : ScopeId) : (heap.bind name value owner).outer id = heap.outer id := by
  simp only [outer, bind, Array.getElem?_modify]
  split
  · cases heap[id]? <;> rfl
  · rfl

theorem size_bind : (heap.bind name value owner).size = heap.size := Array.size_modify

theorem bound_missing (missing : heap.size ≤ scope) : heap.bound scope name = none := by
  simp [bound, missing]

/-- The search for a name looks at one scope and goes on with the one around it. -/
theorem find_inside (inside : scope < heap.size) : heap.find name scope =
    match heap.bound scope name with
    | some value => .ok (scope, value)
    | none =>
      match heap.outer scope with
      | none => .error .undefined
      | some parent => if parent < scope then heap.find name parent else .error .dangling := by
  have there : heap[scope]? = some heap[scope] := Array.getElem?_eq_getElem inside
  have binding : heap.bound scope name = heap[scope].bindings.lookup name := by
    rw [bound, there, Option.bind_some]
  have around : heap.outer scope = heap[scope].parent := by rw [outer, there, Option.bind_some]
  rewrite [find, there, binding, around]
  rfl

end Heap

namespace Kept

variable {heap : Heap} {handles : List ScopeId} {writes : List Write} {name key : String}
  {value : Option Value} {scope owner parent : ScopeId}

theorem make {made : Scope} (kept : Kept heap handles writes) (empty : made.bindings = [])
    (older : ∀ parent, made.parent = some parent → parent ∈ handles) :
    Kept (heap.make made).2 (heap.size :: handles) writes where
  handles id member := by
    have larger : heap.size < (heap.make made).2.size := by
      rw [Heap.make, Array.size_push]
      exact Nat.lt_succ_self _
    rcases List.mem_cons.mp member with rfl | earlier
    · exact larger
    · exact Nat.lt_trans (kept.handles id earlier) larger
  older id parent outer := by
    rw [Heap.outer_make] at outer
    split at outer
    next same => exact same ▸ kept.handles parent (older parent outer)
    next => exact kept.older id parent outer
  bound id key := by
    rw [Heap.bound_make]
    split
    next same =>
      rw [empty, ← kept.bound, same, Heap.bound_missing (Nat.le_refl _)]
      rfl
    next => exact kept.bound id key

theorem bind (kept : Kept heap handles writes) (inside : owner < heap.size) :
    Kept (heap.bind name value owner) handles (⟨owner, name, value⟩ :: writes) where
  handles id member := by
    rw [Heap.size_bind]
    exact kept.handles id member
  older id parent outer := by
    rw [Heap.outer_bind] at outer
    exact kept.older id parent outer
  bound id key := by
    rw [Heap.bound_bind inside, latest_cons, kept.bound]

theorem chain_inside (kept : Kept heap handles writes) (inside : scope < heap.size)
    (outer : heap.outer scope = some parent) : parent < heap.size :=
  Nat.lt_trans (kept.older scope parent outer) inside

theorem inside_of_latest (kept : Kept heap handles writes)
    (bound : latest writes owner name = some value) : owner < heap.size := by
  refine Decidable.by_contra fun outside => ?_
  rw [← kept.bound, Heap.bound_missing (Nat.le_of_not_lt outside)] at bound
  cases bound

/-- The search finds the binding of the nearest scope that has the name. -/
theorem find_of_sees (kept : Kept heap handles writes) (inside : scope < heap.size)
    (sees : heap.Sees writes name scope owner) (bound : latest writes owner name = some value) :
    heap.find name scope = .ok (owner, value) := by
  induction sees with
  | here => rw [Heap.find_inside inside, kept.bound, bound]
  | @outwards id parent target free outer further ih =>
    rw [Heap.find_inside inside, kept.bound, free, outer]
    simp only [if_pos (kept.older id parent outer)]
    exact ih (kept.chain_inside inside outer) bound

/-- Otherwise it comes to the end of the chain, and no scope of the chain has the name. -/
theorem find_cases (kept : Kept heap handles writes) (inside : scope < heap.size) (name : String) :
    (∃ owner value, heap.find name scope = .ok (owner, value) ∧
      heap.Sees writes name scope owner ∧ latest writes owner name = some value) ∨
    heap.find name scope = .error .undefined ∧
      ∀ around, heap.Chain scope around → latest writes around name = none := by
  induction scope using Nat.strongRecOn with
  | ind scope ih =>
    rw [Heap.find_inside inside, kept.bound]
    cases bound : latest writes scope name with
    | some value => exact .inl ⟨scope, value, rfl, .here, bound⟩
    | none =>
      cases outer : heap.outer scope with
      | none =>
        refine .inr ⟨rfl, fun around chain => ?_⟩
        rcases chain.cases_head with rfl | ⟨next, first, -⟩
        · exact bound
        · rw [outer] at first
          cases first
      | some parent =>
        have older := kept.older scope parent outer
        simp only [if_pos older]
        rcases ih parent older (kept.chain_inside inside outer) with
          ⟨owner, value, found, sees, held⟩ | ⟨undefined, nowhere⟩
        · exact .inl ⟨owner, value, found, .outwards bound outer sees, held⟩
        · refine .inr ⟨undefined, fun around chain => ?_⟩
          rcases chain.cases_head with rfl | ⟨next, first, further⟩
          · exact bound
          · rw [outer] at first
            cases first
            exact nowhere around further

/-- Whoever sees the scope that a name is written to finds what was written there. -/
theorem find_bind_seen (kept : Kept heap handles writes) (inside : scope < heap.size)
    (there : owner < heap.size) (sees : heap.Sees writes name scope owner) :
    (heap.bind name value owner).find name scope = .ok (owner, value) := by
  induction sees with
  | here =>
    rw [Heap.find_inside (by rwa [Heap.size_bind]), Heap.bound_bind there, if_pos ⟨rfl, rfl⟩]
  | @outwards id parent target free outer further ih =>
    rw [Heap.find_inside (by rwa [Heap.size_bind]), Heap.bound_bind there]
    by_cases same : id = target
    · rw [if_pos ⟨same, rfl⟩, same]
    · rw [if_neg fun both => same both.1, kept.bound, free, Heap.outer_bind, outer]
      simp only [if_pos (kept.older id parent outer)]
      exact ih (kept.chain_inside inside outer) there

/-- Whoever does not see it, or looks for another name, finds what was found before. -/
theorem find_bind_missed (kept : Kept heap handles writes) (inside : scope < heap.size)
    (there : owner < heap.size) (missed : ¬ (key = name ∧ heap.Sees writes name scope owner)) :
    (heap.bind name value owner).find key scope = heap.find key scope := by
  induction scope using Nat.strongRecOn with
  | ind scope ih =>
    have other : ¬ (scope = owner ∧ key = name) := by
      rintro ⟨rfl, rfl⟩
      exact missed ⟨rfl, .here⟩
    rw [Heap.find_inside (by rwa [Heap.size_bind]), Heap.find_inside inside,
      Heap.bound_bind there, Heap.outer_bind, if_neg other]
    cases bound : heap.bound scope key with
    | some value => rfl
    | none =>
      cases outer : heap.outer scope with
      | none => rfl
      | some parent =>
        have older := kept.older scope parent outer
        simp only [if_pos older]
        refine ih parent older (kept.chain_inside inside outer) fun ⟨same, further⟩ => missed ⟨same, ?_⟩
        have free : latest writes scope name = none := by rw [← kept.bound, ← same, bound]
        exact .outwards free outer further

end Kept

/-- The scopes of every heap that is built are as they should be. -/
theorem Built.kept {heap : Heap} {handles : List ScopeId} {writes : List Write}
    (built : Built heap handles writes) : Kept heap handles writes := by
  induction built with
  | start =>
    refine ⟨by simp, fun scope parent outer => ?_, fun scope name => rfl⟩
    cases outer
  | newGlobal built made ih =>
    cases made
    exact ih.make rfl nofun
  | child built handle made ih =>
    cases made
    refine ih.make rfl fun parent outer => ?_
    cases outer
    exact handle
  | share built handle ih =>
    refine ⟨fun id member => ?_, ih.older, ih.bound⟩
    rcases List.mem_cons.mp member with rfl | earlier
    · exact ih.handles _ handle
    · exact ih.handles id earlier
  | define built handle ih | declare built handle ih => exact ih.bind (ih.handles _ handle)
  | @assign heap handles writes scope name value after owner built handle done nearest ih =>
    obtain ⟨sees, named⟩ := nearest
    obtain ⟨old, bound⟩ := Option.ne_none_iff_exists'.mp named
    have found := ih.find_of_sees (ih.handles _ handle) sees bound
    rw [Heap.assign, found] at done
    cases done
    exact ih.bind (ih.inside_of_latest bound)
  | refuse built handle failed ih => exact ih

/-- What handles give changes for some of them and some names, and stays for all others. -/
structure Heap.Changes (before after : Heap) (handles : List ScopeId)
    (concerned : ScopeId → String → Prop) (given : Except ScopeError Value) : Prop where
  changed : ∀ handle ∈ handles, ∀ name, concerned handle name → after.get name handle = given
  kept : ∀ handle ∈ handles, ∀ name, ¬ concerned handle name →
    after.get name handle = before.get name handle

/-- Scopes as maps that handles share: reading looks for the nearest scope that has a name, assigning
writes there, and declarations write to the scope itself. -/
structure SharedMaps (heap : Heap) (handles : List ScopeId) (writes : List Write) : Prop where
  value : ∀ scope ∈ handles, ∀ name value, heap.get name scope = .ok value ↔
    ∃ owner, heap.Sees writes name scope owner ∧ latest writes owner name = some (some value)
  uninitialized : ∀ scope ∈ handles, ∀ name, heap.get name scope = .error .uninitialized ↔
    ∃ owner, heap.Sees writes name scope owner ∧ latest writes owner name = some none
  undefined : ∀ scope ∈ handles, ∀ name, heap.get name scope = .error .undefined ↔
    ∀ around, heap.Chain scope around → latest writes around name = none
  ends : ∀ scope ∈ handles, ∀ name, heap.get name scope ≠ .error .dangling
  assigns : ∀ scope ∈ handles, ∀ name value,
    (∃ after, heap.assign name value scope = .ok after) ↔ heap.get name scope ≠ .error .undefined
  assigned : ∀ scope ∈ handles, ∀ name value after, heap.assign name value scope = .ok after →
    ∃ owner, heap.Resolves writes name scope owner ∧
      heap.Changes after handles
        (fun handle key => key = name ∧ heap.Resolves writes name handle owner) (.ok value)
  refused : ∀ scope ∈ handles, ∀ name value line machine stop after, machine.heap = heap →
    Run.assign line name value scope machine = .error stop after →
      heap.assign name value scope = .error .undefined ∧
        ∀ handle ∈ handles, ∀ key, after.heap.get key handle = heap.get key handle
  defined : ∀ scope ∈ handles, ∀ name value,
    heap.Changes (heap.define name value scope) handles
      (fun handle key => key = name ∧ heap.Sees writes name handle scope) (.ok value)
  declared : ∀ scope ∈ handles, ∀ name,
    heap.Changes (heap.declare name scope) handles
      (fun handle key => key = name ∧ heap.Sees writes name handle scope)
      (.error .uninitialized)

namespace Kept

variable {heap : Heap} {handles : List ScopeId} {writes : List Write}

theorem get_of_sees (kept : Kept heap handles writes) {scope owner : ScopeId} {name : String}
    {value : Option Value} (handle : scope ∈ handles)
    (sees : heap.Sees writes name scope owner) (bound : latest writes owner name = some value) :
    heap.get name scope = value.elim (.error .uninitialized) .ok := by
  have found := kept.find_of_sees (kept.handles scope handle) sees bound
  rw [Heap.get, found]
  cases value <;> rfl

/-- Something is given, or missing, where the nearest scope that has the name holds just that. -/
theorem get_bound_iff (kept : Kept heap handles writes) {scope : ScopeId} (handle : scope ∈ handles)
    (name : String) (value : Option Value) :
    heap.get name scope = value.elim (.error .uninitialized) .ok ↔
      ∃ owner, heap.Sees writes name scope owner ∧ latest writes owner name = some value := by
  refine ⟨fun given => ?_, fun ⟨owner, sees, bound⟩ => kept.get_of_sees handle sees bound⟩
  rcases kept.find_cases (kept.handles scope handle) name with
    ⟨owner, held, -, sees, bound⟩ | ⟨undefined, -⟩
  · rw [kept.get_of_sees handle sees bound] at given
    have same : held = value := by cases held <;> cases value <;> cases given <;> rfl
    exact ⟨owner, sees, same ▸ bound⟩
  · rw [Heap.get, undefined] at given
    cases value <;> cases given

theorem get_undefined_iff (kept : Kept heap handles writes) {scope : ScopeId}
    (handle : scope ∈ handles) (name : String) : heap.get name scope = .error .undefined ↔
      ∀ around, heap.Chain scope around → latest writes around name = none := by
  rcases kept.find_cases (kept.handles scope handle) name with
    ⟨owner, held, -, sees, bound⟩ | ⟨undefined, nowhere⟩
  · refine ⟨fun given => ?_, fun nowhere => ?_⟩
    · rw [kept.get_of_sees handle sees bound] at given
      cases held <;> cases given
    · rw [nowhere owner sees.chain] at bound
      cases bound
  · exact ⟨fun _ => nowhere, fun _ => by rw [Heap.get, undefined]⟩

theorem get_not_dangling (kept : Kept heap handles writes) {scope : ScopeId}
    (handle : scope ∈ handles) (name : String) : heap.get name scope ≠ .error .dangling := by
  rcases kept.find_cases (kept.handles scope handle) name with
    ⟨owner, held, -, sees, bound⟩ | ⟨undefined, -⟩
  · rw [kept.get_of_sees handle sees bound]
    cases held <;> nofun
  · rw [Heap.get, undefined]
    nofun

/-- A name that is written to a scope is given by all handles that see the scope. -/
theorem changes_bind (kept : Kept heap handles writes) {owner : ScopeId} (there : owner < heap.size)
    (name : String) (value : Option Value) :
    heap.Changes (heap.bind name value owner) handles
      (fun handle key => key = name ∧ heap.Sees writes name handle owner)
      (value.elim (.error .uninitialized) .ok) where
  changed handle member key := by
    rintro ⟨rfl, sees⟩
    have found : (heap.bind key value owner).find key handle = .ok (owner, value) :=
      kept.find_bind_seen (kept.handles handle member) there sees
    rw [Heap.get, found]
    cases value <;> rfl
  kept handle member key missed := by
    rw [Heap.get, Heap.get, kept.find_bind_missed (kept.handles handle member) there missed]

/-- An assignment is a write to the scope that the name is resolved to, if there is one. -/
theorem assign_cases (kept : Kept heap handles writes) {scope : ScopeId} (handle : scope ∈ handles)
    (name : String) (value : Value) :
    (∃ owner, heap.Resolves writes name scope owner ∧ owner < heap.size ∧
      heap.get name scope ≠ .error .undefined ∧
        heap.assign name value scope = .ok (heap.define name value owner)) ∨
    heap.get name scope = .error .undefined ∧ heap.assign name value scope = .error .undefined := by
  rcases kept.find_cases (kept.handles scope handle) name with
    ⟨owner, old, found, sees, bound⟩ | ⟨undefined, -⟩
  · have named : latest writes owner name ≠ none := by simp [bound]
    refine .inl ⟨owner, ⟨sees, named⟩, kept.inside_of_latest bound, ?_, by rw [Heap.assign, found]⟩
    rw [kept.get_of_sees handle sees bound]
    cases old <;> nofun
  · exact .inr ⟨by rw [Heap.get, undefined], by rw [Heap.assign, undefined]⟩

end Kept

/-- A run assigns as heaps do, and leaves the machine as it is where that fails. -/
theorem Run.assign_eq (line : Nat) (name : String) (value : Value) (scope : ScopeId)
    (machine : Machine) : Run.assign line name value scope machine =
      match machine.heap.assign name value scope with
      | .ok after => .ok () { machine with heap := after }
      | .error error => .error (error.stop line name) machine := by
  rw [Run.assign, Heap.assign]
  cases machine.heap.find name scope <;> rfl

/-- Whatever is done through handles, the scopes are maps that the handles share. -/
theorem Built.scopes_are_shared_maps {heap : Heap} {handles : List ScopeId} {writes : List Write}
    (built : Built heap handles writes) : SharedMaps heap handles writes where
  value scope handle name value := built.kept.get_bound_iff handle name (some value)
  uninitialized scope handle name := built.kept.get_bound_iff handle name none
  undefined scope handle name := built.kept.get_undefined_iff handle name
  ends scope handle name := built.kept.get_not_dangling handle name
  assigns scope handle name value := by
    rcases built.kept.assign_cases handle name value with ⟨owner, -, -, read, done⟩ | ⟨read, failed⟩
    · exact ⟨fun _ => read, fun _ => ⟨_, done⟩⟩
    · refine ⟨fun ⟨after, done⟩ => ?_, fun other => absurd read other⟩
      rw [failed] at done
      cases done
  assigned scope handle name value after done := by
    rcases built.kept.assign_cases handle name value with ⟨owner, nearest, there, -, same⟩ | ⟨-, failed⟩
    · obtain rfl := Except.ok.inj (done.symm.trans same)
      have concerned : (fun handle key => key = name ∧ heap.Resolves writes name handle owner) =
          fun handle key => key = name ∧ heap.Sees writes name handle owner := by
        funext handle key
        simp only [Heap.Resolves, nearest.2, ne_eq, not_false_eq_true, and_true]
      refine ⟨owner, nearest, ?_⟩
      rw [concerned]
      exact built.kept.changes_bind there name (some value)
    · rw [failed] at done
      cases done
  refused scope handle name value line machine stop after same failed := by
    subst same
    rw [Run.assign_eq] at failed
    rcases built.kept.assign_cases handle name value with ⟨owner, -, -, -, done⟩ | ⟨-, error⟩
    · rw [done] at failed
      cases failed
    · rw [error] at failed
      cases failed
      exact ⟨error, fun _ _ _ => rfl⟩
  defined scope handle name value :=
    built.kept.changes_bind (built.kept.handles scope handle) name (some value)
  declared scope handle name :=
    built.kept.changes_bind (built.kept.handles scope handle) name none

/-- A scope inside another declares a name that the other has a value for. Two handles see that, and
an assignment through either gives both of them the value. -/
theorem Built.scopes_are_shared_maps_shadowed :
    let outer := (Heap.make #[] ⟨[], none⟩).2.define "a" .nil 0
    let heap := (outer.make ⟨[], some 0⟩).2.declare "a" 1
    let writes : List Write := [⟨1, "a", none⟩, ⟨0, "a", some .nil⟩]
    Built heap [1, 1, 0] writes ∧ SharedMaps heap [1, 1, 0] writes ∧
      heap.get "a" 1 = .error .uninitialized ∧ heap.get "a" 0 = .ok .nil ∧
        ∃ after, heap.assign "a" (.bool true) 1 = .ok after ∧ after.get "a" 1 = .ok (.bool true) ∧
          after.get "a" 0 = .ok .nil := by
  intro outer heap writes
  have global : Built (Heap.make #[] ⟨[], none⟩).2 [0] [] := .newGlobal .start rfl
  have nested : Built (outer.make ⟨[], some 0⟩).2 [1, 0] [⟨0, "a", some .nil⟩] :=
    .child (.define global (by simp)) (by simp) rfl
  have built : Built heap [1, 1, 0] writes := .declare (.share nested (by simp)) (by simp)
  have maps := Built.scopes_are_shared_maps built
  have inner : heap.get "a" 1 = .error .uninitialized :=
    (maps.uninitialized 1 (by simp) "a").mpr ⟨1, .here, rfl⟩
  have around : heap.get "a" 0 = .ok .nil := (maps.value 0 (by simp) "a" .nil).mpr ⟨0, .here, rfl⟩
  obtain ⟨after, done⟩ := (maps.assigns 1 (by simp) "a" (.bool true)).mpr (by rw [inner]; nofun)
  obtain ⟨owner, nearest, changes⟩ := maps.assigned 1 (by simp) "a" (.bool true) after done
  have given : after.get "a" 1 = .ok (.bool true) := changes.changed 1 (by simp) "a" ⟨rfl, nearest⟩
  have elsewhere : ¬ heap.Resolves writes "a" 0 owner := by
    rcases nearest.1 with _ | ⟨free, -, -⟩
    · rintro ⟨_ | ⟨free, -, -⟩, -⟩
      cases free
    · cases free
  have same := changes.kept 0 (by simp) "a" fun concerned => elsewhere concerned.2
  exact ⟨built, maps, inner, around, after, done, given, same.trans around⟩

end Lox
