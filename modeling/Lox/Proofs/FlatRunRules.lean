import Lox.Proofs.FlatRuns
import Lox.Proofs.Sequencing
import Lox.Proofs.StoredClosures

/-! Runs over flat memory beside runs over trees. Values, scopes and machines read as their
counterparts, and every operation of a run keeps it so. -/

namespace Lox.Flat

/-- What runs have in common: the names that were given out, and the arenas that were parsed into. -/
structure World where
  interner : Interner
  parsed : Arena → Prop

/-- The function was declared where its own arena says, and what lies there are its parameters and its
body. -/
structure Closure.Reads (world : World) (closure : Closure) (other : Lox.Closure) : Prop where
  id : closure.id = other.id
  name : closure.name = other.name
  scope : closure.scope = other.scope
  parsed : world.parsed closure.arena
  declared : ∃ index name place,
    readNode closure.arena.stmts index = .ok ⟨.function name closure.params closure.body, place⟩
  params : ∃ names, readList closure.arena.params closure.params = .ok names ∧
    List.Forall₂ world.interner.Gave names other.params
  body : ∃ ids, readList closure.arena.stmtLists closure.body = .ok ids ∧
    List.Forall₂ (StmtAt world.interner closure.arena) ids other.body

inductive Value.Reads (world : World) : Value → Lox.Value → Prop where
  | nil : Reads world .nil .nil
  | bool : Reads world (.bool value) (.bool value)
  | number : Reads world (.number value) (.number value)
  | string : Reads world (.string contents) (.string contents)
  | function {closure : Closure} {other : Lox.Closure} (reads : closure.Reads world other) :
      Reads world (.function closure) (.function other)
  | native : Reads world (.native known) (.native known)

structure EntryReads (world : World) (entry : Name × Option Value)
    (other : String × Option Lox.Value) : Prop where
  name : world.interner.Gave entry.1 other.1
  value : Option.Rel (Value.Reads world) entry.2 other.2

structure Scope.Reads (world : World) (scope : Scope) (other : Lox.Scope) : Prop where
  bindings : List.Forall₂ (EntryReads world) scope.bindings other.bindings
  parent : scope.parent = other.parent

structure Heap.Reads (world : World) (heap : Heap) (other : Lox.Heap) : Prop where
  size : heap.size = other.size
  scopes : ∀ id : ScopeId, Option.Rel (Scope.Reads world) heap[id]? other[id]?

structure Machine.Reads (world : World) (machine : Machine) (other : Lox.Machine) : Prop where
  heap : machine.heap.Reads world other.heap
  printed : machine.printed = other.printed
  depth : machine.depth = other.depth
  functions : machine.functions = other.functions
  readings : machine.readings = other.readings

inductive Signal.Reads (world : World) : Signal → Lox.Signal → Prop where
  | normal : Reads world .normal .normal
  | returning (reads : value.Reads world other) :
      Reads world (.returning value line) (.returning other line)
  | jumping : Reads world (.jumping jump line) (.jumping jump line)

section Growth

variable {world : World} {interner : Interner} (grows : world.interner.GrowsTo interner)
include grows

theorem Closure.Reads.mono {closure : Closure} {other : Lox.Closure}
    (reads : closure.Reads world other) : closure.Reads { world with interner } other := by
  obtain ⟨names, labels, gaveAll⟩ := reads.params
  obtain ⟨ids, list, entries⟩ := reads.body
  exact ⟨reads.id, reads.name, reads.scope, reads.parsed, reads.declared,
    ⟨names, labels, gaveAll.imp fun _ _ gave => gave.mono grows⟩,
    ⟨ids, list, stmtsAt_mono grows (.refl _) entries⟩⟩

theorem Value.Reads.mono {value : Value} {other : Lox.Value} (reads : value.Reads world other) :
    value.Reads { world with interner } other := by
  cases reads with
  | function reads => exact .function (reads.mono grows)
  | nil => exact .nil
  | bool => exact .bool
  | number => exact .number
  | string => exact .string
  | native => exact .native

theorem EntryReads.mono {entry : Name × Option Value} {other : String × Option Lox.Value}
    (reads : EntryReads world entry other) : EntryReads { world with interner } entry other :=
  ⟨reads.name.mono grows, optional_imp reads.value (Value.Reads.mono grows)⟩

theorem Machine.Reads.mono {machine : Machine} {other : Lox.Machine}
    (reads : machine.Reads world other) : machine.Reads { world with interner } other := by
  refine ⟨⟨reads.heap.size, fun id => ?_⟩, reads.printed, reads.depth, reads.functions,
    reads.readings⟩
  refine optional_imp (reads.heap.scopes id) fun made => ?_
  exact ⟨made.bindings.imp fun _ _ entry => entry.mono grows, made.parent⟩

end Growth

variable {world : World}

namespace Value.Reads

variable {value : Value} {other : Lox.Value}

theorem isTruthy_eq (reads : value.Reads world other) : value.seen.isTruthy = other.isTruthy := by
  cases reads with
  | bool => rfl
  | nil | number | string | function | native => rfl

theorem text_eq (reads : value.Reads world other) : value.seen.text = other.text := by
  cases reads with
  | bool => rfl
  | function reads =>
    rw [seen, Lox.Value.text, Lox.Value.text, reads.name]
  | nil | number | string | native => rfl

theorem unary_eq (operator : UnaryOperator) (reads : value.Reads world other) :
    operator.apply value.seen = operator.apply other := by
  cases reads <;> cases operator <;> rfl

theorem equals_eq {value' : Value} {other' : Lox.Value} (reads : value.Reads world other)
    (reads' : value'.Reads world other') : value.seen.equals value'.seen = other.equals other' := by
  cases reads with
  | function reads =>
    cases reads' with
    | function reads' => exact congrArg₂ (· == ·) reads.id reads'.id
    | _ => rfl
  | _ => cases reads' <;> rfl

theorem binary_eq (operator : BinaryOperator) {value' : Value} {other' : Lox.Value}
    (reads : value.Reads world other) (reads' : value'.Reads world other') :
    operator.apply value.seen value'.seen = operator.apply other other' := by
  cases operator with
  | equal | notEqual =>
    rw [BinaryOperator.apply, BinaryOperator.apply, reads.equals_eq reads']
  | _ => cases reads <;> cases reads' <;> rfl

/-- A value that is no function is what it is seen as. -/
theorem ofSeen {other : Lox.Value} (plain : other.Meets fun _ => False) :
    ∃ value, Value.ofSeen other = .ok value ∧ value.Reads world other := by
  cases other with
  | nil => exact ⟨_, rfl, .nil⟩
  | bool => exact ⟨_, rfl, .bool⟩
  | number => exact ⟨_, rfl, .number⟩
  | string => exact ⟨_, rfl, .string⟩
  | function => exact plain.elim
  | native => exact ⟨_, rfl, .native⟩

end Value.Reads

/-- Two names are the same as their texts are. -/
theorem gave_beq {interner : Interner} {name name' : Name} {text text' : String}
    (gave : interner.Gave name text) (gave' : interner.Gave name' text') :
    (name == name') = (text == text') := by
  by_cases same : text = text'
  · subst same
    rw [gave.named, gave'.named, beq_self_eq_true, beq_self_eq_true]
  · have apart : name ≠ name' := by
      rintro rfl
      exact same (gave.text_eq gave')
    rw [beq_false_of_ne apart, beq_false_of_ne same]

namespace EntryReads

variable {bindings : Bindings} {others : Lox.Bindings} {name : Name} {text : String}

theorem lookup (reads : List.Forall₂ (EntryReads world) bindings others)
    (gave : world.interner.Gave name text) :
    Option.Rel (Option.Rel (Value.Reads world)) (bindings.lookup name) (others.lookup text) := by
  induction reads with
  | nil => exact .none
  | @cons entry other bindings others first rest ih =>
    rw [List.lookup_cons, List.lookup_cons, gave_beq gave first.name]
    cases text == other.1 with
    | true => exact .some first.value
    | false => exact ih

theorem of_mem (reads : List.Forall₂ (EntryReads world) bindings others)
    {entry : Name × Option Value} (member : entry ∈ bindings) :
    ∃ other, EntryReads world entry other := by
  induction reads with
  | nil => cases member
  | cons first rest ih =>
    rcases List.mem_cons.mp member with rfl | member
    · exact ⟨_, first⟩
    · exact ih member

theorem set (reads : List.Forall₂ (EntryReads world) bindings others)
    (gave : world.interner.Gave name text) {value : Option Value} {other : Option Lox.Value}
    (held : Option.Rel (Value.Reads world) value other) :
    List.Forall₂ (EntryReads world) (bindings.set name value) (others.set text other) := by
  induction reads with
  | nil => exact .cons ⟨gave, held⟩ .nil
  | @cons entry other bindings others first rest ih =>
    rw [Bindings.set, Lox.Bindings.set, gave_beq first.name gave]
    cases other.1 == text with
    | true => exact .cons ⟨gave, held⟩ rest
    | false => exact .cons first ih

/-- The bindings that a call begins with. -/
theorem ofArguments {names : List Name} {texts : List String} {values : List Value}
    {others : List Lox.Value} (gaveAll : List.Forall₂ world.interner.Gave names texts)
    (reads : List.Forall₂ (Value.Reads world) values others) :
    List.Forall₂ (EntryReads world) (Bindings.ofArguments names values) ((texts.zip others).foldl
      (fun bindings pair => Lox.Bindings.set pair.1 (some pair.2) bindings) []) := by
  have filled : ∀ {bindings : Bindings} {others' : Lox.Bindings},
      List.Forall₂ (EntryReads world) bindings others' →
      List.Forall₂ (EntryReads world)
        ((names.zip values).foldl
          (fun bindings pair => Bindings.set pair.1 (some pair.2) bindings) bindings)
        ((texts.zip others).foldl
          (fun bindings pair => Lox.Bindings.set pair.1 (some pair.2) bindings) others') := by
    induction gaveAll generalizing values others with
    | nil => exact id
    | cons gave _ ih =>
      cases reads with
      | nil => exact id
      | cons first rest => exact fun reads' => ih rest (set reads' gave (.some first))
  exact filled .nil

end EntryReads

namespace Heap.Reads

variable {heap : Heap} {other : Lox.Heap} {name : Name} {text : String} {scope : ScopeId}

theorem find (reads : heap.Reads world other) (gave : world.interner.Gave name text)
    (scope : ScopeId) :
    (∃ error, heap.find name scope = .error error ∧ other.find text scope = .error error) ∨
      ∃ owner value value', heap.find name scope = .ok (owner, value) ∧
        other.find text scope = .ok (owner, value') ∧ Option.Rel (Value.Reads world) value value' := by
  induction scope using Nat.strongRecOn with
  | ind scope ih =>
    have made := reads.scopes scope
    rw [Heap.find, Lox.Heap.find]
    generalize heap[scope]? = here at made
    generalize other[scope]? = there at made
    cases made with
    | none => exact .inl ⟨_, rfl, rfl⟩
    | @some here there made =>
      have bound := EntryReads.lookup made.bindings gave
      simp only [made.parent]
      generalize here.bindings.lookup name = value at bound
      generalize there.bindings.lookup text = value' at bound
      cases bound with
      | some held => exact .inr ⟨scope, _, _, rfl, rfl, held⟩
      | none =>
        cases there.parent with
        | none => exact .inl ⟨_, rfl, rfl⟩
        | some parent =>
          by_cases older : parent < scope
          · simp only [older, if_true]
            exact ih parent older
          · simp only [older, if_false]
            exact .inl ⟨_, rfl, rfl⟩

theorem get (reads : heap.Reads world other) (gave : world.interner.Gave name text)
    (scope : ScopeId) :
    (∃ error, heap.get name scope = .error error ∧ other.get text scope = .error error) ∨
      ∃ value value', heap.get name scope = .ok value ∧ other.get text scope = .ok value' ∧
        value.Reads world value' := by
  rw [Heap.get, Lox.Heap.get]
  rcases reads.find gave scope with ⟨error, found, found'⟩ | ⟨owner, _, _, found, found', held⟩
  · rw [found, found']
    exact .inl ⟨error, rfl, rfl⟩
  · rw [found, found']
    cases held with
    | none => exact .inl ⟨_, rfl, rfl⟩
    | some held => exact .inr ⟨_, _, rfl, rfl, held⟩

theorem bind (reads : heap.Reads world other) (gave : world.interner.Gave name text)
    {value : Option Value} {value' : Option Lox.Value}
    (held : Option.Rel (Value.Reads world) value value') (scope : ScopeId) :
    (heap.bind name value scope).Reads world (other.bind text value' scope) := by
  refine ⟨?_, fun id => ?_⟩
  · rw [Heap.bind, Lox.Heap.bind, Array.size_modify, Array.size_modify, reads.size]
  · have made := reads.scopes id
    rw [Heap.bind, Lox.Heap.bind, Array.getElem?_modify, Array.getElem?_modify]
    generalize heap[id]? = here at made ⊢
    generalize other[id]? = there at made ⊢
    split
    · cases made with
      | none => exact .none
      | some made => exact .some ⟨EntryReads.set made.bindings gave held, made.parent⟩
    · exact made

theorem push (reads : heap.Reads world other) {made : Scope} {made' : Lox.Scope}
    (last : made.Reads world made') : Heap.Reads world (heap.push made) (other.push made') := by
  refine ⟨?_, fun id => ?_⟩
  · rw [Array.size_push, Array.size_push, reads.size]
  · rw [Array.getElem?_push, Array.getElem?_push, reads.size]
    split
    · exact .some last
    · exact reads.scopes id

end Heap.Reads

/-- Both runs end alike, be it with results that belong together or with the same error, and with calls
nested as deep as before. The second one may also find something used up. -/
def Matches {α β : Type} (world : World) (post : β → α → Prop) (tree : Lox.Run α) (flat : Run β)
    (machine : Lox.Machine) (start : Machine) : Prop :=
  (∃ after, flat start = .error (.panicked .crowded) after) ∨
    match tree machine, flat start with
    | .ok value machine, .ok result after =>
      after.Reads world machine ∧ after.depth = start.depth ∧ post result value
    | .error (.failed error) machine, .error (.failed other) after =>
      error = other ∧ after.Reads world machine ∧ after.depth = start.depth
    | .error .exhausted _, .error .exhausted _ => True
    | .error .dangling _, .error (.panicked .scope) _ => True
    | _, _ => False

namespace Matches

variable {α β γ δ : Type} {post mid : β → α → Prop} {tree : Lox.Run α} {flat : Run β}
  {machine : Lox.Machine} {start : Machine}

theorem ended {value : α} {result : β} {machine' : Lox.Machine} {after : Machine}
    (ran : tree machine = .ok value machine') (ran' : flat start = .ok result after)
    (reads : after.Reads world machine') (depth : after.depth = start.depth)
    (holds : post result value) : Matches world post tree flat machine start := by
  unfold Matches
  rw [ran, ran']
  exact .inr ⟨reads, depth, holds⟩

theorem pure (reads : start.Reads world machine) {value : α} {result : β} (holds : post result value) :
    Matches world post (Pure.pure value) (Pure.pure result) machine start :=
  .ended rfl rfl reads rfl holds

theorem exhausted : Matches world post (throw .exhausted) (throw .exhausted) machine start :=
  .inr trivial

theorem fail (reads : start.Reads world machine) (line : Nat) (fault : RuntimeFault) :
    Matches world post (Lox.Run.fail line fault) (Run.fail line fault) machine start :=
  .inr ⟨rfl, reads, rfl⟩

theorem bind {last : δ → γ → Prop} {next : α → Lox.Run γ} {next' : β → Run δ}
    (first : Matches world mid tree flat machine start)
    (goesOn : ∀ value result machine after, after.Reads world machine → after.depth = start.depth →
      mid result value → Matches world last (next value) (next' result) machine after) :
    Matches world last (tree >>= next) (flat >>= next') machine start := by
  rcases first with ⟨after, crowded⟩ | first
  · exact .inl ⟨after, Sequencing.bind_error crowded⟩
  split at first
  next value machine' result after ran ran' =>
    obtain ⟨reads, depth, holds⟩ := first
    have further := goesOn value result machine' after reads depth holds
    unfold Matches at further ⊢
    rw [Sequencing.bind_ok ran, Sequencing.bind_ok ran', ← depth]
    exact further
  next ran ran' =>
    unfold Matches
    rw [Sequencing.bind_error ran, Sequencing.bind_error ran']
    exact .inr first
  next ran ran' =>
    unfold Matches
    rw [Sequencing.bind_error ran, Sequencing.bind_error ran']
    exact .inr trivial
  next ran ran' =>
    unfold Matches
    rw [Sequencing.bind_error ran, Sequencing.bind_error ran']
    exact .inr trivial
  next => exact first.elim

theorem failing {next : γ → Lox.Run α} {next' : δ → Run β}
    (reads : start.Reads world machine) {line : Nat} {fault : RuntimeFault} :
    Matches world post (Lox.Run.fail line fault >>= next) (Run.fail line fault >>= next') machine
      start := by
  have stopped : Matches world (fun _ _ => False) (Lox.Run.fail line fault : Lox.Run γ)
      (Run.fail line fault : Run δ) machine start := .fail reads line fault
  exact stopped.bind fun _ _ _ _ _ _ impossible => impossible.elim

/-- A step that only the second run takes. -/
theorem step {next : γ → Run β} {first : Run γ} {value : γ} (ran : first start = .ok value start)
    (matched : Matches world post tree (next value) machine start) :
    Matches world post tree (first >>= next) machine start := by
  unfold Matches at matched ⊢
  rw [Sequencing.bind_ok ran]
  exact matched

end Matches

theorem reach_run {α : Type} {result : Checked α} {value : α} {start : Machine}
    (ok : result = .ok value) : Run.reach result start = .ok value start := by
  rw [ok]
  rfl

/-- There is a number for one call more, or no limit and too little memory. -/
theorem deeper_cases {limit : Option Nat} {depth : Nat}
    (limited : ∀ bound, limit = some bound → bound ≤ maxCalls)
    (room : ∀ bound, limit = some bound → depth < bound) :
    deeper limit depth = .ok (depth + 1) ∨ deeper limit depth = .error .crowded := by
  unfold deeper
  split
  · exact .inl rfl
  next full =>
    cases limit with
    | none => exact .inr rfl
    | some bound => exact absurd (Nat.lt_of_lt_of_le (room bound rfl) (limited bound rfl)) full

namespace Machine.Reads

variable {machine : Lox.Machine} {start : Machine} (reads : start.Reads world machine)
  {name : Name} {text : String}
include reads

theorem withHeap {heap : Heap} {other : Lox.Heap} (held : heap.Reads world other) :
    Machine.Reads world { start with heap } { machine with heap := other } :=
  ⟨held, reads.printed, reads.depth, reads.functions, reads.readings⟩

theorem withDepth (depth : Nat) :
    Machine.Reads world { start with depth } { machine with depth } :=
  ⟨reads.heap, reads.printed, rfl, reads.functions, reads.readings⟩

theorem lift (line : Nat) {applied : Except RuntimeFault Lox.Value}
    (plain : ∀ value, applied = .ok value → value.Meets fun _ => False) :
    Matches world (Value.Reads world) (Lox.Run.lift line applied) (Run.lift line applied) machine
      start := by
  cases applied with
  | error fault => exact .fail reads line fault
  | ok other =>
    obtain ⟨value, seen, held⟩ := Value.Reads.ofSeen (plain other rfl)
    refine .inr ?_
    rw [Run.lift, reach_run seen]
    exact ⟨reads, rfl, held⟩

theorem print {value : Value} {other : Lox.Value} (held : value.Reads world other) :
    Matches world (fun _ _ => True) (Lox.Run.print other) (Run.print value) machine start := by
  refine .ended rfl rfl ⟨reads.heap, ?_, reads.depth, reads.functions, reads.readings⟩ rfl trivial
  simp only [reads.printed, held.text_eq]

theorem bind (gave : world.interner.Gave name text) {value : Option Value}
    {other : Option Lox.Value} (held : Option.Rel (Value.Reads world) value other) (scope : ScopeId) :
    Matches world (fun _ _ => True) (Lox.Run.bind text other scope) (Run.bind name value scope)
      machine start := by
  unfold Matches
  rw [Run.bind, Lox.Run.bind, reads.heap.size]
  split
  · exact .inr ⟨reads.withHeap (reads.heap.bind gave held scope), rfl, trivial⟩
  · exact .inr trivial

theorem enter {bindings : Bindings} {others : Lox.Bindings}
    (held : List.Forall₂ (EntryReads world) bindings others) (parent : ScopeId) :
    Matches world (· = ·) (Lox.Run.enter others parent) (Run.enter bindings parent) machine
      start := by
  unfold Matches
  rw [Run.enter, Lox.Run.enter, reads.heap.size]
  split
  · exact .inr ⟨reads.withHeap (reads.heap.push ⟨held, rfl⟩), rfl, rfl⟩
  · exact .inr trivial

theorem newFunction : Matches world (· = ·) Lox.Run.newFunction Run.newFunction machine start :=
  .ended rfl rfl ⟨reads.heap, reads.printed, reads.depth, congrArg (· + 1) reads.functions,
    reads.readings⟩ rfl reads.functions

theorem native (settings : Settings) (known : Native) :
    Matches world (Value.Reads world) (Lox.Run.native settings known) (Run.native settings known)
      machine start := by
  cases known with
  | clock =>
    refine .ended rfl rfl ⟨reads.heap, reads.printed, reads.depth, reads.functions, ?_⟩ rfl ?_
    · exact congrArg (· + 1) reads.readings
    · rw [reads.readings]
      exact .number

/-- Where a call may begin under a limit there is still a number for it. -/
theorem mayEnter (settings : Settings) (line : Nat) :
    Matches world (fun _ _ => ∀ limit, settings.maxDepth = some limit → start.depth < limit)
      (Lox.Run.mayEnter settings line) (Run.mayEnter settings line) machine start := by
  unfold Matches
  rw [Run.mayEnter, Lox.Run.mayEnter, ← reads.depth]
  cases settings.maxDepth with
  | none => exact .inr ⟨reads, rfl, nofun⟩
  | some limit =>
    simp only
    split
    · exact .inr ⟨rfl, reads, rfl⟩
    next fewer =>
      refine .inr ⟨reads, rfl, fun other same => ?_⟩
      obtain rfl := Option.some.inj same
      exact Nat.lt_of_not_le fewer

theorem missing {α β : Type} {post : β → α → Prop} (gave : world.interner.Gave name text)
    (line : Nat) (error : ScopeError) :
    Matches world post (fun machine => .error (error.stop line text) machine)
      (Run.missing world.interner line name error) machine start := by
  cases error with
  | undefined | uninitialized => exact .step (reach_run (lookup_gave gave)) (.fail reads line _)
  | dangling => exact .inr trivial

theorem get (gave : world.interner.Gave name text) (line : Nat) (scope : ScopeId) :
    Matches world (Value.Reads world) (Lox.Run.get line text scope)
      (Run.get world.interner line name scope) machine start := by
  unfold Matches
  rw [Run.get, Lox.Run.get]
  rcases reads.heap.get gave scope with ⟨error, found, found'⟩ | ⟨value, value', found, found', held⟩
  · rw [found, found']
    exact reads.missing gave line error
  · rw [found, found']
    exact .inr ⟨reads, rfl, held⟩

theorem assign (gave : world.interner.Gave name text) (line : Nat) {value : Value}
    {other : Lox.Value} (held : value.Reads world other) (scope : ScopeId) :
    Matches world (fun _ _ => True) (Lox.Run.assign line text other scope)
      (Run.assign world.interner line name value scope) machine start := by
  unfold Matches
  rw [Run.assign, Lox.Run.assign]
  rcases reads.heap.find gave scope with ⟨error, found, found'⟩ | ⟨owner, _, _, found, found', -⟩
  · rw [found, found']
    exact reads.missing gave line error
  · rw [found, found']
    exact .inr ⟨reads.withHeap (reads.heap.bind gave (.some held) owner), rfl, trivial⟩

theorem literal {value : Literal} {other : Lox.Literal} (same : value.Reads world.interner other) :
    Matches world (Value.Reads world) (Pure.pure (Lox.Value.ofLiteral other))
      (Run.literal world.interner value) machine start := by
  cases same with
  | nil => exact .pure reads .nil
  | bool => exact .pure reads .bool
  | number => exact .pure reads .number
  | string gave => exact .step (reach_run (lookup_gave gave)) (.pure reads .string)

/-- A function that is made reads as the one that the tree of its declaration makes. -/
theorem declareFunction {arena : Arena} {index : Nat} {place : Place} {params body : Range}
    {names : List Name} {texts : List String} {ids : List Nat} {trees : List (Stmt Place)}
    (parsed : world.parsed arena)
    (node : readNode arena.stmts index = .ok ⟨.function name params body, place⟩)
    (gave : world.interner.Gave name text) (labels : readList arena.params params = .ok names)
    (gaveAll : List.Forall₂ world.interner.Gave names texts)
    (list : readList arena.stmtLists body = .ok ids)
    (entries : List.Forall₂ (StmtAt world.interner arena) ids trees) (scope : ScopeId) :
    Matches world (fun _ _ => True) (Lox.Run.declareFunction text texts trees scope)
      (Run.declareFunction world.interner arena name params body scope) machine start := by
  refine reads.newFunction.bind fun id id' machine start reads _ same => ?_
  subst same
  refine .step (reach_run (lookup_gave gave)) (reads.bind gave (.some (.function ?_)) scope)
  exact ⟨rfl, rfl, rfl, parsed, ⟨index, name, place, node⟩, ⟨names, labels, gaveAll⟩,
    ⟨ids, list, entries⟩⟩

/-- A call leaves the level again that it entered. -/
theorem inFrame {settings : Settings}
    (limited : ∀ limit, settings.maxDepth = some limit → limit ≤ maxCalls)
    (room : ∀ limit, settings.maxDepth = some limit → start.depth < limit) (frame : Frame)
    {tree : Lox.Run Lox.Signal} {flat : Run Signal}
    (matched : ∀ {machine start}, start.Reads world machine →
      Matches world (Signal.Reads world) tree flat machine start) :
    Matches world (Value.Reads world) (Lox.Run.inFrame frame tree) (Run.inFrame settings frame flat)
      machine start := by
  -- The count of calls has an end here that the depth of the tree run has not.
  rcases deeper_cases limited room with entered | crowded
  case inr =>
    have stopped : Run.count (deeper settings.maxDepth) start =
        .error (.panicked .crowded) start := by rw [Run.count, crowded]
    exact .inl ⟨start, Sequencing.bind_error stopped⟩
  have counted : Run.count (deeper settings.maxDepth) start =
      .ok () { start with depth := start.depth + 1 } := by rw [Run.count, entered]
  have inner := matched (reads.withDepth (start.depth + 1))
  have left : ∀ {after : Machine}, after.depth = start.depth + 1 →
      Run.count shallower after = .ok () { after with depth := start.depth } := by
    intro after depth
    rw [Run.count, depth, shallower, if_pos (Nat.succ_pos _), Nat.add_sub_cancel]
  unfold Matches at inner ⊢
  rw [Run.inFrame, Sequencing.bind_ok counted, Lox.Run.inFrame, ← reads.depth, Run.leaving]
  rcases inner with ⟨after, crowded⟩ | inner
  · exact .inl ⟨after, by rw [crowded]⟩
  refine .inr ?_
  split at inner
  next signal machine' result after ran ran' =>
    obtain ⟨reads, depth, held⟩ := inner
    have shallow : machine'.depth - 1 = start.depth := by rw [← reads.depth, depth]; rfl
    simp only [ran, ran', Sequencing.bind_ok (left depth), shallow]
    have reads := reads.withDepth start.depth
    cases held with
    | normal => exact ⟨reads, rfl, .nil⟩
    | returning held => exact ⟨reads, rfl, held⟩
    | jumping => exact ⟨rfl, reads, rfl⟩
  next error machine' other after ran ran' =>
    obtain ⟨rfl, reads, depth⟩ := inner
    have shallow : machine'.depth - 1 = start.depth := by rw [← reads.depth, depth]; rfl
    simp only [ran, ran', Sequencing.bind_ok (left depth), shallow]
    exact ⟨rfl, reads.withDepth start.depth, rfl⟩
  next ran ran' =>
    rw [ran, ran']
    trivial
  next ran ran' =>
    rw [ran, ran']
    trivial
  next => exact inner.elim

end Machine.Reads

end Lox.Flat
