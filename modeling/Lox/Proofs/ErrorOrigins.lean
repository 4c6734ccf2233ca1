import Lox.Proofs.ProgramParts
import Lox.Proofs.Sequencing
import Lox.Proofs.StoredClosures

/-! Where the errors of a program come from. An error that leaves an expression was raised at a node
of the body that is running, or it came out of a call there, whose frame it then carries. -/

namespace Lox

/-- The faults that an expression has by itself. -/
def RuntimeFault.Plain : RuntimeFault → Prop
  | .outsideLoop _ | .outsideFunction | .stackOverflow _ => False
  | _ => True

/-- The faults that an operator has with its operands. -/
def RuntimeFault.OfOperands : RuntimeFault → Prop
  | .typeError _ | .divisionByZero => True
  | _ => False

theorem RuntimeFault.OfOperands.plain {fault : RuntimeFault} (operands : fault.OfOperands) :
    fault.Plain := by
  cases fault <;> trivial

/-- The variable that a node is about. -/
def Expr.variable? {α : Type} : Expr α → Option String
  | .name _ label | .assign _ label _ => some label
  | _ => none

/-- The functions that may be called, the scopes that they may be closed over, and the limit on the
depth of calls. What the body of such a function declares may be called in its turn. -/
structure Callees where
  function : String → List String → List (Stmt Place) → Prop
  scope : ScopeId → Prop
  limit : Option Nat
  closed : ∀ {name params body}, function name params body → ∀ {place inner others code},
    .stmt (.function place inner others code) ∈ Stmt.partsAll body → function inner others code

namespace Callees

variable (callees : Callees)

def Includes (closure : Closure) : Prop :=
  callees.function closure.name closure.params closure.body ∧ callees.scope closure.scope

abbrev Holds (value : Value) : Prop := value.Meets callees.Includes

abbrev Stores (heap : Heap) : Prop := heap.Meets callees.scope callees.Includes

/-- The functions that are declared in a body may be called. -/
def Declared (parts : List Part) : Prop :=
  ∀ {place name params body}, .stmt (.function place name params body) ∈ parts →
    callees.function name params body

/-- What a fault at a node tells: the variable that the node is about, a function that may be called,
or the type of a value. -/
def Tells (node : Expr Place) : RuntimeFault → Prop
  | .undefinedVariable name | .uninitializedVariable name => node.variable? = some name
  | .arityMismatch name _ _ =>
    (∃ native : Native, name = native.name) ∨ ∃ params body, callees.function name params body
  | .notCallable typeName => ∃ value : Value, typeName = value.typeName
  | _ => True

/-- Another call may begin at a depth. -/
def Admits (depth : Nat) : Prop := ∀ limit, callees.limit = some limit → depth < limit

/-- What an error is that leaves an expression in a body: what its nodes are given, and how deep it
runs. -/
inductive Explains : List Part → Nat → RuntimeError → Prop where
  | fault {parts : List Part} {depth : Nat} {node : Expr Place} {fault : RuntimeFault}
      (inside : .expr node ∈ parts) (plain : fault.Plain) (told : callees.Tells node fault) :
      Explains parts depth (.ofFault node.place.line fault)
  | refused {parts : List Part} {depth limit : Nat} {place : Place} {callee : Expr Place}
      {arguments : List (Expr Place)} (inside : .expr (.call place callee arguments) ∈ parts)
      (limited : callees.limit = some limit) (full : limit ≤ depth) :
      Explains parts depth (.ofFault place.line (.stackOverflow limit))
  | escaped {parts : List Part} {depth line : Nat} {place : Place} {callee : Expr Place}
      {arguments : List (Expr Place)} {name : String} {params : List String}
      {body : List (Stmt Place)} {jump : Jump} (inside : .expr (.call place callee arguments) ∈ parts)
      (declared : callees.function name params body) (entered : callees.Admits depth)
      (leaves : .jumping jump line ∈ Stmt.exitsAll body) :
      Explains parts depth ((RuntimeError.ofFault line (.outsideLoop jump)).within ⟨name, place.line⟩)
  | within {parts : List Part} {depth : Nat} {place : Place} {callee : Expr Place}
      {arguments : List (Expr Place)} {name : String} {params : List String}
      {body : List (Stmt Place)} {error : RuntimeError}
      (inside : .expr (.call place callee arguments) ∈ parts)
      (declared : callees.function name params body) (entered : callees.Admits depth)
      (inner : Explains (Stmt.partsAll body) (depth + 1) error) :
      Explains parts depth (error.within ⟨name, place.line⟩)

/-- A run from a machine keeps what is stored and how deep it is. What it gives is as described, and
an error that it ends with comes from the body with the given nodes. -/
def Accounts {α : Type} (parts : List Part) (run : Run α) (machine : Machine) (post : α → Prop) :
    Prop :=
  match run machine with
  | .ok value after => callees.Stores after.heap ∧ after.depth = machine.depth ∧ post value
  | .error (.failed error) after => callees.Stores after.heap ∧ after.depth = machine.depth ∧
      callees.Explains parts machine.depth error
  | .error _ _ => True

/-- What a statement passes on to those around it. -/
def Passes (exits : List Exit) : Signal → Prop
  | .normal => True
  | .returning value line => callees.Holds value ∧ .returning line ∈ exits
  | .jumping jump line => .jumping jump line ∈ exits

variable {callees} {parts : List Part}

theorem Tells.ofOperands {node : Expr Place} {fault : RuntimeFault} (operands : fault.OfOperands) :
    callees.Tells node fault := by
  cases fault <;> trivial

theorem Passes.mono {exits more : List Exit} {signal : Signal} (passes : callees.Passes exits signal)
    (among : exits ⊆ more) : callees.Passes more signal := by
  cases signal with
  | normal => trivial
  | returning value line => exact ⟨passes.1, among passes.2⟩
  | jumping jump line => exact among passes

namespace Accounts

variable {α β : Type} {machine : Machine} {post : α → Prop} {name : String} {scope : ScopeId}

theorem pure (stores : callees.Stores machine.heap) {value : α} (holds : post value) :
    callees.Accounts parts (Pure.pure value) machine post :=
  ⟨stores, rfl, holds⟩

theorem mono {run : Run α} {other : α → Prop} (accounts : callees.Accounts parts run machine post)
    (implies : ∀ value, post value → other value) : callees.Accounts parts run machine other := by
  unfold Accounts at *
  split <;> rename_i ran <;> rw [ran] at accounts
  · exact ⟨accounts.1, accounts.2.1, implies _ accounts.2.2⟩
  · exact accounts
  · trivial

theorem bindLevel {run : Run α} {next : α → Run β} {final : β → Prop}
    (first : callees.Accounts parts run machine post)
    (goesOn : ∀ value after, callees.Stores after.heap → after.depth = machine.depth → post value →
      callees.Accounts parts (next value) after final) :
    callees.Accounts parts (run >>= next) machine final := by
  unfold Accounts at first
  cases ran : run machine with
  | ok value middle =>
    rw [ran] at first
    obtain ⟨stores, same, holds⟩ := first
    have rest := goesOn value middle stores same holds
    unfold Accounts at rest ⊢
    rw [Sequencing.bind_ok ran, ← same]
    exact rest
  | error stop middle =>
    rw [ran] at first
    unfold Accounts
    rw [Sequencing.bind_error ran]
    cases stop <;> exact first

theorem bind {run : Run α} {next : α → Run β} {final : β → Prop}
    (first : callees.Accounts parts run machine post)
    (goesOn : ∀ value after, callees.Stores after.heap → post value →
      callees.Accounts parts (next value) after final) :
    callees.Accounts parts (run >>= next) machine final :=
  first.bindLevel fun value after stores _ => goesOn value after stores

theorem fail (stores : callees.Stores machine.heap) {node : Expr Place} {fault : RuntimeFault}
    (inside : .expr node ∈ parts) (plain : fault.Plain) (told : callees.Tells node fault) :
    callees.Accounts parts (Run.fail node.place.line fault) machine post :=
  ⟨stores, rfl, .fault inside plain told⟩

/-- Nothing after an error is run. -/
theorem failing {next : α → Run β} {final : β → Prop} (stores : callees.Stores machine.heap)
    {node : Expr Place} {fault : RuntimeFault} (inside : .expr node ∈ parts) (plain : fault.Plain)
    (told : callees.Tells node fault) :
    callees.Accounts parts (Run.fail node.place.line fault >>= next) machine final :=
  ⟨stores, rfl, .fault inside plain told⟩

theorem lift (stores : callees.Stores machine.heap) {node : Expr Place}
    {result : Except RuntimeFault α} (inside : .expr node ∈ parts)
    (holds : ∀ value, result = .ok value → post value)
    (operands : ∀ fault, result = .error fault → fault.OfOperands) :
    callees.Accounts parts (Run.lift node.place.line result) machine post := by
  cases result with
  | ok value => exact pure stores (holds value rfl)
  | error fault =>
    have own := operands fault rfl
    exact fail stores inside own.plain (.ofOperands own)

theorem get (stores : callees.Stores machine.heap) (within : callees.scope scope)
    {node : Expr Place} (inside : .expr node ∈ parts) (about : node.variable? = some name) :
    callees.Accounts parts (Run.get node.place.line name scope) machine callees.Holds := by
  unfold Accounts Run.get Heap.get
  cases found : machine.heap.find name scope with
  | ok binding =>
    obtain ⟨owner, binding⟩ := binding
    cases binding with
    | some value => exact ⟨stores, rfl, stores.find within found⟩
    | none => exact ⟨stores, rfl, .fault inside trivial about⟩
  | error error =>
    cases error with
    | undefined | uninitialized => exact ⟨stores, rfl, .fault inside trivial about⟩
    | dangling => trivial

theorem assign (stores : callees.Stores machine.heap) {node : Expr Place}
    (inside : .expr node ∈ parts) (about : node.variable? = some name) {value : Value}
    (held : callees.Holds value) :
    callees.Accounts parts (Run.assign node.place.line name value scope) machine fun _ => True := by
  unfold Accounts Run.assign
  cases found : machine.heap.find name scope with
  | ok binding =>
    refine ⟨stores.bind ?_, rfl, trivial⟩
    intro own same
    cases same
    exact held
  | error error =>
    cases error with
    | undefined | uninitialized => exact ⟨stores, rfl, .fault inside trivial about⟩
    | dangling => trivial

theorem bindName (stores : callees.Stores machine.heap) {value : Option Value}
    (held : ∀ own, value = some own → callees.Holds own) :
    callees.Accounts parts (Run.bind name value scope) machine fun _ => True := by
  unfold Accounts
  by_cases made : scope < machine.heap.size
  · simp only [Run.bind, if_pos made]
    exact ⟨stores.bind held, trivial, trivial⟩
  · simp only [Run.bind, if_neg made]

theorem enter (stores : callees.Stores machine.heap) (within : callees.scope scope)
    {bindings : Bindings} (held : bindings.Meets callees.Includes) :
    callees.Accounts parts (Run.enter bindings scope) machine callees.scope := by
  unfold Accounts
  by_cases made : scope < machine.heap.size
  · simp only [Run.enter, if_pos made]
    exact ⟨stores.push within held, trivial, stores.unmade _ (Nat.le_refl _)⟩
  · simp only [Run.enter, if_neg made]

theorem declareFunction (stores : callees.Stores machine.heap) (within : callees.scope scope)
    {params : List String} {body : List (Stmt Place)}
    (declared : callees.function name params body) :
    callees.Accounts parts (Run.declareFunction name params body scope) machine fun _ => True := by
  have counted : callees.Accounts parts Run.newFunction machine fun _ => True :=
    ⟨stores, rfl, trivial⟩
  apply counted.bind
  intro id after stores _
  apply bindName stores
  intro own same
  cases same
  exact ⟨declared, within⟩

/-- A call that may not begin is refused at its node; one that may begin is within the limit. -/
theorem mayEnter {settings : Settings} (limited : settings.maxDepth = callees.limit)
    (stores : callees.Stores machine.heap) {place : Place} {callee : Expr Place}
    {arguments : List (Expr Place)} (inside : .expr (.call place callee arguments) ∈ parts) :
    callees.Accounts parts (Run.mayEnter settings place.line) machine
      fun _ => callees.Admits machine.depth := by
  unfold Accounts Run.mayEnter
  rw [limited]
  cases bound : callees.limit with
  | none =>
    refine ⟨stores, rfl, ?_⟩
    intro limit same
    rw [bound] at same
    cases same
  | some limit =>
    by_cases full : limit ≤ machine.depth
    · simp only [if_pos full]
      exact ⟨stores, trivial, .refused inside bound full⟩
    · simp only [if_neg full]
      refine ⟨stores, trivial, ?_⟩
      intro other same
      rw [bound] at same
      cases same
      exact Nat.lt_of_not_le full

theorem inFrame {name : String} {params : List String} {code : List (Stmt Place)} {body : Run Signal}
    {place : Place} {callee : Expr Place} {arguments : List (Expr Place)}
    (inside : .expr (.call place callee arguments) ∈ parts)
    (declared : callees.function name params code) (entered : callees.Admits machine.depth)
    (accounts : callees.Accounts (Stmt.partsAll code) body { machine with depth := machine.depth + 1 }
      (callees.Passes (Stmt.exitsAll code))) :
    callees.Accounts parts (Run.inFrame ⟨name, place.line⟩ body) machine callees.Holds := by
  unfold Accounts Run.inFrame at *
  cases ran : body { machine with depth := machine.depth + 1 } with
  | ok signal after =>
    rw [ran] at accounts
    obtain ⟨stores, same, passes⟩ := accounts
    have back : after.depth - 1 = machine.depth := by rw [same, Nat.add_sub_cancel]
    cases signal with
    | normal => exact ⟨stores, back, trivial⟩
    | returning value line => exact ⟨stores, back, passes.1⟩
    | jumping jump line => exact ⟨stores, back, .escaped inside declared entered passes⟩
  | error stop after =>
    rw [ran] at accounts
    cases stop with
    | failed error =>
      obtain ⟨stores, same, explained⟩ := accounts
      have back : after.depth - 1 = machine.depth := by rw [same, Nat.add_sub_cancel]
      exact ⟨stores, back, .within inside declared entered explained⟩
    | exhausted | dangling => trivial

end Accounts
end Callees
end Lox
