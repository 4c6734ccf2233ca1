import Lox.Interpreter
import Lox.Parse.Statement
import Lox.Token.Scan

/-!
A session runs sources one after another over the same global variables. An
error ends the source it occurs in and leaves the session as it is.
-/

namespace Lox

/-- The program that a source is, or everything that keeps it from being one:
first what is no token, then what is no grammar. -/
def Program.ofSource (source : String) : Except (List Diagnostic) Program :=
  let scan := Scan.ofSource source
  let parsed := Parsed.ofTokens scan.tokens
  match scan.errors.map LexError.diagnostic ++ parsed.errors.map ParseError.diagnostic with
  | [] => .ok parsed.program
  | diagnostics => .error diagnostics

/-- Why a step of a session has no outcome. -/
inductive Stuck where
  | exhausted | dangling
  deriving DecidableEq, Repr

structure Session where
  settings : Settings
  machine : Machine
  globals : ScopeId

/-- What came of a step, what it printed, and the session after it. -/
structure Outcome (α : Type) where
  result : α
  printed : String
  session : Session

namespace Session

/-- A budget that no run in the world uses up. -/
def budget : Nat := Nat.pow 2 62

/-- A clock that moves a microsecond with each reading. -/
def steadyClock (reading : Nat) : Float := (reading + 1).toFloat * 0.000001

def defineNatives (heap : Heap) (globals : ScopeId) : Heap :=
  Native.all.foldl (fun heap native => heap.define native.name (.native native) globals) heap

def start (settings : Settings) : Session :=
  let (globals, heap) := Heap.make #[] ⟨[], none⟩
  ⟨settings, ⟨defineNatives heap globals, #[], 0, 0, 0⟩, globals⟩

/-- A session with other settings over the same variables. What is not a
variable starts anew. -/
def rebuild (settings : Settings) : Session → Session
  | ⟨_, machine, globals⟩ =>
    ⟨settings, ⟨defineNatives machine.heap globals, #[], 0, machine.functions, 0⟩, globals⟩

def printedText (lines : Array String) : String := String.join (lines.toList.map (· ++ "\n"))

/-- One run of the machine. -/
def perform {α : Type} (action : Run α) : Session → Except Stuck (Outcome (Except RuntimeError α))
  | ⟨settings, machine, globals⟩ =>
    match action { machine with printed := #[] } with
    | .ok value machine =>
      .ok ⟨.ok value, printedText machine.printed, ⟨settings, machine, globals⟩⟩
    | .error (.failed error) machine =>
      .ok ⟨.error error, printedText machine.printed, ⟨settings, machine, globals⟩⟩
    | .error .exhausted _ => .error .exhausted
    | .error .dangling _ => .error .dangling

def evaluate (fuel : Nat) (expr : Expr Place) (session : Session) :
    Except Stuck (Outcome (Except RuntimeError Value)) :=
  session.perform (Interpreter.evaluate session.settings session.globals fuel expr)

def execute (fuel : Nat) (stmt : Stmt Place) (session : Session) :
    Except Stuck (Outcome (Except RuntimeError Signal)) :=
  session.perform (Interpreter.execute session.settings session.globals fuel stmt)

def call (fuel : Nat) (callee : Value) (arguments : List Value) (line : Nat) (session : Session) :
    Except Stuck (Outcome (Except RuntimeError Value)) :=
  session.perform (Interpreter.call session.settings fuel callee arguments line)

def interpret (fuel : Nat) (program : Program) (session : Session) :
    Except Stuck (Outcome (Except RuntimeError Unit)) :=
  session.perform (Interpreter.executeTop session.settings session.globals fuel program)

/-- Runs a source. One that is no program does nothing. -/
def run (fuel : Nat) (source : String) (session : Session) :
    Except Stuck (Outcome (List Diagnostic)) :=
  match Program.ofSource source with
  | .error diagnostics => .ok ⟨diagnostics, "", session⟩
  | .ok program =>
    match session.interpret fuel program with
    | .ok ⟨.ok (), printed, session⟩ => .ok ⟨[], printed, session⟩
    | .ok ⟨.error error, printed, session⟩ => .ok ⟨[error.diagnostic], printed, session⟩
    | .error stuck => .error stuck

/-- Changes the global variables. -/
def mapHeap (change : Heap → Heap) : Session → Session
  | ⟨settings, machine, globals⟩ =>
    ⟨settings, { machine with heap := change machine.heap }, globals⟩

/-- A new function that takes nothing and does nothing. -/
def idleFunction (name : String) : Session → Closure × Session
  | ⟨settings, machine, globals⟩ =>
    (⟨machine.functions, name, [], [], globals⟩,
      ⟨settings, { machine with functions := machine.functions + 1 }, globals⟩)

end Session
end Lox
