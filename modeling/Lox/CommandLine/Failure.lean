/-!
Why a command fails, and the status it then exits with.
-/

namespace Lox

inductive Flag where
  | color | errorFormat | maxCallDepth
  deriving DecidableEq, Repr

namespace Flag

def all : List Flag := [.color, .errorFormat, .maxCallDepth]

def name : Flag → String
  | .color => "--color"
  | .errorFormat => "--error-format"
  | .maxCallDepth => "--max-call-depth"

def expected : Flag → String
  | .color => "auto, always or never"
  | .errorFormat => "human or short"
  | .maxCallDepth => "a positive integer"

def ofName? (text : String) : Option Flag := all.find? fun flag => flag.name == text

end Flag

/-- The commands that take one argument. -/
inductive Action where
  | run | lex | parse | explain
  deriving DecidableEq, Repr

def Action.usage : Action → String
  | .run => "usage: lox run <file>"
  | .lex => "usage: lox lex <file>"
  | .parse => "usage: lox parse <file>"
  | .explain => "usage: lox explain <code>"

/-- Why a file has no text. -/
inductive ReadFault where
  | notFound | directory | invalidText
  | other (reason : String)
  deriving DecidableEq, Repr

def ReadFault.message : ReadFault → String
  | .notFound => "No such file or directory (os error 2)"
  | .directory => "Is a directory (os error 21)"
  | .invalidText => "stream did not contain valid UTF-8"
  | .other reason => reason

inductive Failure where
  | unreadable (path : String) (fault : ReadFault)
  | missingValue (flag : Flag)
  | wrongArguments (action : Action)
  | unknownCommand
  | invalidFlag (flag : Flag) (value : String)
  | unknownCode (text : String)
  | reported (count : Nat)
  | input (fault : ReadFault)
  deriving DecidableEq, Repr

namespace Failure

/-- Whether the command line was at fault, rather than what it asked for. -/
def isUsage : Failure → Bool
  | .missingValue _ | .wrongArguments _ | .unknownCommand => true
  | _ => false

def message : Failure → String
  | .unreadable path fault => s!"cannot read '{path}': {fault.message}"
  | .missingValue flag => s!"missing value for '{flag.name}'"
  | .wrongArguments action => action.usage
  | .unknownCommand => "usage: lox [script]"
  | .invalidFlag flag value =>
    s!"invalid value '{value}' for '{flag.name}' (expected {flag.expected})"
  | .unknownCode text => s!"unknown error code '{text}' (codes look like E0001, E1002, E6003)"
  | .reported count => s!"aborting due to {count} error(s)"
  | .input fault => fault.message

def exitStatus : Failure → Nat
  | .missingValue _ | .wrongArguments _ | .unknownCommand | .invalidFlag _ _ => 63
  | _ => 1

/-- What is written about the failure itself. Diagnostics speak for
themselves. -/
def notice (failure : Failure) : String :=
  match failure with
  | .reported _ => ""
  | _ => if failure.isUsage then s!"{failure.message}\n" else s!"error: {failure.message}\n"

end Failure
end Lox
