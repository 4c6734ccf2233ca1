import Lox.CommandLine.Failure
import Lox.Diagnostic.Report
import Lox.Number.Text

/-!
Reading the arguments of a command line. Flags may stand anywhere, with their
value behind an equals sign or as the next argument; everything else is
positional.
-/

namespace Lox

structure Options where
  color : ColorMode
  layout : Layout
  maxDepth : Option Nat
  deriving DecidableEq, Repr

namespace Options

def default : Options := ⟨.auto, .human, none⟩

/-- Decimal digits with perhaps a plus sign. The greatest depth has sixty-four
bits. -/
def depth? (text : String) : Option Nat :=
  let digits := match text.toList with
    | '+' :: digits => digits
    | digits => digits
  if digits.isEmpty || !digits.all Char.isDigit then none
  else
    let depth := (Decimal.ofDigits digits []).digits
    if 0 < depth ∧ depth < Nat.pow 2 64 then some depth else none

/-- Sets what a flag is for, if the value is one. -/
def set? (options : Options) (flag : Flag) (value : String) : Option Options :=
  match flag with
  | .color => (ColorMode.ofName? value).map fun color => { options with color }
  | .errorFormat => (Layout.ofName? value).map fun layout => { options with layout }
  | .maxCallDepth => (depth? value).map fun depth => { options with maxDepth := some depth }

def set (options : Options) (flag : Flag) (value : String) : Except Failure Options :=
  match options.set? flag value with
  | some options => .ok options
  | none => .error (.invalidFlag flag value)

/-- The flag of an argument, and the value behind its first equals sign. -/
def split (argument : String) : Option Flag × Option String :=
  let text := argument.toList
  let name := String.ofList (text.takeWhile (· != '='))
  match text.dropWhile (· != '=') with
  | _ :: value => (Flag.ofName? name, some (String.ofList value))
  | [] => (Flag.ofName? name, none)

/-- Options and positional arguments, after those that were read before. -/
def read (options : Options) (positional : Array String) :
    List String → Except Failure (Options × List String)
  | [] => .ok (options, positional.toList)
  | argument :: rest =>
    match split argument with
    | (none, _) => read options (positional.push argument) rest
    | (some flag, some value) =>
      match options.set flag value with
      | .ok options => read options positional rest
      | .error failure => .error failure
    | (some flag, none) =>
      match rest with
      | [] => .error (.missingValue flag)
      | value :: rest =>
        match options.set flag value with
        | .ok options => read options positional rest
        | .error failure => .error failure

def ofArguments (arguments : List String) : Except Failure (Options × List String) :=
  read default #[] arguments

/-- How diagnostics are shown on a stream that is a terminal or not. -/
def style (options : Options) (terminal : Bool) : Style :=
  ⟨options.layout, options.color.colored terminal⟩

end Options
end Lox
