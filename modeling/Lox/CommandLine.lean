import Lox.CommandLine.Options
import Lox.Diagnostic.Guide
import Lox.Prompt
import Lox.Syntax.Text

/-!
The commands. What a command writes is a function of its arguments, of the files
it can read and of its input, so that only reading and writing are left to do.
-/

namespace Lox

inductive Command where
  | prompt | help | version
  | act (action : Action) (argument : String)
  deriving DecidableEq, Repr

namespace Command

private def withOne (action : Action) : List String → Except Failure Command
  | [argument] => .ok (.act action argument)
  | _ => .error (.wrongArguments action)

/-- A single argument that is no command is a script to run. -/
def ofPositional : List String → Except Failure Command
  | [] => .ok .prompt
  | "run" :: rest => withOne .run rest
  | "lex" :: rest => withOne .lex rest
  | "parse" :: rest => withOne .parse rest
  | "explain" :: rest | "--explain" :: rest => withOne .explain rest
  | "help" :: _ | "--help" :: _ | "-h" :: _ => .ok .help
  | "version" :: _ | "--version" :: _ | "-V" :: _ => .ok .version
  | [script] => .ok (.act .run script)
  | _ => .error .unknownCommand

end Command

/-- What a command writes to its two streams, and how it ends. -/
structure Effect where
  output : String
  errors : String
  failure : Option Failure

namespace Effect

def said (output : String) : Effect := ⟨output, "", none⟩

def failed (failure : Failure) : Effect := ⟨"", "", some failure⟩

/-- Output, and then diagnostics if there are any. -/
def reporting (style : Style) (output : String) (diagnostics : List Diagnostic) : Effect :=
  if diagnostics.isEmpty then said output
  else ⟨output, style.report diagnostics, some (.reported diagnostics.length)⟩

def exitStatus (effect : Effect) : Nat :=
  match effect.failure with
  | none => 0
  | some failure => failure.exitStatus

/-- All of the error stream, with what is written about the failure. -/
def errorText (effect : Effect) : String :=
  match effect.failure with
  | none => effect.errors
  | some failure => effect.errors ++ failure.notice

end Effect

/-- The tree of a source as text. -/
def Program.textOfSource (source : String) : Except (List Diagnostic) String :=
  match Program.ofSource source with
  | .ok program => .ok (Stmt.programText program)
  | .error diagnostics => .error diagnostics

/-- The explanation of an error code. -/
def explain (text : String) : Except Failure String :=
  match Code.ofName? text with
  | some code => .ok code.guide
  | none => .error (.unknownCode text)

/-- The surroundings of a command: how files are read, what comes in, and
whether the error stream is a terminal. -/
structure World where
  read : String → Except ReadFault String
  input : ByteArray
  terminal : Bool

namespace CommandLine

def versionText : String := "lox 0.1.0\n"

def helpText : String :=
  String.join <| List.map (· ++ "\n") [
    "Lox tree-walking interpreter",
    "",
    "Usage: lox [options] [script]",
    "       lox [options] <command> <arg>",
    "",
    "With no script, starts an interactive prompt.",
    "",
    "Commands:",
    "  run <file>          Run a Lox script",
    "  lex <file>          Print the token stream",
    "  parse <file>        Print the parsed program as S-expressions",
    "  explain <code>      Explain an error code (e.g., E6002)",
    "  help                Show this help message",
    "  version             Show version information",
    "",
    "Options:",
    "  --color=<mode>          auto (default), always, never",
    "  --error-format=<fmt>    human (default), short",
    "  --max-call-depth=<n>    Fail with a stack overflow error past n nested calls",
    "",
    "Environment:",
    "  RUST_LOG        Enable tracing output (e.g., RUST_LOG=lox_eval=debug)",
    "  LOX_LOG_TREE    Print traces as an indented span tree"]

def settings (options : Options) : Settings := ⟨options.maxDepth, Session.steadyClock⟩

def runSource (fuel : Nat) (options : Options) (style : Style) (source : String) :
    Except Stuck Effect :=
  match (Session.start (settings options)).run fuel source with
  | .ok outcome => .ok (.reporting style outcome.printed outcome.result)
  | .error stuck => .error stuck

def lexSource (style : Style) (source : String) : Effect :=
  let scan := Scan.ofSource source
  .reporting style scan.listing (scan.errors.map LexError.diagnostic)

def parseSource (style : Style) (source : String) : Effect :=
  match Program.textOfSource source with
  | .ok text => .said text
  | .error diagnostics => .reporting style "" diagnostics

def Utterance.output : Utterance → String
  | .prompt text | .output text => text
  | .diagnostics _ => ""

def Utterance.errors (style : Style) : Utterance → String
  | .prompt _ | .output _ => ""
  | .diagnostics diagnostics => style.report diagnostics

def showTranscript (style : Style) (transcript : Transcript) : Effect where
  output := String.join (transcript.said.map Utterance.output)
  errors := String.join (transcript.said.map (Utterance.errors style))
  failure := match transcript.ending with
    | .endOfInput => none
    | .invalidText => some (.input .invalidText)

def act (fuel : Nat) (options : Options) (world : World) (action : Action) (argument : String) :
    Except Stuck Effect :=
  let style := options.style world.terminal
  match action with
  | .explain =>
    match explain argument with
    | .ok guide => .ok (.said (guide ++ "\n"))
    | .error failure => .ok (.failed failure)
  | .run | .lex | .parse =>
    match world.read argument, action with
    | .error fault, _ => .ok (.failed (.unreadable argument fault))
    | .ok source, .lex => .ok (lexSource style source)
    | .ok source, .parse => .ok (parseSource style source)
    | .ok source, _ => runSource fuel options style source

def perform (fuel : Nat) (options : Options) (world : World) : Command → Except Stuck Effect
  | .prompt =>
    match Prompt.run fuel (settings options) world.input with
    | .ok transcript => .ok (showTranscript (options.style world.terminal) transcript)
    | .error stuck => .error stuck
  | .help => .ok (.said helpText)
  | .version => .ok (.said versionText)
  | .act action argument => act fuel options world action argument

/-- The options and the command of a command line. -/
def read (arguments : List String) : Except Failure (Options × Command) :=
  match Options.ofArguments arguments with
  | .error failure => .error failure
  | .ok (options, positional) =>
    match Command.ofPositional positional with
    | .ok command => .ok (options, command)
    | .error failure => .error failure

def run (fuel : Nat) (arguments : List String) (world : World) : Except Stuck Effect :=
  match read arguments with
  | .ok (options, command) => perform fuel options world command
  | .error failure => .ok (.failed failure)

end CommandLine
end Lox
