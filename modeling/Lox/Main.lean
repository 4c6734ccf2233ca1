import Lox.CommandLine

/-!
The command line itself: reading files and lines, writing, and the exit status.
-/

namespace Lox.Main

/-- The text of a file, or why it has none. -/
def readFile (path : String) : IO (Except ReadFault String) := do
  try
    match String.fromUTF8? (← IO.FS.readBinFile path) with
    | some text => return .ok text
    | none => return .error .invalidText
  catch error =>
    match error with
    | .noFileOrDirectory _ _ _ => return .error .notFound
    | .inappropriateType _ _ _ => return .error .directory
    | _ => return .error (.other (toString error))

/-- Writes what a command wrote, and exits as it did. -/
def finish (effect : Effect) : IO UInt32 := do
  (← IO.getStdout).putStr effect.output
  (← IO.getStdout).flush
  (← IO.getStderr).putStr effect.errorText
  return effect.exitStatus.toUInt32

def stuck : IO UInt32 := do
  (← IO.getStderr).putStr "the run has no outcome\n"
  return 101

def say (style : Style) (utterance : Utterance) : IO Unit := do
  (← IO.getStdout).putStr (CommandLine.Utterance.output utterance)
  (← IO.getStdout).flush
  (← IO.getStderr).putStr (CommandLine.Utterance.errors style utterance)

/-- The bytes of the input up to and including the next newline, behind those
already read. At the end of the input there are none. -/
partial def readLine (input : IO.FS.Stream) (line : ByteArray) : IO ByteArray := do
  let bytes ← input.read 1
  if bytes.isEmpty then return line
  else if bytes.toList.contains Prompt.newline then return line.append bytes
  else readLine input (line.append bytes)

/-- The prompt, which answers each line before it asks for the next. -/
partial def converse (style : Style) (session : Session) : IO UInt32 := do
  say style (.prompt Prompt.question)
  let line ← readLine (← IO.getStdin) .empty
  if line.isEmpty then
    say style (.prompt "\n")
    return 0
  else
    match String.fromUTF8? line with
    | none => finish (.failed (.input .invalidText))
    | some line =>
      match Prompt.answer Session.budget line session with
      | .error _ => stuck
      | .ok (answers, session) =>
        answers.forM (say style)
        converse style session

end Lox.Main

open Lox in
def main (arguments : List String) : IO UInt32 := do
  let terminal ← (← IO.getStderr).isTty
  match CommandLine.read arguments with
  | .error failure => Main.finish (.failed failure)
  | .ok (options, .prompt) =>
    Main.converse (options.style terminal) (.start (CommandLine.settings options))
  | .ok (options, command) =>
    let text ← match command with
      | .act .explain _ => pure (.error .notFound)
      | .act _ path => Main.readFile path
      | _ => pure (.error .notFound)
    match CommandLine.perform Session.budget options ⟨fun _ => text, .empty, terminal⟩ command with
    | .ok effect => Main.finish effect
    | .error _ => Main.stuck
