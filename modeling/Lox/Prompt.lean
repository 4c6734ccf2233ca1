import Lox.Session

/-!
The interactive prompt. It asks for a line, runs it in its session, and asks
again, until the input ends or is not text. What it says is kept in order, each
piece with where it comes from.
-/

namespace Lox

/-- What is said during an interactive session. -/
inductive Utterance where
  | prompt (text : String)
  | output (text : String)
  | diagnostics (diagnostics : List Diagnostic)
  deriving DecidableEq, Repr

/-- How an interactive session ends. -/
inductive PromptEnd where
  | endOfInput | invalidText
  deriving DecidableEq, Repr

structure Transcript where
  said : List Utterance
  ending : PromptEnd

namespace Transcript

/-- What the prompt itself wrote. -/
def prompts (transcript : Transcript) : String :=
  String.join (transcript.said.map fun
    | .prompt text => text
    | _ => "")

/-- What the programs printed. -/
def output (transcript : Transcript) : String :=
  String.join (transcript.said.map fun
    | .output text => text
    | _ => "")

end Transcript

namespace Prompt

def newline : UInt8 := 10

/-- Bytes cut behind each newline. A last piece may lack one, and is not
empty. -/
def cutLines (pieces : Array (Array UInt8)) (piece : Array UInt8) : List UInt8 → List (Array UInt8)
  | [] => (if piece.isEmpty then pieces else pieces.push piece).toList
  | byte :: rest =>
    if byte == newline then cutLines (pieces.push (piece.push byte)) #[] rest
    else cutLines pieces (piece.push byte) rest

def lines (input : ByteArray) : List (Array UInt8) := cutLines #[] #[] input.toList

def question : String := "> "

/-- Runs one line, and says what comes of it. -/
def answer (fuel : Nat) (line : String) (session : Session) :
    Except Stuck (List Utterance × Session) :=
  match session.run fuel line with
  | .ok ⟨diagnostics, printed, session⟩ =>
    .ok ([.output printed, .diagnostics diagnostics], session)
  | .error stuck => .error stuck

/-- Answers the lines one after another. -/
def converse (fuel : Nat) (said : Array Utterance) (session : Session) :
    List (Array UInt8) → Except Stuck Transcript
  | [] => .ok ⟨(said.push (.prompt question) |>.push (.prompt "\n")).toList, .endOfInput⟩
  | line :: rest =>
    match String.fromUTF8? ⟨line⟩ with
    | none => .ok ⟨(said.push (.prompt question)).toList, .invalidText⟩
    | some line =>
      match answer fuel line session with
      | .ok (answers, session) =>
        converse fuel (said.push (.prompt question) ++ answers) session rest
      | .error stuck => .error stuck

def run (fuel : Nat) (settings : Settings) (input : ByteArray) : Except Stuck Transcript :=
  converse fuel #[] (.start settings) (lines input)

end Prompt
end Lox
