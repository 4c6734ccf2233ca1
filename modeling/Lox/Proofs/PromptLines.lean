import Lox.CommandLine
import Lox.Proofs.InertSources

/-! The prompt is a session over the lines of its input. It reads each of them only when those in front
of it have been answered. -/

namespace Lox

namespace Prompt

/-- Bytes cut behind each newline. What is left behind the last one is a piece too, if there is
any. -/
inductive Lines : List UInt8 → List (List UInt8) → Prop where
  | none : Lines [] []
  | last {piece : List UInt8} (nonempty : piece ≠ []) (unbroken : newline ∉ piece) :
    Lines piece [piece]
  | broken {front rest : List UInt8} {pieces : List (List UInt8)} (unbroken : newline ∉ front)
    (lines : Lines rest pieces) :
    Lines (front ++ newline :: rest) ((front ++ [newline]) :: pieces)

/-- Reads through the next newline. -/
def readLine : List UInt8 → List UInt8 × List UInt8
  | [] => ([], [])
  | byte :: input =>
    if byte == newline then ([byte], input)
    else
      let (line, rest) := readLine input
      (byte :: line, rest)

theorem readLine_append (input : List UInt8) : (readLine input).1 ++ (readLine input).2 = input := by
  induction input with
  | nil => rfl
  | cons byte input ih =>
    unfold readLine
    split
    · rfl
    · exact congrArg (byte :: ·) ih

theorem readLine_shorter {input : List UInt8} (nonempty : (readLine input).1 ≠ []) :
    (readLine input).2.length < input.length := by
  have split := congrArg List.length (readLine_append input)
  have positive := List.length_pos_of_ne_nil nonempty
  rw [List.length_append] at split
  omega

/-- Reads a line, answers it, and goes on like this until there is nothing more to read, or what there
is is not text. -/
def readAnswer (fuel : Nat) (said : List Utterance) (session : Session) (input : List UInt8) :
    Except Stuck Transcript :=
  let asked := said ++ [.prompt question]
  if nothing : (readLine input).1 = [] then .ok ⟨asked ++ [.prompt "\n"], .endOfInput⟩
  else
    match String.fromUTF8? ⟨(readLine input).1.toArray⟩ with
    | none => .ok ⟨asked, .invalidText⟩
    | some line =>
      match answer fuel line session with
      | .ok (answers, session) => readAnswer fuel (asked ++ answers) session (readLine input).2
      | .error stuck => .error stuck
termination_by input.length
decreasing_by exact readLine_shorter nothing

theorem readLine_broken {front : List UInt8} (unbroken : newline ∉ front) (rest : List UInt8) :
    readLine (front ++ newline :: rest) = (front ++ [newline], rest) := by
  induction front with
  | nil => simp [readLine]
  | cons byte front ih =>
    obtain ⟨other, unbroken⟩ := List.ne_and_not_mem_of_not_mem_cons unbroken
    have differs : (byte == newline) = false := beq_false_of_ne other.symm
    simp [readLine, differs, ih unbroken]

theorem readLine_unbroken {piece : List UInt8} (unbroken : newline ∉ piece) :
    readLine piece = (piece, []) := by
  induction piece with
  | nil => rfl
  | cons byte piece ih =>
    obtain ⟨other, unbroken⟩ := List.ne_and_not_mem_of_not_mem_cons unbroken
    have differs : (byte == newline) = false := beq_false_of_ne other.symm
    simp [readLine, differs, ih unbroken]

theorem Lines.next {input piece : List UInt8} {pieces : List (List UInt8)}
    (lines : Lines input (piece :: pieces)) :
    piece ≠ [] ∧ ∃ rest, readLine input = (piece, rest) ∧ Lines rest pieces := by
  cases lines with
  | last nonempty unbroken => exact ⟨nonempty, [], readLine_unbroken unbroken, .none⟩
  | broken unbroken lines => exact ⟨by simp, _, readLine_broken unbroken _, lines⟩

theorem Lines.exists (input : List UInt8) : ∃ pieces, Lines input pieces := by
  generalize size : input.length = length
  induction length using Nat.strongRecOn generalizing input with
  | ind length ih =>
    by_cases broken : newline ∈ input
    · obtain ⟨front, rest, rfl, unbroken⟩ := List.eq_append_cons_of_mem broken
      have shorter : rest.length < length := by
        rw [← size, List.length_append, List.length_cons]
        omega
      obtain ⟨pieces, lines⟩ := ih rest.length shorter rest rfl
      exact ⟨_, .broken unbroken lines⟩
    · cases input with
      | nil => exact ⟨[], .none⟩
      | cons byte input => exact ⟨_, .last (List.cons_ne_nil _ _) broken⟩

theorem cutLines_broken (cut : Array (Array UInt8)) (piece : Array UInt8) {front : List UInt8}
    (unbroken : newline ∉ front) (rest : List UInt8) :
    cutLines cut piece (front ++ newline :: rest) =
      cutLines (cut.push (piece ++ front ++ [newline])) #[] rest := by
  induction front generalizing piece with
  | nil => simp [cutLines]
  | cons byte front ih =>
    obtain ⟨other, unbroken⟩ := List.ne_and_not_mem_of_not_mem_cons unbroken
    have differs : (byte == newline) = false := beq_false_of_ne other.symm
    simp [cutLines, differs, ih _ unbroken]

theorem cutLines_unbroken (cut : Array (Array UInt8)) (piece : Array UInt8) {front : List UInt8}
    (unbroken : newline ∉ front) (nonempty : piece.toList ++ front ≠ []) :
    cutLines cut piece front = cut.toList ++ [(piece.toList ++ front).toArray] := by
  induction front generalizing piece with
  | nil =>
    rw [List.append_nil] at nonempty
    have some : ¬piece.isEmpty := by simpa using nonempty
    simp [cutLines, some]
  | cons byte front ih =>
    obtain ⟨other, unbroken⟩ := List.ne_and_not_mem_of_not_mem_cons unbroken
    have differs : (byte == newline) = false := beq_false_of_ne other.symm
    simp [cutLines, differs, ih _ unbroken]

theorem cutLines_eq {input : List UInt8} {pieces : List (List UInt8)} (lines : Lines input pieces)
    (cut : Array (Array UInt8)) :
    cutLines cut #[] input = cut.toList ++ pieces.map List.toArray := by
  induction lines generalizing cut with
  | none => simp [cutLines]
  | last nonempty unbroken => exact cutLines_unbroken cut #[] unbroken nonempty
  | broken unbroken lines ih => simp [cutLines_broken _ _ unbroken, ih]

/-- Reading line by line comes to the same as cutting all of the input beforehand. -/
theorem readAnswer_eq (fuel : Nat) (said : Array Utterance) (session : Session) {input : List UInt8}
    {pieces : List (List UInt8)} (lines : Lines input pieces) :
    readAnswer fuel said.toList session input =
      converse fuel said session (pieces.map List.toArray) := by
  induction pieces generalizing said session input with
  | nil =>
    cases lines
    rw [readAnswer]
    simp [readLine, converse]
  | cons piece pieces ih =>
    obtain ⟨nonempty, rest, line, lines⟩ := lines.next
    rw [readAnswer, List.map_cons, converse]
    simp only [line, nonempty, dite_false]
    cases String.fromUTF8? ⟨piece.toArray⟩ with
    | none => simp
    | some text =>
      simp only
      rcases answer fuel text session with stuck | ⟨answers, session⟩
      · rfl
      · simpa using ih (said.push (.prompt question) ++ answers) session lines

theorem run_eq_readAnswer (fuel : Nat) (settings : Settings) (input : ByteArray) :
    run fuel settings input = readAnswer fuel [] (.start settings) input.toList := by
  obtain ⟨pieces, split⟩ := Lines.exists input.toList
  have cut : lines input = pieces.map List.toArray := (cutLines_eq split #[]).trans (by simp)
  rw [run, cut]
  exact (readAnswer_eq fuel #[] _ split).symm

/-- The bytes of a text. -/
def bytes (text : String) : List UInt8 := text.toUTF8.data.toList

theorem fromUTF8?_bytes (text : String) : String.fromUTF8? ⟨(bytes text).toArray⟩ = some text :=
  dif_pos text.isValidUTF8

theorem fromUTF8?_eq_none {piece : List UInt8} (alien : ∀ text, bytes text ≠ piece) :
    String.fromUTF8? ⟨piece.toArray⟩ = none :=
  dif_neg fun valid => alien (String.fromUTF8 _ valid) rfl

/-- The texts in front of the first piece that is none, and all other pieces. -/
structure Texts (input : List UInt8) (texts : List String) (rest : List (List UInt8)) : Prop where
  lines : Lines input (texts.map bytes ++ rest)
  stops : ∀ piece ∈ rest.head?, ∀ text, bytes text ≠ piece

/-- What is said when the input ends, or goes on with what is no text, behind these answers. -/
def transcript (answers : List Session.Answer) (ended : Bool) : Transcript where
  said := (answers.flatMap fun answer =>
      [.prompt question, .output answer.printed, .diagnostics answer.diagnostics]) ++
    .prompt question :: if ended then [.prompt "\n"] else []
  ending := if ended then .endOfInput else .invalidText

theorem converse_eq (fuel : Nat) (said : Array Utterance) (session : Session) (texts : List String)
    {rest : List (List UInt8)} (stops : ∀ piece ∈ rest.head?, ∀ text, bytes text ≠ piece) :
    converse fuel said session ((texts.map bytes ++ rest).map List.toArray) =
      (session.answers fuel texts).map fun (answers, _) =>
        let transcript := transcript answers rest.isEmpty
        ⟨said.toList ++ transcript.said, transcript.ending⟩ := by
  induction texts generalizing said session with
  | nil =>
    cases rest with
    | nil => simp [converse, Session.answers, transcript, Except.map, pure, Except.pure]
    | cons piece rest =>
      have alien := fromUTF8?_eq_none (stops piece (Option.mem_some_self _))
      simp [converse, alien, Session.answers, transcript, Except.map, pure, Except.pure]
  | cons text texts ih =>
    rw [Session.answers_cons, List.map_cons, List.cons_append, List.map_cons, converse]
    simp only [fromUTF8?_bytes, answer]
    cases session.run fuel text with
    | error stuck => rfl
    | ok outcome =>
      simp only [ih, Except.bind]
      cases outcome.session.answers fuel texts with
      | error stuck => rfl
      | ok answered => simp [transcript, Except.map]

theorem run_eq {fuel : Nat} {settings : Settings} {input : ByteArray} {texts : List String}
    {rest : List (List UInt8)} (split : Texts input.toList texts rest) :
    run fuel settings input =
      ((Session.start settings).answers fuel texts).map fun (answers, _) =>
        transcript answers rest.isEmpty := by
  have cut : lines input = (texts.map bytes ++ rest).map List.toArray :=
    (cutLines_eq split.lines #[]).trans (by simp)
  rw [run, cut, converse_eq fuel #[] _ texts split.stops]
  simp

/-- Pieces that are texts, up to the first that is none. -/
theorem exists_texts (pieces : List (List UInt8)) : ∃ (texts : List String) (rest : _),
    pieces = texts.map bytes ++ rest ∧ ∀ piece ∈ rest.head?, ∀ text, bytes text ≠ piece := by
  induction pieces with
  | nil => exact ⟨[], [], rfl, nofun⟩
  | cons piece pieces ih =>
    by_cases known : ∃ text, bytes text = piece
    · obtain ⟨text, rfl⟩ := known
      obtain ⟨texts, rest, rfl, stops⟩ := ih
      exact ⟨text :: texts, rest, rfl, stops⟩
    · refine ⟨[], piece :: pieces, rfl, fun other same text spells => known ⟨text, ?_⟩⟩
      exact spells.trans (Option.some.inj same).symm

/-- Whatever part of it is shown, each answer follows its prompt, and one more prompt follows all. -/
theorem join_said (part : Utterance → String) (answers : List Session.Answer) (ended : Bool) :
    String.join ((transcript answers ended).said.map part) =
      String.join (answers.map fun answer => part (.prompt question) ++ part (.output answer.printed) ++
        part (.diagnostics answer.diagnostics)) ++ part (.prompt question) ++
      if ended then part (.prompt "\n") else "" := by
  have last : String.join ((if ended then [.prompt "\n"] else []).map part) =
      if ended then part (.prompt "\n") else "" := by cases ended <;> simp
  induction answers with
  | nil => simp [transcript, last]
  | cons answer answers ih =>
    have ih := congrArg (part (.prompt question) ++ part (.output answer.printed) ++
      part (.diagnostics answer.diagnostics) ++ ·) ih
    simpa [transcript, String.append_assoc] using ih

/-- What a prompt says that has given these answers. -/
structure Tells (transcript : Transcript) (answers : List Session.Answer) (ended : Bool) : Prop where
  output : transcript.output = String.join (answers.map (·.printed))
  prompts : transcript.prompts =
    String.join (List.replicate (answers.length + 1) question) ++ if ended then "\n" else ""
  errors : ∀ style, (CommandLine.showTranscript style transcript).errors =
    String.join (answers.map fun answer => style.report answer.diagnostics)
  failure : ∀ style, (CommandLine.showTranscript style transcript).failure =
    if ended then none else some (.input .invalidText)

theorem transcript_tells (answers : List Session.Answer) (ended : Bool) :
    Tells (transcript answers ended) answers ended := by
  refine ⟨?_, ?_, fun style => ?_, fun style => by cases ended <;> rfl⟩
  · simp [Transcript.output, join_said]
  · have questions : String.join (List.replicate (answers.length + 1) question) =
        String.join (List.replicate answers.length question) ++ question := by
      rw [List.replicate_succ', String.join_append, String.join_cons, String.join_nil,
        String.append_empty]
    simp [Transcript.prompts, join_said, questions, List.map_const']
  · simp [CommandLine.showTranscript, join_said, CommandLine.Utterance.errors]

/-- The prompt answers the lines of its input as one session does, up to the first that is no text,
whatever is wrong with them. It asks once for each of them and once more, and it ends well if all of
its input was text. If a line is not answered, neither is the prompt. -/
theorem is_a_session (fuel : Nat) (settings : Settings) (input : ByteArray) :
    run fuel settings input = readAnswer fuel [] (.start settings) input.toList ∧
    (∃ texts rest, Texts input.toList texts rest) ∧
    ∀ texts rest, Texts input.toList texts rest →
      match (Session.start settings).answers fuel texts with
      | .error stuck => run fuel settings input = .error stuck
      | .ok (answers, _) => answers.length = texts.length ∧
        ∃ transcript, run fuel settings input = .ok transcript ∧
          Tells transcript answers rest.isEmpty := by
  refine ⟨run_eq_readAnswer fuel settings input, ?_, fun texts rest split => ?_⟩
  · obtain ⟨pieces, lines⟩ := Lines.exists input.toList
    obtain ⟨texts, rest, rfl, stops⟩ := exists_texts pieces
    exact ⟨texts, rest, lines, stops⟩
  · rw [run_eq split]
    cases ran : (Session.start settings).answers fuel texts with
    | error stuck => rfl
    | ok answered =>
      exact ⟨(Session.answers_isFor ran).length_eq, _, rfl, transcript_tells answered.1 rest.isEmpty⟩

end Prompt
end Lox
