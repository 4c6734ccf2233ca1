import Lox.Proofs.ErrorRuns

/-! A backtrace is the real chain of calls. Each frame names a function of the program and has the
line of a call in the body of the function that the next frame names. -/

namespace Lox

def Stmt.lines (body : List (Stmt Place)) : List Nat := (partsAll body).map Part.line

def Stmt.callLines (body : List (Stmt Place)) : List Nat := (partsAll body).filterMap Part.callLine?

/-- What a frame is the frame of: the body of a function with the name, or, where there is no frame,
the code that all the calls came from. -/
def Program.Body (program : Program) (around : List (Stmt Place)) :
    Option String → List (Stmt Place) → Prop
  | none, body => body = around
  | some name, body => ∃ params, program.Declares name params body

/-- An error of a program: where it was raised, where each of the calls around it was made, and how
many there are. A call that was refused would have been one too many. -/
structure Program.Backtraces (program : Program) (limit : Option Nat) (error : RuntimeError) :
    Prop where
  raised : ∃ body, program.Body program (error.backtrace[0]?.map Frame.function) body ∧
    error.line ∈ Stmt.lines body
  called : ∀ index frame, error.backtrace[index]? = some frame →
    ∃ body, program.Body program (error.backtrace[index + 1]?.map Frame.function) body ∧
      frame.line ∈ Stmt.callLines body
  bounded : ∀ depth, limit = some depth → error.backtrace.size ≤ depth
  refused : ∀ depth, error.fault = .stackOverflow depth →
    limit = some depth ∧ error.backtrace.size = depth ∧
      ∃ body, program.Body program (error.backtrace[0]?.map Frame.function) body ∧
        error.line ∈ Stmt.callLines body

theorem Stmt.mem_lines {body : List (Stmt Place)} {node : Expr Place}
    (inside : .expr node ∈ partsAll body) : node.place.line ∈ lines body :=
  List.mem_map_of_mem (f := Part.line) inside

theorem Stmt.mem_callLines {body : List (Stmt Place)} {place : Place} {callee : Expr Place}
    {arguments : List (Expr Place)} (inside : .expr (.call place callee arguments) ∈ partsAll body) :
    place.line ∈ callLines body :=
  List.mem_filterMap.mpr ⟨_, inside, rfl⟩

namespace Program

/-- The functions of a program, in all scopes. -/
def callees (program : Program) (limit : Option Nat) : Callees where
  function := program.Declares
  scope _ := True
  limit := limit
  closed declared := .inside declared

variable {program : Program} {limit : Option Nat} {around body : List (Stmt Place)} {depth : Nat}
  {error : RuntimeError} {name : String} {params : List String}

/-- One more frame at the end names the body that was around. -/
theorem Body.push (declared : program.Declares name params body) {frames : Array Frame} {line : Nat}
    {index : Nat} (bound : index ≤ frames.size) {code : List (Stmt Place)}
    (owner : program.Body body (frames[index]?.map Frame.function) code) :
    program.Body around ((frames.push ⟨name, line⟩)[index]?.map Frame.function) code := by
  rcases Nat.lt_or_eq_of_le bound with inside | rfl
  · rw [Array.getElem?_push_lt inside]
    rw [Array.getElem?_eq_getElem inside] at owner
    exact owner
  · rw [Array.getElem?_push_size]
    rw [Array.getElem?_eq_none (Nat.le_refl _)] at owner
    cases owner
    exact ⟨params, declared⟩

theorem raised {parts : List Part} (explained : (program.callees limit).Explains parts depth error)
    (nodes : parts = Stmt.partsAll around) :
    ∃ code, program.Body around (error.backtrace[0]?.map Frame.function) code ∧
      error.line ∈ Stmt.lines code := by
  induction explained generalizing around with
  | fault inside plain told => exact ⟨around, rfl, Stmt.mem_lines (nodes ▸ inside)⟩
  | refused inside limited full => exact ⟨around, rfl, Stmt.mem_lines (nodes ▸ inside)⟩
  | escaped inside declared entered leaves =>
    obtain ⟨part, member, same⟩ := Stmt.exitsAll_parts _ leaves
    exact ⟨_, ⟨_, declared⟩, List.mem_map.mpr ⟨part, member, same⟩⟩
  | within inside declared entered inner ih =>
    obtain ⟨code, owner, member⟩ := ih rfl
    exact ⟨code, owner.push declared (Nat.zero_le _), member⟩

theorem called {parts : List Part} (explained : (program.callees limit).Explains parts depth error)
    (nodes : parts = Stmt.partsAll around) {index : Nat} {frame : Frame}
    (found : error.backtrace[index]? = some frame) :
    ∃ code, program.Body around (error.backtrace[index + 1]?.map Frame.function) code ∧
      frame.line ∈ Stmt.callLines code := by
  induction explained generalizing around with
  | fault inside plain told => cases found
  | refused inside limited full => cases found
  | escaped inside declared entered leaves =>
    cases index with
    | zero =>
      cases found
      exact ⟨around, rfl, Stmt.mem_callLines (nodes ▸ inside)⟩
    | succ index => cases found
  | within inside declared entered inner ih =>
    obtain ⟨made, -⟩ := Array.getElem?_eq_some_iff.mp found
    simp only [RuntimeError.within] at *
    rw [Array.size_push] at made
    rcases Nat.lt_succ_iff_lt_or_eq.mp made with earlier | rfl
    · rw [Array.getElem?_push_lt earlier, ← Array.getElem?_eq_getElem earlier] at found
      obtain ⟨code, owner, member⟩ := ih rfl found
      exact ⟨code, owner.push declared earlier, member⟩
    · rw [Array.getElem?_push_size] at found
      cases found
      refine ⟨around, ?_, Stmt.mem_callLines (nodes ▸ inside)⟩
      rw [Array.getElem?_eq_none (Nat.le_of_eq (Array.size_push _))]
      rfl

theorem bounded {parts : List Part} (explained : (program.callees limit).Explains parts depth error)
    {most : Nat} (limited : limit = some most) (within : depth ≤ most) :
    error.backtrace.size + depth ≤ most := by
  induction explained with
  | fault inside plain told => simpa [RuntimeError.ofFault] using within
  | refused inside limited full => simpa [RuntimeError.ofFault] using within
  | escaped inside declared entered leaves =>
    have deeper := entered most limited
    simp only [RuntimeError.ofFault, RuntimeError.within, Array.size_push, Array.size_empty]
    omega
  | within inside declared entered inner ih =>
    have deeper := ih (entered most limited)
    simp only [RuntimeError.within, Array.size_push]
    omega

theorem refused {parts : List Part} (explained : (program.callees limit).Explains parts depth error)
    (nodes : parts = Stmt.partsAll around) {most : Nat} (within : ∀ own, limit = some own → depth ≤ own)
    (overflow : error.fault = .stackOverflow most) :
    limit = some most ∧ error.backtrace.size + depth = most ∧
      ∃ code, program.Body around (error.backtrace[0]?.map Frame.function) code ∧
        error.line ∈ Stmt.callLines code := by
  induction explained generalizing around with
  | fault inside plain told =>
    simp only [RuntimeError.ofFault] at overflow
    rw [overflow] at plain
    cases plain
  | refused inside limited full =>
    obtain rfl := RuntimeFault.stackOverflow.inj overflow
    have equal := Nat.le_antisymm (within _ limited) full
    exact ⟨limited, by simp [RuntimeError.ofFault, equal], around, rfl,
      Stmt.mem_callLines (nodes ▸ inside)⟩
  | escaped inside declared entered leaves => cases overflow
  | within inside declared entered inner ih =>
    obtain ⟨limited, size, code, owner, member⟩ := ih rfl entered overflow
    refine ⟨limited, ?_, code, owner.push declared (Nat.zero_le _), member⟩
    simp only [RuntimeError.within, Array.size_push]
    omega

theorem backtraces_of_explained
    (explained : (program.callees limit).Explains (Stmt.partsAll program) 0 error) :
    program.Backtraces limit error where
  raised := raised explained rfl
  called _ _ found := called explained rfl found
  bounded _ limited := bounded explained limited (Nat.zero_le _)
  refused _ overflow := refused explained rfl (fun _ _ => Nat.zero_le _) overflow

theorem backtraces_of_exit {exit : Exit} (leaves : exit ∈ Stmt.exitsAll program) :
    program.Backtraces limit exit.error := by
  obtain ⟨part, member, same⟩ := Stmt.exitsAll_parts exit leaves
  have line : exit.line ∈ Stmt.lines program := List.mem_map.mpr ⟨part, member, same⟩
  cases exit with
  | returning line' => exact ⟨⟨program, rfl, line⟩, nofun, fun _ _ => Nat.zero_le _, nofun⟩
  | jumping jump line' => exact ⟨⟨program, rfl, line⟩, nofun, fun _ _ => Nat.zero_le _, nofun⟩

end Program

/-- In a fresh session a program stops with nothing but an error of one of its functions, or at a
statement that leaves what it does not stand in. -/
theorem Session.interpret_origin {settings : Settings} {program : Program} {fuel : Nat}
    {error : RuntimeError} {printed : String} {after : Session}
    (interpreted : (start settings).interpret fuel program = .ok ⟨.error error, printed, after⟩) :
    (program.callees settings.maxDepth).Explains (Stmt.partsAll program) 0 error ∨
      ∃ exit ∈ Stmt.exitsAll program, error = exit.error := by
  have stores : (program.callees settings.maxDepth).Stores (start settings).machine.heap :=
    Session.start_stores settings fun _ _ => trivial
  have within : (program.callees settings.maxDepth).scope (start settings).globals := trivial
  obtain ⟨-, origin⟩ := Session.interpret_concludes rfl within .here stores interpreted
  exact origin error rfl

/-- Such an error tells the calls around it. -/
theorem Session.interpret_backtraces {settings : Settings} {program : Program} {fuel : Nat}
    {error : RuntimeError} {printed : String} {after : Session}
    (interpreted : (start settings).interpret fuel program = .ok ⟨.error error, printed, after⟩) :
    program.Backtraces settings.maxDepth error := by
  rcases Session.interpret_origin interpreted with explained | ⟨exit, leaves, rfl⟩
  · exact Program.backtraces_of_explained explained
  · exact Program.backtraces_of_exit leaves

/-- An error that running a source ends in tells the calls that it came out of. -/
theorem Session.backtrace_is_chain_of_calls {settings : Settings} {source : String}
    {program : Program} {fuel : Nat} {outcome : Outcome (List Diagnostic)}
    (accepted : Program.ofSource source = .ok program)
    (ran : (Session.start settings).run fuel source = .ok outcome) :
    outcome.result = [] ∨ ∃ error after,
      (Session.start settings).interpret fuel program =
        .ok ⟨.error error, outcome.printed, after⟩ ∧
      outcome.result = [error.diagnostic] ∧ program.Backtraces settings.maxDepth error := by
  obtain ⟨⟨result, printed, after⟩, interpreted, rfl⟩ := (Session.run_accepted accepted).mp ran
  cases result with
  | ok value => exact .inl rfl
  | error error => exact .inr ⟨error, after, interpreted, rfl, Session.interpret_backtraces interpreted⟩

/-- The third call of a function by itself is refused, in the second one. -/
theorem Session.backtrace_is_chain_of_calls_refused :
    let session := Session.start ⟨some 2, Session.steadyClock⟩
    let source := "fun f() \x7b\n  f();\n\x7d\nf();"
    ∃ program outcome error, Program.ofSource source = .ok program ∧
      session.run 20 source = .ok outcome ∧ outcome.result = [error.diagnostic] ∧
        error.diagnostic.notes = ["in call to 'f' at line 2", "in call to 'f' at line 4"] ∧
          error.fault = .stackOverflow 2 ∧ program.Backtraces (some 2) error := by
  intro session source
  let frames : Array Frame := #[⟨"f", 2⟩, ⟨"f", 4⟩]
  let shown := RuntimeError.diagnostic ⟨.stackOverflow 2, 2, frames⟩
  have accepted : (Program.ofSource source).toBool = true := by decide +kernel
  have found : (session.run 20 source).toOption.map (fun outcome => outcome.result) =
      some [shown] := by decide +kernel
  obtain ⟨program, parsed⟩ := Program.exists_of_toBool accepted
  cases ran : session.run 20 source with
  | error stuck => simp [ran, Except.toOption] at found
  | ok outcome =>
    have same : outcome.result = [shown] := by simpa [ran, Except.toOption] using found
    rcases Session.backtrace_is_chain_of_calls parsed ran with none | ⟨error, -, -, one, traces⟩
    · simp [same] at none
    · have diagnostic : shown = error.diagnostic := List.singleton_inj.mp (same.symm.trans one)
      have code : Code.stackOverflow = error.fault.code := congrArg Diagnostic.code diagnostic
      have overflow : error.fault = .stackOverflow 2 := by
        cases fault : error.fault with
        | stackOverflow limit =>
          obtain ⟨limited, -⟩ := traces.refused limit fault
          rw [Option.some.inj limited]
        | _ => simp [fault, RuntimeFault.code] at code
      exact ⟨program, outcome, error, parsed, rfl, one, diagnostic ▸ rfl, overflow, traces⟩

end Lox
