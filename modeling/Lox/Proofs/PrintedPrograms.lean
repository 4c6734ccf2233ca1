import Lox.Proofs.GrammarAtoms
import Lox.Proofs.RunFuel

/-! The printed text of a program tells all of it but its layout. What is parsed from tokens that can
be read is written legibly. -/

namespace Lox

/-- What a source without errors is parsed to is written legibly, unless a number is too great. -/
theorem Program.legible {source : String} {program : Program}
    (accepted : Program.ofSource source = .ok program)
    (finite : ∀ token ∈ (Scan.ofSource source).tokens, token.kind.isFinite) :
    Sexp.AllLegible (Stmt.sexpAll (program.map Stmt.bare)) := by
  have own : Sexp.Admits Sexp.Atomic := by
    refine ⟨fun name named => .of_other ?_ rfl (by simp), fun word => .of_other trivial rfl (by simp),
      fun sign opens closes => ⟨trivial, rfl, by simpa using opens, by simpa using closes⟩⟩
    simp only [List.mem_cons, List.not_mem_nil, or_false] at named
    rcases named with rfl | rfl | rfl | rfl
    all_goals exact ⟨by decide, by decide⟩
  rw [Stmt.sexpAll_bare]
  refine (Program.written accepted own fun token among inner other => ?_).legible
  exact .of_other (Scan.legible among inner) (finite token among) other

/-- Two programs without errors that are printed alike are the same but for their layout, if their
numbers are finite. -/
theorem Program.printed_alike_same {first second : String} {program other : Program}
    (accepted : Program.ofSource first = .ok program)
    (accepted' : Program.ofSource second = .ok other)
    (finite : ∀ token ∈ (Scan.ofSource first).tokens, token.kind.isFinite)
    (finite' : ∀ token ∈ (Scan.ofSource second).tokens, token.kind.isFinite)
    (same : Stmt.programText program = Stmt.programText other) :
    program.map Stmt.bare = other.map Stmt.bare := by
  have lines : Sexp.lines (Stmt.sexpAll (program.map Stmt.bare)) =
      Sexp.lines (Stmt.sexpAll (other.map Stmt.bare)) := by
    rw [Stmt.sexpAll_bare, Stmt.sexpAll_bare, ← Stmt.toList_programText, same,
      Stmt.toList_programText]
  exact Stmt.sexpAll_injective (Sexp.lines_injective (Program.legible accepted finite)
    (Program.legible accepted' finite') lines)

/-- A loop that is written as `for` is printed like the blocks that it stands for. -/
theorem Program.printed_alike_same_loop :
    let first := "for (;;) print 1.5;"
    let second := "\x7b while (true)\n \x7b print 01.50; \x7d \x7d"
    ∃ program other, Program.ofSource first = .ok program ∧ Program.ofSource second = .ok other ∧
      (∀ token ∈ (Scan.ofSource first).tokens, token.kind.isFinite) ∧
      (∀ token ∈ (Scan.ofSource second).tokens, token.kind.isFinite) ∧
        Stmt.programText program = "(block (while true (block (print 1.5))))\n" ∧
          Stmt.programText program = Stmt.programText other ∧
            program.map Stmt.bare = other.map Stmt.bare := by
  intro first second
  have finite : ∀ token ∈ (Scan.ofSource first).tokens, token.kind.isFinite := by decide +kernel
  have finite' : ∀ token ∈ (Scan.ofSource second).tokens, token.kind.isFinite := by decide +kernel
  have text : (Program.ofSource first).toOption.map Stmt.programText =
      some "(block (while true (block (print 1.5))))\n" := by decide +kernel
  have text' : (Program.ofSource second).toOption.map Stmt.programText =
      some "(block (while true (block (print 1.5))))\n" := by decide +kernel
  cases accepted : Program.ofSource first with
  | error diagnostics => simp [accepted, Except.toOption] at text
  | ok program =>
    cases accepted' : Program.ofSource second with
    | error diagnostics => simp [accepted', Except.toOption] at text'
    | ok other =>
      rw [accepted] at text
      rw [accepted'] at text'
      have same := Option.some.inj (text.trans text'.symm)
      exact ⟨program, other, rfl, rfl, finite, finite', Option.some.inj text, same,
        Program.printed_alike_same accepted accepted' finite finite' same⟩

end Lox
