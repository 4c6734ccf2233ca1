import Lox.Proofs.DiagnosticShapes
import Lox.Proofs.GrammarAtoms

/-! The names in a program are words of its source, and no other names are told by its errors. -/

namespace Lox

/-- Identifiers are words. -/
def TokenKind.isWorded : TokenKind → Bool
  | .identifier name => isWord name.toList
  | _ => true

namespace TokenKind

theorem isWorded_of_legible {kind : TokenKind} (legible : kind.Legible) : kind.isWorded := by
  cases kind with
  | identifier name => exact legible.1
  | _ => rfl

theorem isWorded_admits : Sexp.Admits (isWorded ·) where
  word := by decide
  keyword _ := rfl
  symbol _ _ _ := rfl

end TokenKind

namespace Part

def sexp : Part → Sexp
  | expr node => node.sexp
  | stmt node => node.sexp

theorem sexp_mem_exprs {node : Expr Place} {nodes : List (Expr Place)} (member : node ∈ nodes) :
    (expr node).sexp ∈ Expr.sexpAll nodes := by
  rw [Expr.sexpAll_eq_map]
  exact List.mem_map_of_mem member

theorem sexp_mem_stmts {node : Stmt Place} {nodes : List (Stmt Place)} (member : node ∈ nodes) :
    (stmt node).sexp ∈ Stmt.sexpAll nodes := by
  rw [Stmt.sexpAll_eq_map]
  exact List.mem_map_of_mem member

/-- What is right below a node is written in it. -/
theorem sexp_children (node : Part) : ∀ child ∈ node.children,
    ∃ items, node.sexp = .list items ∧ child.sexp ∈ items := by
  intro child below
  cases node with
  | expr node =>
    cases node with
    | literal | name => cases below
    | grouping | unary | assign =>
      obtain rfl := List.mem_singleton.mp below
      exact ⟨_, rfl, by simp [sexp]⟩
    | binary _ _ left right | logical _ _ left right =>
      obtain rfl | rfl : child = expr left ∨ child = expr right := by simpa [children] using below
      all_goals exact ⟨_, rfl, by simp [sexp]⟩
    | call =>
      rcases List.mem_cons.mp below with rfl | inside
      · exact ⟨_, rfl, .tail _ (.head _)⟩
      · obtain ⟨argument, among, rfl⟩ := List.mem_map.mp inside
        exact ⟨_, rfl, .tail _ (.tail _ (sexp_mem_exprs among))⟩
  | stmt node =>
    cases node with
    | breakLoop | continueLoop => cases below
    | expression | print =>
      obtain rfl := List.mem_singleton.mp below
      exact ⟨_, rfl, by simp [sexp]⟩
    | declare | returnValue =>
      obtain ⟨value, some, rfl⟩ := List.mem_map.mp below
      obtain rfl := Option.mem_toList.mp some
      exact ⟨_, rfl, by simp [sexp]⟩
    | ifThen _ condition body | whileLoop _ condition body =>
      obtain rfl | rfl : child = expr condition ∨ child = stmt body := by
        simpa [children] using below
      all_goals exact ⟨_, rfl, by simp [sexp]⟩
    | ifElse _ condition body other =>
      obtain rfl | rfl | rfl : child = expr condition ∨ child = stmt body ∨ child = stmt other := by
        simpa [children] using below
      all_goals exact ⟨_, rfl, by simp [sexp]⟩
    | block =>
      obtain ⟨stmt, among, rfl⟩ := List.mem_map.mp below
      exact ⟨_, rfl, .tail _ (sexp_mem_stmts among)⟩
    | function =>
      obtain ⟨stmt, among, rfl⟩ := List.mem_map.mp below
      exact ⟨_, rfl, .tail _ (.tail _ (.tail _ (sexp_mem_stmts among)))⟩

/-- What holds of all atoms of a node holds of all atoms further down. -/
theorem Down.written {atoms : TokenKind → Prop} {node lower : Part} (down : Down node lower)
    (written : Sexp.Of atoms node.sexp) : Sexp.Of atoms lower.sexp := by
  induction down with
  | refl => exact written
  | tail _ below ih =>
    obtain ⟨items, same, inside⟩ := sexp_children _ _ below
    rw [same] at ih
    cases ih with
    | list each => exact Sexp.allOf_iff.mp each _ inside

end Part

namespace Program

variable {source : String} {program : Program}

theorem Has.worded (accepted : Program.ofSource source = .ok program) {node : Part}
    (has : program.Has node) : Sexp.Of (TokenKind.isWorded ·) node.sexp := by
  have written : Sexp.AllOf (TokenKind.isWorded ·) (Stmt.sexpAll program) :=
    Program.written accepted TokenKind.isWorded_admits fun token among inner _ =>
      TokenKind.isWorded_of_legible (Scan.legible among inner)
  obtain ⟨stmt, among, down⟩ := has
  exact down.written (Sexp.allOf_iff.mp written _ (Part.sexp_mem_stmts among))

/-- Variables are named by words. -/
theorem Has.isWord_variable (accepted : Program.ofSource source = .ok program) {node : Expr Place}
    (has : program.Has (.expr node)) {name : String} (about : node.variable? = some name) :
    isWord name.toList := by
  have written := has.worded accepted
  cases node with
  | name place label =>
    cases about
    cases written with
    | atom holds => exact holds
  | assign place label value =>
    cases about
    exact written.among (.tail _ (.head _))
  | _ => cases about

/-- Functions are named by words. -/
theorem Declares.isWord_name (accepted : Program.ofSource source = .ok program)
    {name : String} {params : List String} {body : List (Stmt Place)}
    (declared : program.Declares name params body) : isWord name.toList := by
  obtain ⟨place, has⟩ : ∃ place, program.Has (.stmt (.function place name params body)) := by
    cases declared with
    | here member => exact ⟨_, has_of_mem _ member⟩
    | inside declared member => exact ⟨_, declared.has _ member⟩
  exact (has.worded accepted).among (.tail _ (.head _))

end Program

theorem newline_not_mem_append {first second : String} : '\n' ∉ (first ++ second).toList ↔
    '\n' ∉ first.toList ∧ '\n' ∉ second.toList := by
  rw [String.toList_append, List.mem_append, not_or]

theorem newline_not_mem_word {word : List Char} (proper : isWord word) : '\n' ∉ word := by
  intro inside
  cases word with
  | nil => cases inside
  | cons first rest =>
    obtain ⟨starts, parts⟩ := Bool.and_eq_true_iff.mp proper
    rcases List.mem_cons.mp inside with rfl | later
    · cases starts
    · cases List.all_eq_true.mp parts _ later

theorem newline_not_mem_number (amount : Nat) : '\n' ∉ (toString amount).toList := by
  have digits : (toString amount).toList = Nat.toDigits 10 amount := by simp [toString]
  intro inside
  rw [digits] at inside
  have digit := Nat.isDigit_of_mem_toDigits (by decide) (by decide) inside
  cases digit

theorem Value.typeName_line (value : Value) : '\n' ∉ value.typeName.toList := by
  cases value <;> simp only [typeName] <;> decide

/-- The names that a fault tells. -/
def RuntimeFault.names : RuntimeFault → List String
  | .undefinedVariable name | .uninitializedVariable name | .notCallable name
  | .arityMismatch name _ _ => [name]
  | _ => []

/-- Nothing but a name can break the message of a fault. -/
theorem RuntimeFault.message_line (fault : RuntimeFault)
    (names : ∀ name ∈ fault.names, '\n' ∉ name.toList) : '\n' ∉ fault.message.toList := by
  have apart {front back : String} (first : '\n' ∉ front.toList) (second : '\n' ∉ back.toList) :
      '\n' ∉ (front ++ back).toList := newline_not_mem_append.mpr ⟨first, second⟩
  cases fault with
  | typeError requirement => cases requirement <;> decide
  | divisionByZero | outsideFunction => decide
  | outsideLoop jump => cases jump <;> decide
  | undefinedVariable name | uninitializedVariable name =>
    exact apart (apart (by decide) (names name (.head _))) (by decide)
  | notCallable name => exact apart (names name (.head _)) (by decide)
  | arityMismatch name expected got =>
    let noun := if expected = 1 then "argument" else "arguments"
    have counted : '\n' ∉ noun.toList := by
      unfold noun
      split <;> decide
    have text : (arityMismatch name expected got).message =
      name ++ " expects " ++ toString expected ++ " " ++ noun ++ ", got " ++ toString got := rfl
    rw [text]
    simp only [newline_not_mem_append]
    exact ⟨⟨⟨⟨⟨⟨names name (.head _), by decide⟩, newline_not_mem_number _⟩, by decide⟩, counted⟩,
      by decide⟩, newline_not_mem_number _⟩
  | stackOverflow limit => exact apart (apart (by decide) (newline_not_mem_number _)) (by decide)

namespace Callees

/-- A fault at a node of a program tells words. -/
theorem Tells.names {source : String} {program : Program} {limit : Option Nat} {node : Expr Place}
    {fault : RuntimeFault} (accepted : Program.ofSource source = .ok program)
    (has : program.Has (.expr node)) (told : (program.callees limit).Tells node fault) :
    ∀ name ∈ fault.names, '\n' ∉ name.toList := by
  intro name member
  cases fault with
  | undefinedVariable own | uninitializedVariable own =>
    obtain rfl := List.mem_singleton.mp member
    exact newline_not_mem_word (has.isWord_variable accepted told)
  | arityMismatch own expected got =>
    obtain rfl := List.mem_singleton.mp member
    rcases told with ⟨native, rfl⟩ | ⟨params, body, declared⟩
    · cases native
      decide
    · exact newline_not_mem_word (Program.Declares.isWord_name accepted declared)
  | notCallable own =>
    obtain rfl := List.mem_singleton.mp member
    obtain ⟨value, rfl⟩ := told
    exact Value.typeName_line value
  | _ => cases member

theorem Explains.message_line {source : String} {program : Program} {limit : Option Nat}
    {parts : List Part} {depth : Nat} {error : RuntimeError}
    (accepted : Program.ofSource source = .ok program)
    (explained : (program.callees limit).Explains parts depth error)
    (has : ∀ part ∈ parts, program.Has part) : '\n' ∉ error.message.toList := by
  induction explained with
  | fault inside plain told =>
    exact RuntimeFault.message_line _ (told.names accepted (has _ inside))
  | refused inside limited full => exact RuntimeFault.message_line _ nofun
  | escaped inside declared entered leaves => exact RuntimeFault.message_line _ nofun
  | within inside declared entered inner ih => exact ih (Program.Declares.has declared)

end Callees

/-- The message of an error that a program ends with in a fresh session is a line. -/
theorem Session.interpret_message_line {settings : Settings} {source : String} {program : Program}
    {fuel : Nat} {error : RuntimeError} {printed : String} {after : Session}
    (accepted : Program.ofSource source = .ok program)
    (interpreted : (start settings).interpret fuel program = .ok ⟨.error error, printed, after⟩) :
    '\n' ∉ error.message.toList := by
  rcases interpret_origin interpreted with explained | ⟨exit, leaves, rfl⟩
  · exact explained.message_line accepted Program.has_of_mem
  · cases exit <;> exact RuntimeFault.message_line _ nofun

end Lox
