import Lox.Proofs.ParserSteps
import Lox.Proofs.ProgramParts

/-! Where declarations stand in a program. The parser reads them at the top level, in blocks and in
the bodies of functions, never as a branch or as the body of a loop, however bad the tokens are. -/

namespace Lox

namespace Stmt

variable {α : Type}

/-- A statement that declares a name by itself, with a value or without one. -/
inductive Declares : Stmt α → String → Bool → Prop where
  | variable {place : α} : Declares (declare place name initial) name initial.isSome
  | function {place : α} : Declares (function place name params body) name true

/-- What a statement binds in the scope it runs in. It may be said in a branch or in a loop. -/
inductive Binds : Stmt α → String → Bool → Prop where
  | declares (itself : Declares stmt name valued) : Binds stmt name valued
  | ifThen {place : α} (inside : Binds body name valued) :
      Binds (ifThen place condition body) name valued
  | ifBody {place : α} (inside : Binds body name valued) :
      Binds (ifElse place condition body other) name valued
  | ifOther {place : α} (inside : Binds other name valued) :
      Binds (ifElse place condition body other) name valued
  | whileLoop {place : α} (inside : Binds body name valued) :
      Binds (whileLoop place condition body) name valued

variable {name : String} {valued : Bool}

def isDeclaration : Stmt α → Bool
  | declare _ _ _ | function _ _ _ _ => true
  | _ => false

mutual

/-- Whether no branch and no body of a loop is a declaration, in the functions declared there
neither. -/
def orderly : Stmt α → Bool
  | ifThen _ _ body | whileLoop _ _ body => !body.isDeclaration && body.orderly
  | ifElse _ _ body other =>
    (!body.isDeclaration && body.orderly) && (!other.isDeclaration && other.orderly)
  | block _ body | function _ _ _ body => allOrderly body
  | expression _ _ | print _ _ | declare _ _ _ | returnValue _ _ | breakLoop _ | continueLoop _ =>
    true

def allOrderly : List (Stmt α) → Bool
  | [] => true
  | stmt :: rest => stmt.orderly && allOrderly rest

end

theorem allOrderly_iff {stmts : List (Stmt α)} :
    allOrderly stmts ↔ ∀ stmt ∈ stmts, stmt.orderly := by
  induction stmts with
  | nil => simp [allOrderly]
  | cons stmt rest ih => simp [allOrderly, ih]

theorem Declares.isDeclaration {stmt : Stmt α} (declares : stmt.Declares name valued) :
    stmt.isDeclaration = true := by
  cases declares <;> rfl

/-- A branch or the body of a loop. -/
def Embeds (stmt : Stmt α) : Prop := stmt.isDeclaration = false ∧ stmt.orderly

theorem embeds_iff {stmt : Stmt α} : (!stmt.isDeclaration && stmt.orderly) = true ↔ stmt.Embeds := by
  simp [Embeds]

theorem Embeds.not_declares {stmt : Stmt α} (embeds : stmt.Embeds) :
    ¬ stmt.Declares name valued := by
  intro declares
  have other := embeds.1
  rw [declares.isDeclaration] at other
  cases other

/-- What an orderly statement binds around it, it declares itself. -/
theorem Binds.declared {stmt : Stmt α} (binds : stmt.Binds name valued) (orderly : stmt.orderly) :
    stmt.Declares name valued := by
  induction binds with
  | declares itself => exact itself
  | ifThen inside ih | whileLoop inside ih =>
    have embeds := embeds_iff.mp orderly
    exact (embeds.not_declares (ih embeds.2)).elim
  | ifBody inside ih =>
    have embeds := embeds_iff.mp (Bool.and_eq_true_iff.mp orderly).1
    exact (embeds.not_declares (ih embeds.2)).elim
  | ifOther inside ih =>
    have embeds := embeds_iff.mp (Bool.and_eq_true_iff.mp orderly).2
    exact (embeds.not_declares (ih embeds.2)).elim

section Parts

variable {part : Stmt Place}

mutual

theorem part_orderly : ∀ stmt : Stmt Place, stmt.orderly → .stmt part ∈ stmt.parts → part.orderly
  | expression _ expr, orderly, member | print _ expr, orderly, member
  | declare _ _ (some expr), orderly, member | returnValue _ (some expr), orderly, member => by
    simp only [parts, List.mem_cons, Part.stmt.injEq, expr.stmt_not_mem, or_false] at member
    exact member ▸ orderly
  | block _ body, orderly, member => by
    rcases List.mem_cons.mp member with same | inside
    · exact Part.stmt.inj same ▸ orderly
    · exact parts_orderly orderly inside
  | ifThen _ condition body, orderly, member | whileLoop _ condition body, orderly, member => by
    simp only [parts, List.mem_cons, Part.stmt.injEq, List.mem_append, condition.stmt_not_mem,
      false_or] at member
    rcases member with same | inside
    · exact same ▸ orderly
    · exact part_orderly body (embeds_iff.mp orderly).2 inside
  | ifElse _ condition body other, orderly, member => by
    simp only [parts, List.mem_cons, Part.stmt.injEq, List.mem_append, condition.stmt_not_mem,
      false_or] at member
    obtain ⟨first, second⟩ := Bool.and_eq_true_iff.mp orderly
    rcases member with same | inside | inside
    · exact same ▸ orderly
    · exact part_orderly body (embeds_iff.mp first).2 inside
    · exact part_orderly other (embeds_iff.mp second).2 inside
  | function _ _ _ _, orderly, member | declare _ _ none, orderly, member
  | returnValue _ none, orderly, member | breakLoop _, orderly, member
  | continueLoop _, orderly, member => by
    exact Part.stmt.inj (List.mem_singleton.mp member) ▸ orderly

theorem parts_orderly : ∀ {stmts : List (Stmt Place)}, allOrderly stmts →
    .stmt part ∈ partsAll stmts → part.orderly
  | stmt :: rest, orderly, member => by
    obtain ⟨first, later⟩ := Bool.and_eq_true_iff.mp orderly
    rcases List.mem_append.mp member with inside | inside
    · exact part_orderly stmt first inside
    · exact parts_orderly later inside

end

end Parts

end Stmt

namespace Program

/-- A statement that stands somewhere in a program, at the top level or in a function. -/
inductive Contains (program : Program) (stmt : Stmt Place) : Prop where
  | outside (member : .stmt stmt ∈ Stmt.partsAll program) : Contains program stmt
  | inside (declared : program.Declares name params body)
      (member : .stmt stmt ∈ Stmt.partsAll body) : Contains program stmt

theorem Declares.orderly {program : Program} {name : String} {params : List String}
    {body : List (Stmt Place)} (declared : program.Declares name params body)
    (orderly : Stmt.allOrderly program) : Stmt.allOrderly body := by
  induction declared with
  | here member => exact Stmt.parts_orderly orderly member
  | inside _ member around => exact Stmt.parts_orderly around member

theorem Contains.orderly {program : Program} {stmt : Stmt Place} (contained : program.Contains stmt)
    (orderly : Stmt.allOrderly program) : stmt.orderly := by
  cases contained with
  | outside member => exact Stmt.parts_orderly orderly member
  | inside declared member => exact Stmt.parts_orderly (declared.orderly orderly) member

end Program

namespace Parser

variable {α β : Type} {post : α → Prop} {final : β → Prop}

/-- Whatever a parser gives is as described. -/
def Gives (parser : Parser α) (post : α → Prop) : Prop :=
  ∀ progress value after, parser progress = .ok value after → post value

namespace Gives

variable {parser : Parser α} {next : α → Parser β}

theorem pure {value : α} (holds : post value) : Gives (Pure.pure value) post := by
  intro progress given after ran
  cases ran
  exact holds

theorem exhausted : Gives (throw .exhausted) post := by
  intro progress given after ran
  cases ran

theorem bind (first : Gives parser post) (goesOn : ∀ value, post value → Gives (next value) final) :
    Gives (parser >>= next) final := by
  intro progress value after ran
  cases done : parser progress with
  | error halt middle =>
    rw [Sequencing.bind_error done] at ran
    cases ran
  | ok given middle =>
    rw [Sequencing.bind_ok done] at ran
    exact goesOn given (first _ _ _ done) middle value after ran

/-- What a step gives does not matter. -/
theorem step (goesOn : ∀ value, Gives (next value) final) : Gives (parser >>= next) final :=
  bind (fun _ _ _ _ => trivial) fun value _ => goesOn value

theorem map {f : α → β} (first : Gives parser post) (holds : ∀ value, post value → final (f value)) :
    Gives (f <$> parser) final := by
  rw [map_eq_pure_bind]
  exact first.bind fun value given => .pure (holds value given)

theorem imp {wider : α → Prop} (gives : Gives parser post)
    (implies : ∀ value, post value → wider value) : Gives parser wider :=
  fun progress value after ran => implies value (gives progress value after ran)

theorem choose {test : Parser Bool} {yes no : Parser α} (taken : Gives yes post)
    (other : Gives no post) : Gives (test >>= fun holds => if holds then yes else no) post := by
  refine .step fun holds => ?_
  split
  · exact taken
  · exact other

theorem recover (gives : Gives parser post) :
    Gives (recover parser) fun found => ∀ value, found = some value → post value := by
  intro progress found after ran value same
  subst same
  simp only [Parser.recover] at ran
  split at ran <;> cases ran
  next done => exact gives _ _ _ done

end Gives

open Stmt

theorem orderly_push {before : Array (Stmt Place)} (orderly : ∀ stmt ∈ before, stmt.orderly)
    {last : Stmt Place} (own : last.orderly) : ∀ stmt ∈ before.push last, stmt.orderly := by
  intro stmt member
  rcases Array.mem_push.mp member with earlier | rfl
  · exact orderly stmt earlier
  · exact own

theorem forLoop_orderly {place : Place} {first : Option (Stmt Place)} {condition : Expr Place}
    {last : Option (Expr Place)} {span : Span} {body : Stmt Place}
    (orderly : ∀ stmt, first = some stmt → stmt.orderly) (embeds : body.Embeds) :
    (forLoop place first condition last span body).orderly := by
  have round : allOrderly (body :: last.toList.map fun expr => Stmt.expression expr.place expr) := by
    cases last <;> simp [allOrderly, Stmt.orderly, embeds.2]
  cases first <;> simp_all [forLoop, Stmt.orderly, allOrderly, isDeclaration]

section
variable (fuel : Nat) (keyword : Token)

theorem declareRest_orderly : (declareRest fuel keyword).Gives fun stmt => stmt.orderly := by
  refine .step fun name => .choose ?_ ?_
  all_goals exact .step fun _ => .step fun _ => .step fun _ => .pure rfl

theorem printRest_embeds : (printRest fuel keyword).Gives Embeds :=
  .step fun _ => .step fun _ => .step fun _ => .pure ⟨rfl, rfl⟩

theorem returnRest_embeds : (returnRest fuel keyword).Gives Embeds := by
  refine .choose ?_ ?_
  all_goals exact .step fun _ => .step fun _ => .step fun _ => .pure ⟨rfl, rfl⟩

theorem breakRest_embeds : (breakRest keyword).Gives Embeds :=
  .step fun _ => .step fun _ => .pure ⟨rfl, rfl⟩

theorem continueRest_embeds : (continueRest keyword).Gives Embeds :=
  .step fun _ => .step fun _ => .pure ⟨rfl, rfl⟩

theorem expressionStatement_embeds : (expressionStatement fuel).Gives Embeds :=
  .step fun _ => .step fun _ => .step fun _ => .pure ⟨rfl, rfl⟩

theorem firstClause_orderly :
    (firstClause fuel).Gives fun first => ∀ stmt, first = some stmt → stmt.orderly := by
  refine .step fun token => .choose (.pure nofun) (.choose ?_ ?_)
  · refine (declareRest_orderly fuel token).map fun stmt orderly other same => ?_
    exact Option.some.inj same ▸ orderly
  · refine (expressionStatement_embeds fuel).map fun stmt embeds other same => ?_
    exact Option.some.inj same ▸ embeds.2

end

mutual

theorem declaration_orderly (fuel : Nat) :
    (declaration fuel).Gives fun found => ∀ stmt, found = some stmt → stmt.orderly :=
  match fuel with
  | 0 => .exhausted
  | fuel + 1 => by
    refine Gives.recover (.step fun keyword => ?_)
    refine .choose (declareRest_orderly fuel keyword) (.choose (functionRest_orderly fuel keyword) ?_)
    exact (statement_embeds fuel).imp fun stmt embeds => embeds.2
termination_by structural fuel

theorem functionRest_orderly (fuel : Nat) (keyword : Token) :
    (functionRest fuel keyword).Gives fun stmt => stmt.orderly :=
  match fuel with
  | 0 => .exhausted
  | fuel + 1 => by
    refine .step fun name => .step fun _ => .choose ?_ ?_
    all_goals
      refine .step fun params => .step fun _ => .step fun _ => ?_
      refine (blockRest_orderly fuel #[] nofun).bind fun body orderly => .step fun _ => .pure ?_
      exact orderly
termination_by structural fuel

theorem statement_embeds (fuel : Nat) : (statement fuel).Gives Embeds :=
  match fuel with
  | 0 => .exhausted
  | fuel + 1 => by
    refine .step fun keyword => ?_
    split
    · exact .step fun _ => forRest_embeds fuel keyword
    · exact .step fun _ => ifRest_embeds fuel keyword
    · exact .step fun _ => printRest_embeds fuel keyword
    · exact .step fun _ => returnRest_embeds fuel keyword
    · exact .step fun _ => whileRest_embeds fuel keyword
    · exact .step fun _ => breakRest_embeds keyword
    · exact .step fun _ => continueRest_embeds keyword
    · refine .step fun _ => (blockRest_orderly fuel #[] nofun).bind fun body orderly => ?_
      exact .step fun place => .pure ⟨rfl, orderly⟩
    · exact expressionStatement_embeds fuel
termination_by structural fuel

theorem blockRest_orderly (fuel : Nat) (before : Array (Stmt Place))
    (orderly : ∀ stmt ∈ before, stmt.orderly) :
    (blockRest fuel before).Gives fun body => allOrderly body :=
  match fuel with
  | 0 => .exhausted
  | fuel + 1 => by
    refine .step fun closing => .step fun ended => ?_
    split
    · refine .step fun _ => .pure (allOrderly_iff.mpr fun stmt member => ?_)
      exact orderly stmt (Array.mem_toList_iff.mp member)
    · refine (declaration_orderly fuel).bind fun found own => ?_
      cases found with
      | none => exact blockRest_orderly fuel before orderly
      | some stmt => exact blockRest_orderly fuel _ (orderly_push orderly (own stmt rfl))
termination_by structural fuel

theorem ifRest_embeds (fuel : Nat) (keyword : Token) : (ifRest fuel keyword).Gives Embeds :=
  match fuel with
  | 0 => .exhausted
  | fuel + 1 => by
    refine .step fun _ => .step fun condition => .step fun _ => ?_
    refine (statement_embeds fuel).bind fun body embeds => .choose ?_ ?_
    · refine (statement_embeds fuel).bind fun other embeds' => .step fun place => .pure ⟨rfl, ?_⟩
      exact Bool.and_eq_true_iff.mpr ⟨embeds_iff.mpr embeds, embeds_iff.mpr embeds'⟩
    · exact .step fun place => .pure ⟨rfl, embeds_iff.mpr embeds⟩
termination_by structural fuel

theorem whileRest_embeds (fuel : Nat) (keyword : Token) : (whileRest fuel keyword).Gives Embeds :=
  match fuel with
  | 0 => .exhausted
  | fuel + 1 => by
    refine .step fun _ => .step fun condition => .step fun _ => ?_
    refine (statement_embeds fuel).bind fun body embeds => .step fun place => ?_
    exact .pure ⟨rfl, embeds_iff.mpr embeds⟩
termination_by structural fuel

theorem forRest_embeds (fuel : Nat) (keyword : Token) : (forRest fuel keyword).Gives Embeds :=
  match fuel with
  | 0 => .exhausted
  | fuel + 1 => by
    refine .step fun _ => (firstClause_orderly fuel).bind fun first orderly => ?_
    refine .step fun condition => .step fun last => ?_
    refine (statement_embeds fuel).bind fun body embeds => .step fun span => .step fun place => ?_
    exact .pure ⟨rfl, forLoop_orderly orderly embeds⟩
termination_by structural fuel

end

theorem program_orderly (fuel : Nat) (before : Array (Stmt Place))
    (orderly : ∀ stmt ∈ before, stmt.orderly) :
    (program fuel before).Gives fun program => allOrderly program := by
  induction fuel generalizing before with
  | zero => exact .exhausted
  | succ fuel ih =>
    refine .choose (.pure (allOrderly_iff.mpr fun stmt member => ?_)) ?_
    · exact orderly stmt (Array.mem_toList_iff.mp member)
    · refine (declaration_orderly fuel).bind fun found own => ?_
      cases found with
      | none => exact ih before orderly
      | some stmt => exact ih _ (orderly_push orderly (own stmt rfl))

end Parser

/-- Whatever the tokens are, the program that is made of them is orderly. -/
theorem Parsed.orderly (tokens : List Token) : Stmt.allOrderly (ofTokens tokens).program := by
  unfold ofTokens
  split
  next done => exact Parser.program_orderly _ #[] nofun _ _ _ done
  next => rfl

end Lox
