import Lox.Proofs.GrammarComplete
import Lox.Proofs.ParserExactness

/-! Expressions are read exactly, if nothing behind them begins with a token that they could go on
with. What stands to the left of an `=` is read before it is known to be a target. -/

namespace Lox.Parser
open Grammar Form

/-- What an expression could go on with. -/
def Prolongs (kind : TokenKind) : Prop := kind = .symbol .equal ∨ Extends Level.all kind

/-- What the expressions of a program end at. -/
inductive Ends : TokenKind → Prop where
  | semicolon : Ends (.symbol .semicolon)
  | rightParen : Ends (.symbol .rightParen)
  | comma : Ends (.symbol .comma)

theorem Ends.not_prolongs {kind : TokenKind} (ends : Ends kind) : ¬ Prolongs kind := by
  rintro (rfl | rfl | ⟨level, -, joint, operator⟩)
  · cases ends
  · cases ends
  · cases ends <;> cases operator

theorem Ends.fits {kind : TokenKind} (ends : Ends kind) {some : ∃ other, other = kind} {rest : Form}
    (behind : Language TokenKind) :
    Avoids Prolongs ((next (one (· = kind) some) rest).language * behind) :=
  .of_opens (.next .one) fun _ prolongs same => ends.not_prolongs (same ▸ prolongs)

theorem closing_not_starts {sign : Symbol} (closing : sign ∈ [Symbol.semicolon, .rightParen]) :
    ¬ Starts (.symbol sign) := by
  intro starts
  cases starts <;> simp at closing

theorem not_extends_tighter {level : Level} {tighter : List Level} {kind : TokenKind} {joint : Joint}
    (operator : Operator level kind joint) (outside : level ∉ tighter) : ¬ Extends tighter kind := by
  rintro (rfl | ⟨other, inside, second, again⟩)
  · cases operator
  · exact outside (operator.level_unique again ▸ inside)

theorem extends_looser {level : Level} {tighter : List Level} {kind : TokenKind}
    (extended : Extends tighter kind) : Extends (level :: tighter) kind :=
  extended.imp_right fun ⟨other, inside, joint⟩ => ⟨other, .tail _ inside, joint⟩

theorem primary_heads : (symbol .primary).Opens fun kind =>
    (∃ tree, Leaf kind tree) ∨ kind = .symbol .leftParen :=
  .symbol (.either (Opens.one.mono fun _ => .inl) (.next (Opens.one.mono fun _ => .inr)))

theorem call_opens : (symbol .call).Opens (·.unaryOperator? = none) :=
  .symbol (.next (primary_opens.mono fun _ => And.right))

theorem args_opens : (symbol .args).Opens Starts := .symbol (.next expression_opens)

/-- A single token that is accepted by itself. -/
theorem Accepts.exact {α : Type} {parser : Parser α} {start : Progress} {accepted : α → Prop}
    {kinds : TokenKind → Prop} {some : ∃ kind, kinds kind} {kind : TokenKind} {rest : List TokenKind}
    (accepts : Accepts parser start accepted rest) (stands : start.kinds = kind :: rest)
    (holds : kinds kind) (located : Located start (parser start)) :
    Exact (fun _ => True) (.one kinds some) parser start := by
  unfold Accepts at accepts
  unfold Exact
  split at accepts <;> rename_i ran <;> rw [ran] at located ⊢
  · obtain ⟨-, left, clean⟩ := accepts
    obtain ⟨⟨read, split⟩, -⟩ := located
    rw [Progress.kinds_eq, ← split, List.map_append, ← Progress.kinds_eq, left] at stands
    have same : read.map Token.kind = [kind] := List.append_cancel_right stands
    refine .inl ⟨read, split.symm, by rw [Progress.faults, clean]; rfl, ?_⟩
    rw [same]
    exact .one holds
  · exact accepts.elim
  · trivial

variable {start : Progress} {parser : Parser (Expr Place)}

/-- Two tokens tell that an assignment is read. -/
theorem Exact.assignment {name : String} {later : List TokenKind}
    (stands : start.kinds = .identifier name :: .symbol .equal :: later)
    (exact : Exact (Avoids Prolongs) (inOrder [Form.name, sign .equal, .symbol .expression])
      parser start) :
    Exact (Avoids Prolongs) (.symbol .expression) parser start := by
  have here : start.here = .identifier name := Progress.here_of_kinds stands
  refine .symbol (exact.widen_two (fun _ => .first) ?_ (fun _ allowed => allowed) ?_ ?_)
  · intro derived
    obtain ⟨_, _, impossible, _⟩ := (Opens.next .one) _ derived
    cases impossible
  · intro behind _ member
    obtain ⟨_, _, back, inside, _⟩ := Language.mem_mul.mp member
    obtain ⟨value, derived⟩ := (Form.symbol .expression).productive
    have assigned : (inOrder [Form.name, sign .equal, .symbol .expression]).Derives
        ([start.here] ++ ([.symbol .equal] ++ (value ++ []))) :=
      .next (.one ⟨name, here⟩) (.next (.one rfl) (.next derived .nothing))
    exact ⟨_, Language.append_mem_mul assigned inside⟩
  · intro behind avoids others second member
    rw [stands] at second
    obtain ⟨tail, rfl⟩ : ∃ tail, others = .symbol .equal :: tail := List.head?_eq_some_iff.mp second
    refine (mem_either.mp member).resolve_right fun member => ?_
    rw [here] at member
    rcases name_next Level.all member with extended | member
    · rcases extended with impossible | ⟨level, -, joint, operator⟩
      · cases impossible
      · cases operator
    · exact avoids _ (.inl rfl) tail member

/-- Two tokens tell that no assignment is read. -/
theorem Exact.plain (plain : ∀ name later, start.kinds ≠ .identifier name :: .symbol .equal :: later)
    (exact : Exact (Avoids Prolongs) (.symbol (.operation Level.all)) parser start) :
    Exact (Avoids Prolongs) (.symbol .expression) parser start := by
  refine .symbol (exact.widen_two (fun _ => .second) ?_ (fun _ allowed => allowed) ?_ ?_)
  · intro derived
    exact (operation_opens Level.all _ derived).ne_nil rfl
  · intro behind _ member
    rcases mem_either.mp member with assigned | member
    · obtain ⟨name, here⟩ := (Opens.next .one).begins assigned
      obtain ⟨_, _, back, inside, _⟩ := Language.mem_mul.mp member
      rw [here]
      exact ⟨_, Language.append_mem_mul (name_derived name Level.all) inside⟩
    · exact ⟨_, member⟩
  · intro behind _ others second member
    refine (mem_either.mp member).resolve_left fun assigned => ?_
    obtain ⟨_, derived, _, _, same⟩ := Language.mem_mul.mp assigned
    cases derived with
    | next first rest =>
      obtain ⟨_, rfl, name, here⟩ := mem_one.mp first
      cases rest with
      | next equal _ =>
        obtain ⟨_, rfl, rfl⟩ := mem_one.mp equal
        obtain ⟨named, rfl⟩ := List.cons.inj same
        obtain ⟨later, tail⟩ : ∃ later, start.kinds.tail = .symbol .equal :: later :=
          List.head?_eq_some_iff.mp second.symm
        have whole : start.kinds = start.here :: start.kinds.tail := rfl
        exact plain name later (by rw [whole, tail, ← named, here])

mutual

theorem expression_exact (fuel : Nat) (start : Progress) (closed : Closed start.kinds) :
    Exact (Avoids Prolongs) (symbol .expression) (expression fuel) start :=
  match fuel with
  | 0 => .exhausted
  | fuel + 1 => by
    have target := chain_exact fuel Level.all (by decide) start closed
    by_cases assigns : ∃ name later, start.kinds = .identifier name :: .symbol .equal :: later
    · obtain ⟨name, later, stands⟩ := assigns
      have accepts : Accepts (chain fuel Level.all) start (·.bare = .name () name)
          (.symbol .equal :: later) :=
        chain_accepts fuel (.name name Level.all) (by decide) stands (.of_equal later)
      refine .assignment stands ?_
      refine .bind closed (accepts.exact stands ⟨name, rfl⟩ target.located) ?_ fun _ _ => trivial
      intro target middle ran closed
      rw [Accepts, ran] at accepts
      obtain ⟨bare, stands, -⟩ := accepts
      refine .look rfl (.eat closed .symbol (Progress.here_of_kinds stands) fun stop closed => ?_)
      refine .bind closed (expression_exact fuel stop closed) ?_ fun _ avoids => avoids.last
      intro value stop _ _
      obtain ⟨place, rfl⟩ := eq_name_of_bare bare
      exact .pure
    · refine .plain (by simpa using assigns) (.single (.bind closed target ?_ ?_))
      · intro target middle _ closed
        by_cases equals : middle.here = .symbol .equal
        · have moving : middle.here ≠ .eof := by simp [equals]
          have value := expression_exact fuel middle.advanced (Progress.kinds_advanced closed moving).2
          refine .look rfl (.misplaced equals (fun _ avoids => avoids _ (.inl rfl)) ?_)
          rw [Sequencing.bind_ok (eat_taken .symbol equals)]
          refine .bind (value.located.advanced closed moving) fun value reached => ?_
          split
          · exact ⟨_, #[], by simp; rfl, nofun⟩
          · refine ⟨_, #[_], rfl, fun error member => ?_⟩
            obtain rfl := Array.mem_singleton.mp member
            exact ⟨middle.cursor.current, List.mem_cons_self, rfl⟩
        · exact .look rfl (.eat_not .symbol equals .pure)
      · exact fun _ avoids => avoids.last.mono fun _ => .inr
termination_by structural fuel

theorem chain_exact (fuel : Nat) (levels : List Level) (distinct : levels.Nodup) (start : Progress)
    (closed : Closed start.kinds) :
    Exact (Avoids (Extends levels)) (symbol (.operation levels)) (chain fuel levels) start :=
  match fuel, levels with
  | 0, _ => .exhausted
  | fuel + 1, [] => .symbol (unary_exact fuel start closed)
  | fuel + 1, level :: tighter => by
    obtain ⟨outside, distinct'⟩ := List.nodup_cons.mp distinct
    refine .symbol (.bind closed (chain_exact fuel tighter distinct' start closed) ?_ ?_)
    · exact fun left stop _ closed => chainRest_exact fuel level tighter left distinct stop closed
    · intro behind avoids
      refine .many (.next .one) (fun kind extended operator => ?_)
        (avoids.mono fun _ => extends_looser)
      obtain ⟨joint, operator⟩ := operator
      exact not_extends_tighter operator outside extended
termination_by structural fuel

theorem chainRest_exact (fuel : Nat) (level : Level) (tighter : List Level) (left : Expr Place)
    (distinct : (level :: tighter).Nodup) (start : Progress) (closed : Closed start.kinds) :
    Exact (Avoids (Extends (level :: tighter)))
      (inOrder [.many (inOrder [operator level, symbol (.operation tighter)])])
      (chainRest fuel level tighter left) start :=
  match fuel with
  | 0 => .exhausted
  | fuel + 1 => by
    obtain ⟨outside, distinct'⟩ := List.nodup_cons.mp distinct
    refine .look rfl ?_
    split
    next none =>
      refine .done .pure (.next .one) fun joins => ?_
      obtain ⟨joint, operator⟩ := joins
      exact nomatch none.symm.trans (operator_iff.mp operator)
    next joint found =>
      have operator := operator_iff.mpr found
      refine .more (.flatten (.advance closed ⟨joint, operator⟩ operator.ne_eof ?_)) ?_
      · intro stop closed
        refine .bind closed (chain_exact fuel tighter distinct' stop closed) ?_ ?_
        · exact fun right stop _ closed => chainRest_exact fuel level tighter _ distinct stop closed
        · intro behind avoids
          refine .many (.next .one) (fun kind extended operator => ?_)
            (avoids.mono fun _ => extends_looser)
          obtain ⟨joint, operator⟩ := operator
          exact not_extends_tighter operator outside extended
      · intro behind avoids later
        exact avoids.last _ (.inr ⟨level, List.mem_cons_self, joint, operator⟩) later
termination_by structural fuel

theorem unary_exact (fuel : Nat) (start : Progress) (closed : Closed start.kinds) :
    Exact (Avoids (Extends [])) (symbol .unary) (unary fuel) start :=
  match fuel with
  | 0 => .exhausted
  | fuel + 1 => by
    refine .symbol (.look rfl ?_)
    split
    next sign found =>
      have isPrefix := prefix_iff.mpr found
      refine .left (.advance closed ⟨sign, isPrefix⟩ isPrefix.ne_eof ?_) call_opens ?_
      · intro stop closed
        exact .bind closed (unary_exact fuel stop closed) (fun _ _ _ _ => .pure)
          fun _ avoids => avoids.last
      · exact fun none => nomatch none.symm.trans found
    next none =>
      refine .right (.symbol (.bind closed (primary_exact fuel start closed) ?_ fun _ _ => trivial))
        (.next .one) ?_
      · exact fun callee stop _ closed => calls_exact fuel callee stop closed
      · rintro ⟨sign, isPrefix⟩
        exact nomatch none.symm.trans (prefix_iff.mp isPrefix)
termination_by structural fuel

theorem calls_exact (fuel : Nat) (callee : Expr Place) (start : Progress)
    (closed : Closed start.kinds) : Exact (Avoids (Extends []))
      (inOrder [.many (inOrder [sign .leftParen, .maybe (symbol .args), sign .rightParen])])
      (calls fuel callee) start :=
  match fuel with
  | 0 => .exhausted
  | fuel + 1 => by
    by_cases called : start.here = .symbol .leftParen
    · refine .more (.flatten (.eat closed .symbol called ?_)) ?_
      · intro stop closed
        refine .choose closed (.optional .symbol args_opens (closing_not_starts (by simp))
          (arguments_exact fuel #[] stop closed) ?_) ?_ ?_
        · refine fun _ avoids => avoids.mono fun kind prolongs same => ?_
          rcases prolongs with rfl | prolongs
          · cases same
          · exact Ends.rightParen.not_prolongs (same ▸ prolongs)
        · exact fun list stop closed => .expect closed .symbol fun close stop closed =>
            calls_exact fuel _ stop closed
        · exact fun _ _ => .of_opens (.next .one) fun _ other same => other same
      · exact fun behind avoids later => avoids.last _ (.inl called) later
    · exact .eat_not .symbol called (.done .pure (.next .one) called)
termination_by structural fuel

theorem arguments_exact (fuel : Nat) (before : Array (Expr Place)) (start : Progress)
    (closed : Closed start.kinds) :
    Exact (Avoids fun kind => kind = .symbol .comma ∨ Prolongs kind) (symbol .args)
      (arguments fuel before) start :=
  match fuel with
  | 0 => .exhausted
  | fuel + 1 => by
    refine .symbol (.warn fun stop same => ?_)
    refine .bind (same ▸ closed) (expression_exact fuel stop (same ▸ closed)) ?_ ?_
    · intro argument stop _ closed
      by_cases another : stop.here = .symbol .comma
      · refine .more (.flatten (.eat closed .symbol another ?_)) ?_
        · exact fun stop closed => (arguments_exact fuel _ stop closed).rule
        · exact fun behind avoids later => avoids.last _ (.inl another) later
      · exact .eat_not .symbol another (.done .pure (.next .one) another)
    · intro behind avoids
      refine .many (.next .one) (fun kind prolongs same => ?_) (avoids.mono fun _ => .inr)
      exact Ends.comma.not_prolongs (same ▸ prolongs)
termination_by structural fuel

theorem primary_exact (fuel : Nat) (start : Progress) (closed : Closed start.kinds) :
    Exact (fun _ => True) (symbol .primary) (primary fuel) start :=
  match fuel with
  | 0 => .exhausted
  | fuel + 1 => by
    refine .look rfl ?_
    by_cases grouped : start.here = .symbol .leftParen
    · refine .symbol (.right (.eat closed .symbol grouped fun stop closed => ?_) .one ?_)
      · refine .bind closed (expression_exact fuel stop closed) ?_ fun _ _ => Ends.rightParen.fits _
        exact fun inner stop _ closed => .expect closed .symbol fun close stop _ => .pure
      · rintro ⟨tree, leaf⟩
        rw [grouped] at leaf
        cases leaf
    · refine .eat_not .symbol grouped ?_
      split
      next leaf found =>
        have single := leaf_of_leaf? found
        refine .symbol (.left (.single ?_) (.next .one) grouped)
        exact .advance closed ⟨_, single⟩ single.ne_eof fun _ _ => .pure
      next none =>
        refine .fail rfl rfl nofun fun behind _ later member => ?_
        rcases primary_heads.begins member with ⟨tree, leaf⟩ | bracket
        · obtain ⟨_, found, _⟩ := leaf?_of_leaf leaf
          exact nomatch none.symm.trans found
        · exact grouped bracket
termination_by structural fuel

end

end Lox.Parser
