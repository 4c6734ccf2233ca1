import Lox.Proofs.ForwardParsing
import Lox.Proofs.LaidOut
import Lox.Proofs.ParserGrammar
import Lox.Proofs.RunFuel

/-! Parsers lay out what they read. What is read from one token to another without an error is a node
that takes up just these tokens, and everything in it lies where it was read. -/

namespace Lox
namespace Parser
open Grammar

variable {tokens : List Token}

section Spreads
variable (order : InOrder tokens)

theorem leaf_spread {index : Nat} {token : Token} {leaf : Expr Place}
    (found : tokens[index]? = some token) (single : token.leaf? = some leaf) :
    Spread tokens index (index + 1) (.expr leaf) := by
  unfold Token.leaf? at single
  split at single <;> cases single
  all_goals exact .written (.token found) not_false (.nil (Nat.le_succ _))

include order

theorem join_spread {first middle middle' last : Nat} {left right : Expr Place} {line : Nat}
    (joint : Joint) (among : line ∈ tokens.map Token.line)
    (onLeft : Spread tokens first middle (.expr left))
    (onRight : Spread tokens middle' last (.expr right)) (forth : middle ≤ middle') :
    Spread tokens first last (.expr (joint.join line left right)) := by
  have below : Row tokens first last [.expr left, .expr right] :=
    onLeft.row.append (onRight.row.behind forth)
  have stretch := onLeft.own.merge order onRight.own.toStretch
    (Nat.le_trans onLeft.row.forward forth) (Nat.le_trans forth onRight.row.forward)
  cases joint with
  | logical operator => exact .written ⟨stretch, among⟩ not_false below
  | binary operator => exact .written ⟨stretch, among⟩ not_false below

theorem assign_spread {first middle last : Nat} {place : Place} {label : String} {value : Expr Place}
    (target : Spread tokens first middle (.expr (.name place label)))
    (given : Spread tokens (middle + 1) last (.expr value)) : Spread tokens first last
      (.expr (.assign ⟨place.line, place.span.merge value.place.span⟩ label value)) := by
  have forth := target.own.forth
  have forth' := given.own.forth
  have stretch := target.own.merge order given.own.toStretch (by omega) (by omega)
  exact .written ⟨stretch, target.own.line⟩ not_false (given.row.behind (by omega))

theorem unary_spread {first last : Nat} {operand : Expr Place} {token : Token}
    (operator : UnaryOperator) (found : tokens[first]? = some token)
    (inner : Spread tokens (first + 1) last (.expr operand)) : Spread tokens first last
      (.expr (.unary ⟨token.line, token.span.merge operand.place.span⟩ operator operand)) := by
  have sign : Placed tokens first (first + 1) ⟨token.line, token.span⟩ := .token found
  have forth := inner.own.forth
  have stretch := sign.merge order inner.own.toStretch (by omega) (by omega)
  exact .written ⟨stretch, sign.line⟩ not_false (inner.row.behind (Nat.le_succ _))

theorem call_spread {first middle last : Nat} {callee : Expr Place} {arguments : List (Expr Place)}
    {close : Token} (called : Spread tokens first middle (.expr callee))
    (passed : Row tokens (middle + 1) last (arguments.map .expr)) (found : tokens[last]? = some close) :
    Spread tokens first (last + 1)
      (.expr (.call ⟨close.line, callee.place.span.merge close.span⟩ callee arguments)) := by
  have ending : Placed tokens last (last + 1) ⟨close.line, close.span⟩ := .token found
  have forth := called.own.forth
  have forth' := passed.forward
  have stretch := called.own.merge order ending.toStretch (by omega) (by omega)
  have below : Row tokens first (last + 1) (.expr callee :: arguments.map .expr) :=
    called.row.append ((passed.behind (Nat.le_succ _)).upTo (Nat.le_succ _))
  exact .written ⟨stretch, ending.line⟩ not_false below

theorem grouping_spread {first last : Nat} {inner : Expr Place} {opening close : Token}
    (found : tokens[first]? = some opening) (below : Spread tokens (first + 1) last (.expr inner))
    (found' : tokens[last]? = some close) : Spread tokens first (last + 1)
      (.expr (.grouping ⟨opening.line, opening.span.merge close.span⟩ inner)) := by
  have beginning : Placed tokens first (first + 1) ⟨opening.line, opening.span⟩ := .token found
  have forth := below.own.forth
  have stretch := beginning.merge order (.token found') (by omega) (by omega)
  exact .written ⟨stretch, beginning.line⟩ not_false
    ((below.row.behind (Nat.le_succ _)).upTo (Nat.le_succ _))

end Spreads

mutual

theorem expression_lays (order : InOrder tokens) (fuel first : Nat) :
    Lays tokens first (expression fuel) fun expr last => Spread tokens first last (.expr expr) :=
  match fuel with
  | 0 => .exhausted
  | fuel + 1 => by
    refine .bind (chain_lays order fuel Level.all first) fun target middle _ => ?_
    refine .current fun equals found => .eat order .symbol ?_ (.pure fun _ => id)
    refine .bind (expression_lays order fuel (middle + 1)) fun value last _ => ?_
    split
    · exact .pure fun _ given target => assign_spread order target given
    · exact .report ⟨rfl, ⟨equals, List.mem_of_getElem? found, rfl⟩, oneLine (by decide)⟩
termination_by structural fuel

theorem chain_lays (order : InOrder tokens) (fuel : Nat) (levels : List Level) (first : Nat) :
    Lays tokens first (chain fuel levels) fun expr last => Spread tokens first last (.expr expr) :=
  match fuel, levels with
  | 0, _ => .exhausted
  | fuel + 1, [] => unary_lays order fuel first
  | fuel + 1, level :: tighter =>
    .bind (chain_lays order fuel tighter first) fun left middle _ =>
      chainRest_lays order fuel level tighter left first middle
termination_by structural fuel

theorem chainRest_lays (order : InOrder tokens) (fuel : Nat) (level : Level) (tighter : List Level)
    (left : Expr Place) (first middle : Nat) :
    Lays tokens middle (chainRest fuel level tighter left) fun expr last =>
      Spread tokens first middle (.expr left) → Spread tokens first last (.expr expr) :=
  match fuel with
  | 0 => .exhausted
  | fuel + 1 => by
    refine .current fun token found => ?_
    split
    next => exact .pure fun _ => id
    next joint operator =>
      refine .advance order found (operator_iff.mpr operator).ne_eof ?_
      refine .bind (chain_lays order fuel tighter (middle + 1)) fun right after _ => ?_
      refine (chainRest_lays order fuel level tighter _ first after).mono ?_
      intro expr last _ rest onRight onLeft
      have among : token.line ∈ tokens.map Token.line :=
        List.mem_map_of_mem (List.mem_of_getElem? found)
      exact rest (join_spread order joint among onLeft onRight (Nat.le_succ _))
termination_by structural fuel

theorem unary_lays (order : InOrder tokens) (fuel first : Nat) :
    Lays tokens first (unary fuel) fun expr last => Spread tokens first last (.expr expr) :=
  match fuel with
  | 0 => .exhausted
  | fuel + 1 => by
    refine .current fun token found => ?_
    split
    next operator sign =>
      refine .advance order found (prefix_iff.mpr sign).ne_eof ?_
      refine .bind (unary_lays order fuel (first + 1)) fun operand last _ => .pure fun _ inner => ?_
      exact unary_spread order operator found inner
    next =>
      exact .bind (primary_lays order fuel first) fun callee middle _ =>
        calls_lays order fuel callee first middle
termination_by structural fuel

theorem calls_lays (order : InOrder tokens) (fuel : Nat) (callee : Expr Place) (first middle : Nat) :
    Lays tokens middle (calls fuel callee) fun expr last =>
      Spread tokens first middle (.expr callee) → Spread tokens first last (.expr expr) :=
  match fuel with
  | 0 => .exhausted
  | fuel + 1 => by
    refine .eat order .symbol ?_ (.pure fun _ => id)
    have passed : Lays tokens (middle + 1) (check (.symbol .rightParen) >>= fun found =>
        if found then Pure.pure [] else arguments fuel #[]) fun given last =>
          Row tokens (middle + 1) last (given.map .expr) := by
      refine .check fun found => ?_
      split
      · exact .pure fun _ => .nil (Nat.le_refl _)
      · exact (arguments_lays order fuel #[] _ _).mono fun given last _ row => row (.nil (Nat.le_refl _))
    refine .choose passed fun arguments after _ => ?_
    refine .expect order .symbol (oneLine (by decide)) fun close found => ?_
    refine (calls_lays order fuel _ first (after + 1)).mono fun expr last _ rest given called => ?_
    exact rest (call_spread order called given found)
termination_by structural fuel

theorem arguments_lays (order : InOrder tokens) (fuel : Nat) (before : Array (Expr Place))
    (begin first : Nat) : Lays tokens first (arguments fuel before) fun given last =>
      Row tokens begin first (before.toList.map .expr) → Row tokens begin last (given.map .expr) :=
  match fuel with
  | 0 => .exhausted
  | fuel + 1 => by
    refine .warn rfl (oneLine (by decide)) ?_
    refine .bind (expression_lays order fuel first) fun argument middle _ => ?_
    have pushed (row : Row tokens begin first (before.toList.map .expr))
        (own : Spread tokens first middle (.expr argument)) :
        Row tokens begin middle ((before.push argument).toList.map .expr) := by
      simpa using row.append own.row
    refine .eat order .symbol ?_ (.pure fun _ own row => pushed row own)
    refine (arguments_lays order fuel _ begin (middle + 1)).mono fun given last _ rest own row => ?_
    exact rest ((pushed row own).upTo (Nat.le_succ _))
termination_by structural fuel

theorem primary_lays (order : InOrder tokens) (fuel first : Nat) :
    Lays tokens first (primary fuel) fun expr last => Spread tokens first last (.expr expr) :=
  match fuel with
  | 0 => .exhausted
  | fuel + 1 => by
    refine .current fun token found => .eat order .symbol ?_ ?_
    · refine .bind (expression_lays order fuel (first + 1)) fun inner middle _ => ?_
      refine .expect order .symbol (oneLine (by decide)) fun close found' => .pure fun _ below => ?_
      exact grouping_spread order found below found'
    · split
      next leaf single =>
        exact .advance order found (leaf_of_leaf? single).ne_eof
          (.pure fun _ => leaf_spread found single)
      next => exact .fail rfl (oneLine (by decide))
termination_by structural fuel

end

section Rests
variable {first : Nat} {keyword : Token} (order : InOrder tokens) (fuel : Nat)
  (begins : tokens[first]? = some keyword)
include order

/-- A statement from its keyword to the token that ends it. -/
theorem ending_lays {middle : Nat} {kind : TokenKind} {message : String} {make : Place → Stmt Place}
    {below : List Part} {given : Prop} (begins : tokens[first]? = some keyword) (fixed : kind.Fixed)
    (oneLine : '\n' ∉ message.toList) (forth : first < middle)
    (same : ∀ place, (Part.stmt (make place)).place = place ∧
      (Part.stmt (make place)).children = below ∧ ¬ (Part.stmt (make place)).IsStep)
    (row : given → Row tokens first middle below) : Lays tokens middle
      (expect kind message >>= fun _ => placeFrom keyword >>= fun place => pure (make place))
      fun stmt last => given → Spread tokens first last (.stmt stmt) := by
  refine .expect order fixed oneLine fun _ _ => .place order begins (by omega) fun place own => ?_
  obtain ⟨stands, children, written⟩ := same place
  refine .pure fun _ holds => .written (stands.symm ▸ own) written ?_
  rw [children]
  exact (row holds).upTo (Nat.le_succ _)

theorem optional_lays {closing : TokenKind} {begin : Nat} (behind : begin ≤ first) :
    Lays tokens first (check closing >>= fun found =>
      if found then pure none else some <$> expression fuel)
      fun expr last => Row tokens begin last (expr.toList.map .expr) := by
  refine .check fun found => ?_
  split
  · exact .pure fun _ => .nil behind
  · exact .map ((expression_lays order fuel first).mono fun _ _ _ own => own.row.behind behind)

theorem expressionStatement_lays : Lays tokens first (expressionStatement fuel) fun stmt last =>
    Spread tokens first last (.stmt stmt) := by
  refine .bind (expression_lays order fuel first) fun expr middle _ => ?_
  refine .expect order .symbol (oneLine (by decide)) fun close found => ?_
  refine .span order fun span goesOn => ?_
  refine .pure fun bound inner => ?_
  have stretch : Stretch tokens first (middle + 1) span := goesOn inner.own.toStretch (Nat.le_succ _)
  refine .written ⟨stretch, inner.own.line⟩ (fun (same : _ = expr.place) => ?_)
    (inner.row.upTo (Nat.le_succ _))
  -- The semicolon is in the span of the statement, but behind that of the expression.
  have closing : Stretch tokens middle (middle + 1) close.span := .token found
  have before : expr.place.span.stop ≤ close.span.start :=
    inner.own.before order closing (Nat.le_refl _)
  have filled := closing.filled order bound
  have within := (closing.within order stretch inner.row.forward (Nat.le_refl _)).2
  have shared : span = expr.place.span := congrArg Place.span same
  rw [shared] at within
  omega

include begins

theorem jump_lays {kind : TokenKind} {message : String} {make : Place → Stmt Place}
    (fixed : kind.Fixed) (oneLine : '\n' ∉ message.toList)
    (same : ∀ place, (Part.stmt (make place)).place = place ∧
      (Part.stmt (make place)).children = [] ∧ ¬ (Part.stmt (make place)).IsStep) :
    Lays tokens (first + 1)
      (expect kind message >>= fun _ => placeFrom keyword >>= fun place => pure (make place))
      fun stmt last => Spread tokens first last (.stmt stmt) :=
  (ending_lays order begins fixed oneLine (Nat.lt_succ_self _) same
    (fun _ : True => .nil (Nat.le_succ _))).mono fun _ _ _ spread => spread trivial

theorem breakRest_lays : Lays tokens (first + 1) (breakRest keyword) fun stmt last =>
    Spread tokens first last (.stmt stmt) :=
  jump_lays order begins .symbol (oneLine (by decide)) fun _ => ⟨rfl, rfl, not_false⟩

theorem continueRest_lays : Lays tokens (first + 1) (continueRest keyword) fun stmt last =>
    Spread tokens first last (.stmt stmt) :=
  jump_lays order begins .symbol (oneLine (by decide)) fun _ => ⟨rfl, rfl, not_false⟩

theorem printRest_lays : Lays tokens (first + 1) (printRest fuel keyword) fun stmt last =>
    Spread tokens first last (.stmt stmt) := by
  refine .bind (expression_lays order fuel (first + 1)) fun value middle _ => ?_
  exact ending_lays order begins .symbol (oneLine (by decide)) (by omega)
    (fun _ => ⟨rfl, rfl, not_false⟩) fun inner => inner.row.behind (Nat.le_succ _)

theorem returnRest_lays : Lays tokens (first + 1) (returnRest fuel keyword) fun stmt last =>
    Spread tokens first last (.stmt stmt) := by
  refine .choose (optional_lays order fuel (Nat.le_succ first)) fun value middle _ => ?_
  exact ending_lays order begins .symbol (oneLine (by decide)) (by omega)
    (fun _ => ⟨rfl, rfl, not_false⟩) id

theorem declareRest_lays : Lays tokens (first + 1) (declareRest fuel keyword) fun stmt last =>
    Spread tokens first last (.stmt stmt) := by
  refine .expectName order (oneLine (by decide)) fun name => ?_
  have initial : Lays tokens (first + 1 + 1) (eat (.symbol .equal) >>= fun eaten =>
      if eaten then some <$> expression fuel else pure none) fun value last =>
        Row tokens first last (value.toList.map .expr) := by
    refine .eat order .symbol (.map ?_) (.pure fun _ => .nil (by omega))
    exact (expression_lays order fuel _).mono fun _ _ _ own => own.row.behind (by omega)
  refine .choose initial fun value middle _ => ?_
  exact ending_lays order begins .symbol (oneLine (by decide)) (by omega)
    (fun _ => ⟨rfl, rfl, not_false⟩) id

omit begins

theorem firstClause_lays : Lays tokens first (firstClause fuel) fun clause last =>
    Row tokens first last (clause.toList.map .stmt) := by
  refine .current fun token found => .eat order .symbol (.pure fun _ => .nil (Nat.le_succ _)) ?_
  refine .eat order .keyword (.map ?_) (.map ?_)
  · exact (declareRest_lays order fuel found).mono fun _ _ _ spread => spread.row
  · exact (expressionStatement_lays order fuel).mono fun _ _ _ spread => spread.row

theorem conditionClause_lays : Lays tokens first (conditionClause fuel) fun condition last =>
    Row tokens first last [.expr condition] := by
  refine .choose (optional_lays order fuel (Nat.le_refl first)) fun condition middle further => ?_
  refine .expect order .symbol (oneLine (by decide)) fun close found => .pure fun _ row => ?_
  cases condition with
  | none =>
    have missing : Spread tokens middle (middle + 1)
        (.expr (.literal ⟨close.line, close.span⟩ (.bool true))) :=
      .written (.token found) not_false (.nil (Nat.le_succ _))
    exact missing.row.behind further
  | some condition => exact row.upTo (Nat.le_succ _)

theorem lastClause_lays : Lays tokens first (lastClause fuel) fun clause last =>
    Row tokens first last (clause.toList.map .expr) := by
  refine .choose (optional_lays order fuel (Nat.le_refl first)) fun clause middle _ => ?_
  refine .expect order .symbol (oneLine (by decide)) fun close _ => .pure fun _ row => ?_
  exact row.upTo (Nat.le_succ _)

end Rests

theorem parameters_lays (order : InOrder tokens) (fuel : Nat) (before : Array String) (first : Nat) :
    Lays tokens first (parameters fuel before) fun _ _ => True := by
  induction fuel generalizing before first with
  | zero => exact .exhausted
  | succ fuel ih =>
    refine .warn rfl (oneLine (by decide)) (.expectName order (oneLine (by decide)) fun name => ?_)
    exact .eat order .symbol (ih _ _) (.pure fun _ => trivial)

mutual

theorem declaration_lays (order : InOrder tokens) (fuel first : Nat) :
    Lays tokens first (declaration fuel) fun found last =>
      ∃ stmt, found = some stmt ∧ Spread tokens first last (.stmt stmt) :=
  match fuel with
  | 0 => .exhausted
  | fuel + 1 => by
    refine .recover (.current fun keyword begins => ?_)
    refine .eat order .keyword (declareRest_lays order fuel begins) ?_
    exact .eat order .keyword (functionRest_lays order fuel begins) (statement_lays order fuel first)
termination_by structural fuel

theorem functionRest_lays (order : InOrder tokens) (fuel : Nat) {first : Nat} {keyword : Token}
    (begins : tokens[first]? = some keyword) :
    Lays tokens (first + 1) (functionRest fuel keyword) fun stmt last =>
      Spread tokens first last (.stmt stmt) :=
  match fuel with
  | 0 => .exhausted
  | fuel + 1 => by
    refine .expectName order (oneLine (by decide)) fun name => ?_
    refine .expect order .symbol (oneLine (by decide)) fun _ _ => ?_
    have named : Lays tokens (first + 1 + 1 + 1) (check (.symbol .rightParen) >>= fun found =>
        if found then pure [] else parameters fuel #[]) fun _ _ => True := by
      refine .check fun found => ?_
      split
      · exact .pure fun _ => trivial
      · exact parameters_lays order fuel #[] _
    refine .choose named fun params middle _ => ?_
    refine .expect order .symbol (oneLine (by decide)) fun _ _ => ?_
    refine .expect order .symbol (oneLine (by decide)) fun _ _ => ?_
    refine .bind (blockRest_lays order fuel #[] first _) fun body last _ => ?_
    refine .place order begins (by omega) fun place own => .pure fun _ row _ => ?_
    exact .written own not_false (row (.nil (by omega)))
termination_by structural fuel

theorem statement_lays (order : InOrder tokens) (fuel first : Nat) :
    Lays tokens first (statement fuel) fun stmt last => Spread tokens first last (.stmt stmt) :=
  match fuel with
  | 0 => .exhausted
  | fuel + 1 => by
    refine .current fun keyword begins => ?_
    split <;> try refine .advance order begins (by simp [*]) ?_
    · exact forRest_lays order fuel begins ‹_›
    · exact ifRest_lays order fuel begins
    · exact printRest_lays order fuel begins
    · exact returnRest_lays order fuel begins
    · exact whileRest_lays order fuel begins
    · exact breakRest_lays order begins
    · exact continueRest_lays order begins
    · refine .bind (blockRest_lays order fuel #[] first (first + 1)) fun body last _ => ?_
      refine .place order begins (by omega) fun place own => .pure fun _ row => ?_
      exact .written own not_false (row (.nil (Nat.le_succ _)))
    · exact expressionStatement_lays order fuel
termination_by structural fuel

theorem blockRest_lays (order : InOrder tokens) (fuel : Nat) (before : Array (Stmt Place))
    (begin first : Nat) : Lays tokens first (blockRest fuel before) fun body last =>
      Row tokens begin first (before.toList.map .stmt) → Row tokens begin last (body.map .stmt) :=
  match fuel with
  | 0 => .exhausted
  | fuel + 1 => by
    refine .check fun closing => .atEnd order fun ended _ => ?_
    split
    · refine .expect order .symbol (oneLine (by decide)) fun _ _ => .pure fun _ row => ?_
      exact row.upTo (Nat.le_succ _)
    · refine .bind (declaration_lays order fuel first) fun found middle _ => ?_
      cases found with
      | none =>
        refine (blockRest_lays order fuel before begin middle).mono ?_
        rintro body last _ _ ⟨stmt, none, -⟩
        cases none
      | some stmt =>
        refine (blockRest_lays order fuel _ begin middle).mono ?_
        rintro body last _ rest ⟨stmt, ⟨⟩, own⟩ row
        exact rest (by simpa using row.append own.row)
termination_by structural fuel

theorem ifRest_lays (order : InOrder tokens) (fuel : Nat) {first : Nat} {keyword : Token}
    (begins : tokens[first]? = some keyword) :
    Lays tokens (first + 1) (ifRest fuel keyword) fun stmt last =>
      Spread tokens first last (.stmt stmt) :=
  match fuel with
  | 0 => .exhausted
  | fuel + 1 => by
    refine .expect order .symbol (oneLine (by decide)) fun _ _ => ?_
    refine .bind (expression_lays order fuel _) fun condition middle _ => ?_
    refine .expect order .symbol (oneLine (by decide)) fun _ _ => ?_
    refine .bind (statement_lays order fuel _) fun body after _ => ?_
    refine .eat order .keyword (.bind (statement_lays order fuel _) fun other last _ => ?_) ?_
    · refine .place order begins (by omega) fun place own => .pure fun _ inOther inBody inside => ?_
      have below := inside.row.append
        ((inBody.row.behind (Nat.le_succ _)).append (inOther.row.behind (Nat.le_succ _)))
      exact .written own not_false (below.behind (by omega))
    · refine .place order begins (by omega) fun place own => .pure fun _ inBody inside => ?_
      have below := inside.row.append (inBody.row.behind (Nat.le_succ _))
      exact .written own not_false (below.behind (by omega))
termination_by structural fuel

theorem whileRest_lays (order : InOrder tokens) (fuel : Nat) {first : Nat} {keyword : Token}
    (begins : tokens[first]? = some keyword) :
    Lays tokens (first + 1) (whileRest fuel keyword) fun stmt last =>
      Spread tokens first last (.stmt stmt) :=
  match fuel with
  | 0 => .exhausted
  | fuel + 1 => by
    refine .expect order .symbol (oneLine (by decide)) fun _ _ => ?_
    refine .bind (expression_lays order fuel _) fun condition middle _ => ?_
    refine .expect order .symbol (oneLine (by decide)) fun _ _ => ?_
    refine .bind (statement_lays order fuel _) fun body after _ => ?_
    refine .place order begins (by omega) fun place own => .pure fun _ inBody inside => ?_
    have below := inside.row.append (inBody.row.behind (Nat.le_succ _))
    exact .written own not_false (below.behind (by omega))
termination_by structural fuel

theorem forRest_lays (order : InOrder tokens) (fuel : Nat) {first : Nat} {keyword : Token}
    (begins : tokens[first]? = some keyword) (word : keyword.kind = .keyword .forWord) :
    Lays tokens (first + 1) (forRest fuel keyword) fun stmt last =>
      Spread tokens first last (.stmt stmt) :=
  match fuel with
  | 0 => .exhausted
  | fuel + 1 => by
    refine .expect order .symbol (oneLine (by decide)) fun _ _ => ?_
    refine .bind (firstClause_lays order fuel) fun initial a _ => ?_
    refine .bind (conditionClause_lays order fuel) fun condition b _ => ?_
    refine .bind (lastClause_lays order fuel) fun step c _ => ?_
    refine .bind (statement_lays order fuel c) fun body last _ => .span order fun span goesOn => ?_
    refine .place order begins (by omega) fun place own => ?_
    refine .pure fun _ inBody inLast inCondition inInitial => ?_
    have clauses := (inInitial.append (inCondition.append inLast)).behind (by omega : first ≤ _)
    have round := goesOn inBody.own.toStretch (Nat.le_refl _)
    exact ⟨own, .loop (Nat.le_refl _) own ⟨keyword, begins, word⟩ clauses round inBody.row
      (.nil (Nat.le_refl _))⟩
termination_by structural fuel

end

theorem program_lays (order : InOrder tokens) (fuel : Nat) (before : Array (Stmt Place)) (first : Nat) :
    Lays tokens first (program fuel before) fun program last =>
      Row tokens 0 first (before.toList.map .stmt) → Covers tokens 0 first before.toList →
        Row tokens 0 last (program.map .stmt) ∧ Covers tokens 0 last program ∧
          tokens.length - 1 = last := by
  induction fuel generalizing before first with
  | zero => exact .exhausted
  | succ fuel ih =>
    refine .atEnd order fun ended final => ?_
    split
    next done => exact .pure fun _ row covers => ⟨row, covers, final done⟩
    next =>
      refine .bind (declaration_lays order fuel first) fun found middle _ => ?_
      cases found with
      | none =>
        refine (ih before middle).mono ?_
        rintro program last _ _ ⟨stmt, none, -⟩
        cases none
      | some stmt =>
        refine (ih (before.push stmt) middle).mono ?_
        rintro program last _ rest ⟨stmt, ⟨⟩, own⟩ row covers
        exact rest (by simpa using row.append own.row)
          (by simpa using covers.push own.own.toStretch)

end Parser

theorem Scan.tokens_inOrder (source : String) : InOrder (ofSource source).tokens := by
  have apart := tokens_apart source
  have scanned : (ofSource source).tokens = (Piece.ofSource source.toList).filterMap Piece.token? ++
    [Token.endOfInput (1 + Piece.newlines source.toList) (Piece.width source.toList)] := rfl
  have filled : ∀ token ∈ (ofSource source).tokens, token.span.start < token.span.stop ∨
      token = Token.endOfInput (1 + Piece.newlines source.toList) (Piece.width source.toList) := by
    intro token member
    rw [scanned] at apart member
    rcases List.mem_append.mp member with member | last
    · exact .inl ((List.pairwise_append.mp apart).2.2 token member _ (List.mem_singleton_self _)).1
    · exact .inr (List.mem_singleton.mp last)
  refine ⟨tokens_closed source, apart.imp And.right, fun token member => ?_, ?_⟩
  · rcases filled token member with filled | rfl
    · exact Nat.le_of_lt filled
    · exact Nat.le_refl _
  · intro token member other
    rcases filled token member with filled | rfl
    · exact filled
    · exact absurd rfl other

namespace Parsed

variable {tokens : List Token}

theorem lands (order : InOrder tokens) : Parser.Lands tokens 0 0
    (fun program last => Row tokens 0 last (program.map .stmt) ∧ Covers tokens 0 last program ∧
      tokens.length - 1 = last) (Parser.program (budget tokens) #[] (start tokens)) := by
  have stands : (start tokens).Stands tokens 0 :=
    ⟨Cursor.ofTokens_at (by simpa using order.closed.ne_nil), nofun⟩
  have lays := Parser.program_lays order (budget tokens) #[] 0
  exact lays.mono (fun _ _ _ holds => holds (.nil (Nat.le_refl _)) .nil) (start tokens) stands

/-- A sequence of tokens that is parsed without an error is laid out from the first to the last. -/
theorem laid_out (order : InOrder tokens) (clean : (ofTokens tokens).errors = []) :
    Row tokens 0 (tokens.length - 1) ((ofTokens tokens).program.map .stmt) ∧
      Covers tokens 0 (tokens.length - 1) (ofTokens tokens).program := by
  obtain ⟨program, stop, ran, same⟩ := ofTokens_eq order.closed
  have lands := lands order
  rw [ran] at lands
  rw [same] at clean ⊢
  obtain ⟨-, last, -, -, holds⟩ := lands
  obtain ⟨row, covers, rfl⟩ := holds (congrArg List.length clean)
  exact ⟨row, covers⟩

theorem lies (order : InOrder tokens) (clean : (ofTokens tokens).errors = []) {node : Part}
    (has : (ofTokens tokens).program.Has node) : (ofTokens tokens).program.Lies tokens node := by
  obtain ⟨row, -⟩ := laid_out order clean
  have some : 0 < tokens.length := List.length_pos_iff.mpr (by simpa using order.closed.ne_nil)
  obtain ⟨stmt, among, down⟩ := has
  refine row.lies_down order (by omega) (fun top member => ?_) _ (List.mem_map_of_mem among) node down
  obtain ⟨stmt, among, rfl⟩ := List.mem_map.mp member
  exact ⟨stmt, among, .refl⟩

/-- Whatever is wrong with a sequence of tokens is wrong with one of them. -/
theorem errors_cite (order : InOrder tokens) :
    ∀ error ∈ (ofTokens tokens).errors, error.Cites tokens := by
  obtain ⟨program, stop, ran, same⟩ := ofTokens_eq order.closed
  have lands := lands order
  rw [ran] at lands
  obtain ⟨-, last, -, stands, -⟩ := lands
  rw [same]
  exact fun error member => stands.errors error (Array.mem_toList_iff.mp member)

end Parsed

namespace Program

/-- The spans of a program nest like its nodes. Only the last clause of a `for` loop stands before the
round that it is put at the end of. -/
structure SpansNest (program : Program) (tokens : List Token) : Prop where
  placed : ∀ node, program.Has node →
    (∃ first ∈ tokens, first.span.start = node.place.span.start) ∧
      (∃ last ∈ tokens, last.span.stop = node.place.span.stop) ∧
        node.place.span.start < node.place.span.stop ∧ node.place.line ∈ tokens.map Token.line
  inside : ∀ node, program.Has node → ∀ child ∈ node.children,
    ¬ program.LastClause tokens node child → child.place.span.Within node.place.span
  outside : ∀ round step, program.LastClause tokens round step →
    step ∈ round.children ∧ step.place.span.Before round.place.span
  ordered : (∀ token ∈ tokens, token.kind ≠ .keyword .forWord) → ∀ node, program.Has node →
    node.children.Pairwise fun first second => first.place.span.Before second.place.span
  apart : program.Pairwise fun first second => first.place.span.Before second.place.span
  covered : ∀ token ∈ tokens, token.kind ≠ .eof →
    ∃! position : Nat, ∃ stmt, program[position]? = some stmt ∧ token.span.Within stmt.place.span

/-- A token is in one of the statements at most. -/
theorem position_unique {program : Program} {token : Token}
    (apart : program.Pairwise fun first second => first.place.span.Before second.place.span)
    (filled : token.span.start < token.span.stop) {position other : Nat} {stmt stmt' : Stmt Place}
    (found : program[position]? = some stmt) (inside : token.span.Within stmt.place.span)
    (found' : program[other]? = some stmt') (inside' : token.span.Within stmt'.place.span) :
    position = other := by
  have later {position other : Nat} {stmt stmt' : Stmt Place} (found : program[position]? = some stmt)
      (inside : token.span.Within stmt.place.span) (found' : program[other]? = some stmt')
      (inside' : token.span.Within stmt'.place.span) : ¬ position < other := by
    intro earlier
    obtain ⟨bound, rfl⟩ := List.getElem?_eq_some_iff.mp found
    obtain ⟨bound', rfl⟩ := List.getElem?_eq_some_iff.mp found'
    have before := List.pairwise_iff_getElem.mp apart position other bound bound' earlier
    have upTo := Nat.le_trans inside.2 (Nat.le_trans before inside'.1)
    exact absurd filled (Nat.not_lt.mpr upTo)
  exact Nat.le_antisymm (Nat.not_lt.mp (later found' inside' found inside))
    (Nat.not_lt.mp (later found inside found' inside'))

theorem spans_nest {source : String} {program : Program}
    (accepted : Program.ofSource source = .ok program) :
    program.SpansNest (Scan.ofSource source).tokens := by
  obtain ⟨-, clean, rfl⟩ := Program.ofSource_eq_ok.mp accepted
  have order := Scan.tokens_inOrder source
  generalize (Scan.ofSource source).tokens = tokens at clean order
  obtain ⟨row, covers⟩ := Parsed.laid_out order clean
  have lies (node : Part) (has : (Parsed.ofTokens tokens).program.Has node) :=
    Parsed.lies order clean has
  generalize (Parsed.ofTokens tokens).program = program at row covers lies
  have apart := row.pairwise order
  rw [List.pairwise_map] at apart
  refine ⟨fun node has => ?_, fun node has child member other => ?_, fun round step last => ?_,
    fun none node has => (lies node has).ordered none, apart, fun token member other => ?_⟩
  · obtain ⟨first, last, bound, own⟩ := (lies node has).placed
    obtain ⟨begins, found, start⟩ := own.begins
    obtain ⟨ends, found', stop⟩ := own.ends
    exact ⟨⟨begins, List.mem_of_getElem? found, start⟩, ⟨ends, List.mem_of_getElem? found', stop⟩,
      own.filled order bound, own.line⟩
  · exact ((lies node has).nested child member).resolve_right other
  · obtain ⟨has, member, bare⟩ := last.stands
    exact ⟨member, (lies round has).steps step member bare⟩
  · obtain ⟨index, found⟩ := List.mem_iff_getElem?.mp member
    have bound := (order.inner_iff found).mp other
    obtain ⟨position, stmt, stands, inside⟩ := covers.holds order found (Nat.zero_le _) (by omega)
    refine ⟨position, ⟨stmt, stands, inside⟩, fun position' ⟨stmt', stands', inside'⟩ => ?_⟩
    exact position_unique apart (order.filled token member other) stands' inside' stands inside

/-- In a program whose spans nest there can be a last clause that stands outside its round. -/
theorem spans_nest_last_clause :
    let source := "for (;; i = nil) print i;"
    let tokens := (Scan.ofSource source).tokens
    ∃ program round step, Program.ofSource source = .ok program ∧ program.SpansNest tokens ∧
      program.LastClause tokens round step := by
  intro source tokens
  have accepted : (Program.ofSource source).toBool = true := by decide +kernel
  obtain ⟨program, parsed⟩ := Program.exists_of_toBool accepted
  have scanned : tokens =
      [⟨.keyword .forWord, "for", 1, ⟨0, 3⟩⟩, ⟨.symbol .leftParen, "(", 1, ⟨4, 5⟩⟩,
        ⟨.symbol .semicolon, ";", 1, ⟨5, 6⟩⟩, ⟨.symbol .semicolon, ";", 1, ⟨6, 7⟩⟩,
        ⟨.identifier "i", "i", 1, ⟨8, 9⟩⟩, ⟨.symbol .equal, "=", 1, ⟨10, 11⟩⟩,
        ⟨.keyword .nilWord, "nil", 1, ⟨12, 15⟩⟩, ⟨.symbol .rightParen, ")", 1, ⟨15, 16⟩⟩,
        ⟨.keyword .printWord, "print", 1, ⟨17, 22⟩⟩, ⟨.identifier "i", "i", 1, ⟨23, 24⟩⟩,
        ⟨.symbol .semicolon, ";", 1, ⟨24, 25⟩⟩, .endOfInput 1 25] := by decide +kernel
  have shape : program =
      [.forLoop ⟨1, ⟨0, 25⟩⟩ none (.literal ⟨1, ⟨6, 7⟩⟩ (.bool true))
        (some (.assign ⟨1, ⟨8, 15⟩⟩ "i" (.literal ⟨1, ⟨12, 15⟩⟩ .nil))) ⟨17, 25⟩
        (.print ⟨1, ⟨17, 25⟩⟩ (.name ⟨1, ⟨23, 24⟩⟩ "i"))] := by
    have whole : (Parsed.ofTokens tokens).program = program :=
      (Program.ofSource_eq_ok.mp parsed).2.2
    rw [← whole, scanned]
    rfl
  have word : ∃ token ∈ tokens, token.kind = .keyword .forWord ∧ token.span.start = 0 :=
    ⟨_, scanned ▸ List.mem_cons_self, rfl, rfl⟩
  have has : program.Has (.stmt (.forLoop ..)) := ⟨_, shape ▸ List.mem_singleton_self _, .refl⟩
  exact ⟨program, _, _, parsed, spans_nest parsed, _, _, _, _, _, _, has, word, rfl, rfl⟩

end Program
end Lox
