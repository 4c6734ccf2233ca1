import Mathlib.Logic.Relation
import Lox.Proofs.ParserSteps
import Lox.Proofs.ProgramParts
import Lox.Syntax.Outline

/-! Which tokens the nodes of a program take up. A node that is written takes up the tokens from its
first to its last, and the nodes below it take up parts of them, one behind another. Only the nodes
that a `for` loop stands for are laid out otherwise: its last clause is read before its body. -/

namespace Lox

namespace Span

def Within (inner outer : Span) : Prop := outer.start ≤ inner.start ∧ inner.stop ≤ outer.stop

def Before (first second : Span) : Prop := first.stop ≤ second.start

theorem Within.refl (span : Span) : span.Within span := ⟨Nat.le_refl _, Nat.le_refl _⟩

end Span

namespace Part

def place : Part → Place
  | expr node => node.place
  | stmt node => node.place

/-- The nodes right below a node, in the order they are written. -/
def children : Part → List Part
  | expr (.literal _ _) | expr (.name _ _) | stmt (.breakLoop _) | stmt (.continueLoop _) => []
  | expr (.grouping _ inner) | expr (.unary _ _ inner) | expr (.assign _ _ inner)
  | stmt (.expression _ inner) | stmt (.print _ inner) => [expr inner]
  | expr (.binary _ _ left right) | expr (.logical _ _ left right) => [expr left, expr right]
  | expr (.call _ callee arguments) => expr callee :: arguments.map expr
  | stmt (.declare _ _ value) | stmt (.returnValue _ value) => value.toList.map expr
  | stmt (.block _ body) | stmt (.function _ _ _ body) => body.map stmt
  | stmt (.ifThen _ condition body) | stmt (.whileLoop _ condition body) =>
    [expr condition, stmt body]
  | stmt (.ifElse _ condition body other) => [expr condition, stmt body, stmt other]

def outline (depth : Nat) (after : List (Node Place)) : Part → List (Node Place)
  | expr node => node.outline depth after
  | stmt node => node.outline depth after

private theorem outlineAll_exprs (depth : Nat) (after : List (Node Place))
    (exprs : List (Expr Place)) : Expr.outlineAll depth after exprs =
      (exprs.map expr).foldr (fun node after => node.outline depth after) after := by
  induction exprs with
  | nil => rfl
  | cons first rest ih => rw [Expr.outlineAll, ih]; rfl

private theorem outlineAll_stmts (depth : Nat) (after : List (Node Place))
    (stmts : List (Stmt Place)) : Stmt.outlineAll depth after stmts =
      (stmts.map stmt).foldr (fun node after => node.outline depth after) after := by
  induction stmts with
  | nil => rfl
  | cons first rest ih => rw [Stmt.outlineAll, ih]; rfl

/-- A node is written in front of its children, and these in their order. -/
theorem outline_children (node : Part) (depth : Nat) (after : List (Node Place)) : ∃ label,
    node.outline depth after = ⟨depth, label, node.place⟩ ::
      node.children.foldr (fun child after => child.outline (depth + 1) after) after := by
  cases node with
  | expr node =>
    cases node with
    | call place callee arguments =>
      exact ⟨_, by rw [outline, Expr.outline, outlineAll_exprs]; rfl⟩
    | _ => exact ⟨_, rfl⟩
  | stmt node =>
    cases node with
    | declare place name value => cases value <;> exact ⟨_, rfl⟩
    | returnValue place value => cases value <;> exact ⟨_, rfl⟩
    | block place body => exact ⟨_, by rw [outline, Stmt.outline, outlineAll_stmts]; rfl⟩
    | function place name params body =>
      exact ⟨_, by rw [outline, Stmt.outline, outlineAll_stmts]; rfl⟩
    | _ => exact ⟨_, rfl⟩

/-- From a node down to one of the nodes in it, which may be the node itself. -/
abbrev Down : Part → Part → Prop := Relation.ReflTransGen fun node child => child ∈ node.children

/-- A statement that takes up no more than the expression in it. No statement is written so, as a
semicolon ends it: it is what the last clause of a `for` loop becomes. -/
def IsStep : Part → Prop
  | stmt (.expression place inner) => place = inner.place
  | _ => False

end Part

/-- Only the last kind is the end of the input. -/
theorem Closed.inner_iff {kinds : List TokenKind} (closed : Closed kinds) {index : Nat}
    {kind : TokenKind} (found : kinds[index]? = some kind) :
    kind ≠ .eof ↔ index + 1 < kinds.length := by
  induction closed generalizing index with
  | last =>
    cases index with
    | zero =>
      cases found
      simp
    | succ index => cases found
  | cons other rest ih =>
    cases index with
    | zero =>
      cases found
      simpa [other] using List.length_pos_iff.mpr rest.ne_nil
    | succ index => simpa using ih found

/-- Tokens one behind another, the end of the input last. Only the end of the input is empty. -/
structure InOrder (tokens : List Token) : Prop where
  closed : Closed (tokens.map Token.kind)
  apart : tokens.Pairwise fun first second => first.span.Before second.span
  forward : ∀ token ∈ tokens, token.span.start ≤ token.span.stop
  filled : ∀ token ∈ tokens, token.kind ≠ .eof → token.span.start < token.span.stop

namespace InOrder

variable {tokens : List Token} {index later : Nat} {token other : Token}

theorem before (order : InOrder tokens) (found : tokens[index]? = some token)
    (found' : tokens[later]? = some other) (earlier : index < later) :
    token.span.Before other.span := by
  obtain ⟨inside, rfl⟩ := List.getElem?_eq_some_iff.mp found
  obtain ⟨inside', rfl⟩ := List.getElem?_eq_some_iff.mp found'
  exact List.pairwise_iff_getElem.mp order.apart index later inside inside' earlier

theorem start_le (order : InOrder tokens) (found : tokens[index]? = some token)
    (found' : tokens[later]? = some other) (earlier : index ≤ later) :
    token.span.start ≤ other.span.start := by
  rcases Nat.eq_or_lt_of_le earlier with rfl | earlier
  · cases found.symm.trans found'
    exact Nat.le_refl _
  · exact Nat.le_trans (order.forward token (List.mem_of_getElem? found))
      (order.before found found' earlier)

theorem stop_le (order : InOrder tokens) (found : tokens[index]? = some token)
    (found' : tokens[later]? = some other) (earlier : index ≤ later) :
    token.span.stop ≤ other.span.stop := by
  rcases Nat.eq_or_lt_of_le earlier with rfl | earlier
  · cases found.symm.trans found'
    exact Nat.le_refl _
  · exact Nat.le_trans (order.before found found' earlier)
      (order.forward other (List.mem_of_getElem? found'))

theorem inner_iff (order : InOrder tokens) (found : tokens[index]? = some token) :
    token.kind ≠ .eof ↔ index + 1 < tokens.length := by
  have found : (tokens.map Token.kind)[index]? = some token.kind := by simp [found]
  simpa using order.closed.inner_iff found

theorem filled_at (order : InOrder tokens) (found : tokens[index]? = some token)
    (inside : index + 1 < tokens.length) : token.span.start < token.span.stop :=
  order.filled token (List.mem_of_getElem? found) ((order.inner_iff found).mpr inside)

end InOrder

/-- A span from the start of one token to the end of another. The second index is the one behind the
last token. -/
structure Stretch (tokens : List Token) (first last : Nat) (span : Span) : Prop where
  forth : first < last
  begins : ∃ token, tokens[first]? = some token ∧ token.span.start = span.start
  ends : ∃ token, tokens[last - 1]? = some token ∧ token.span.stop = span.stop

namespace Stretch

variable {tokens : List Token} {first last first' last' : Nat} {span span' : Span}

theorem token {token : Token} (found : tokens[first]? = some token) :
    Stretch tokens first (first + 1) token.span :=
  ⟨Nat.lt_succ_self _, ⟨token, found, rfl⟩, ⟨token, found, rfl⟩⟩

theorem within (order : InOrder tokens) (inner : Stretch tokens first' last' span')
    (outer : Stretch tokens first last span) (behind : first ≤ first') (upTo : last' ≤ last) :
    span'.Within span := by
  obtain ⟨-, ⟨begins, found, start⟩, ends, found', stop⟩ := outer
  obtain ⟨forth', ⟨begins', inside, start'⟩, ends', inside', stop'⟩ := inner
  constructor
  · rw [← start, ← start']
    exact order.start_le found inside behind
  · rw [← stop, ← stop']
    exact order.stop_le inside' found' (by omega)

theorem before (order : InOrder tokens) (earlier : Stretch tokens first last span)
    (later : Stretch tokens first' last' span') (apart : last ≤ first') : span.Before span' := by
  obtain ⟨forth, -, ends, found, stop⟩ := earlier
  obtain ⟨-, ⟨begins, found', start⟩, -⟩ := later
  rw [Span.Before, ← stop, ← start]
  exact order.before found found' (by omega)

theorem filled (order : InOrder tokens) (stretch : Stretch tokens first last span)
    (inside : last < tokens.length) : span.start < span.stop := by
  obtain ⟨forth, ⟨begins, found, start⟩, ends, found', stop⟩ := stretch
  rw [← start, ← stop]
  exact Nat.lt_of_lt_of_le (order.filled_at found (by omega)) (order.stop_le found found' (by omega))

/-- What is merged goes from the start of the first to the end of the second. -/
theorem merge (order : InOrder tokens) (left : Stretch tokens first last span)
    (right : Stretch tokens first' last' span') (behind : first ≤ first') (upTo : last ≤ last') :
    Stretch tokens first last' (span.merge span') := by
  obtain ⟨forth, ⟨begins, found, start⟩, ends, inside, stop⟩ := left
  obtain ⟨forth', ⟨begins', inside', start'⟩, ends', found', stop'⟩ := right
  refine ⟨by omega, ⟨begins, found, ?_⟩, ends', found', ?_⟩
  · rw [Span.merge, ← start, ← start']
    exact (Nat.min_eq_left (order.start_le found inside' behind)).symm
  · rw [Span.merge, ← stop, ← stop']
    exact (Nat.max_eq_right (order.stop_le inside found' (by omega))).symm

end Stretch

/-- A place from the start of one token to the end of another, on the line of a token. -/
structure Placed (tokens : List Token) (first last : Nat) (place : Place) : Prop
    extends Stretch tokens first last place.span where
  line : place.line ∈ tokens.map Token.line

/-- The body of a `for` loop and its last clause, as the block that they become. -/
def Stmt.round (line : Nat) (span : Span) (body : Stmt Place) (last : Option (Expr Place)) :
    Stmt Place :=
  .block ⟨line, span⟩ (body :: last.toList.map fun expr => .expression expr.place expr)

theorem Part.children_forLoop (place : Place) (initial : Option (Stmt Place)) (condition : Expr Place)
    (last : Option (Expr Place)) (span : Span) (body : Stmt Place) :
    (stmt (.forLoop place initial condition last span body)).children = initial.toList.map stmt ++
      [stmt (.whileLoop place condition (.round place.line span body last))] := by
  simp [children, Stmt.forLoop, Stmt.round]

theorem Part.children_round (line : Nat) (span : Span) (body : Stmt Place)
    (last : Option (Expr Place)) : (stmt (.round line span body last)).children =
      stmt body :: last.toList.map fun expr => stmt (.expression expr.place expr) := by
  simp [children, Stmt.round]

/-- Nodes that take up tokens, one behind another, each with the nodes below it. What a `for` loop
stands for is described by the parts of the loop, in the order they are read. -/
inductive Row (tokens : List Token) : Nat → Nat → List Part → Prop where
  | nil (forward : low ≤ high) : Row tokens low high []
  | node {node : Part} (behind : low ≤ first) (own : Placed tokens first last node.place)
      (written : ¬ node.IsStep) (below : Row tokens first last node.children)
      (later : Row tokens last high rest) : Row tokens low high (node :: rest)
  | loop (behind : low ≤ first) (own : Placed tokens first last place)
      (begins : ∃ token, tokens[first]? = some token ∧ token.kind = .keyword .forWord)
      (clauses : Row tokens first middle
        (initial.toList.map Part.stmt ++ Part.expr condition :: step.toList.map Part.expr))
      (round : Stretch tokens middle last bodySpan) (below : Row tokens middle last [.stmt body])
      (later : Row tokens last high rest) :
      Row tokens low high (.stmt (.forLoop place initial condition step bodySpan body) :: rest)

namespace Row

variable {tokens : List Token} {low middle high : Nat} {nodes others : List Part}

theorem forward (row : Row tokens low high nodes) : low ≤ high := by
  induction row with
  | nil forward => exact forward
  | node behind own _ _ _ _ later => have := own.forth; omega
  | loop behind own _ _ _ _ _ _ _ later => have := own.forth; omega

theorem behind (row : Row tokens middle high nodes) (earlier : low ≤ middle) :
    Row tokens low high nodes := by
  cases row with
  | nil forward => exact .nil (Nat.le_trans earlier forward)
  | node behind own written below later =>
    exact .node (Nat.le_trans earlier behind) own written below later
  | loop behind own begins clauses round below later =>
    exact .loop (Nat.le_trans earlier behind) own begins clauses round below later

theorem append (row : Row tokens low middle nodes) (later : Row tokens middle high others) :
    Row tokens low high (nodes ++ others) := by
  induction row with
  | nil forward => exact later.behind forward
  | node behind own written below _ _ ih => exact .node behind own written below (ih later)
  | loop behind own begins clauses round below _ _ _ ih =>
    exact .loop behind own begins clauses round below (ih later)

theorem upTo (row : Row tokens low middle nodes) (later : middle ≤ high) :
    Row tokens low high nodes := by
  simpa using row.append (.nil later)

theorem placed (row : Row tokens low high nodes) : ∀ node ∈ nodes, ∃ first last,
    low ≤ first ∧ last ≤ high ∧ Placed tokens first last node.place ∧ ¬ node.IsStep := by
  induction row with
  | nil => nofun
  | @node low first last high rest node behind own written _ later _ ih =>
    intro other member
    rcases List.mem_cons.mp member with rfl | member
    · exact ⟨first, last, behind, later.forward, own, written⟩
    · obtain ⟨first', last', further, rest⟩ := ih other member
      have forth := own.forth
      exact ⟨first', last', by omega, rest⟩
  | @loop low first last place middle condition bodySpan body high rest initial step behind own _ _ _ _
      later _ _ ih =>
    intro other member
    rcases List.mem_cons.mp member with rfl | member
    · exact ⟨first, last, behind, later.forward, own, not_false⟩
    · obtain ⟨first', last', further, rest⟩ := ih other member
      have forth := own.forth
      exact ⟨first', last', by omega, rest⟩

theorem pairwise (order : InOrder tokens) (row : Row tokens low high nodes) :
    nodes.Pairwise fun first second => first.place.span.Before second.place.span := by
  have ahead {first last high : Nat} {place : Place} {rest : List Part}
      (own : Placed tokens first last place) (later : Row tokens last high rest) :
      ∀ node ∈ rest, place.span.Before node.place.span := by
    intro node member
    obtain ⟨first', last', further, -, own', -⟩ := later.placed node member
    exact own.before order own'.toStretch further
  induction row with
  | nil => exact .nil
  | node _ own _ _ later _ ih => exact .cons (ahead own later) ih
  | loop _ own _ _ _ _ later _ _ ih => exact .cons (ahead own later) ih

end Row

/-- A node that takes up the tokens from one index to another. -/
structure Spread (tokens : List Token) (first last : Nat) (node : Part) : Prop where
  own : Placed tokens first last node.place
  row : Row tokens first last [node]

theorem Placed.token {tokens : List Token} {index : Nat} {token : Token}
    (found : tokens[index]? = some token) :
    Placed tokens index (index + 1) ⟨token.line, token.span⟩ :=
  ⟨.token found, List.mem_map_of_mem (List.mem_of_getElem? found)⟩

theorem Spread.written {tokens : List Token} {first last : Nat} {node : Part}
    (own : Placed tokens first last node.place) (written : ¬ node.IsStep)
    (below : Row tokens first last node.children) : Spread tokens first last node :=
  ⟨own, .node (Nat.le_refl _) own written below (.nil (Nat.le_refl _))⟩

namespace Program

/-- The nodes of a program, those in the bodies of functions with them. -/
def Has (program : Program) (node : Part) : Prop := ∃ stmt ∈ program, Part.Down (.stmt stmt) node

/-- A block that stands for a round of a `for` loop, and what the last clause of the loop becomes in
it. -/
def LastClause (program : Program) (tokens : List Token) (round step : Part) : Prop :=
  ∃ place initial condition last bodySpan body,
    program.Has (.stmt (.forLoop place initial condition (some last) bodySpan body)) ∧
    (∃ token ∈ tokens, token.kind = .keyword .forWord ∧ token.span.start = place.span.start) ∧
    round = .stmt (.round place.line bodySpan body (some last)) ∧
    step = .stmt (.expression last.place last)

variable {program : Program} {tokens : List Token}

theorem Has.child {node child : Part} (has : program.Has node) (member : child ∈ node.children) :
    program.Has child := by
  obtain ⟨stmt, among, down⟩ := has
  exact ⟨stmt, among, down.tail member⟩

section
variable {place : Place} {initial : Option (Stmt Place)} {condition : Expr Place}
  {last : Option (Expr Place)} {span : Span} {body : Stmt Place}
  (has : program.Has (.stmt (.forLoop place initial condition last span body)))
include has

theorem Has.repeated : program.Has
    (.stmt (.whileLoop place condition (.round place.line span body last))) :=
  has.child (by simp [Part.children_forLoop])

theorem Has.round : program.Has (.stmt (.round place.line span body last)) :=
  has.repeated.child (by simp [Part.children])

end

theorem LastClause.stands {round step : Part} (last : program.LastClause tokens round step) :
    program.Has round ∧ step ∈ round.children ∧ step.IsStep := by
  obtain ⟨place, initial, condition, last, span, body, has, -, rfl, rfl⟩ := last
  exact ⟨has.round, by simp [Part.children_round], rfl⟩

/-- How the span of a node lies to the tokens and to the spans of the nodes right below it. -/
structure Lies (program : Program) (tokens : List Token) (node : Part) : Prop where
  placed : ∃ first last, last < tokens.length ∧ Placed tokens first last node.place
  nested : ∀ child ∈ node.children,
    child.place.span.Within node.place.span ∨ program.LastClause tokens node child
  steps : ∀ child ∈ node.children, child.IsStep → child.place.span.Before node.place.span
  ordered : (∀ token ∈ tokens, token.kind ≠ .keyword .forWord) →
    node.children.Pairwise fun first second => first.place.span.Before second.place.span

/-- All nodes from a node downwards lie so. -/
def LiesDown (program : Program) (tokens : List Token) (node : Part) : Prop :=
  ∀ inner, node.Down inner → program.Lies tokens inner

theorem LiesDown.of_children {node : Part} (own : program.Lies tokens node)
    (below : ∀ child ∈ node.children, program.LiesDown tokens child) :
    program.LiesDown tokens node := by
  intro inner down
  rcases Relation.ReflTransGen.cases_head down with rfl | ⟨child, member, down⟩
  · exact own
  · exact below child member inner down

end Program

namespace Row
open Program

variable {program : Program} {tokens : List Token} {low high : Nat} {nodes : List Part}

theorem written_lies (order : InOrder tokens) {node : Part} {first last : Nat}
    (own : Placed tokens first last node.place) (below : Row tokens first last node.children)
    (inside : last < tokens.length) : program.Lies tokens node where
  placed := ⟨first, last, inside, own⟩
  nested child member := by
    obtain ⟨_, _, behind, upTo, own', -⟩ := below.placed child member
    exact .inl (own'.within order own.toStretch behind upTo)
  steps child member step := by
    obtain ⟨_, _, -, -, -, written⟩ := below.placed child member
    exact absurd step written
  ordered _ := below.pairwise order

section Loop
variable {first middle last : Nat} {place : Place} {initial : Option (Stmt Place)}
  {condition : Expr Place} {step : Option (Expr Place)} {bodySpan : Span} {body : Stmt Place}
  (order : InOrder tokens) (own : Placed tokens first last place)
  (begins : ∃ token, tokens[first]? = some token ∧ token.kind = .keyword .forWord)
  (clauses : Row tokens first middle
    (initial.toList.map Part.stmt ++ Part.expr condition :: step.toList.map Part.expr))
  (round : Stretch tokens middle last bodySpan) (below : Row tokens middle last [.stmt body])
  (inside : last < tokens.length)
  (has : program.Has (.stmt (.forLoop place initial condition step bodySpan body)))

include begins in
/-- Where there is a `for`, the nodes right below a node need not be in order. -/
theorem synthesized_lies {node : Part} {first' last' : Nat} (own : Placed tokens first' last' node.place)
    (inside : last' < tokens.length)
    (each : ∀ child ∈ node.children, child.place.span.Within node.place.span ∧ ¬ child.IsStep ∨
      program.LastClause tokens node child ∧ child.place.span.Before node.place.span) :
    program.Lies tokens node where
  placed := ⟨first', last', inside, own⟩
  nested child member := (each child member).imp And.left And.left
  steps child member step := by
    rcases each child member with ⟨-, written⟩ | ⟨-, before⟩
    · exact absurd step written
    · exact before
  ordered none := by
    obtain ⟨token, found, same⟩ := begins
    exact absurd same (none token (List.mem_of_getElem? found))

include begins in
theorem step_lies_down {last' : Expr Place} {first' upTo : Nat}
    (own : Placed tokens first' upTo last'.place) (inside : upTo < tokens.length)
    (lower : program.LiesDown tokens (.expr last')) :
    program.LiesDown tokens (.stmt (.expression last'.place last')) := by
  refine .of_children (synthesized_lies begins own inside fun child member => .inl ?_) ?_
  · obtain rfl := List.mem_singleton.mp member
    exact ⟨.refl _, not_false⟩
  · intro child member
    obtain rfl := List.mem_singleton.mp member
    exact lower

include order own clauses round

theorem clause_within : ∀ node ∈ initial.toList.map Part.stmt ++ Part.expr condition ::
    step.toList.map Part.expr, node.place.span.Within place.span ∧ ¬ node.IsStep := by
  intro node member
  have forth := round.forth
  obtain ⟨first', last', behind, upTo, own', written⟩ := clauses.placed node member
  exact ⟨own'.within order own.toStretch behind (by omega), written⟩

include begins inside

theorem loop_lies :
    program.Lies tokens (.stmt (.forLoop place initial condition step bodySpan body)) := by
  have clause := clause_within order own clauses round
  refine synthesized_lies begins own inside fun child member => .inl ?_
  rw [Part.children_forLoop, List.mem_append] at member
  rcases member with member | member
  · exact clause child (List.mem_append_left _ member)
  · obtain rfl := List.mem_singleton.mp member
    exact ⟨.refl _, not_false⟩

theorem while_lies : program.Lies tokens
    (.stmt (.whileLoop place condition (.round place.line bodySpan body step))) := by
  have clause := clause_within order own clauses round
  refine synthesized_lies begins own inside fun child member => .inl ?_
  simp only [Part.children, List.mem_cons, List.not_mem_nil, or_false] at member
  rcases member with rfl | rfl
  · exact clause _ (by simp)
  · exact ⟨round.within order own.toStretch clauses.forward (Nat.le_refl _), not_false⟩

include below has

theorem round_lies : program.Lies tokens (.stmt (.round place.line bodySpan body step)) := by
  refine synthesized_lies begins ⟨round, own.line⟩ inside fun child member => ?_
  rw [Part.children_round, List.mem_cons] at member
  rcases member with rfl | member
  · obtain ⟨_, _, behind, upTo, own', written⟩ := below.placed _ List.mem_cons_self
    exact .inl ⟨own'.within order round behind upTo, written⟩
  · obtain ⟨last', among, rfl⟩ := List.mem_map.mp member
    obtain rfl := Option.mem_toList.mp among
    obtain ⟨token, found, same⟩ := begins
    obtain ⟨begins', found', start⟩ := own.begins
    refine .inr ⟨⟨place, initial, condition, last', bodySpan, body, has, ⟨token, ?_⟩, rfl, rfl⟩, ?_⟩
    · cases found.symm.trans found'
      exact ⟨List.mem_of_getElem? found, same, start⟩
    · obtain ⟨_, _, -, upTo, own', -⟩ := clauses.placed (.expr last') (by simp)
      exact own'.before order round upTo

theorem round_lies_down (lower : ∀ node ∈ step.toList.map Part.expr, program.LiesDown tokens node)
    (lower' : program.LiesDown tokens (.stmt body)) :
    program.LiesDown tokens (.stmt (.round place.line bodySpan body step)) := by
  refine .of_children (round_lies order own begins clauses round below inside has) ?_
  intro child member
  rw [Part.children_round, List.mem_cons] at member
  rcases member with rfl | member
  · exact lower'
  · obtain ⟨last', among, rfl⟩ := List.mem_map.mp member
    obtain rfl := Option.mem_toList.mp among
    obtain ⟨_, _, -, upTo, own', -⟩ := clauses.placed (.expr last') (by simp)
    have bound := Nat.lt_of_le_of_lt (Nat.le_trans upTo (Nat.le_of_lt round.forth)) inside
    exact step_lies_down begins own' bound (lower _ (by simp))

theorem loop_lies_down (lower : ∀ node ∈ initial.toList.map Part.stmt ++
      Part.expr condition :: step.toList.map Part.expr, program.LiesDown tokens node)
    (lower' : program.LiesDown tokens (.stmt body)) :
    program.LiesDown tokens (.stmt (.forLoop place initial condition step bodySpan body)) := by
  have repeated : program.LiesDown tokens
      (.stmt (.whileLoop place condition (.round place.line bodySpan body step))) := by
    refine .of_children (while_lies order own begins clauses round inside) fun child member => ?_
    simp only [Part.children, List.mem_cons, List.not_mem_nil, or_false] at member
    rcases member with rfl | rfl
    · exact lower _ (by simp)
    · refine round_lies_down order own begins clauses round below inside has ?_ lower'
      exact fun node member => lower node (by simp [member])
  refine .of_children (loop_lies order own begins clauses round inside) fun child member => ?_
  rw [Part.children_forLoop, List.mem_append] at member
  rcases member with member | member
  · exact lower child (List.mem_append_left _ member)
  · obtain rfl := List.mem_singleton.mp member
    exact repeated

end Loop

theorem lies_down (order : InOrder tokens) (row : Row tokens low high nodes)
    (inside : high < tokens.length) (has : ∀ node ∈ nodes, program.Has node) :
    ∀ node ∈ nodes, program.LiesDown tokens node := by
  induction row with
  | nil => nofun
  | @node low first last high rest node behind own written below later ihBelow ih =>
    have bound := Nat.lt_of_le_of_lt later.forward inside
    refine List.forall_mem_cons.mpr ⟨?_, ih inside fun node member => has node (.tail _ member)⟩
    have hasNode := has node List.mem_cons_self
    exact .of_children (written_lies order own below bound)
      (ihBelow bound fun child member => hasNode.child member)
  | @loop low first last place middle condition bodySpan body high rest initial step behind own begins
      clauses round below later ihClauses ihBelow ih =>
    have bound := Nat.lt_of_le_of_lt later.forward inside
    have bound' : middle < tokens.length := Nat.lt_trans round.forth bound
    refine List.forall_mem_cons.mpr ⟨?_, ih inside fun node member => has node (.tail _ member)⟩
    have hasLoop := has _ List.mem_cons_self
    refine loop_lies_down order own begins clauses round below bound hasLoop (ihClauses bound' ?_)
      (ihBelow bound ?_ _ List.mem_cons_self)
    · intro node member
      rcases List.mem_append.mp member with member | member
      · refine hasLoop.child ?_
        rw [Part.children_forLoop]
        exact List.mem_append_left _ member
      rcases List.mem_cons.mp member with rfl | member
      · exact hasLoop.repeated.child (by simp [Part.children])
      obtain ⟨last', among, rfl⟩ := List.mem_map.mp member
      obtain rfl := Option.mem_toList.mp among
      have hasStep : program.Has (.stmt (.expression last'.place last')) :=
        hasLoop.round.child (by simp [Part.children_round])
      exact hasStep.child (by simp [Part.children])
    · intro node member
      obtain rfl := List.mem_singleton.mp member
      exact hasLoop.round.child (by simp [Part.children_round])

end Row

/-- Statements that take up tokens without a gap. -/
inductive Covers (tokens : List Token) : Nat → Nat → List (Stmt Place) → Prop where
  | nil : Covers tokens low low []
  | cons {stmt : Stmt Place} (own : Stretch tokens low middle stmt.place.span)
      (later : Covers tokens middle high rest) : Covers tokens low high (stmt :: rest)

namespace Covers

variable {tokens : List Token} {low middle high : Nat} {stmts : List (Stmt Place)}

theorem push {stmt : Stmt Place} (covers : Covers tokens low middle stmts)
    (own : Stretch tokens middle high stmt.place.span) : Covers tokens low high (stmts ++ [stmt]) := by
  induction covers with
  | nil => exact .cons own .nil
  | cons first _ ih => exact .cons first (ih own)

/-- Every token between the ends is in one of the statements. -/
theorem holds (order : InOrder tokens) (covers : Covers tokens low high stmts) {index : Nat}
    {token : Token} (found : tokens[index]? = some token) (behind : low ≤ index)
    (before : index < high) :
    ∃ (position : Nat) (stmt : Stmt Place), stmts[position]? = some stmt ∧
      token.span.Within stmt.place.span := by
  induction covers with
  | nil => omega
  | @cons low middle high rest stmt own later ih =>
    by_cases early : index < middle
    · exact ⟨0, stmt, rfl, (Stretch.token found).within order own behind early⟩
    · obtain ⟨position, other, stands, inside⟩ := ih (Nat.le_of_not_lt early) before
      exact ⟨position + 1, other, stands, inside⟩

end Covers
end Lox
