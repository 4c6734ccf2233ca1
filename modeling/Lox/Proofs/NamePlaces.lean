import Lox.Proofs.ForwardParsing
import Lox.Proofs.GrammarTables

/-! Where the variables of a program stand. No two of them start at one offset of the source, however
bad the source is, so the place of a variable tells it from all others. -/

namespace Lox

namespace Expr

mutual

/-- The places of the variables that an expression names. -/
def named : Expr Place → List Place
  | literal _ _ => []
  | grouping _ inner | unary _ _ inner => inner.named
  | binary _ _ left right | logical _ _ left right => left.named ++ right.named
  | name place _ => [place]
  | assign place _ value => place :: value.named
  | call _ callee arguments => callee.named ++ namedAll arguments

def namedAll : List (Expr Place) → List Place
  | [] => []
  | expr :: rest => expr.named ++ namedAll rest

end

theorem namedAll_append (front back : List (Expr Place)) :
    namedAll (front ++ back) = namedAll front ++ namedAll back := by
  induction front with
  | nil => rfl
  | cons expr front ih => simp only [List.cons_append, namedAll, ih, List.append_assoc]

end Expr

namespace Stmt

mutual

/-- The places of the variables that a statement names, in the functions that it declares too. -/
def named : Stmt Place → List Place
  | expression _ expr | print _ expr | declare _ _ (some expr) | returnValue _ (some expr) =>
    expr.named
  | block _ body | function _ _ _ body => namedAll body
  | ifThen _ condition body | whileLoop _ condition body => condition.named ++ body.named
  | ifElse _ condition body other => condition.named ++ (body.named ++ other.named)
  | declare _ _ none | returnValue _ none | breakLoop _ | continueLoop _ => []

def namedAll : List (Stmt Place) → List Place
  | [] => []
  | stmt :: rest => stmt.named ++ namedAll rest

end

theorem namedAll_append (front back : List (Stmt Place)) :
    namedAll (front ++ back) = namedAll front ++ namedAll back := by
  induction front with
  | nil => rfl
  | cons stmt front ih => simp only [List.cons_append, namedAll, ih, List.append_assoc]

end Stmt

/-- Places that start at different offsets, all of them from one offset on and before another. -/
structure Apart (places : List Place) (low high : Nat) : Prop where
  ordered : low ≤ high
  distinct : (places.map (·.span.start)).Nodup
  between : ∀ place ∈ places, low ≤ place.span.start ∧ place.span.start < high

namespace Apart

variable {low middle high : Nat} {front back places : List Place}

theorem nil (ordered : low ≤ high) : Apart [] low high := ⟨ordered, .nil, nofun⟩

theorem one {place : Place} (behind : low ≤ place.span.start) (before : place.span.start < high) :
    Apart [place] low high := by
  refine ⟨Nat.le_of_lt (Nat.lt_of_le_of_lt behind before), by simp, fun other member => ?_⟩
  obtain rfl := List.mem_singleton.mp member
  exact ⟨behind, before⟩

theorem append (first : Apart front low middle) (second : Apart back middle high) :
    Apart (front ++ back) low high := by
  refine ⟨Nat.le_trans first.ordered second.ordered, ?_, ?_⟩
  · rw [List.map_append]
    refine List.nodup_append.mpr ⟨first.distinct, second.distinct, ?_⟩
    rintro _ inFront _ inBack rfl
    obtain ⟨place, member, same⟩ := List.mem_map.mp inFront
    obtain ⟨other, member', same'⟩ := List.mem_map.mp inBack
    have before := (first.between place member).2
    have behind := (second.between other member').1
    omega
  · intro place member
    have ordered := first.ordered
    have ordered' := second.ordered
    rcases List.mem_append.mp member with inFront | inBack
    · have within := first.between place inFront
      omega
    · have within := second.between place inBack
      omega

theorem perm (apart : Apart places low high) {other : List Place} (same : places.Perm other) :
    Apart other low high :=
  ⟨apart.ordered, (same.map _).nodup_iff.mp apart.distinct,
    fun place member => apart.between place (same.mem_iff.mpr member)⟩

theorem upTo (apart : Apart places low middle) (later : middle ≤ high) : Apart places low high :=
  ⟨Nat.le_trans apart.ordered later, apart.distinct, fun place member =>
    ⟨(apart.between place member).1, Nat.lt_of_lt_of_le (apart.between place member).2 later⟩⟩

end Apart

/-- An expression stands behind an offset, and the variables it names stand before another. -/
structure Expr.Stands (expr : Expr Place) (low high : Nat) : Prop where
  apart : Apart expr.named low high
  behind : low ≤ expr.place.span.start

theorem Expr.Stands.upTo {expr : Expr Place} {low middle high : Nat} (stands : expr.Stands low middle)
    (later : middle ≤ high) : expr.Stands low high :=
  ⟨stands.apart.upTo later, stands.behind⟩

namespace Parser
open Grammar

section Trees

variable {low middle high : Nat}

/-- What is merged starts where the earlier of the two does. -/
theorem merge_behind {first second : Span} (behind : low ≤ first.start) (behind' : low ≤ second.start) :
    low ≤ (first.merge second).start :=
  Nat.le_min.mpr ⟨behind, behind'⟩

theorem leaf_stands {token : Token} {leaf : Expr Place} (found : token.leaf? = some leaf)
    (behind : low ≤ token.span.start) (before : token.span.start < high) : leaf.Stands low high := by
  have ordered := Nat.le_of_lt (Nat.lt_of_le_of_lt behind before)
  unfold Token.leaf? at found
  split at found <;> cases found
  all_goals first
    | exact ⟨.nil ordered, behind⟩
    | exact ⟨.one behind before, behind⟩

theorem join_stands {left right : Expr Place} (line : Nat) (joint : Joint)
    (first : left.Stands low middle) (second : right.Stands middle high) :
    (joint.join line left right).Stands low high := by
  have behind : low ≤ (left.place.span.merge right.place.span).start :=
    merge_behind first.behind (Nat.le_trans first.apart.ordered second.behind)
  cases joint with
  | logical operator => exact ⟨first.apart.append second.apart, behind⟩
  | binary operator => exact ⟨first.apart.append second.apart, behind⟩

/-- What is assigned stands behind the variable, so the assignment starts where the variable does. -/
theorem assign_stands {place : Place} {label : String} {value : Expr Place}
    (target : (Expr.name place label).Stands low middle) (given : value.Stands middle high) :
    (Expr.assign ⟨place.line, place.span.merge value.place.span⟩ label value).Stands low high := by
  have before := (target.apart.between place List.mem_cons_self).2
  have start : (place.span.merge value.place.span).start = place.span.start :=
    Nat.min_eq_left (Nat.le_of_lt (Nat.lt_of_lt_of_le before given.behind))
  have own : Apart [⟨place.line, place.span.merge value.place.span⟩] low middle :=
    .one (start ▸ target.behind) (start ▸ before)
  exact ⟨own.append given.apart, start ▸ target.behind⟩

end Trees

mutual

theorem expression_forward (fuel : Nat) (start : Progress) (rising : start.cursor.Rising) {low : Nat}
    (behind : low ≤ start.cursor.offset) :
    Forward (expression fuel) start fun expr stop => expr.Stands low stop :=
  match fuel with
  | 0 => .exhausted rising
  | fuel + 1 => by
    apply (chain_forward fuel Level.all start rising behind).bind
    intro target middle rising further stands
    refine .look rfl (.eat rising .symbol (fun after rising before => ?_) (.pure rising stands))
    have stands := stands.upTo (Nat.le_of_lt before)
    apply (expression_forward fuel after rising (Nat.le_refl _)).bind
    intro value last rising further' given
    split
    · exact .pure rising (assign_stands stands given)
    · have kept : value.Stands low last.cursor.offset := by
        have apart := (Apart.nil stands.apart.ordered).append given.apart
        exact ⟨apart, Nat.le_trans stands.apart.ordered given.behind⟩
      exact .of_ok rfl rising (Nat.le_refl _) kept
termination_by structural fuel

theorem chain_forward (fuel : Nat) (levels : List Level) (start : Progress)
    (rising : start.cursor.Rising) {low : Nat} (behind : low ≤ start.cursor.offset) :
    Forward (chain fuel levels) start fun expr stop => expr.Stands low stop :=
  match fuel, levels with
  | 0, _ => .exhausted rising
  | fuel + 1, [] => unary_forward fuel start rising behind
  | fuel + 1, level :: tighter => by
    apply (chain_forward fuel tighter start rising behind).bind
    intro left middle rising further stands
    exact chainRest_forward fuel level tighter left middle rising stands
termination_by structural fuel

theorem chainRest_forward (fuel : Nat) (level : Level) (tighter : List Level) (left : Expr Place)
    (start : Progress) (rising : start.cursor.Rising) {low : Nat}
    (stands : left.Stands low start.cursor.offset) :
    Forward (chainRest fuel level tighter left) start fun expr stop => expr.Stands low stop :=
  match fuel with
  | 0 => .exhausted rising
  | fuel + 1 => by
    refine .look rfl ?_
    split
    next => exact .pure rising stands
    next joint found =>
      have moving : start.here ≠ .eof := (operator_iff.mpr found).ne_eof
      refine .advance rising moving fun middle rising before => ?_
      apply (chain_forward fuel tighter middle rising (Nat.le_of_lt before)).bind
      intro right after rising further stands'
      exact chainRest_forward fuel level tighter _ after rising (join_stands _ joint stands stands')
termination_by structural fuel

theorem unary_forward (fuel : Nat) (start : Progress) (rising : start.cursor.Rising) {low : Nat}
    (behind : low ≤ start.cursor.offset) :
    Forward (unary fuel) start fun expr stop => expr.Stands low stop :=
  match fuel with
  | 0 => .exhausted rising
  | fuel + 1 => by
    refine .look rfl ?_
    split
    next operator found =>
      have moving : start.here ≠ .eof := (prefix_iff.mpr found).ne_eof
      refine .advance rising moving fun middle rising before => ?_
      apply (unary_forward fuel middle rising (Nat.le_trans behind (Nat.le_of_lt before))).bind
      intro operand after rising further stands
      exact .pure rising ⟨stands.apart, merge_behind behind stands.behind⟩
    next =>
      apply (primary_forward fuel start rising behind).bind
      intro callee middle rising further stands
      exact calls_forward fuel callee middle rising stands
termination_by structural fuel

theorem calls_forward (fuel : Nat) (callee : Expr Place) (start : Progress)
    (rising : start.cursor.Rising) {low : Nat} (stands : callee.Stands low start.cursor.offset) :
    Forward (calls fuel callee) start fun expr stop => expr.Stands low stop :=
  match fuel with
  | 0 => .exhausted rising
  | fuel + 1 => by
    refine .eat rising .symbol (fun middle rising before => ?_) (.pure rising stands)
    have passed : Forward (check (.symbol .rightParen) >>= fun found =>
        if found then Pure.pure [] else arguments fuel #[]) middle fun given stop =>
          Apart (Expr.namedAll given) start.cursor.offset stop := by
      have none : Apart [] start.cursor.offset middle.cursor.offset := .nil (Nat.le_of_lt before)
      exact .check (.pure rising none) (arguments_forward fuel #[] middle rising none)
    refine .choose passed fun arguments after rising further apart => ?_
    apply (Forward.expect rising .symbol).bind
    intro close last rising further' ⟨at_, before'⟩
    have behind : low ≤ close.span.start :=
      at_ ▸ Nat.le_trans stands.apart.ordered apart.ordered
    refine calls_forward fuel _ last rising ⟨?_, merge_behind stands.behind behind⟩
    exact (stands.apart.append apart).upTo further'
termination_by structural fuel

theorem arguments_forward (fuel : Nat) (before : Array (Expr Place)) (start : Progress)
    (rising : start.cursor.Rising) {low : Nat}
    (apart : Apart (Expr.namedAll before.toList) low start.cursor.offset) :
    Forward (arguments fuel before) start fun given stop => Apart (Expr.namedAll given) low stop :=
  match fuel with
  | 0 => .exhausted rising
  | fuel + 1 => by
    refine .warn fun errors => ?_
    have argument : Forward (expression fuel) ⟨start.cursor, errors⟩ fun expr stop =>
        expr.Stands start.cursor.offset stop :=
      expression_forward fuel ⟨start.cursor, errors⟩ rising (Nat.le_refl _)
    refine argument.bind fun argument middle rising further stands => ?_
    have apart : Apart (Expr.namedAll (before.push argument).toList) low middle.cursor.offset := by
      have all := apart.append stands.apart
      simpa [Expr.namedAll_append, Expr.namedAll] using all
    refine .eat rising .symbol (fun after rising before => ?_) (.pure rising apart)
    exact arguments_forward fuel _ after rising (apart.upTo (Nat.le_of_lt before))
termination_by structural fuel

theorem primary_forward (fuel : Nat) (start : Progress) (rising : start.cursor.Rising) {low : Nat}
    (behind : low ≤ start.cursor.offset) :
    Forward (primary fuel) start fun expr stop => expr.Stands low stop :=
  match fuel with
  | 0 => .exhausted rising
  | fuel + 1 => by
    refine .look rfl (.eat rising .symbol (fun middle rising before => ?_) ?_)
    · have behind' := Nat.le_trans behind (Nat.le_of_lt before)
      apply (expression_forward fuel middle rising behind').bind
      intro inner after rising further stands
      apply (Forward.expect rising .symbol).bind
      intro close last rising further' ⟨at_, _⟩
      refine .pure rising ⟨stands.apart.upTo further', merge_behind behind ?_⟩
      exact at_ ▸ Nat.le_trans behind' further
    · split
      next leaf found =>
        have moving : start.here ≠ .eof := (leaf_of_leaf? found).ne_eof
        exact .advance rising moving fun _ rising before =>
          .pure rising (leaf_stands found behind before)
      next => exact .of_failed rfl rising
termination_by structural fuel

end

section Rests

variable {fuel : Nat} {start : Progress} {keyword : Token} (rising : start.cursor.Rising) {low : Nat}
include rising

/-- The end of a statement names nothing. -/
theorem ending_forward {kind : TokenKind} {message : String} {make : Place → Stmt Place}
    {places : List Place} (fixed : kind.Fixed) (apart : Apart places low start.cursor.offset)
    (same : ∀ place, (make place).named = places) :
    Forward (expect kind message >>= fun _ => placeFrom keyword >>= fun place => pure (make place))
      start fun stmt stop => Apart stmt.named low stop := by
  refine (Forward.expect rising fixed).bind fun _ middle rising further _ => .look rfl ?_
  refine .pure rising ?_
  rw [same]
  exact apart.upTo further

variable (behind : low ≤ start.cursor.offset)
include behind

theorem optional_forward {closing : TokenKind} :
    Forward (check closing >>= fun found => if found then pure none else some <$> expression fuel)
      start fun expr stop => Apart (expr.elim [] Expr.named) low stop := by
  refine .check (.pure rising (.nil behind)) ?_
  exact (expression_forward fuel start rising behind).map fun expr stop stands => stands.apart

theorem breakRest_forward :
    Forward (breakRest keyword) start fun stmt stop => Apart stmt.named low stop :=
  ending_forward rising .symbol (.nil behind) fun _ => rfl

theorem continueRest_forward :
    Forward (continueRest keyword) start fun stmt stop => Apart stmt.named low stop :=
  ending_forward rising .symbol (.nil behind) fun _ => rfl

theorem declareRest_forward :
    Forward (declareRest fuel keyword) start fun stmt stop => Apart stmt.named low stop := by
  refine (Forward.expectName rising).bind fun name middle rising further _ => ?_
  have behind := Nat.le_trans behind further
  have initial : Forward (eat (.symbol .equal) >>= fun eaten =>
      if eaten then some <$> expression fuel else pure none) middle fun expr stop =>
        Apart (expr.elim [] Expr.named) low stop := by
    refine .eat rising .symbol (fun after rising before => ?_) (.pure rising (.nil behind))
    have behind := Nat.le_trans behind (Nat.le_of_lt before)
    exact (expression_forward fuel after rising behind).map fun expr stop stands => stands.apart
  refine .choose initial fun expr after rising further apart => ?_
  refine ending_forward rising .symbol apart fun _ => ?_
  cases expr <;> rfl

theorem printRest_forward :
    Forward (printRest fuel keyword) start fun stmt stop => Apart stmt.named low stop := by
  apply (expression_forward fuel start rising behind).bind
  intro value middle rising further stands
  exact ending_forward rising .symbol stands.apart fun _ => rfl

theorem returnRest_forward :
    Forward (returnRest fuel keyword) start fun stmt stop => Apart stmt.named low stop := by
  refine .choose (optional_forward rising behind) fun value middle rising further apart => ?_
  refine ending_forward rising .symbol apart fun _ => ?_
  cases value <;> rfl

theorem expressionStatement_forward :
    Forward (expressionStatement fuel) start fun stmt stop => Apart stmt.named low stop := by
  apply (expression_forward fuel start rising behind).bind
  intro expr middle rising further stands
  refine (Forward.expect rising .symbol).bind fun _ after rising further' _ => .look rfl ?_
  exact .pure rising (stands.apart.upTo further')

theorem firstClause_forward : Forward (firstClause fuel) start fun first stop =>
    Apart (Stmt.namedAll first.toList) low stop := by
  have single {stmt : Stmt Place} {stop : Nat} (apart : Apart stmt.named low stop) :
      Apart (Stmt.namedAll [stmt]) low stop := by
    rwa [Stmt.namedAll, Stmt.namedAll, List.append_nil]
  refine .look rfl (.eat rising .symbol (fun middle rising before => ?_) ?_)
  · exact .pure rising (.nil (Nat.le_trans behind (Nat.le_of_lt before)))
  refine .eat rising .keyword (fun middle rising before => ?_) ?_
  · have behind := Nat.le_trans behind (Nat.le_of_lt before)
    exact (declareRest_forward rising behind).map fun stmt stop => single
  · exact (expressionStatement_forward rising behind).map fun stmt stop => single

theorem conditionClause_forward : Forward (conditionClause fuel) start fun condition stop =>
    Apart condition.named low stop := by
  refine .choose (optional_forward rising behind) fun condition middle rising further apart => ?_
  refine (Forward.expect rising .symbol).bind fun close after rising further' _ => .pure rising ?_
  cases condition <;> exact apart.upTo further'

theorem lastClause_forward : Forward (lastClause fuel) start fun last stop =>
    Apart (last.elim [] Expr.named) low stop := by
  refine .choose (optional_forward rising behind) fun last middle rising further apart => ?_
  refine (Forward.expect rising .symbol).bind fun _ after rising further' _ => .pure rising ?_
  exact apart.upTo further'

theorem parameters_forward (before : Array String) :
    Forward (parameters fuel before) start fun _ stop => low ≤ stop := by
  induction fuel generalizing start before with
  | zero => exact .exhausted rising
  | succ fuel ih =>
    refine .warn fun errors => ?_
    have name : Forward (expectName "expected parameter name") ⟨start.cursor, errors⟩ fun _ _ => True :=
      .expectName rising
    refine name.bind fun name middle rising further _ => ?_
    have behind := Nat.le_trans behind further
    refine .eat rising .symbol (fun after rising before => ?_) (.pure rising behind)
    exact ih rising (Nat.le_trans behind (Nat.le_of_lt before)) _

end Rests

/-- The last clause of a loop stands before its body in the source and behind it in the tree. -/
theorem forLoop_apart {low a b c high : Nat} {place : Place} {first : Option (Stmt Place)}
    {condition : Expr Place} {last : Option (Expr Place)} {span : Span} {body : Stmt Place}
    (inFirst : Apart (Stmt.namedAll first.toList) low a) (inCondition : Apart condition.named a b)
    (inLast : Apart (last.elim [] Expr.named) b c) (inBody : Apart body.named c high) :
    Apart (Stmt.forLoop place first condition last span body).named low high := by
  have step : Stmt.namedAll (last.toList.map fun expr => Stmt.expression expr.place expr) =
      last.elim [] Expr.named := by
    cases last <;> simp [Stmt.namedAll, Stmt.named]
  have names : (Stmt.forLoop place first condition last span body).named =
      Stmt.namedAll first.toList ++ (condition.named ++ (body.named ++ last.elim [] Expr.named)) := by
    simp only [Stmt.forLoop, Stmt.named, Stmt.namedAll_append, Stmt.namedAll, step, List.append_nil]
  have round := (inLast.append inBody).perm List.perm_append_comm
  rw [names]
  exact inFirst.append (inCondition.append round)

theorem push_apart {before : Array (Stmt Place)} {stmt : Stmt Place} {low middle high : Nat}
    (apart : Apart (Stmt.namedAll before.toList) low middle) (own : Apart stmt.named middle high) :
    Apart (Stmt.namedAll (before.push stmt).toList) low high := by
  have all := apart.append own
  simpa [Stmt.namedAll_append, Stmt.namedAll] using all

mutual

theorem declaration_forward (fuel : Nat) (start : Progress) (rising : start.cursor.Rising) {low : Nat}
    (behind : low ≤ start.cursor.offset) : Forward (declaration fuel) start fun found stop =>
      ∀ stmt, found = some stmt → Apart stmt.named low stop :=
  match fuel with
  | 0 => .exhausted rising
  | fuel + 1 => by
    refine .recover (.look rfl ?_)
    refine .eat rising .keyword (fun middle rising before => ?_) ?_
    · exact declareRest_forward rising (Nat.le_trans behind (Nat.le_of_lt before))
    refine .eat rising .keyword (fun middle rising before => ?_) ?_
    · exact functionRest_forward fuel _ middle rising (Nat.le_trans behind (Nat.le_of_lt before))
    · exact statement_forward fuel start rising behind
termination_by structural fuel

theorem functionRest_forward (fuel : Nat) (keyword : Token) (start : Progress)
    (rising : start.cursor.Rising) {low : Nat} (behind : low ≤ start.cursor.offset) :
    Forward (functionRest fuel keyword) start fun stmt stop => Apart stmt.named low stop :=
  match fuel with
  | 0 => .exhausted rising
  | fuel + 1 => by
    refine (Forward.expectName rising).bind fun name middle rising further _ => ?_
    have behind := Nat.le_trans behind further
    refine (Forward.expect rising .symbol).bind fun _ middle rising further _ => ?_
    have behind := Nat.le_trans behind further
    have named : Forward (check (.symbol .rightParen) >>= fun found =>
        if found then Pure.pure [] else parameters fuel #[]) middle fun _ stop => low ≤ stop :=
      .check (.pure rising behind) (parameters_forward rising behind #[])
    refine .choose named fun params middle rising _ behind => ?_
    refine (Forward.expect rising .symbol).bind fun _ middle rising further _ => ?_
    have behind := Nat.le_trans behind further
    refine (Forward.expect rising .symbol).bind fun _ middle rising further _ => ?_
    have none : Apart [] low middle.cursor.offset := .nil (Nat.le_trans behind further)
    apply (blockRest_forward fuel #[] middle rising none).bind
    intro body after rising further apart
    exact .look rfl (.pure rising apart)
termination_by structural fuel

theorem statement_forward (fuel : Nat) (start : Progress) (rising : start.cursor.Rising) {low : Nat}
    (behind : low ≤ start.cursor.offset) :
    Forward (statement fuel) start fun stmt stop => Apart stmt.named low stop :=
  match fuel with
  | 0 => .exhausted rising
  | fuel + 1 => by
    have later {offset : Nat} (before : start.cursor.offset < offset) : low ≤ offset :=
      Nat.le_trans behind (Nat.le_of_lt before)
    refine .look rfl ?_
    split <;> try rename_i stands; have moving : start.here ≠ .eof := by simp [Progress.here, stands]
    · exact .advance rising moving fun middle rising before =>
        forRest_forward fuel _ middle rising (later before)
    · exact .advance rising moving fun middle rising before =>
        ifRest_forward fuel _ middle rising (later before)
    · exact .advance rising moving fun middle rising before => printRest_forward rising (later before)
    · exact .advance rising moving fun middle rising before => returnRest_forward rising (later before)
    · exact .advance rising moving fun middle rising before =>
        whileRest_forward fuel _ middle rising (later before)
    · exact .advance rising moving fun middle rising before => breakRest_forward rising (later before)
    · exact .advance rising moving fun middle rising before =>
        continueRest_forward rising (later before)
    · refine .advance rising moving fun middle rising before => ?_
      apply (blockRest_forward fuel #[] middle rising (.nil (later before))).bind
      intro body after rising further apart
      exact .look rfl (.pure rising apart)
    · exact expressionStatement_forward rising behind
termination_by structural fuel

theorem blockRest_forward (fuel : Nat) (before : Array (Stmt Place)) (start : Progress)
    (rising : start.cursor.Rising) {low : Nat}
    (apart : Apart (Stmt.namedAll before.toList) low start.cursor.offset) :
    Forward (blockRest fuel before) start fun body stop => Apart (Stmt.namedAll body) low stop :=
  match fuel with
  | 0 => .exhausted rising
  | fuel + 1 => by
    refine .look rfl (.look rfl ?_)
    split
    · refine (Forward.expect rising .symbol).bind fun _ middle rising further _ => ?_
      exact .pure rising (apart.upTo further)
    · apply (declaration_forward fuel start rising (Nat.le_refl _)).bind
      intro found middle rising further own
      cases found with
      | none => exact blockRest_forward fuel before middle rising (apart.upTo further)
      | some stmt => exact blockRest_forward fuel _ middle rising (push_apart apart (own stmt rfl))
termination_by structural fuel

theorem ifRest_forward (fuel : Nat) (keyword : Token) (start : Progress)
    (rising : start.cursor.Rising) {low : Nat} (behind : low ≤ start.cursor.offset) :
    Forward (ifRest fuel keyword) start fun stmt stop => Apart stmt.named low stop :=
  match fuel with
  | 0 => .exhausted rising
  | fuel + 1 => by
    refine (Forward.expect rising .symbol).bind fun _ middle rising further _ => ?_
    apply (expression_forward fuel middle rising (Nat.le_trans behind further)).bind
    intro condition middle rising _ inCondition
    refine (Forward.expect rising .symbol).bind fun _ after rising further _ => ?_
    have inCondition := inCondition.apart.upTo further
    apply (statement_forward fuel after rising (Nat.le_refl _)).bind
    intro body middle rising _ inBody
    refine .eat rising .keyword (fun after rising before => ?_) (.look rfl ?_)
    · have inBody := inBody.upTo (Nat.le_of_lt before)
      apply (statement_forward fuel after rising (Nat.le_refl _)).bind
      intro other middle rising _ inOther
      exact .look rfl (.pure rising (inCondition.append (inBody.append inOther)))
    · exact .pure rising (inCondition.append inBody)
termination_by structural fuel

theorem whileRest_forward (fuel : Nat) (keyword : Token) (start : Progress)
    (rising : start.cursor.Rising) {low : Nat} (behind : low ≤ start.cursor.offset) :
    Forward (whileRest fuel keyword) start fun stmt stop => Apart stmt.named low stop :=
  match fuel with
  | 0 => .exhausted rising
  | fuel + 1 => by
    refine (Forward.expect rising .symbol).bind fun _ middle rising further _ => ?_
    apply (expression_forward fuel middle rising (Nat.le_trans behind further)).bind
    intro condition middle rising _ inCondition
    refine (Forward.expect rising .symbol).bind fun _ after rising further _ => ?_
    have inCondition := inCondition.apart.upTo further
    apply (statement_forward fuel after rising (Nat.le_refl _)).bind
    intro body middle rising _ inBody
    exact .look rfl (.pure rising (inCondition.append inBody))
termination_by structural fuel

theorem forRest_forward (fuel : Nat) (keyword : Token) (start : Progress)
    (rising : start.cursor.Rising) {low : Nat} (behind : low ≤ start.cursor.offset) :
    Forward (forRest fuel keyword) start fun stmt stop => Apart stmt.named low stop :=
  match fuel with
  | 0 => .exhausted rising
  | fuel + 1 => by
    refine (Forward.expect rising .symbol).bind fun _ middle rising further _ => ?_
    apply (firstClause_forward rising (Nat.le_trans behind further)).bind
    intro first middle rising _ inFirst
    apply (conditionClause_forward rising (Nat.le_refl _)).bind
    intro condition middle rising _ inCondition
    apply (lastClause_forward rising (Nat.le_refl _)).bind
    intro last middle rising _ inLast
    apply (statement_forward fuel middle rising (Nat.le_refl _)).bind
    intro body middle rising _ inBody
    exact .look rfl (.look rfl (.pure rising (forLoop_apart inFirst inCondition inLast inBody)))
termination_by structural fuel

end

theorem program_forward (fuel : Nat) (before : Array (Stmt Place)) (start : Progress)
    (rising : start.cursor.Rising) {low : Nat}
    (apart : Apart (Stmt.namedAll before.toList) low start.cursor.offset) :
    Forward (program fuel before) start fun program stop => Apart (Stmt.namedAll program) low stop := by
  induction fuel generalizing before start with
  | zero => exact .exhausted rising
  | succ fuel ih =>
    refine .look rfl ?_
    split
    · exact .pure rising apart
    · apply (declaration_forward fuel start rising (Nat.le_refl _)).bind
      intro found middle rising further own
      cases found with
      | none => exact ih before middle rising (apart.upTo further)
      | some stmt => exact ih _ middle rising (push_apart apart (own stmt rfl))

end Parser

/-- The variables of a program start at different offsets of the source. -/
theorem Parsed.named_distinct (source : String) :
    ((Stmt.namedAll (ofTokens (Scan.ofSource source).tokens).program).map (·.span.start)).Nodup := by
  have forward := Parser.program_forward (budget (Scan.ofSource source).tokens) #[]
    ⟨.ofTokens (Scan.ofSource source).tokens, #[]⟩ (Scan.start_rising source) (.nil (Nat.zero_le _))
  unfold Parser.Forward at forward
  unfold ofTokens
  split at forward <;> rename_i ran <;> simp only [ran]
  · exact forward.2.2.distinct
  · exact .nil

end Lox
