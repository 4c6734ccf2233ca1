import Mathlib.Data.List.Nodup
import Lox.Proofs.NamePlaces
import Lox.Proofs.SettledVariables

/-! Variables have their places by the source alone, but for those that a function names before a
block or function around it declares them. -/

namespace Lox

section Places

mutual

theorem Expr.occurrences_places (layers : List Layer) : ∀ expr : Expr Place,
    (expr.occurrences layers).map Occurrence.place = expr.named
  | .literal _ _ => rfl
  | .name _ _ => rfl
  | .grouping _ inner | .unary _ _ inner => inner.occurrences_places layers
  | .binary _ _ left right | .logical _ _ left right => by
    simp only [occurrences, named, List.map_append, left.occurrences_places, right.occurrences_places]
  | .assign _ _ value => by
    simp only [occurrences, named, List.map_cons, value.occurrences_places]
  | .call _ callee arguments => by
    simp only [occurrences, named, List.map_append, callee.occurrences_places,
      occurrencesAll_places layers arguments]

theorem Expr.occurrencesAll_places (layers : List Layer) : ∀ exprs : List (Expr Place),
    (Expr.occurrencesAll layers exprs).map Occurrence.place = Expr.namedAll exprs
  | [] => rfl
  | expr :: rest => by
    simp only [occurrencesAll, namedAll, List.map_append, expr.occurrences_places,
      occurrencesAll_places layers rest]

end

mutual

theorem Stmt.occurrences_places (layers : List Layer) : ∀ stmt : Stmt Place,
    (stmt.occurrences layers).map Occurrence.place = stmt.named
  | .expression _ expr | .print _ expr | .declare _ _ (some expr) | .returnValue _ (some expr) =>
    expr.occurrences_places layers
  | .block _ body | .function _ _ _ body => Stmt.occurrencesIn_places _ _ body
  | .ifThen _ condition body | .whileLoop _ condition body => by
    simp only [occurrences, named, List.map_append, condition.occurrences_places,
      body.occurrences_places]
  | .ifElse _ condition body other => by
    simp only [occurrences, named, List.map_append, condition.occurrences_places,
      body.occurrences_places, other.occurrences_places]
  | .declare _ _ none | .returnValue _ none | .breakLoop _ | .continueLoop _ => rfl

theorem Stmt.occurrencesIn_places (bound : List String) (outer : List Layer) :
    ∀ stmts : List (Stmt Place),
      (Stmt.occurrencesIn bound outer stmts).map Occurrence.place = Stmt.namedAll stmts
  | [] => rfl
  | stmt :: rest => by
    simp only [occurrencesIn, namedAll, List.map_append, stmt.occurrences_places,
      Stmt.occurrencesIn_places _ outer rest]

end

theorem Program.occurrences_places (program : Program) :
    program.occurrences.map Occurrence.place = Stmt.namedAll program := by
  induction program with
  | nil => rfl
  | cons stmt rest ih =>
    rw [occurrences, List.flatMap_cons, List.map_append, Stmt.namedAll, stmt.occurrences_places]
    exact congrArg _ ih

end Places

namespace Program

variable {source : String} {program : Program}

theorem ofSource_eq (given : ofSource source = .ok program) :
    program = (Parsed.ofTokens (Scan.ofSource source).tokens).program := by
  unfold ofSource at given
  simp only at given
  split at given <;> cases given
  rfl

/-- A place that a program names a variable at is the place of one variable. -/
theorem occurrences_unique (given : ofSource source = .ok program) {first second : Occurrence}
    (member : first ∈ program.occurrences) (member' : second ∈ program.occurrences)
    (same : first.place = second.place) : first = second := by
  have distinct : (program.occurrences.map fun occurrence => occurrence.place.span.start).Nodup := by
    have starts := Parsed.named_distinct source
    rwa [← ofSource_eq given, ← occurrences_places, List.map_map] at starts
  exact List.inj_on_of_nodup_map distinct member member' (congrArg (·.span.start) same)

/-- What a program finds, in whatever run, agrees with what it says itself. -/
theorem findings_agree (given : ofSource source = .ok program) (settings : Settings) (fuel : Nat) :
    ∀ finding ∈ program.findings settings fuel, finding.Agrees program.occurrences := by
  have made (id : ScopeId) (scope : Scope)
      (found : (Session.start settings).machine.heap[id]? = some scope) :
      scope = ⟨[("clock", some (.native .clock))], none⟩ := by
    obtain ⟨inside, same⟩ := Array.getElem?_eq_some_iff.mp found
    have first : id = 0 := Nat.lt_one_iff.mp inside
    subst first
    exact same.symm
  have planned : (Session.start settings).machine.heap.Planned program.occurrences fun _ => [] := by
    constructor
    · intro id scope found inner
      rw [made id scope found] at inner
      exact absurd rfl inner
    · intro id scope found name value bound
      rw [made id scope found] at bound
      cases Option.some.inj (Prod.mk.inj (List.mem_singleton.mp bound)).2
      trivial
  have fits : (Session.start settings).machine.heap.Fits (fun _ => []) (Session.start settings).globals
      [] := ⟨_, rfl, rfl⟩
  have orderly : Stmt.allOrderly program := ofSource_eq given ▸ Parsed.orderly _
  exact (executeTop_tracks program planned fits orderly (List.Subset.refl _)).1

/-- Whether the program says how far outwards the variable is that it names at a place. -/
def Settles (program : Program) (place : Place) : Prop :=
  ∀ occurrence ∈ program.occurrences, occurrence.place = place → occurrence.links.isSome

/-- How far outwards a variable is, by the program alone. -/
def links (program : Program) (place : Place) : Nat :=
  ((program.occurrences.find? (·.place = place)).bind Occurrence.links).getD 0

theorem links_eq (given : ofSource source = .ok program) {occurrence : Occurrence}
    (member : occurrence ∈ program.occurrences) {near : Nat} (said : occurrence.links = some near) :
    program.links occurrence.place = near := by
  unfold links
  cases found : program.occurrences.find? (·.place = occurrence.place) with
  | none =>
    have missing := List.find?_eq_none.mp found occurrence member
    simp at missing
  | some other =>
    have same : other.place = occurrence.place := by simpa using List.find?_some found
    obtain rfl := occurrences_unique given (List.mem_of_find?_eq_some found) member same
    simp [said]

/-- A variable is always found as far outwards from the scope it is named in as the source alone says,
unless a function names it before a block or function around the function declares it. -/
theorem finds_variables_where_declared (given : ofSource source = .ok program) :
    ∃ links : Place → Nat,
      (∀ occurrence ∈ program.occurrences, ∀ near, occurrence.links = some near →
        links occurrence.place = near) ∧
      ∀ settings fuel, ∀ finding ∈ program.findings settings fuel,
        (∃ occurrence ∈ program.occurrences, occurrence.place = finding.place) ∧
          (program.Settles finding.place → finding.links = links finding.place) := by
  refine ⟨program.links, fun _ member _ => links_eq given member, fun settings fuel finding found => ?_⟩
  obtain ⟨occurrence, member, place, agrees⟩ := findings_agree given settings fuel finding found
  refine ⟨⟨occurrence, member, place⟩, fun settled => ?_⟩
  obtain ⟨near, said⟩ := Option.isSome_iff_exists.mp (settled occurrence member place)
  rw [agrees near said, ← place, links_eq given member said]

/-- A function that is called before and after a block inside declares a variable of the name that
the function uses. -/
theorem finds_variables_where_declared_inner_block :
    let source := "var a = \"global\"; \x7b fun show() \x7b print a; \x7d show(); " ++
      "\x7b var a = \"block\"; show(); \x7d \x7d"
    ∃ program, ofSource source = .ok program ∧
      (⟨⟨1, 39, 40⟩, 2⟩ : Finding) ∈ program.findings ⟨none, Session.steadyClock⟩ 40 ∧
        ∀ settings fuel, ∀ finding ∈ program.findings settings fuel,
          finding.place = ⟨1, 39, 40⟩ → finding.links = 2 := by
  intro source
  have parsed : ((ofSource source).toOption.map occurrences) =
      some [⟨⟨1, 39, 40⟩, some 2⟩, ⟨⟨1, 44, 48⟩, some 0⟩, ⟨⟨1, 71, 75⟩, some 1⟩] := by
    decide +kernel
  have found : ((ofSource source).toOption.map (findings ⟨none, Session.steadyClock⟩ 40)) =
      some [⟨⟨1, 44, 48⟩, 0⟩, ⟨⟨1, 39, 40⟩, 2⟩, ⟨⟨1, 71, 75⟩, 1⟩, ⟨⟨1, 39, 40⟩, 2⟩] := by
    decide +kernel
  cases given : ofSource source with
  | error diagnostics =>
    rw [given] at parsed
    cases parsed
  | ok program =>
    rw [given] at parsed found
    have table : program.occurrences = _ := Option.some.inj parsed
    have findings : program.findings _ 40 = _ := Option.some.inj found
    obtain ⟨links, said, finds⟩ := finds_variables_where_declared given
    refine ⟨program, rfl, findings ▸ by simp, fun settings fuel finding member place => ?_⟩
    have settled : program.Settles finding.place := by
      rw [Settles, table, place]
      decide
    have near : links ⟨1, 39, 40⟩ = 2 := said ⟨⟨1, 39, 40⟩, some 2⟩ (by simp [table]) 2 rfl
    rw [(finds settings fuel finding member).2 settled, place, near]

end Program
end Lox
