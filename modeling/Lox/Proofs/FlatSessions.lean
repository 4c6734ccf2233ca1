import Lox.Proofs.Encapsulation
import Lox.Proofs.FlatEvaluation
import Lox.Proofs.FlatStatements
import Lox.Proofs.ParserGrammar
import Lox.Proofs.SourceLayout
import Lox.Proofs.SourceSeam
import Lox.Session

/-! Sessions over flat memory. Each source is parsed into an arena of its own, and the names of all of
them come from one interner. A session never reaches for what is not there. -/

namespace Lox

namespace Session

/-- What a session has to say to a source. -/
structure Answer where
  diagnostics : List Diagnostic
  printed : String
  deriving DecidableEq

/-- The answers to sources one after another, unless one of them runs on. -/
def answers (fuel : Nat) : List String → Session → Except Stuck (List Answer × Session)
  | [], session => return ([], session)
  | source :: rest, session => do
    let outcome ← session.run fuel source
    let (others, last) ← answers fuel rest outcome.session
    return (⟨outcome.result, outcome.printed⟩ :: others, last)

end Session

namespace Flat

/-- A source once it has been parsed: what is wrong with it, and where its program lies. -/
structure Loaded where
  diagnostics : List Diagnostic
  arena : Arena
  program : Range

def Input.budget (input : Input) : Nat := 16 * (input.items.size + 2)

/-- A parser of programs always comes to an end, so that it stops early only for want of memory. -/
def parse (input : Input) : Checked (Range × State) :=
  match Parser.program input input.budget #[] ⟨0, .empty, #[]⟩ with
  | .ok program state => .ok (program, state)
  | .error (.panicked panic) _ => .error panic
  | .error _ state => .ok (⟨0, 0⟩, state)

/-- Scans and parses a source. -/
def load (source : String) : Naming Loaded := fun interner => do
  let (lexed, interner) ← scan source.toList interner
  let (program, state) ← parse ⟨lexed.items, interner⟩
  return (⟨lexed.errors.toList.map LexError.diagnostic ++
    state.errors.toList.map ParseError.diagnostic, state.arena, program⟩, interner)

/-- Why a session has nothing to say to a source. -/
inductive Stuck where
  | exhausted
  | panicked (panic : Panic)

structure Session where
  settings : Settings
  interner : Interner
  machine : Machine
  globals : ScopeId

namespace Session

/-- Binds the native functions under their names. -/
def defineNatives (heap : Heap) (globals : ScopeId) : Naming Heap :=
  Native.all.foldlM (fun heap native => do
    let name ← intern native.name
    return heap.bind name (some (.native native)) globals) heap

def start (settings : Settings) : Checked Session := do
  let (heap, interner) ← defineNatives #[⟨[], none⟩] 0 Interner.fresh
  return ⟨settings, interner, ⟨heap, #[], 0, 0, 0⟩, 0⟩

def interpret (fuel : Nat) (arena : Arena) (program : Range) :
    Session → Except Stuck (Session.Answer × Session)
  | ⟨settings, interner, machine, globals⟩ =>
    match readList arena.stmtLists program with
    | .error panic => .error (.panicked panic)
    | .ok ids =>
      match executeTop settings interner arena globals fuel ids { machine with printed := #[] } with
      | .ok () machine =>
        .ok (⟨[], Session.printedText machine.printed⟩, ⟨settings, interner, machine, globals⟩)
      | .error (.failed error) machine =>
        .ok (⟨[error.diagnostic], Session.printedText machine.printed⟩,
          ⟨settings, interner, machine, globals⟩)
      | .error .exhausted _ => .error .exhausted
      | .error (.panicked panic) _ => .error (.panicked panic)

/-- Runs a source. The names in it are kept also if it is no program. -/
def run (fuel : Nat) (source : String) (session : Session) :
    Except Stuck (Session.Answer × Session) :=
  match load source session.interner with
  | .error panic => .error (.panicked panic)
  | .ok (loaded, interner) =>
    match loaded.diagnostics with
    | [] => interpret fuel loaded.arena loaded.program { session with interner }
    | diagnostics => .ok (⟨diagnostics, ""⟩, { session with interner })

def answers (fuel : Nat) : List String → Session → Except Stuck (List Session.Answer × Session)
  | [], session => return ([], session)
  | source :: rest, session => do
    let (answer, session) ← session.run fuel source
    let (others, last) ← answers fuel rest session
    return (answer :: others, last)

/-- A whole session, from its start. -/
def play (settings : Settings) (fuel : Nat) (sources : List String) :
    Except Stuck (List Session.Answer × Session) :=
  match start settings with
  | .error panic => .error (.panicked panic)
  | .ok session => session.answers fuel sources

end Session
/-- There are no more pieces than bytes. -/
theorem tiles_length {passed text : List Char} {pieces : List Piece}
    (tiles : Piece.Tiles passed text pieces) : pieces.length ≤ Piece.width text := by
  induction tiles with
  | nil => exact Nat.zero_le _
  | cons filled _ _ _ _ ih =>
    have positive := Piece.width_pos filled
    rw [List.length_cons, Piece.width_append]
    omega

theorem tokens_length (source : String) :
    (Scan.ofSource source).tokens.length ≤ source.utf8ByteSize + 1 := by
  obtain ⟨_, _, tokens⟩ := Scan.tokens_eq source
  have fewer : (Scan.own source).length ≤ (Piece.ofSource source.toList).length :=
    List.length_filterMap_le _ _
  have pieces := tiles_length (Piece.ofSource_tiles source.toList)
  rw [← Piece.size_ofList, String.ofList_toList] at pieces
  rw [tokens, List.length_append, List.length_singleton]
  omega

/-- Where parsing begins on both sides. -/
theorem start_beside {input : Input} {tokens : List Token}
    (reads : List.Forall₂ (Item.Reads input.interner) input.items.toList tokens)
    (closed : Closed (tokens.map Token.kind)) :
    Beside input (Parsed.start tokens) ⟨0, .empty, #[]⟩ := by
  have filled : tokens ≠ [] := by simpa using closed.ne_nil
  obtain ⟨token, rest, rfl⟩ := List.exists_cons_of_ne_nil filled
  refine ⟨reads, ?_, closed, rfl⟩
  obtain ⟨item, others, first, -, items⟩ := List.forall₂_cons_right_iff.mp reads
  have found : input.items.toList[0]? = some item := by rw [items]; rfl
  rw [Array.getElem?_toList] at found
  exact ⟨item, congrArg (demand .token) found, first⟩

theorem parse_ok {input : Input} {tokens : List Token}
    (reads : List.Forall₂ (Item.Reads input.interner) input.items.toList tokens)
    (closed : Closed (tokens.map Token.kind)) (small : tokens.length ≤ Span.maxOffset + 1) :
    ∃ program state, parse input = .ok (program, state) ∧
      state.errors.toList = (Parsed.ofTokens tokens).errors ∧
        ProgramAt input.interner state.arena program (Parsed.ofTokens tokens).program := by
  have size : input.items.size = tokens.length := reads.length_eq
  have here : Here input ⟨0, .empty, #[]⟩ 0 0 0 (Parsed.start tokens) ⟨0, .empty, #[]⟩ :=
    ⟨start_beside reads closed, .refl _, .refl _, size ▸ small⟩
  obtain ⟨trees, stop, ran, same⟩ := Parsed.ofTokens_eq closed
  have agrees : Agrees input _ _ (Lox.Parser.program input.budget #[])
      (Parser.program input input.budget #[]) _ _ := program_agrees here .nil
  have budget : input.budget = Parsed.budget tokens := by rw [Input.budget, size, Parsed.budget]
  rw [budget] at agrees
  unfold Agrees at agrees
  rw [ran] at agrees
  rw [same, parse, budget]
  split at agrees
  next trees' _ program state ended ran' =>
    obtain ⟨rfl, rfl⟩ := EStateM.Result.ok.inj ended
    rw [ran']
    exact ⟨program, state, rfl, congrArg Array.toList agrees.1.errors, agrees.2⟩
  next ended _ => cases ended
  next ended _ => cases ended
  next => exact agrees.elim

/-- A source that has been loaded is what the tree parser makes of it. -/
structure Loaded.Reads (interner : Interner) (loaded : Loaded) (source : String) : Prop where
  diagnostics : loaded.diagnostics = (Scan.ofSource source).errors.map LexError.diagnostic ++
    (Parsed.ofTokens (Scan.ofSource source).tokens).errors.map ParseError.diagnostic
  program : ProgramAt interner loaded.arena loaded.program
    (Parsed.ofTokens (Scan.ofSource source).tokens).program

theorem countable_of_short {source : String} (short : source.utf8ByteSize < Span.maxOffset) :
    Countable source.toList := by
  have lines := Piece.newlines_le_width source.toList
  have size := Piece.size_ofList source.toList
  rw [String.ofList_toList] at size
  exact ⟨by omega, by omega⟩

/-- The tokens of a source that is not too long can be parsed. -/
theorem load_scanned {source : String} (small : Countable source.toList) {interner after : Interner}
    {lexed : Lexed} (ran : scan source.toList interner = .ok (lexed, after))
    (items : List.Forall₂ (Item.Reads after) lexed.items.toList (Scan.ofSource source).tokens)
    (errors : lexed.errors.toList = (Scan.ofSource source).errors) :
    ∃ loaded, load source interner = .ok (loaded, after) ∧ loaded.Reads after source := by
  have size := Piece.size_ofList source.toList
  rw [String.ofList_toList] at size
  have few : (Scan.ofSource source).tokens.length ≤ Span.maxOffset + 1 :=
    Nat.le_trans (tokens_length source) (Nat.succ_le_succ (size ▸ small.offsets))
  obtain ⟨program, state, parsed, errors', stands⟩ :=
    @parse_ok ⟨lexed.items, after⟩ _ items (Scan.tokens_closed source) few
  unfold load
  simp only [ran, parsed, bind, Except.bind]
  refine ⟨_, rfl, ?_, stands⟩
  simp only [errors, errors']

theorem load_issues {source : String} (small : Countable source.toList) (interner : Interner) :
    Issues (load source) interner fun loaded after => loaded.Reads after source := by
  rcases scan_issues small interner with crowded | ⟨⟨lexed, after⟩, ran, grows, items, errors⟩
  · refine .inl ?_
    rw [load, crowded]
    rfl
  · obtain ⟨loaded, ran, reads⟩ := load_scanned small ran items errors
    exact .inr ⟨(loaded, after), ran, grows, reads⟩

/-- The arenas that sources may have been parsed into. -/
def ParsedFrom (sources : List String) (arena : Arena) : Prop :=
  ∃ source ∈ sources, ∃ before loaded after,
    load source before = .ok (loaded, after) ∧ loaded.arena = arena

/-- Both have something to say, and what belongs together, or both run on. The first may also find
something used up. -/
def Alike {α β : Type} (post : α → β → Prop) (flat : Except Stuck α) (tree : Except Lox.Stuck β) :
    Prop :=
  flat = .error (.panicked .crowded) ∨ flat = .error .exhausted ∧ tree = .error .exhausted ∨
    ∃ result value, flat = .ok result ∧ tree = .ok value ∧ post result value

/-- Sessions in the middle of some sources, which have come to the same. -/
structure Session.Reads (sources : List String) (session : Session) (other : Lox.Session) : Prop where
  settings : session.settings = other.settings
  limited : ∀ limit, other.settings.maxDepth = some limit → limit ≤ maxCalls
  globals : session.globals = other.globals
  machine : session.machine.Reads ⟨session.interner, ParsedFrom sources⟩ other.machine
  founded : other.machine.heap.Founded other.globals

variable {sources : List String}

theorem start_founded (settings : Settings) :
    (Lox.Session.start settings).machine.heap.Founded (Lox.Session.start settings).globals := by
  have made : (Lox.Session.start settings).machine.heap[0]? =
      some ⟨[("clock", some (.native .clock))], none⟩ := rfl
  have only {id : ScopeId} (reaches : (Lox.Session.start settings).machine.heap.Reaches 0 id) :
      id = 0 := by
    induction reaches with
    | start => rfl
    | parent _ found outer ih =>
      subst ih
      obtain rfl := Option.some.inj (made.symm.trans found)
      cases outer
    | closure _ found bound ih =>
      subst ih
      obtain rfl := Option.some.inj (made.symm.trans found)
      simp at bound
  intro id reaches
  obtain rfl := only reaches
  refine ⟨Nat.one_pos, fun scope parent found outer => ?_⟩
  obtain rfl := Option.some.inj (made.symm.trans found)
  cases outer

theorem start_delivers (sources : List String) {settings : Settings}
    (limited : ∀ limit, settings.maxDepth = some limit → limit ≤ maxCalls) :
    Delivers (Session.start settings) fun session =>
      session.Reads sources (Lox.Session.start settings) := by
  have defined {result : Checked (Name × Interner)} (named : intern "clock" Interner.fresh = result) :
      Session.start settings = result.map fun named => ⟨settings, named.2,
        ⟨Heap.bind #[⟨[], none⟩] named.1 (some (.native .clock)) 0, #[], 0, 0, 0⟩, 0⟩ := by
    have clock : intern Native.clock.name Interner.fresh = result := named
    simp only [Session.start, Session.defineNatives, Native.all, List.foldlM, bind, StateT.bind, clock]
    cases result <;> rfl
  rcases intern_issues "clock" Interner.fresh with crowded | ⟨⟨name, interner⟩, named, -, gave⟩
  · exact .inl (defined crowded)
  · refine .inr ⟨_, defined named, rfl, limited, rfl, ?_, start_founded settings⟩
    have empty : Heap.Reads ⟨interner, ParsedFrom sources⟩ #[] #[] := ⟨rfl, fun _ => .none⟩
    have globals : Scope.Reads ⟨interner, ParsedFrom sources⟩ ⟨[], none⟩ ⟨[], none⟩ := ⟨.nil, rfl⟩
    exact ⟨(empty.push globals).bind gave (.some .native) 0, rfl, rfl, rfl, rfl⟩

/-- What a run of a program has to say by its result. -/
def diagnosed : Except RuntimeError Unit → List Diagnostic
  | .ok () => []
  | .error error => [error.diagnostic]

/-- Running a program comes to the same. -/
theorem interpret_alike {session : Session} {other : Lox.Session}
    (reads : session.Reads sources other) {arena : Arena} {range : Range} {program : Program} (parsed : ParsedFrom sources arena)
    (stands : ProgramAt session.interner arena range program) (fuel : Nat) :
    Alike (fun result outcome => result.1 = ⟨diagnosed outcome.result, outcome.printed⟩ ∧
        result.2.Reads sources outcome.session)
      (session.interpret fuel arena range) (other.interpret fuel program) := by
  obtain ⟨settings, interner, machine, globals⟩ := session
  obtain ⟨settings', machine', globals'⟩ := other
  obtain ⟨rfl, limited, rfl, reads, founded⟩ := reads
  obtain ⟨ids, list, entries⟩ := stands
  have silent : Machine.Reads ⟨interner, ParsedFrom sources⟩ { machine with printed := #[] }
      { machine' with printed := #[] } :=
    ⟨reads.heap, rfl, reads.depth, reads.functions, reads.readings⟩
  have matched : Matches ⟨interner, ParsedFrom sources⟩ (fun _ _ => True)
      (Interpreter.executeTop settings globals fuel program)
      (executeTop settings interner arena globals fuel ids) { machine' with printed := #[] }
      { machine with printed := #[] } := executeTop_matches limited parsed entries silent
  -- A session that is founded finds all its scopes, so the run does not end for want of one.
  have last := @Interpreter.executeTop_founded settings fuel { machine' with printed := #[] } globals
    founded program
  simp only [Session.interpret, list, Lox.Session.interpret, Lox.Session.perform]
  unfold Matches at matched
  rcases matched with ⟨after, crowded⟩ | matched
  · refine .inl ?_
    rw [crowded]
  split at matched
  next ran ran' =>
    rw [ran] at last
    refine .inr (.inr ⟨_, _, by rw [ran'], by rw [ran], ?_, rfl, limited, rfl, matched.1, last⟩)
    rw [matched.1.printed]
    rfl
  next ran ran' =>
    obtain ⟨rfl, reads, -⟩ := matched
    rw [ran] at last
    refine .inr (.inr ⟨_, _, by rw [ran'], by rw [ran], ?_, rfl, limited, rfl, reads, last.2⟩)
    rw [reads.printed]
    rfl
  next ran ran' => exact .inr (.inl ⟨by rw [ran'], by rw [ran]⟩)
  next ran ran' =>
    rw [ran] at last
    exact absurd rfl last.1
  next => exact matched.elim

theorem run_alike {session : Session} {other : Lox.Session} (reads : session.Reads sources other)
    {source : String} (member : source ∈ sources) (short : source.utf8ByteSize < Span.maxOffset) (fuel : Nat) :
    Alike (fun result outcome => result.1 = ⟨outcome.result, outcome.printed⟩ ∧
        result.2.Reads sources outcome.session)
      (session.run fuel source) (other.run fuel source) := by
  rcases load_issues (countable_of_short short) session.interner with crowded | ⟨⟨loaded, interner⟩, ran, grows, same⟩
  · refine .inl ?_
    rw [Session.run, crowded]
  have reads : Session.Reads sources { session with interner } other :=
    ⟨reads.settings, reads.limited, reads.globals, reads.machine.mono grows, reads.founded⟩
  rw [Session.run, ran, Lox.Session.run, Program.ofSource]
  simp only [← same.diagnostics]
  cases loaded.diagnostics with
  | cons first rest => exact .inr (.inr ⟨_, _, rfl, rfl, rfl, reads⟩)
  | nil =>
    have parsed : ParsedFrom sources loaded.arena :=
      ⟨source, member, session.interner, loaded, interner, ran, rfl⟩
    rcases interpret_alike reads parsed same.program fuel with
      crowded | ⟨endless, endless'⟩ | ⟨answer, ⟨result, printed, after⟩, ended, ended', told, reads⟩
    · exact .inl crowded
    · refine .inr (.inl ⟨endless, ?_⟩)
      simp only [endless']
    · simp only [ended']
      cases result with
      | ok => exact .inr (.inr ⟨_, _, ended, rfl, told, reads⟩)
      | error error => exact .inr (.inr ⟨_, _, ended, rfl, told, reads⟩)

theorem answers_alike {session : Session} {other : Lox.Session} (reads : session.Reads sources other)
    {rest : List String} (members : ∀ source ∈ rest, source ∈ sources)
    (short : ∀ source ∈ rest, source.utf8ByteSize < Span.maxOffset) (fuel : Nat) :
    Alike (fun result value => result.1 = value.1 ∧ result.2.Reads sources value.2)
      (session.answers fuel rest) (other.answers fuel rest) := by
  induction rest generalizing session other with
  | nil => exact .inr (.inr ⟨_, _, rfl, rfl, rfl, reads⟩)
  | cons source rest ih =>
    rw [Session.answers, Lox.Session.answers]
    rcases run_alike reads (members source List.mem_cons_self)
        (short source List.mem_cons_self) fuel with
      crowded | ⟨endless, endless'⟩ | ⟨⟨answer, after⟩, outcome, ended, ended', rfl, reads⟩
    · refine .inl ?_
      rw [crowded]
      rfl
    · refine .inr (.inl ⟨?_, ?_⟩)
      · rw [endless]
        rfl
      · rw [endless']
        rfl
    · have later := ih reads (fun source member => members source (List.mem_cons_of_mem _ member))
        fun source member => short source (List.mem_cons_of_mem _ member)
      simp only [ended, ended', bind, Except.bind]
      rcases later with crowded | ⟨endless, endless'⟩ | ⟨result, value, ended, ended', same, reads⟩
      · exact .inl (by rw [crowded])
      · exact .inr (.inl ⟨by rw [endless], by rw [endless']⟩)
      · rw [ended, ended']
        exact .inr (.inr ⟨_, _, rfl, rfl, congrArg _ same, reads⟩)

/-- The function was declared where its own arena says, which one of the sources was parsed into; and
its parameters and its body are there to be read. -/
structure Closure.DeclaredIn (sources : List String) (closure : Closure) : Prop where
  parsed : ParsedFrom sources closure.arena
  declared : ∃ index name place,
    readNode closure.arena.stmts index = .ok ⟨.function name closure.params closure.body, place⟩
  params : ∃ names, readList closure.arena.params closure.params = .ok names
  body : ∃ ids, readList closure.arena.stmtLists closure.body = .ok ids

/-- Every function that a variable holds was declared in one of the sources. -/
def Session.StoresDeclared (sources : List String) (session : Session) : Prop :=
  ∀ (id : ScopeId) scope name closure, session.machine.heap[id]? = some scope →
    (name, some (.function closure)) ∈ scope.bindings → closure.DeclaredIn sources

theorem Session.Reads.storesDeclared {session : Session} {other : Lox.Session}
    (reads : session.Reads sources other) : session.StoresDeclared sources := by
  intro id scope name closure made bound
  have same := reads.machine.heap.scopes id
  rw [made] at same
  generalize other.machine.heap[id]? = there at same
  cases same with
  | some same =>
    obtain ⟨⟨text, other⟩, -, held⟩ := EntryReads.of_mem same.bindings bound
    simp only at held
    cases held with
    | some held =>
      cases held with
      | function reads =>
        obtain ⟨names, labels, -⟩ := reads.params
        obtain ⟨ids, list, -⟩ := reads.body
        exact ⟨reads.parsed, reads.declared, ⟨names, labels⟩, ⟨ids, list⟩⟩

/-- Whatever its sources are, a session does not reach for anything that is not there. It answers as the
session over trees does or runs on as that does, unless names or memory are used up; and what its
variables hold of functions was declared in its sources. -/
theorem Session.never_out_of_reach {settings : Settings}
    (limited : ∀ limit, settings.maxDepth = some limit → limit ≤ maxCalls) {sources : List String}
    (short : ∀ source ∈ sources, source.utf8ByteSize < Span.maxOffset) (fuel : Nat) :
    Alike (fun result value => result.1 = value.1 ∧ result.2.StoresDeclared sources)
      (Session.play settings fuel sources) ((Lox.Session.start settings).answers fuel sources) := by
  rcases start_delivers sources limited with crowded | ⟨session, started, reads⟩
  · refine .inl ?_
    rw [Session.play, crowded]
  rw [Session.play, started]
  rcases answers_alike reads (fun _ member => member) short fuel with
    crowded | endless | ⟨result, value, ended, ended', same, reads⟩
  · exact .inl crowded
  · exact .inr (.inl endless)
  · exact .inr (.inr ⟨result, value, ended, ended', same, reads.storesDeclared⟩)

/-- Functions of the first source are called by the third; the second, which is in error, adds names. -/
theorem Session.never_out_of_reach_later_call :
    let settings : Settings := ⟨some 10, Session.steadyClock⟩
    let sources := ["fun twice(f) \x7b fun g(x) \x7b return f(f(x)); \x7d return g; \x7d" ++
      "fun dot(x) \x7b return x + \".\"; \x7d", "var t = ; print s", "print twice(dot)(\"a\");"]
    (∀ limit, settings.maxDepth = some limit → limit ≤ maxCalls) ∧
      (∀ source ∈ sources, source.utf8ByteSize < Span.maxOffset) ∧
        ∃ answers last, Session.play settings 40 sources = .ok (answers, last) ∧
          answers.map Session.Answer.printed = ["", "", "a..\n"] ∧ last.StoresDeclared sources := by
  intro settings sources
  have limited : ∀ limit, settings.maxDepth = some limit → limit ≤ maxCalls := by
    intro limit same
    cases same
    decide +kernel
  have short : ∀ source ∈ sources, source.utf8ByteSize < Span.maxOffset := by decide +kernel
  have printed : ((Session.play settings 40 sources).toOption.map fun played =>
      played.1.map Session.Answer.printed) = some ["", "", "a..\n"] := by decide +kernel
  refine ⟨limited, short, ?_⟩
  rcases never_out_of_reach limited short 40 with crowded | endless | ⟨played, _, ended, _, _, stores⟩
  · rw [crowded] at printed
    cases printed
  · rw [endless.1] at printed
    cases printed
  · rw [ended] at printed
    exact ⟨played.1, played.2, ended, Option.some.inj printed, stores⟩

end Flat
end Lox
