import Lox.Proofs.Encapsulation
import Lox.Proofs.ErrorRuns

/-! Control flow that is well placed in the text of a program never escapes when it runs. The
functions that a session can get at have to come from such programs too. -/

namespace Lox

/-- The function was declared in a source whose control flow is well placed. -/
def Closure.FromWellPlaced (closure : Closure) : Prop :=
  ∃ source program, Program.ofSource source = .ok program ∧ program.wellPlaced ∧
    program.Declares closure.name closure.params closure.body

/-- Every function that can be reached from the global variables comes from such a source. -/
def Session.StoresWellPlaced (session : Session) : Prop :=
  ∀ id scope name closure, session.machine.heap.Reaches session.globals id →
    session.machine.heap[id]? = some scope → (name, some (.function closure)) ∈ scope.bindings →
      closure.FromWellPlaced

/-- The faults of control flow that has nothing around to leave. -/
def RuntimeFault.Escapes : RuntimeFault → Prop
  | .outsideLoop _ | .outsideFunction => True
  | _ => False

namespace Callees

variable {callees : Callees} {parts : List Part} {depth : Nat} {error : RuntimeError}

/-- An error escapes only from a function with a jump outside of its loops. -/
theorem Explains.not_escapes (explained : callees.Explains parts depth error)
    (placed : ∀ name params body, callees.function name params body →
      Stmt.allWellPlaced false true body) : ¬ error.fault.Escapes := by
  induction explained with
  | fault inside plain told =>
    intro escapes
    simp only [RuntimeError.ofFault] at escapes
    unfold RuntimeFault.Escapes at escapes
    split at escapes <;> trivial
  | refused inside limited full => exact id
  | escaped inside declared entered leaves =>
    intro _
    have allowed := Stmt.exitsAll_allowed (placed _ _ _ declared) _ leaves
    cases allowed
  | within inside declared entered inner ih => exact ih

end Callees

namespace Session

variable {session : Session}

/-- The functions of well-placed sources, in the scopes that can be reached and those to come. -/
def wellPlacedCallees (session : Session) : Callees where
  function name params body := ∃ source program, Program.ofSource source = .ok program ∧
    program.wellPlaced ∧ program.Declares name params body
  scope id := session.machine.heap.Reaches session.globals id ∨ session.machine.heap.size ≤ id
  limit := session.settings.maxDepth
  closed := by
    rintro name params body ⟨source, program, accepted, placed, declared⟩ place inner others code
      member
    exact ⟨source, program, accepted, placed, .inside declared member⟩

theorem StoresWellPlaced.stores (stored : session.StoresWellPlaced) :
    session.wellPlacedCallees.Stores session.machine.heap := by
  have reached {id : ScopeId} {scope : Scope} (inside : session.wellPlacedCallees.scope id)
      (made : session.machine.heap[id]? = some scope) :
      session.machine.heap.Reaches session.globals id := by
    rcases inside with reached | absent
    · exact reached
    · rw [Array.getElem?_eq_none absent] at made
      cases made
  constructor
  · exact fun id absent => .inr absent
  · exact fun id scope inside made parent outer => .inl (.parent (reached inside made) made outer)
  · intro id scope inside made name value bound
    cases value with
    | function closure =>
      have reaches := reached inside made
      exact ⟨stored id scope name closure reaches made bound, .inl (.closure reaches made bound)⟩
    | nil | bool | number | string | native => trivial

/-- What can be reached later on lies in the scopes that functions may be closed over. -/
theorem storesWellPlaced_of_stores {after : Session} (globals : after.globals = session.globals)
    (stores : session.wellPlacedCallees.Stores after.machine.heap) : after.StoresWellPlaced := by
  have inside {id : ScopeId} (reaches : after.machine.heap.Reaches after.globals id) :
      session.wellPlacedCallees.scope id := by
    induction reaches with
    | start =>
      rw [globals]
      exact .inl .start
    | parent _ made outer ih => exact stores.outward _ _ ih made _ outer
    | closure _ made bound ih => exact (stores.held _ _ ih made _ _ bound).2
  intro id scope name closure reaches made bound
  exact (stores.held id scope (inside reaches) made name _ bound).1

/-- A source whose control flow is well placed runs without any escaping, in every session whose
functions come from such sources; and so they do afterwards. -/
theorem well_placed_never_escapes {source : String} {program : Program} {fuel : Nat}
    {outcome : Outcome (List Diagnostic)} (accepted : Program.ofSource source = .ok program)
    (placed : program.wellPlaced) (stored : session.StoresWellPlaced)
    (ran : session.run fuel source = .ok outcome) :
    (∀ diagnostic ∈ outcome.result,
      diagnostic.code ≠ .outsideLoop ∧ diagnostic.code ≠ .outsideFunction) ∧
      outcome.session.StoresWellPlaced := by
  obtain ⟨⟨result, printed, after⟩, interpreted, rfl⟩ := (run_accepted accepted).mp ran
  have declared : session.wellPlacedCallees.Declared (Stmt.partsAll program) :=
    fun member => ⟨source, program, accepted, placed, .here member⟩
  have within : session.wellPlacedCallees.scope session.globals := .inl .start
  obtain ⟨stores, origin⟩ := interpret_concludes rfl within declared stored.stores interpreted
  obtain ⟨machine, -, -, rfl⟩ := perform_eq_ok.mp interpreted
  have stored' : StoresWellPlaced ⟨session.settings, machine, session.globals⟩ :=
    storesWellPlaced_of_stores (Eq.refl session.globals) stores
  refine ⟨?_, stored'⟩
  cases result with
  | ok value => exact nofun
  | error error =>
    have stays : ¬ error.fault.Escapes := by
      rcases origin error rfl with explained | ⟨exit, leaves, rfl⟩
      · apply explained.not_escapes
        rintro name params body ⟨source, program, -, placed, declared⟩
        exact declared.wellPlaced placed
      · have allowed := Stmt.exitsAll_allowed placed _ leaves
        cases exit <;> cases allowed
    intro diagnostic member
    obtain rfl := List.mem_singleton.mp member
    simp only [RuntimeError.diagnostic]
    cases fault : error.fault <;> simp_all [RuntimeFault.Escapes, RuntimeFault.code]

theorem start_storesWellPlaced (settings : Settings) : (start settings).StoresWellPlaced :=
  storesWellPlaced_of_stores (Eq.refl (start settings).globals)
    (start_stores settings fun _ later => .inr later)

end Session

theorem Program.exists_wellPlaced {source : String}
    (checked : (Program.ofSource source).toOption.any Program.wellPlaced = true) :
    ∃ program, Program.ofSource source = .ok program ∧ program.wellPlaced = true := by
  cases parsed : Program.ofSource source with
  | ok program =>
    rw [parsed] at checked
    exact ⟨program, rfl, checked⟩
  | error diagnostics =>
    rw [parsed] at checked
    cases checked

/-- A function that goes on in its own loop is called in another loop. -/
theorem Session.well_placed_never_escapes_inner_loop :
    let session := Session.start ⟨none, Session.steadyClock⟩
    let first := "fun f(n) \x7b while (n) \x7b n = nil; continue; \x7d return n; \x7d"
    let second := "for (var i = true; true; i = f(i)) \x7b if (!i) break; print f(i); \x7d"
    ∃ program program' outcome last, Program.ofSource first = .ok program ∧ program.wellPlaced ∧
      Program.ofSource second = .ok program' ∧ program'.wellPlaced ∧ session.StoresWellPlaced ∧
        session.run 30 first = .ok outcome ∧ outcome.session.StoresWellPlaced ∧
          outcome.session.run 30 second = .ok last ∧ last.printed = "nil\n" ∧
            (∀ diagnostic ∈ last.result,
              diagnostic.code ≠ .outsideLoop ∧ diagnostic.code ≠ .outsideFunction) := by
  intro session first second
  obtain ⟨program, parsed, placed⟩ := Program.exists_wellPlaced
    (show (Program.ofSource first).toOption.any Program.wellPlaced = true by decide +kernel)
  obtain ⟨program', parsed', placed'⟩ := Program.exists_wellPlaced
    (show (Program.ofSource second).toOption.any Program.wellPlaced = true by decide +kernel)
  have shown : ((session.run 30 first).toOption.bind fun outcome =>
      (outcome.session.run 30 second).toOption.map Outcome.printed) = some "nil\n" := by
    decide +kernel
  have fresh : session.StoresWellPlaced := start_storesWellPlaced _
  cases ran : session.run 30 first with
  | error stuck => simp [ran, Except.toOption] at shown
  | ok outcome =>
    obtain ⟨-, stored⟩ := well_placed_never_escapes parsed placed fresh ran
    cases ran' : outcome.session.run 30 second with
    | error stuck => simp [ran, ran', Except.toOption] at shown
    | ok last =>
      obtain ⟨stays, -⟩ := well_placed_never_escapes parsed' placed' stored ran'
      have printed : last.printed = "nil\n" := by simpa [ran, ran', Except.toOption] using shown
      exact ⟨program, program', outcome, last, parsed, placed, parsed', placed', fresh, rfl, stored,
        ran', printed, stays⟩

end Lox
