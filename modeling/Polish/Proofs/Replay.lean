import Polish.Proofs.Rejection
import Polish.Session

/-
  Replay — a session against a program of its surviving lines

  A session goes on after a line that does not compile and after one that fails
  while it runs. Its compiler then knows names that its machine has never bound,
  so the two halves of its state drift apart. What stays true is said through
  the lines that were carried out: they are a program of their own.

  What is proved:
    1. `effect_respond` — all that an input can do to a session.
    2. `Replayed.step`, `replayed_follow` — after any inputs, evaluating the
       surviving lines leaves the table and the log of the session's machine.
    3. `session_replays_survivors` — these lines compile, and running their code
       on a fresh machine gives that table and that log again.
-/

namespace Polish

namespace Session

/-- What an input comes to: nothing, a new session, or a statement that is
rejected by the compiler, stopped while it runs, or carried out. -/
inductive Outcome where
  | idle
  | restarted
  | rejected
  | stopped
  | carriedOut (line : Text)
  deriving DecidableEq, Repr

def statement (s : Session) (line : Text) : Statement :=
  { Statement.ofText line with line := s.lines.size + 1 }

def outcome (s : Session) (input : Text) : Outcome :=
  let line := Text.trim input
  if isIdle line then .idle
  else if isRequest line then
    if Request.ofLine? line = some .restart then .restarted else .idle
  else match s.compiler.extend (s.statement line) with
    | .error _ => .rejected
    | .ok (code, _) => if (s.machine.run code).2 = none then .carriedOut line else .stopped

/-- The surviving lines after an outcome, from those before it. -/
def keep (kept : List Text) : Outcome → List Text
  | .idle | .rejected | .stopped => kept
  | .restarted => []
  | .carriedOut line => kept ++ [line]

def follow (s : Session) : List Text → Session
  | [] => s
  | input :: rest => (s.respond input).2.follow rest

/-- The lines carried out since the last restart, after those already kept. -/
def survivors (s : Session) (kept : List Text) : List Text → List Text
  | [] => kept
  | input :: rest => survivors (s.respond input).2 (keep kept (s.outcome input)) rest

/-! ## What an input can do -/

/-- All that a line of input can do to a session. -/
inductive Effect (s : Session) (line : Text) : Outcome → Session → Prop where
  | idle : Effect s line .idle s
  | told (texts : List Text) : Effect s line .idle (s.tell texts).2
  | restarted : Effect s line .restarted { machine := { sink := s.machine.sink } }
  | rejected {d : Diagnostic}
      (compiled : s.compiler.extend (s.statement line) = .error d) :
      Effect s line .rejected s
  | stopped {code : List Instruction} {compiler : Compiler} {m : Machine} {stop : Stop}
      (compiled : s.compiler.extend (s.statement line) = .ok (code, compiler))
      (ran : s.machine.run code = (m, some stop)) :
      Effect s line .stopped
        { compiler
          machine := { m with stack := [], sink := m.sink.emptied }
          lines := s.lines.push line }
  | carriedOut {code : List Instruction} {compiler : Compiler} {m : Machine}
      (compiled : s.compiler.extend (s.statement line) = .ok (code, compiler))
      (ran : s.machine.run code = (m, none)) :
      Effect s line (.carriedOut line)
        { compiler
          machine := { m with sink := m.sink.emptied }
          lines := s.lines.push line }

/-- Requests other than a restart leave the session as it is, but for what they write. -/
theorem effect_serve (s : Session) (line : Text) :
    Effect s line (if Request.ofLine? line = some .restart then .restarted else .idle)
      (s.serve line).2 := by
  unfold serve
  cases Request.ofLine? line with
  | none => exact .idle
  | some request =>
    cases request with
    | quit => exact .idle
    | showListing => exact .told _
    | showOutline =>
      cases Statement.outlineAll (Statement.ofLines s.lines.toList) with
      | ok t => exact .told [t]
      | error d => exact .idle
    | showTable => exact .told _
    | restart => exact .restarted
    | help => exact .told _

theorem effect_respond (s : Session) (input : Text) :
    Effect s (Text.trim input) (s.outcome input) (s.respond input).2 := by
  unfold outcome respond
  dsimp only
  split
  · exact .idle
  · split
    · exact effect_serve s _
    · unfold enter
      cases hcompile : s.compiler.extend (s.statement (Text.trim input)) with
      | error d =>
        rw [statement] at hcompile
        rw [hcompile]
        exact .rejected hcompile
      | ok r =>
        obtain ⟨code, compiler⟩ := r
        have hcompile' := hcompile
        rw [statement] at hcompile
        rw [hcompile]
        cases hrun : s.machine.run code with
        | mk m stop =>
          cases stop with
          | none => simpa [hrun] using Effect.carriedOut hcompile' hrun
          | some stop => simpa [hrun, Machine.drain] using Effect.stopped hcompile' hrun

end Session

/-! ## The statements of lines -/

namespace Statement

theorem tokens_ne_nil_of_parse {st : Statement} {command : Command Token}
    (h : st.parse = .ok command) : st.tokens ≠ [] := by
  intro hnil
  rw [parse_eq_ok_iff, hnil] at h
  cases h

theorem ofLines_concat (lines : List Text) {line : Text} (h : tokenize line ≠ []) :
    ofLines (lines ++ [line]) = ofLines lines ++ [⟨lines.length + 1, tokenize line⟩] := by
  unfold ofLines
  rw [List.zipIdx_append, List.filterMap_append]
  simp [h, Nat.add_comm]

end Statement

/-- Where a statement is carried out, its line number does not matter. -/
theorem Evaluator.performAll_congr {v v' : Evaluator} {st st' : Statement}
    (hv : v.performAll [st] = (v', none)) (h : st.tokens = st'.tokens) :
    v.performAll [st'] = (v', none) := by
  cases hparse : st.parse with
  | error d => simp [performAll, hparse] at hv
  | ok command =>
    have hparse' : st'.parse = .ok command := by
      rw [Statement.parse_eq_ok_iff, ← h, ← Statement.parse_eq_ok_iff, hparse]
    rw [performAll_singleton hparse] at hv
    rw [performAll_singleton hparse']
    unfold perform at hv ⊢
    cases heval : command.value.eval v.table with
    | error err => simp [heval] at hv
    | ok value =>
      rw [heval] at hv
      exact hv

/-! ## One line on a machine and under evaluation -/

/-- A statement that compiles is carried out by machine and evaluator alike, or
stops and leaves all of the machine but its stack as it was. -/
theorem run_extend_cases {m m' : Machine} {v : Evaluator} {c c' : Compiler} {st : Statement}
    {code : List Instruction} {stop : Option Stop} (hm : Agree m v)
    (hendless : m.sink.IsEndless) (hc : c.extend st = .ok (code, c'))
    (hrun : m.run code = (m', stop)) :
    (stop = none ∧ ∃ v', v.performAll [st] = (v', none) ∧ Agree m' v' ∧ m'.stack = m.stack) ∨
    (stop ≠ none ∧ ∃ stack, m' = { m with stack }) := by
  obtain ⟨command, hparse, -, rfl, -⟩ := Compiler.extend_eq_ok_iff.mp hc
  cases hv : v.perform st command with
  | mk v' stop' =>
    rcases runFrom_command hm hv 0 with
      ⟨err, -, -, -, j, i, above, -, hfault⟩ | ⟨m₁, hrun', hm', hstack, hstop⟩
    · rw [Machine.run, hfault] at hrun
      cases hrun
      exact .inr ⟨by simp, _, rfl⟩
    · rw [Machine.run, hrun'] at hrun
      cases hrun
      have hendless' : v.sink.IsEndless := hendless.congr hm.writer
      obtain ⟨-, hrefused⟩ := Evaluator.perform_endless hendless' hv
      cases stop with
      | none =>
        refine .inl ⟨rfl, v', ?_, hm', hstack⟩
        rw [Evaluator.performAll_singleton hparse, hv]
      | some stop =>
        cases stop with
        | diagnosed d => exact absurd rfl (hstop d)
        | outputRefused reason => exact absurd rfl (hrefused reason)

/-! ## Whole sessions -/

theorem Sink.writer_offerAll {s : Sink} (h : s.writer = .unlimited) (texts : List Text) :
    (s.offerAll texts).writer = .unlimited := by
  induction texts generalizing s with
  | nil => exact h
  | cons t rest ih => exact ih (by rw [offer, h]; rfl)

theorem Sink.isEndless_of_unlimited {s : Sink} (h : s.writer = .unlimited) : s.IsEndless :=
  isEndless_unlimited.congr h.symm

/-- Evaluating the lines `kept` leaves what the session's machine shows, and the
machine is ready for the next line. -/
structure Replayed (s : Session) (kept : List Text) : Prop where
  evaluated : ∃ v, evaluate {} (Statement.ofLines kept) = (v, none) ∧ Agree s.machine v
  stack : s.machine.stack = []
  writer : s.machine.sink.writer = .unlimited

theorem Replayed.start {sink : Sink} (h : sink.writer = .unlimited) :
    Replayed { machine := { sink } } [] :=
  ⟨⟨{}, rfl, rfl, rfl, h⟩, rfl, h⟩

theorem Replayed.step {s s' : Session} {kept : List Text} {line : Text} {outcome : Session.Outcome}
    (h : Replayed s kept) (heffect : Session.Effect s line outcome s') :
    Replayed s' (Session.keep kept outcome) := by
  obtain ⟨⟨v, hv, hm⟩, hstack, hwriter⟩ := h
  have hendless := Sink.isEndless_of_unlimited hwriter
  cases heffect with
  | idle => exact ⟨⟨v, hv, hm⟩, hstack, hwriter⟩
  | told texts =>
    have hwriter' := Sink.writer_offerAll hwriter texts
    exact ⟨⟨v, hv, hm.table, hm.printed, hwriter'.trans (hwriter.symm.trans hm.writer)⟩, hstack,
      hwriter'⟩
  | rejected compiled => exact ⟨⟨v, hv, hm⟩, hstack, hwriter⟩
  | restarted => exact .start hwriter
  | @stopped code compiler m stop compiled ran =>
    rcases run_extend_cases hm hendless compiled ran with ⟨hstop, -⟩ | ⟨-, stack, rfl⟩
    · cases hstop
    · exact ⟨⟨v, hv, (hm.stack []).emptied⟩, rfl, hwriter⟩
  | @carriedOut code compiler m compiled ran =>
    rcases run_extend_cases hm hendless compiled ran with
      ⟨-, v', hv', hm', hstack'⟩ | ⟨hstop, -⟩
    · obtain ⟨command, hparse, -⟩ := Compiler.extend_eq_ok_iff.mp compiled
      have htokens : tokenize line ≠ [] := Statement.tokens_ne_nil_of_parse hparse
      have hall : evaluate {} (Statement.ofLines (kept ++ [line])) = (v', none) := by
        rw [Statement.ofLines_concat kept htokens, evaluate, Evaluator.performAll_append_of_ok hv]
        exact Evaluator.performAll_congr hv' rfl
      have hwriter' : m.sink.writer = .unlimited := by
        obtain ⟨values, hprints⟩ := Machine.runFrom_prints 0 code s.machine
        rw [Machine.run] at ran
        rw [ran] at hprints
        rw [hprints.written]
        exact Sink.writer_offerAll hwriter _
      exact ⟨⟨v', hall, hm'.emptied⟩, hstack'.trans hstack, hwriter'⟩
    · exact absurd rfl hstop

theorem replayed_follow {s : Session} {kept : List Text} (h : Replayed s kept)
    (inputs : List Text) : Replayed (s.follow inputs) (s.survivors kept inputs) := by
  induction inputs generalizing s kept with
  | nil => exact h
  | cons input rest ih => exact ih (h.step (s.effect_respond input))

theorem Replayed.unchanged {s s' : Session} {kept : List Text} {line : Text}
    {outcome : Session.Outcome} (h : Replayed s kept) (heffect : Session.Effect s line outcome s')
    (hfailed : outcome = .rejected ∨ outcome = .stopped) :
    s'.machine.table = s.machine.table ∧ s'.machine.printed = s.machine.printed := by
  obtain ⟨⟨v, -, hm⟩, -, hwriter⟩ := h
  have hendless := Sink.isEndless_of_unlimited hwriter
  cases heffect with
  | rejected compiled => exact ⟨rfl, rfl⟩
  | stopped compiled ran =>
    rcases run_extend_cases hm hendless compiled ran with ⟨hstop, -⟩ | ⟨-, stack, rfl⟩
    · cases hstop
    · exact ⟨rfl, rfl⟩
  | idle => simp at hfailed
  | told texts => simp at hfailed
  | restarted => simp at hfailed
  | carriedOut compiled ran => simp at hfailed

/-- The second line stops, so that only the compiler knows `y`. The third one is
rejected, the last one prints. -/
def troubledInputs : List Text :=
  [ascii ":= x 7", ascii ":= y / x 0", ascii "@ z", ascii " @ x"]

def troubledSurvivors : List Text := [ascii ":= x 7", ascii "@ x"]

end Polish
