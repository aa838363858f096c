import Polish.Proofs.Simulation

/-
  Rejection — programs that do not compile, evaluated

  The compiler checks that names are assigned before they are read, for the
  whole program and without running it. The evaluator finds out while it runs.
  The names the compiler knows after a statement are those the table binds there
  if the evaluation has come that far, so both give up at the same statement
  unless the evaluation stops earlier at a fault.

  What is proved:
    1. `performAll_of_extend_error` — a statement that does not compile stops the
       evaluation and changes nothing.
    2. `extendAll_error_split`, `rejectedAt_of_compile_error` — a program that does
       not compile has a first statement that does not.
    3. `evaluate_stops_by_rejection` — what evaluating any program shows of
       compiling and running it, whether it compiles or not.
-/

namespace Polish

/-! ## A statement that does not compile -/

/-- A statement that does not compile, where every name the table binds has been
assigned, stops the evaluation and changes nothing. -/
theorem performAll_of_extend_error {c : Compiler} {v : Evaluator} {st : Statement} {d : Diagnostic}
    (hcovers : c.symbols.Covers v.table) (hc : c.extend st = .error d) :
    ∃ d', v.performAll [st] = (v, some (.diagnosed d')) := by
  cases hparse : st.parse with
  | error d' => exact ⟨d', by simp only [Evaluator.performAll, hparse]⟩
  | ok command =>
    rw [Evaluator.performAll_singleton hparse]
    cases heval : command.value.eval v.table with
    | error err => exact ⟨err.diagnostic st, by simp only [Evaluator.perform, heval]⟩
    | ok value =>
      -- its names would all be bound, hence assigned, and it would compile
      have hassigned : c.unassigned? command.value = none := by
        rw [Compiler.unassigned?_eq_none_iff]
        intro read hread
        exact hcovers _ (Expr.reads_bound_of_eval heval read hread)
      rw [Compiler.extend_eq_ok_iff.mpr ⟨command, hparse, hassigned, rfl, rfl⟩] at hc
      cases hc

theorem Compiler.extendAll_error_split {c c' : Compiler} {program : List Statement} {d : Diagnostic}
    (h : c.extendAll program = (c', some d)) :
    ∃ before st after, program = before ++ st :: after ∧
      c.extendAll before = (c', none) ∧ c'.extend st = .error d := by
  induction program generalizing c with
  | nil => cases h
  | cons st rest ih =>
    rw [extendAll] at h
    cases hst : c.extend st with
    | error d' =>
      rw [hst] at h
      cases h
      exact ⟨[], st, rest, rfl, rfl, hst⟩
    | ok r =>
      rw [hst] at h
      obtain ⟨before, st', after, rfl, hbefore, hstop⟩ := ih h
      refine ⟨st :: before, st', after, rfl, ?_, hstop⟩
      rw [extendAll, hst]
      exact hbefore

/-- Statement number `k` of a program is the first that does not compile, and
`code` is the code of those before it. -/
structure RejectedAt (program : List Statement) (k : Nat) (code : List Instruction) : Prop where
  before : compile (program.take k) = .ok code
  rejected : ∃ d, compile (program.take (k + 1)) = .error d

theorem rejectedAt_of_compile_error {program : List Statement} {d : Diagnostic}
    (h : compile program = .error d) : ∃ k code, RejectedAt program k code := by
  obtain ⟨c, hc⟩ := compile_eq_error_iff.mp h
  obtain ⟨before, st, after, rfl, hbefore, hst⟩ := Compiler.extendAll_error_split hc
  refine ⟨before.length, c.program.toList, ?_, d, ?_⟩
  · rw [List.take_left]
    exact compile_eq_ok_iff.mpr ⟨c, hbefore, rfl⟩
  · rw [← List.singleton_append, ← List.append_assoc, List.take_left' (by simp)]
    refine compile_eq_error_iff.mpr ⟨c, ?_⟩
    rw [Compiler.extendAll_append, hbefore]
    simp only [Compiler.extendAll, hst]

theorem RejectedAt.statement {program : List Statement} {k : Nat} {code : List Instruction}
    (h : RejectedAt program k code) :
    ∃ c st d, Compiler.extendAll {} (program.take k) = (c, none) ∧
      program.take k ++ st :: program.drop (k + 1) = program ∧ c.extend st = .error d := by
  obtain ⟨c, hc, -⟩ := compile_eq_ok_iff.mp h.before
  obtain ⟨d, hd⟩ := h.rejected
  have hk : k < program.length := by
    apply Nat.lt_of_not_le
    intro hle
    rw [List.take_of_length_le (Nat.le_succ_of_le hle), ← List.take_of_length_le hle,
      h.before] at hd
    cases hd
  have hupto := List.take_append_getElem hk
  obtain ⟨c', hc'⟩ := compile_eq_error_iff.mp hd
  rw [← hupto, Compiler.extendAll_append, hc] at hc'
  refine ⟨c, program[k], d, hc, ?_, ?_⟩
  · rw [← List.drop_eq_getElem_cons hk, List.take_append_drop]
  · simp only [Compiler.extendAll] at hc'
    cases hst : c.extend program[k] with
    | error d' =>
      rw [hst] at hc'
      cases hc'
      rfl
    | ok r => rw [hst] at hc'; cases hc'

/-! ## Sinks that never refuse a line -/

/-- The writer fails at no write, as where there is none and where all is taken. -/
def Sink.IsEndless (s : Sink) : Prop :=
  s.writer.later.reason? = none ∧ ∀ answer ∈ s.writer.next, answer.reason? = none

theorem Sink.IsEndless.refusal {s : Sink} (h : s.IsEndless) : s.refusal = none := by
  obtain ⟨⟨next, later⟩, taken⟩ := s
  cases next with
  | nil => exact congrArg (Option.map Stop.outputRefused) h.1
  | cons answer rest =>
    exact congrArg (Option.map Stop.outputRefused) (h.2 answer (List.mem_cons_self ..))

theorem Sink.IsEndless.offer {s : Sink} (h : s.IsEndless) (line : Text) :
    (s.offer line).IsEndless :=
  ⟨h.1, fun answer hmem => h.2 answer (List.mem_of_mem_tail hmem)⟩

theorem Sink.IsEndless.offerAll {s : Sink} (h : s.IsEndless) (texts : List Text) :
    (s.offerAll texts).IsEndless := by
  induction texts generalizing s with
  | nil => exact h
  | cons t rest ih => exact ih (h.offer t)

theorem Sink.IsEndless.congr {s t : Sink} (h : s.IsEndless) (hwriter : s.writer = t.writer) :
    t.IsEndless := by
  unfold IsEndless
  rw [← hwriter]
  exact h

theorem Sink.isEndless_unlimited : ({} : Sink).IsEndless := by
  refine ⟨rfl, fun answer hmem => ?_⟩
  cases hmem

theorem Evaluator.perform_endless {α : Type} {v v' : Evaluator} {st : Statement}
    {command : Command α} {stop : Option Stop} (hv : v.sink.IsEndless)
    (h : v.perform st command = (v', stop)) :
    v'.sink.IsEndless ∧ ∀ reason, stop ≠ some (.outputRefused reason) := by
  rcases perform_cases h with ⟨err, -, rfl, rfl⟩ |
    ⟨mark, targetMark, target, e, value, -, -, rfl, rfl⟩ | ⟨mark, e, value, -, -, rfl, rfl⟩
  · exact ⟨hv, fun _ => by simp⟩
  · exact ⟨hv, fun _ => by simp⟩
  · exact ⟨hv.offer _, fun _ => by simp [hv.refusal]⟩

theorem Evaluator.performAll_endless {v v' : Evaluator} {program : List Statement}
    {stop : Option Stop} (hv : v.sink.IsEndless) (h : v.performAll program = (v', stop)) :
    v'.sink.IsEndless ∧ ∀ reason, stop ≠ some (.outputRefused reason) := by
  induction program generalizing v with
  | nil =>
    cases h
    exact ⟨hv, fun _ => by simp⟩
  | cons st rest ih =>
    rw [performAll] at h
    cases hparse : st.parse with
    | error d =>
      rw [hparse] at h
      cases h
      exact ⟨hv, fun _ => by simp⟩
    | ok command =>
      rw [hparse] at h
      cases hone : v.perform st command with
      | mk v₁ stop₁ =>
        obtain ⟨hv₁, hstop₁⟩ := perform_endless hv hone
        simp only [hone] at h
        cases stop₁ with
        | none => exact ih hv₁ h
        | some stop₁ =>
          cases h
          exact ⟨hv₁, hstop₁⟩

/-! ## Programs that are rejected -/

theorem StopsAt.lt_length {sink : Sink} {program : List Statement} {k : Nat}
    (h : StopsAt sink program k) : k < program.length := by
  apply Nat.lt_of_not_le
  intro hle
  apply h.stopped
  rw [List.take_of_length_le (Nat.le_succ_of_le hle), ← List.take_of_length_le hle]
  exact h.reached

theorem StopsAt.append {sink : Sink} {program : List Statement} {k : Nat}
    (h : StopsAt sink program k) (after : List Statement) :
    StopsAt sink (program ++ after) k ∧
      evaluate sink (program ++ after) = evaluate sink program := by
  have hlt := h.lt_length
  have hall : evaluate sink (program ++ after) = evaluate sink program := by
    cases heval : evaluate sink program with
    | mk v stop =>
      cases stop with
      | some stop => exact Evaluator.performAll_append_of_stop heval after
      | none => exact absurd (by rw [← h.final, heval]) h.stopped
  refine ⟨⟨?_, ?_, ?_⟩, hall⟩
  · rw [List.take_append_of_le_length (Nat.le_of_lt hlt)]
    exact h.reached
  · rw [List.take_append_of_le_length hlt]
    exact h.stopped
  · rw [List.take_append_of_le_length hlt, hall]
    exact h.final

/-- Where the compiler rejects a statement, the evaluation stops there or before,
and leaves what running the code of the statements before leaves. -/
theorem stopsAt_of_rejectedAt {program : List Statement} {k : Nat} {code : List Instruction}
    (h : RejectedAt program k code) (m : Machine) (taken : Array Text)
    (hendless : m.sink.IsEndless) :
    let eval := evaluate ⟨m.sink.writer, taken⟩ program
    ∃ j, j ≤ k ∧ StopsAt ⟨m.sink.writer, taken⟩ program j ∧
      (j < k → ∃ d d', (m.execute code).2 = some (.diagnosed d) ∧
        eval.2 = some (.diagnosed d') ∧ SameFault d d') ∧
      eval.1.table = (m.execute code).1.table ∧ eval.1.printed = (m.execute code).1.printed := by
  intro eval
  obtain ⟨hagree, hend⟩ := execute_endAlike h.before m taken
  obtain ⟨c, st, d, hc, hsplit, hst⟩ := h.statement
  have hlength : (program.take k).length = k := by
    have := congrArg List.length hsplit
    simp only [List.length_append, List.length_cons, List.length_take, List.length_drop] at this ⊢
    omega
  cases heval : evaluate ⟨m.sink.writer, taken⟩ (program.take k) with
  | mk v stop =>
    rw [heval] at hagree hend
    cases stop with
    | none =>
      -- the evaluation gets as far as the compiler, and no further
      have hcovers := (covers_of_performAll hc heval).2 (Table.Covers.refl _)
      obtain ⟨d', hone⟩ := performAll_of_extend_error hcovers hst
      have hstops := StopsAt.of_split heval hone (program.drop (k + 1))
      have hall : eval = (v, some (.diagnosed d')) := by
        rw [← evaluate_of_split heval hone (program.drop (k + 1)), hsplit]
      rw [hsplit, hlength] at hstops
      rw [hall]
      exact ⟨k, Nat.le_refl k, hstops, fun hlt => absurd hlt (Nat.lt_irrefl k),
        hagree.table.symm, hagree.printed.symm⟩
    | some stop =>
      generalize m.execute code = run at hagree hend ⊢
      cases hend with
      | refused => exact absurd rfl ((Evaluator.performAll_endless hendless heval).2 _)
      | @faulted m' _ d d' j same stopsAt writtenFor =>
        obtain ⟨hstops, hall⟩ := stopsAt.append (st :: program.drop (k + 1))
        have hlt := stopsAt.lt_length
        rw [hlength] at hlt
        rw [hsplit] at hstops hall
        have heval' : eval = (v, some (.diagnosed d')) := hall.trans heval
        rw [heval']
        exact ⟨j, Nat.le_of_lt hlt, hstops, fun _ => ⟨d, d', rfl, rfl, same⟩,
          hagree.table.symm, hagree.printed.symm⟩

theorem evaluate_eq_none_iff (program : List Statement) (m : Machine) (taken : Array Text)
    (hendless : m.sink.IsEndless) :
    (evaluate ⟨m.sink.writer, taken⟩ program).2 = none ↔
      ∃ code, compile program = .ok code ∧ (m.execute code).2 = none := by
  constructor
  · intro heval
    cases hcompile : compile program with
    | error d =>
      obtain ⟨k, code, hk⟩ := rejectedAt_of_compile_error hcompile
      obtain ⟨j, -, hstops, -⟩ := stopsAt_of_rejectedAt hk m taken hendless
      exact absurd (hstops.final ▸ heval) hstops.stopped
    | ok code => exact ⟨code, rfl, (execute_endAlike hcompile m taken).2.stop_eq_none_iff.mpr heval⟩
  · rintro ⟨code, hcompile, hrun⟩
    exact (execute_endAlike hcompile m taken).2.stop_eq_none_iff.mp hrun

/-- For every program and every sink that refuses nothing: the evaluation goes
through exactly if the program compiles and its code runs through. If statement
number `k` is the first that does not compile, the evaluation stops at a
statement `j ≤ k`; if it is an earlier one, at the fault that running the code of
the first `k` statements meets. Either way it leaves the table and the log which
that run leaves. -/
theorem evaluate_stops_by_rejection (program : List Statement) (m : Machine) (taken : Array Text)
    (hendless : m.sink.IsEndless) :
    let sink : Sink := ⟨m.sink.writer, taken⟩
    let eval := evaluate sink program
    (eval.2 = none ↔ ∃ code, compile program = .ok code ∧ (m.execute code).2 = none) ∧
    ∀ k code, RejectedAt program k code →
      ∃ j, j ≤ k ∧ StopsAt sink program j ∧
        (j < k → ∃ d d', (m.execute code).2 = some (.diagnosed d) ∧
          eval.2 = some (.diagnosed d') ∧ (d.kind = .divideByZero ∨ d.kind = .negativeSqrt) ∧
          d.kind = d'.kind ∧ d.message = d'.message) ∧
        eval.1.table = (m.execute code).1.table ∧
        eval.1.printed = (m.execute code).1.printed := by
  intro sink eval
  refine ⟨evaluate_eq_none_iff program m taken hendless, ?_⟩
  intro k code hk
  obtain ⟨j, hj, hstops, hfault, htable, hprinted⟩ := stopsAt_of_rejectedAt hk m taken hendless
  refine ⟨j, hj, hstops, ?_, htable, hprinted⟩
  intro hlt
  obtain ⟨d, d', hd, hd', same⟩ := hfault hlt
  exact ⟨d, d', hd, hd', same.arithmetic, same.kind, same.message⟩

/-- The second statement faults, and the third reads a name that is never assigned. -/
def rejectedProgram : List Statement := Statement.ofSource (ascii ":= x 7\n@ / x 0\n@ y")

def acceptedCode : List Instruction :=
  [.push 7, .store (ascii "x"), .load (ascii "x"), .push 0, .plain .div, .plain .print]

theorem evaluate_stops_by_rejection_faulting :
    RejectedAt rejectedProgram 2 acceptedCode ∧
    ∃ j, j ≤ 2 ∧ StopsAt {} rejectedProgram j ∧
      (j < 2 → ∃ d d', (({} : Machine).execute acceptedCode).2 = some (.diagnosed d) ∧
        (evaluate {} rejectedProgram).2 = some (.diagnosed d') ∧
        (d.kind = .divideByZero ∨ d.kind = .negativeSqrt) ∧ d.kind = d'.kind ∧
        d.message = d'.message) ∧
      (evaluate {} rejectedProgram).1.table = (({} : Machine).execute acceptedCode).1.table ∧
      (evaluate {} rejectedProgram).1.printed =
        (({} : Machine).execute acceptedCode).1.printed := by
  have hk : RejectedAt rejectedProgram 2 acceptedCode := by
    let d : Diagnostic :=
      { kind := .uninitialized
        message := ascii "variable read before assignment"
        line := 3
        statement := ascii "@ y"
        token := ascii "y" }
    exact ⟨by decide +kernel, d, by decide +kernel⟩
  have h := evaluate_stops_by_rejection rejectedProgram {} #[] Sink.isEndless_unlimited
  exact ⟨hk, h.2 2 acceptedCode hk⟩

end Polish
