import Polish.Proofs.Execution

/-
  Simulation — compiled programs against evaluated ones

  The same statements are compiled and run on a machine, and evaluated as trees.
  Both are followed statement by statement, from states that show the same:
  the same table and log, and writers that will do the same. What either writes is
  one line for each value in its log.

  What is proved:
    1. `runFrom_command` — one command does the same to both, or fails in both.
    2. `runFrom_of_performAll` — where evaluation goes through, so does the code,
       and the stack ends as it began.
    3. `execute_compile_agrees` — an accepted program ends alike in both. If it
       faults, it is the same fault, and the machine stands inside the code of
       the statement at which evaluation stopped.
-/

namespace Polish

/-! ## What is written -/

namespace Writer

/-- What a writer keeps of the texts of one write each. -/
def kept (w : Writer) : List Text → List Text
  | [] => []
  | t :: rest => w.answer.kept t :: w.advance.kept rest

theorem kept_unlimited (texts : List Text) : unlimited.kept texts = texts := by
  induction texts with
  | nil => rfl
  | cons t rest ih => exact congrArg (t :: ·) ih

theorem flatten_kept_absent (texts : List Text) : (absent.kept texts).flatten = [] := by
  induction texts with
  | nil => rfl
  | cons t rest ih => exact ih

theorem flatten_kept_limited (n : Nat) (reason : Text) (texts : List Text) :
    ((limited n reason).kept texts).flatten = (texts.take n).flatten := by
  induction texts generalizing n with
  | nil => simp [kept]
  | cons t rest ih =>
    cases n with
    | zero => exact ih 0
    | succ n => exact congrArg (t ++ ·) (ih n)

end Writer

theorem Sink.text_offerAll (s : Sink) (texts : List Text) :
    (s.offerAll texts).text = s.text ++ (s.writer.kept texts).flatten := by
  induction texts generalizing s with
  | nil => simp [offerAll, Writer.kept]
  | cons t rest ih =>
    have hrest := ih (s.offer t)
    rw [text_offer, List.append_assoc] at hrest
    exact hrest

namespace Evaluator

open Machine (Prints)

theorem perform_prints {α : Type} {v v' : Evaluator} {st : Statement} {command : Command α}
    {stop : Option Stop} (h : v.perform st command = (v', stop)) :
    ∃ values, Prints printedLine values v.printed v'.printed v.sink v'.sink := by
  rcases perform_cases h with ⟨err, -, rfl, -⟩ | ⟨-, -, -, -, -, -, -, rfl, -⟩ |
    ⟨mark, e, value, -, -, rfl, -⟩
  · exact ⟨[], .nothing⟩
  · exact ⟨[], .nothing⟩
  · exact ⟨[value], .one value⟩

theorem performAll_prints (v : Evaluator) (program : List Statement) :
    ∃ values, Prints printedLine values v.printed (v.performAll program).1.printed v.sink
      (v.performAll program).1.sink := by
  induction program generalizing v with
  | nil => exact ⟨[], .nothing⟩
  | cons st rest ih =>
    unfold performAll
    cases st.parse with
    | error d => exact ⟨[], .nothing⟩
    | ok command =>
      dsimp only
      cases hst : v.perform st command with
      | mk v₁ stop =>
        obtain ⟨first, hfirst⟩ := perform_prints hst
        cases stop with
        | some stop => exact ⟨first, hfirst⟩
        | none =>
          obtain ⟨second, hsecond⟩ := ih v₁
          exact ⟨first ++ second, hfirst.trans hsecond⟩

end Evaluator

/-! ## States that show the same -/

/-- The machine and the evaluator show the same, and their writers will do the same. -/
structure Agree (m : Machine) (v : Evaluator) : Prop where
  table : m.table = v.table
  printed : m.printed = v.printed
  writer : m.sink.writer = v.sink.writer

namespace Agree

variable {m : Machine} {v : Evaluator}

theorem stack (h : Agree m v) (stack : List Int64) : Agree { m with stack } v :=
  ⟨h.table, h.printed, h.writer⟩

theorem emptied (h : Agree m v) : Agree { m with sink := m.sink.emptied } v :=
  ⟨h.table, h.printed, h.writer⟩

theorem assign (h : Agree m v) (target : Text) (value : Int64) :
    Agree { m with table := m.table.insert target value }
      { v with table := v.table.insert target value } :=
  ⟨by rw [h.table], h.printed, h.writer⟩

theorem print (h : Agree m v) (value : Int64) :
    Agree
      { m with
        printed := m.printed.push value
        sink := m.sink.offer (Machine.printedLine value) }
      { v with
        printed := v.printed.push value
        sink := v.sink.offer (Evaluator.printedLine value) } :=
  ⟨h.table, by rw [h.printed], Sink.writer_offer_congr h.writer _ _⟩

end Agree

/-! ## One command -/

open Machine in
/-- Either the expression fails, and then the run of its code faults in the same
way, or the code does what the evaluator does. -/
theorem runFrom_command {α : Type} {m : Machine} {v v' : Evaluator}
    {st : Statement} {command : Command α} {stop : Option Stop} (hm : Agree m v)
    (hv : v.perform st command = (v', stop)) (pc : Nat) :
    (∃ err, command.value.eval v.table = .error err ∧ v' = v ∧
      stop = some (.diagnosed (err.diagnostic st)) ∧ FaultsWithin pc command.code m err.fault) ∨
    (∃ m', runFrom pc command.code m = (m', stop) ∧ Agree m' v' ∧ m'.stack = m.stack ∧
      ∀ d, stop ≠ some (.diagnosed d)) := by
  rcases Evaluator.perform_cases hv with
    ⟨err, heval, rfl, rfl⟩ |
    ⟨mark, targetMark, target, e, value, rfl, heval, rfl, rfl⟩ |
    ⟨mark, e, value, rfl, heval, rfl, rfl⟩
  · exact .inl ⟨err, heval, rfl, rfl, runFrom_command_of_error (hm.table ▸ heval) pc⟩
  · refine .inr ⟨_, runFrom_assign (hm.table ▸ heval) pc mark targetMark target,
      hm.assign target value, rfl, fun d => by simp⟩
  · refine .inr ⟨_, ?_, hm.print value, rfl, v.sink.refusal_ne_diagnosed⟩
    rw [runFrom_print (hm.table ▸ heval) pc mark, Sink.refusal_congr hm.writer]

theorem extend_performAll_tables {c c' : Compiler} {v v' : Evaluator} {st : Statement}
    {code : List Instruction} (hc : c.extend st = .ok (code, c'))
    (hv : v.performAll [st] = (v', none)) :
    (c'.symbols = c.symbols ∧ v'.table = v.table) ∨
    ∃ name x y, c'.symbols = c.symbols.insert name x ∧ v'.table = v.table.insert name y := by
  obtain ⟨command, hparse, -, -, rfl⟩ := Compiler.extend_eq_ok_iff.mp hc
  rw [Evaluator.performAll_singleton hparse] at hv
  rcases Evaluator.perform_cases hv with ⟨err, -, -, hstop⟩ |
    ⟨mark, targetMark, target, e, value, rfl, -, rfl, -⟩ | ⟨mark, e, value, rfl, -, rfl, -⟩
  · cases hstop
  · exact .inr ⟨target, _, value, rfl, rfl⟩
  · exact .inl ⟨rfl, rfl⟩

/-! ## Programs that go through -/

theorem covers_of_performAll {c c' : Compiler} {v v' : Evaluator} {program : List Statement}
    (hc : c.extendAll program = (c', none)) (hv : v.performAll program = (v', none)) :
    (v.table.Covers c.symbols → v'.table.Covers c'.symbols) ∧
    (c.symbols.Covers v.table → c'.symbols.Covers v'.table) := by
  induction program generalizing c v with
  | nil =>
    cases hc
    cases hv
    exact ⟨id, id⟩
  | cons st rest ih =>
    obtain ⟨code, c₁, hst, hrest⟩ := Compiler.extendAll_cons_eq_ok hc
    obtain ⟨v₁, hone, hv⟩ := Evaluator.performAll_cons_eq_ok hv
    obtain ⟨h₁, h₂⟩ := ih hrest hv
    rcases extend_performAll_tables hst hone with ⟨hs, ht⟩ | ⟨name, x, y, hs, ht⟩
    · rw [hs, ht] at h₁ h₂
      exact ⟨h₁, h₂⟩
    · rw [hs, ht] at h₁ h₂
      exact ⟨fun h => h₁ (h.insert name y x), fun h => h₂ (h.insert name x y)⟩

open Machine in
/-- Where evaluation goes through, so does the code, from any place, and the
stack ends as it began. -/
theorem runFrom_of_performAll {c c' : Compiler} {m : Machine}
    {v v' : Evaluator} {program : List Statement} (hm : Agree m v)
    (hc : c.extendAll program = (c', none)) (hv : v.performAll program = (v', none)) (pc : Nat) :
    ∃ code m', c'.program.toList = c.program.toList ++ code ∧ runFrom pc code m = (m', none) ∧
      Agree m' v' ∧ m'.stack = m.stack := by
  induction program generalizing c m v pc with
  | nil =>
    cases hc
    cases hv
    exact ⟨[], m, by simp, rfl, hm, rfl⟩
  | cons st rest ih =>
    obtain ⟨code, c₁, hst, hrest⟩ := Compiler.extendAll_cons_eq_ok hc
    obtain ⟨command, hparse, -, rfl, -⟩ := Compiler.extend_eq_ok_iff.mp hst
    obtain ⟨v₁, hone, hv⟩ := Evaluator.performAll_cons_eq_ok hv
    rw [Evaluator.performAll_singleton hparse] at hone
    rcases runFrom_command hm hone pc with ⟨err, -, -, hstop, -⟩ | ⟨m₁, hrun, hm₁, hstack, -⟩
    · cases hstop
    · obtain ⟨more, m', hmore, hrun', hm', hstack'⟩ :=
        ih hm₁ hrest hv (pc + command.code.length)
      refine ⟨command.code ++ more, m', ?_, ?_, hm', hstack'.trans hstack⟩
      · rw [hmore, Compiler.extend_program hst, List.append_assoc]
      · rw [runFrom_append_of_ok hrun, hrun']

/-! ## Statements that stop a program -/

/-- Two diagnostics tell of the same division by zero or root of a negative number. -/
structure SameFault (d d' : Diagnostic) : Prop where
  arithmetic : d.kind = .divideByZero ∨ d.kind = .negativeSqrt
  kind : d.kind = d'.kind
  message : d.message = d'.message

open Machine in
/-- A statement that compiles and stops the evaluation stops its code as well, for
the same reason. The compiler has seen to it that every name is bound. -/
theorem runFrom_of_performAll_stop {c c' : Compiler} {m : Machine}
    {v v' : Evaluator} {st : Statement} {code : List Instruction} {stop : Stop}
    (hm : Agree m v) (hcovers : v.table.Covers c.symbols)
    (hc : c.extend st = .ok (code, c')) (hv : v.performAll [st] = (v', some stop)) (pc : Nat) :
    ∃ m', Agree m' v' ∧
      ((∃ reason, stop = .outputRefused reason ∧
          runFrom pc code m = (m', some (.outputRefused reason))) ∨
        ∃ d d', stop = .diagnosed d' ∧ runFrom pc code m = (m', some (.diagnosed d)) ∧
          SameFault d d' ∧ pc ≤ d.pc ∧ d.pc < pc + code.length) := by
  obtain ⟨command, hparse, hassigned, rfl, -⟩ := Compiler.extend_eq_ok_iff.mp hc
  rw [Evaluator.performAll_singleton hparse] at hv
  rcases runFrom_command hm hv pc with
    ⟨err, heval, rfl, hstop, j, i, above, hj, hrun⟩ | ⟨m', hrun, hm', -, hstop⟩
  · cases hstop
    have herr : err.IsArithmetic := by
      apply Expr.isArithmetic_of_eval_error heval
      intro read hread
      exact hcovers _ (Compiler.unassigned?_eq_none_iff.mp hassigned read hread)
    have hlt := (List.getElem?_eq_some_iff.mp hj).1
    refine ⟨_, hm.stack (above ++ m.stack), .inr ⟨_, _, rfl, hrun, ?_, ?_, ?_⟩⟩
    · refine ⟨?_, herr.fault_kind, herr.fault_message⟩
      simpa only [Machine.diagnostic, herr.fault_kind] using herr.kind_cases
    · simp only [Machine.diagnostic]
      omega
    · simp only [Machine.diagnostic]
      omega
  · cases stop with
    | diagnosed d => exact absurd rfl (hstop d)
    | outputRefused reason => exact ⟨m', hm', .inl ⟨reason, rfl, hrun⟩⟩

/-! ## Whole programs -/

/-- The evaluation of a program stops at statement number `k`, counted from zero:
the statements before it are carried out, and with it the evaluation is over. -/
structure StopsAt (sink : Sink) (program : List Statement) (k : Nat) : Prop where
  reached : (evaluate sink (program.take k)).2 = none
  stopped : (evaluate sink (program.take (k + 1))).2 ≠ none
  final : evaluate sink program = evaluate sink (program.take (k + 1))

section Split

variable {sink : Sink} {before : List Statement} {st : Statement} {v₁ v' : Evaluator} {stop : Stop}

theorem evaluate_of_split (hbefore : evaluate sink before = (v₁, none))
    (hst : v₁.performAll [st] = (v', some stop)) (after : List Statement) :
    evaluate sink (before ++ st :: after) = (v', some stop) := by
  rw [evaluate, Evaluator.performAll_append_of_ok hbefore, ← List.singleton_append]
  exact Evaluator.performAll_append_of_stop hst after

theorem StopsAt.of_split (hbefore : evaluate sink before = (v₁, none))
    (hst : v₁.performAll [st] = (v', some stop)) (after : List Statement) :
    StopsAt sink (before ++ st :: after) before.length := by
  have htake : (before ++ st :: after).take (before.length + 1) = before ++ [st] := by
    rw [← List.singleton_append, ← List.append_assoc]
    exact List.take_left' (by simp)
  have hupto := evaluate_of_split hbefore hst []
  refine ⟨?_, ?_, ?_⟩
  · rw [List.take_left, hbefore]
  · rw [htake, hupto]
    simp
  · rw [htake, hupto, evaluate_of_split hbefore hst after]

end Split

/-- Instruction number `pc` of a program's code was written for its statement
number `k`. -/
def WrittenFor (program : List Statement) (code : List Instruction) (k : Nat) (pc : Int) : Prop :=
  ∃ c st block c', Compiler.extendAll {} (program.take k) = (c, none) ∧ program[k]? = some st ∧
    c.extend st = .ok (block, c') ∧ c.program.toList ++ block <+: code ∧
    c.program.size ≤ pc ∧ pc < c.program.size + block.length

/-- How the run of a program's code and the evaluation of the program end alike. -/
inductive EndAlike (sink : Sink) (program : List Statement) (code : List Instruction) :
    Machine × Option Stop → Evaluator × Option Stop → Prop where
  | finished {m : Machine} {v : Evaluator} (empty : m.stack = []) :
      EndAlike sink program code (m, none) (v, none)
  | refused {m : Machine} {v : Evaluator} {reason : Text} :
      EndAlike sink program code (m, some (.outputRefused reason))
        (v, some (.outputRefused reason))
  | faulted {m : Machine} {v : Evaluator} {d d' : Diagnostic} {k : Nat} (same : SameFault d d')
      (stopsAt : StopsAt sink program k) (writtenFor : WrittenFor program code k d.pc) :
      EndAlike sink program code (m, some (.diagnosed d)) (v, some (.diagnosed d'))

theorem EndAlike.stop_eq_none_iff {sink : Sink} {program : List Statement}
    {code : List Instruction} {run : Machine × Option Stop} {eval : Evaluator × Option Stop}
    (h : EndAlike sink program code run eval) : run.2 = none ↔ eval.2 = none := by
  cases h with
  | finished empty => simp
  | refused => simp
  | faulted => simp

open Machine in
/-- An accepted program ends alike on every machine and under evaluation, into
sinks whose writers do the same. -/
theorem execute_endAlike {program : List Statement} {code : List Instruction}
    (h : compile program = .ok code) (m : Machine) (taken : Array Text) :
    Agree (m.execute code).1 (evaluate ⟨m.sink.writer, taken⟩ program).1 ∧
      EndAlike ⟨m.sink.writer, taken⟩ program code (m.execute code)
        (evaluate ⟨m.sink.writer, taken⟩ program) := by
  obtain ⟨c, hc, rfl⟩ := compile_eq_ok_iff.mp h
  have hstart : Agree m.reset { sink := ⟨m.sink.writer, taken⟩ } := ⟨rfl, rfl, rfl⟩
  cases heval : evaluate ⟨m.sink.writer, taken⟩ program with
  | mk v stop =>
    cases stop with
    | none =>
      obtain ⟨code, m', hcode, hrun, hm', hstack⟩ := runFrom_of_performAll hstart hc heval 0
      have hr : m.execute c.program.toList = (m', none) := by rw [hcode]; exact hrun
      rw [hr]
      exact ⟨hm', .finished hstack⟩
    | some stop =>
      obtain ⟨before, st, after, v₁, rfl, hbefore, hst⟩ := Evaluator.performAll_stop_split heval
      obtain ⟨c₁, block, c₂, hc₁, hblock, hafter⟩ := Compiler.extendAll_split hc
      have hcovers := (covers_of_performAll hc₁ hbefore).1 (Table.Covers.refl _)
      obtain ⟨first, m₁, hfirst, hrun₁, hm₁, -⟩ := runFrom_of_performAll hstart hc₁ hbefore 0
      obtain ⟨m', hm', hstop⟩ :=
        runFrom_of_performAll_stop hm₁ hcovers hblock hst (0 + first.length)
      -- the whole code is that of the statements before, that of `st`, and more
      rw [List.nil_append] at hfirst
      have hupto : first ++ block <+: c.program.toList := by
        rw [← hfirst, ← Compiler.extend_program hblock]
        exact Compiler.extendAll_program hafter
      obtain ⟨more, hmore⟩ := hupto
      have hruns {stop : Stop} (hb : runFrom (0 + first.length) block m₁ = (m', some stop)) :
          m.execute c.program.toList = (m', some stop) := by
        rw [← hmore]
        apply runFrom_append_of_stop
        rw [runFrom_append_of_ok hrun₁, hb]
      rcases hstop with ⟨reason, rfl, hb⟩ | ⟨d, d', rfl, hb, hsame, hle, hlt⟩
      · rw [hruns hb]
        exact ⟨hm', .refused⟩
      · rw [hruns hb]
        refine ⟨hm', .faulted hsame (.of_split hbefore hst after) ?_⟩
        have hsize : c₁.program.size = first.length := by rw [← hfirst, Array.length_toList]
        refine ⟨c₁, st, block, c₂, ?_, ?_, hblock, ⟨more, by rw [hfirst, hmore]⟩, ?_, ?_⟩
        · rw [List.take_left, hc₁]
        · simp
        · omega
        · omega

section Lines

variable {line : Int64 → Text} {values : List Int64} {s t : Sink}

theorem text_of_unlimited (h : t = s.offerAll (values.map line)) (hw : s.writer = .unlimited) :
    t.text = s.text ++ values.flatMap line := by
  rw [h, Sink.text_offerAll, hw, Writer.kept_unlimited, List.flatMap_def]

theorem text_of_limited {n : Nat} {reason : Text} (h : t = s.offerAll (values.map line))
    (hw : s.writer = .limited n reason) : t.text = s.text ++ (values.take n).flatMap line := by
  rw [h, Sink.text_offerAll, hw, Writer.flatten_kept_limited, List.flatMap_def, List.map_take]

theorem text_of_absent (h : t = s.offerAll (values.map line)) (hw : s.writer = .absent) :
    t.text = s.text := by
  rw [h, Sink.text_offerAll, hw, Writer.flatten_kept_absent, List.append_nil]

end Lines

theorem execute_written (m : Machine) (code : List Instruction) :
    (m.execute code).1.sink =
      m.sink.offerAll ((m.execute code).1.printed.toList.map Machine.printedLine) := by
  obtain ⟨values, h⟩ := Machine.runFrom_prints 0 code m.reset
  have hvalues : (m.execute code).1.printed.toList = values := h.logged.trans (by rfl)
  rw [hvalues]
  exact h.written

theorem evaluate_written (sink : Sink) (program : List Statement) :
    (evaluate sink program).1.sink =
      sink.offerAll ((evaluate sink program).1.printed.toList.map Evaluator.printedLine) := by
  obtain ⟨values, h⟩ := Evaluator.performAll_prints { sink } program
  have hvalues : (evaluate sink program).1.printed.toList = values := h.logged.trans (by rfl)
  rw [hvalues]
  exact h.written

/-- For every program that compiles, every machine and every writer, running the
code and evaluating the statements leave the same table and the same log. Each
writes one line for each value in the log, the machine with `***` in front of it and
the evaluation with `===`; what is kept of the lines is all of them, the first `n` of
them or none, by the writer. Both finish, and the stack is empty, or both are refused
a line, or both meet the same fault, the machine at an instruction written for the
statement at which the evaluation stopped. -/
theorem execute_compile_agrees {program : List Statement} {code : List Instruction}
    (h : compile program = .ok code) (m : Machine) (taken : Array Text) :
    let sink : Sink := ⟨m.sink.writer, taken⟩
    let run := m.execute code
    let eval := evaluate sink program
    let starred (v : Int64) : Text := ascii "*** " ++ Literal.write v ++ [Text.newline]
    let doubled (v : Int64) : Text := ascii "=== " ++ Literal.write v ++ [Text.newline]
    run.1.table = eval.1.table ∧ run.1.printed = eval.1.printed ∧
    (run.1.sink = m.sink.offerAll (run.1.printed.toList.map starred) ∧
      eval.1.sink = sink.offerAll (run.1.printed.toList.map doubled)) ∧
    (m.sink.writer = .unlimited →
      run.1.sink.text = m.sink.text ++ run.1.printed.toList.flatMap starred ∧
      eval.1.sink.text = sink.text ++ run.1.printed.toList.flatMap doubled) ∧
    (∀ n reason, m.sink.writer = .limited n reason →
      run.1.sink.text = m.sink.text ++ (run.1.printed.toList.take n).flatMap starred ∧
      eval.1.sink.text = sink.text ++ (run.1.printed.toList.take n).flatMap doubled) ∧
    (m.sink.writer = .absent →
      run.1.sink.text = m.sink.text ∧ eval.1.sink.text = sink.text) ∧
    ((run.2 = none ∧ eval.2 = none ∧ run.1.depth = 0) ∨
      (∃ reason, run.2 = some (.outputRefused reason) ∧
        eval.2 = some (.outputRefused reason)) ∨
      ∃ d d' k, run.2 = some (.diagnosed d) ∧ eval.2 = some (.diagnosed d') ∧
        (d.kind = .divideByZero ∨ d.kind = .negativeSqrt) ∧ d.kind = d'.kind ∧
        d.message = d'.message ∧ StopsAt sink program k ∧ WrittenFor program code k d.pc) := by
  intro sink run eval starred doubled
  obtain ⟨hagree, hend⟩ : Agree run.1 eval.1 ∧ EndAlike sink program code run eval :=
    execute_endAlike h m taken
  have hrun : run.1.sink = m.sink.offerAll (run.1.printed.toList.map starred) :=
    execute_written m code
  have heval : eval.1.sink = sink.offerAll (run.1.printed.toList.map doubled) := by
    rw [hagree.printed]
    exact evaluate_written sink program
  refine ⟨hagree.table, hagree.printed, ⟨hrun, heval⟩,
    fun hw => ⟨text_of_unlimited hrun hw, text_of_unlimited heval hw⟩,
    fun n reason hw => ⟨text_of_limited hrun hw, text_of_limited heval hw⟩,
    fun hw => ⟨text_of_absent hrun hw, text_of_absent heval hw⟩, ?_⟩
  clear_value run eval
  cases hend with
  | finished empty => exact .inl ⟨rfl, rfl, by rw [Machine.depth, empty, List.length_nil]⟩
  | refused => exact .inr (.inl ⟨_, rfl, rfl⟩)
  | faulted same stopsAt writtenFor =>
    exact .inr (.inr ⟨_, _, _, rfl, rfl, same.arithmetic, same.kind, same.message, stopsAt,
      writtenFor⟩)

/-- The third statement prints nothing: its divisor is zero. -/
def faultingProgram : List Statement := Statement.ofSource (ascii ":= x 7\n@ x\n@ + 1 / x - x 7")

/-- The code of `faultingProgram`. The division is instruction number 9. -/
def faultingCode : List Instruction :=
  [.push 7, .store (ascii "x"), .load (ascii "x"), .plain .print, .push 1, .load (ascii "x"),
    .load (ascii "x"), .push 7, .plain .sub, .plain .div, .plain .add, .plain .print]

theorem execute_compile_agrees_faulting :
    compile faultingProgram = .ok faultingCode ∧
    (({} : Machine).execute faultingCode).1.sink.text = ascii "*** 7\n" ∧
    (evaluate {} faultingProgram).1.sink.text = ascii "=== 7\n" ∧
    ∃ d d' k, (({} : Machine).execute faultingCode).2 = some (.diagnosed d) ∧
      (evaluate {} faultingProgram).2 = some (.diagnosed d') ∧ d.message = d'.message ∧
      StopsAt {} faultingProgram k ∧ WrittenFor faultingProgram faultingCode k d.pc := by
  have hcompile : compile faultingProgram = .ok faultingCode := by decide +kernel
  have hstop : ((evaluate {} faultingProgram).2.map fun stop => stop.machineReport.kind) =
    some .divideByZero := by decide +kernel
  have hprinted : (({} : Machine).execute faultingCode).1.printed = #[7] := by decide +kernel
  obtain ⟨-, -, -, htext, -, -, h⟩ := execute_compile_agrees hcompile {} #[]
  obtain ⟨hrun, heval⟩ := htext rfl
  rw [hprinted] at hrun heval
  refine ⟨hcompile, hrun.trans (by decide +kernel), heval.trans (by decide +kernel), ?_⟩
  rcases h with ⟨-, h, -⟩ | ⟨reason, -, h⟩ | ⟨d, d', k, hd, hd', -, -, hmessage, hk, hpc⟩
  · exact absurd (h ▸ hstop) (by simp)
  · rw [h] at hstop
    cases hstop
  · exact ⟨d, d', k, hd, hd', hmessage, hk, hpc⟩

end Polish
