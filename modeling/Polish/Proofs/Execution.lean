import Polish.Proofs.Evaluation
import Polish.Proofs.Step

/-
  Execution — running the code of one command

  A run of postfix code is followed from any stack, any table and any place in
  a program. It either puts the value of the expression on the stack or stops
  inside the code, at the fault that evaluating the tree meets.

  What is proved:
    1. `runFrom_prints` — what a run prints it logs, and writes line by line.
    2. `runFrom_append` — running two pieces of code is running the second from
       where the first ended, unless the first stopped.
    3. `runFrom_code_of_ok`, `runFrom_code_of_error` — the code of an expression
       leaves its value above the old stack, or faults above the old stack.
    4. `runFrom_assign`, `runFrom_print`, `runFrom_command_of_error` — the same
       for the code of a command; `runFrom_command_cases` — it does nothing else.
-/

namespace Polish

namespace EvalError

/-- The fault of a machine that corresponds to an evaluation error. -/
def fault : EvalError → Machine.Fault
  | .unassigned name => .unbound name
  | .divisionByZero dividend => .divisionByZero dividend
  | .negativeRoot radicand => .negativeRoot radicand

theorem IsArithmetic.fault_kind {err : EvalError} (h : err.IsArithmetic) :
    err.fault.kind = err.kind := by
  cases err with
  | unassigned name => exact h.elim
  | divisionByZero a => rfl
  | negativeRoot a => rfl

theorem IsArithmetic.fault_message {err : EvalError} (h : err.IsArithmetic) :
    err.fault.message = err.message := by
  cases err with
  | unassigned name => exact h.elim
  | divisionByZero a => rfl
  | negativeRoot a => rfl

end EvalError

namespace Machine

/-! ## Runs of code in two parts -/

theorem runFrom_append (pc : Nat) (first second : List Instruction) (m : Machine) :
    runFrom pc (first ++ second) m = match runFrom pc first m with
      | (m', none) => runFrom (pc + first.length) second m'
      | (m', some stop) => (m', some stop) := by
  induction first generalizing pc m with
  | nil => rfl
  | cons i rest ih =>
    simp only [List.cons_append, runFrom]
    cases hstep : m.step pc i with
    | mk m' stop =>
      cases stop with
      | some stop => rfl
      | none =>
        simp only [ih]
        rw [List.length_cons, Nat.add_right_comm, Nat.add_assoc]

theorem runFrom_append_of_ok {pc : Nat} {first : List Instruction} {m m' : Machine}
    (h : runFrom pc first m = (m', none)) (second : List Instruction) :
    runFrom pc (first ++ second) m = runFrom (pc + first.length) second m' := by
  rw [runFrom_append, h]

theorem runFrom_append_of_stop {pc : Nat} {first : List Instruction} {m m' : Machine} {stop : Stop}
    (h : runFrom pc first m = (m', some stop)) (second : List Instruction) :
    runFrom pc (first ++ second) m = (m', some stop) := by
  rw [runFrom_append, h]

theorem runFrom_singleton (pc : Nat) (i : Instruction) (m : Machine) :
    runFrom pc [i] m = m.step pc i := by
  simp only [runFrom]
  split <;> simp_all

/-- The run of `code` stops at one of its instructions, with the given fault, and
all that was on the stack before is still there. -/
def FaultsWithin (pc : Nat) (code : List Instruction) (m : Machine) (fault : Fault) : Prop :=
  ∃ (j : Nat) (i : Instruction) (above : List Int64), code[j]? = some i ∧
    runFrom pc code m = ({ m with stack := above ++ m.stack } : Machine).halt (pc + j) i fault

theorem FaultsWithin.before {pc : Nat} {first : List Instruction} {m : Machine} {fault : Fault}
    (h : FaultsWithin pc first m fault) (second : List Instruction) :
    FaultsWithin pc (first ++ second) m fault := by
  obtain ⟨j, i, above, hj, hrun⟩ := h
  refine ⟨j, i, above, ?_, ?_⟩
  · rw [List.getElem?_append_left (List.getElem?_eq_some_iff.mp hj).1, hj]
  · exact runFrom_append_of_stop hrun second

theorem FaultsWithin.after {pc : Nat} {first second : List Instruction} {m : Machine}
    {fault : Fault} {s : List Int64}
    (hfirst : runFrom pc first m = ({ m with stack := s ++ m.stack }, none))
    (h : FaultsWithin (pc + first.length) second { m with stack := s ++ m.stack } fault) :
    FaultsWithin pc (first ++ second) m fault := by
  obtain ⟨j, i, above, hj, hrun⟩ := h
  refine ⟨first.length + j, i, above ++ s, ?_, ?_⟩
  · rw [List.getElem?_append_right (Nat.le_add_right ..), Nat.add_sub_cancel_left, hj]
  · rw [runFrom_append_of_ok hfirst, hrun, Nat.add_assoc, List.append_assoc]

theorem FaultsWithin.single {pc : Nat} {i : Instruction} {m : Machine} {fault : Fault}
    (h : m.step pc i = m.halt pc i fault) : FaultsWithin pc [i] m fault :=
  ⟨0, i, [], rfl, by rw [runFrom_singleton, h]; rfl⟩

/-! ## What is printed -/

/-- The values were printed between two states: they were logged, and each was written
to the sink as a line of its own. -/
structure Prints (line : Int64 → Text) (values : List Int64) (printed printed' : Array Int64)
    (sink sink' : Sink) : Prop where
  logged : printed'.toList = printed.toList ++ values
  written : sink' = sink.offerAll (values.map line)

namespace Prints

variable {line : Int64 → Text} {printed printed₁ printed₂ : Array Int64} {sink sink₁ sink₂ : Sink}

theorem nothing : Prints line [] printed printed sink sink := ⟨by simp, rfl⟩

theorem one (value : Int64) :
    Prints line [value] printed (printed.push value) sink (sink.offer (line value)) :=
  ⟨by simp, rfl⟩

theorem trans {first second : List Int64}
    (h₁ : Prints line first printed printed₁ sink sink₁)
    (h₂ : Prints line second printed₁ printed₂ sink₁ sink₂) :
    Prints line (first ++ second) printed printed₂ sink sink₂ := by
  constructor
  · rw [h₂.logged, h₁.logged, List.append_assoc]
  · rw [h₂.written, h₁.written, List.map_append, Sink.offerAll_append]

end Prints

theorem step_prints (m : Machine) (pc : Nat) (i : Instruction) :
    ∃ values, Prints printedLine values m.printed (m.step pc i).1.printed m.sink
      (m.step pc i).1.sink := by
  have hstep := stepped pc i m
  generalize m.step pc i = r at hstep
  cases hstep with
  | print op top => exact ⟨_, .one _⟩
  | underflow | push | load | unbound | store | unary | negativeRoot | binary | divisionByZero
  | unlisted => exact ⟨[], .nothing⟩

theorem runFrom_prints (pc : Nat) (code : List Instruction) (m : Machine) :
    ∃ values, Prints printedLine values m.printed (runFrom pc code m).1.printed m.sink
      (runFrom pc code m).1.sink := by
  induction code generalizing pc m with
  | nil => exact ⟨[], .nothing⟩
  | cons i rest ih =>
    obtain ⟨first, hfirst⟩ := m.step_prints pc i
    unfold runFrom
    cases hstep : m.step pc i with
    | mk m₁ stop =>
      rw [hstep] at hfirst
      cases stop with
      | some stop => exact ⟨first, hfirst⟩
      | none =>
        obtain ⟨second, hsecond⟩ := ih (pc + 1) m₁
        exact ⟨first ++ second, hfirst.trans hsecond⟩

/-! ## The code of an expression -/

theorem step_unary (m : Machine) (pc : Nat) (op : UnaryOp) (a : Int64) :
    (m.push a).step pc (.plain op.opcode) = match op.apply a with
      | .ok value => (m.push value, none)
      | .error _ => (m.push a).halt pc (.plain op.opcode) (.negativeRoot a) := by
  cases h : op.apply a with
  | ok value => exact (Stepped.unary rfl rfl h).eq
  | error cause => exact (Stepped.negativeRoot rfl rfl h).eq

theorem step_binary (m : Machine) (pc : Nat) (op : BinaryOp) (a b : Int64) :
    ((m.push a).push b).step pc (.plain op.opcode) = match op.apply a b with
      | .ok value => (m.push value, none)
      | .error _ => ((m.push a).push b).halt pc (.plain op.opcode) (.divisionByZero a) := by
  cases h : op.apply a b with
  | ok value => exact (Stepped.binary rfl rfl h).eq
  | error cause => exact (Stepped.divisionByZero rfl rfl h).eq

variable {α : Type}

theorem runFrom_code_of_ok {e : Expr α} {m : Machine} {value : Int64}
    (h : e.eval m.table = .ok value) (pc : Nat) : runFrom pc e.code m = (m.push value, none) := by
  induction e generalizing m value pc with
  | number mark n =>
    cases h
    rfl
  | name mark word =>
    have hget := Expr.eval_name_eq_ok.mp h
    rw [Expr.code, runFrom_singleton]
    exact (Stepped.load rfl hget).eq
  | unary mark op operand ih =>
    obtain ⟨a, ha, hv⟩ := Expr.eval_unary_eq_ok.mp h
    rw [Expr.code, runFrom_append_of_ok (ih ha pc), runFrom_singleton, step_unary, hv]
  | binary mark op left right ihl ihr =>
    obtain ⟨a, b, ha, hb, hv⟩ := Expr.eval_binary_eq_ok.mp h
    -- the right operand runs above the value of the left one
    have hright := ihr (m := m.push a) hb (pc + left.code.length)
    have hboth : runFrom pc (left.code ++ right.code) m = ((m.push a).push b, none) := by
      rw [runFrom_append_of_ok (ihl ha pc), hright]
    rw [Expr.code, runFrom_append_of_ok hboth, runFrom_singleton, step_binary, hv]

/-- The code of an expression that has no value stops inside, at the same fault. -/
theorem runFrom_code_of_error {e : Expr α} {m : Machine} {err : EvalError}
    (h : e.eval m.table = .error err) (pc : Nat) : FaultsWithin pc e.code m err.fault := by
  induction e generalizing m err pc with
  | number mark n => cases h
  | name mark word =>
    obtain ⟨hget, rfl⟩ := Expr.eval_name_eq_error.mp h
    exact FaultsWithin.single (Stepped.unbound rfl hget).eq
  | unary mark op operand ih =>
    rw [Expr.code]
    rcases Expr.eval_unary_eq_error.mp h with ha | ⟨a, cause, ha, hv, rfl⟩
    · exact (ih ha pc).before _
    · refine FaultsWithin.after (s := [a]) (runFrom_code_of_ok ha pc) (FaultsWithin.single ?_)
      exact (step_unary m _ op a).trans (by rw [hv]; rfl)
  | binary mark op left right ihl ihr =>
    rw [Expr.code]
    rcases Expr.eval_binary_eq_error.mp h with ha | ⟨a, ha, hb⟩ | ⟨a, b, cause, ha, hb, hv, rfl⟩
    · rw [List.append_assoc]
      exact (ihl ha pc).before _
    · have hleft := runFrom_code_of_ok ha pc
      exact (FaultsWithin.after (s := [a]) hleft (ihr (m := m.push a) hb _)).before _
    · have hright := runFrom_code_of_ok (m := m.push a) hb (pc + left.code.length)
      have hboth : runFrom pc (left.code ++ right.code) m = ((m.push a).push b, none) := by
        rw [runFrom_append_of_ok (runFrom_code_of_ok ha pc), hright]
      refine FaultsWithin.after (s := [b, a]) hboth (FaultsWithin.single ?_)
      exact (step_binary m _ op a b).trans (by rw [hv]; rfl)

/-! ## The code of a command -/

theorem runFrom_command_of_error {command : Command α} {m : Machine} {err : EvalError}
    (h : command.value.eval m.table = .error err) (pc : Nat) :
    FaultsWithin pc command.code m err.fault :=
  (runFrom_code_of_error h pc).before _

theorem runFrom_assign {e : Expr α} {m : Machine} {value : Int64}
    (h : e.eval m.table = .ok value) (pc : Nat) (mark targetMark : α) (target : Text) :
    runFrom pc (Command.assign mark targetMark target e).code m =
      ({ m with table := m.table.insert target value }, none) := by
  rw [Command.code, Command.value, runFrom_append_of_ok (runFrom_code_of_ok h pc),
    runFrom_singleton]
  rfl

theorem runFrom_print {e : Expr α} {m : Machine} {value : Int64}
    (h : e.eval m.table = .ok value) (pc : Nat) (mark : α) :
    runFrom pc (Command.print mark e).code m =
      ({ m with
          printed := m.printed.push value
          sink := m.sink.offer (printedLine value) }, m.sink.refusal) := by
  rw [Command.code, Command.value, runFrom_append_of_ok (runFrom_code_of_ok h pc),
    runFrom_singleton]
  rfl

/-- All that running the code of a command can do: a fault leaves everything but
the stack as it was, an assignment changes the table only, a print the log and
the sink. -/
theorem runFrom_command_cases {pc : Nat} {m m' : Machine} {command : Command α}
    {stop : Option Stop} (h : runFrom pc command.code m = (m', stop)) :
    (∃ err n i above, command.value.eval m.table = .error err ∧
      m' = { m with stack := above ++ m.stack } ∧
      stop = some (.diagnosed (m'.diagnostic n i err.fault))) ∨
    (∃ mark targetMark target e value, command = .assign mark targetMark target e ∧
      e.eval m.table = .ok value ∧ m' = { m with table := m.table.insert target value } ∧
      stop = none) ∨
    (∃ mark e value, command = .print mark e ∧ e.eval m.table = .ok value ∧
      m' = { m with
        printed := m.printed.push value
        sink := m.sink.offer (printedLine value) } ∧
      stop = m.sink.refusal) := by
  cases heval : command.value.eval m.table with
  | error err =>
    obtain ⟨j, i, above, -, hrun⟩ := runFrom_command_of_error heval pc
    rw [hrun] at h
    cases h
    exact .inl ⟨err, pc + j, i, above, rfl, rfl, rfl⟩
  | ok value =>
    cases command with
    | assign mark targetMark target e =>
      rw [runFrom_assign (e := e) heval pc] at h
      cases h
      exact .inr (.inl ⟨mark, targetMark, target, e, value, rfl, heval, rfl, rfl⟩)
    | print mark e =>
      rw [runFrom_print (e := e) heval pc] at h
      cases h
      exact .inr (.inr ⟨mark, e, value, rfl, heval, rfl, rfl⟩)

end Machine

end Polish
