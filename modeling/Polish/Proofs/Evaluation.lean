import Polish.Evaluator
import Polish.Proofs.Postfix

/-
  Evaluation — when an expression has a value

  Each kind of expression has one lemma that says when it has which value and
  one that says when it fails and how. The proofs about trees below, and those
  about the code of trees, go by these cases and do not open `eval`.

  What is proved:
    1. `reads_bound_of_eval` — an expression that has a value reads bound names
       only.
    2. `isArithmetic_of_eval_error` — an expression that reads bound names only
       can fail at an operation only.
    3. `performAll_append`, `performAll_stop_split` — a program is evaluated one
       part after the other, and one that stops does so at one statement.
-/

namespace Polish

namespace Expr

variable {α : Type} {table : Table}

section Cases

-- The equations of `eval` are made once, for all the lemmas that read its cases off them.
attribute [local simp] eval

theorem eval_name_eq_ok {mark : α} {word : Text} {value : Int64} :
    (Expr.name mark word).eval table = .ok value ↔ table.get? word = some value := by
  cases h : table.get? word <;> simp [h]

theorem eval_name_eq_error {mark : α} {word : Text} {err : EvalError} :
    (Expr.name mark word).eval table = .error err ↔
      table.get? word = none ∧ err = .unassigned word := by
  cases h : table.get? word <;> simp [h, eq_comm]

theorem eval_unary_eq_ok {mark : α} {op : UnaryOp} {e : Expr α} {value : Int64} :
    (Expr.unary mark op e).eval table = .ok value ↔
      ∃ a, e.eval table = .ok a ∧ op.apply a = .ok value := by
  cases he : e.eval table with
  | error err => simp [he]
  | ok a => cases h : op.apply a <;> simp [he, h]

theorem eval_unary_eq_error {mark : α} {op : UnaryOp} {e : Expr α} {err : EvalError} :
    (Expr.unary mark op e).eval table = .error err ↔
      e.eval table = .error err ∨
      ∃ a cause, e.eval table = .ok a ∧ op.apply a = .error cause ∧ err = .negativeRoot a := by
  cases he : e.eval table with
  | error err' => simp [he]
  | ok a => cases h : op.apply a <;> simp [he, h, eq_comm]

theorem eval_binary_eq_ok {mark : α} {op : BinaryOp} {l r : Expr α} {value : Int64} :
    (Expr.binary mark op l r).eval table = .ok value ↔
      ∃ a b, l.eval table = .ok a ∧ r.eval table = .ok b ∧ op.apply a b = .ok value := by
  cases hl : l.eval table with
  | error err => simp [hl]
  | ok a =>
    cases hr : r.eval table with
    | error err => simp [hl, hr]
    | ok b => cases h : op.apply a b <;> simp [hl, hr, h]

/-- The left operand fails, or the right one after it, or the operation. -/
theorem eval_binary_eq_error {mark : α} {op : BinaryOp} {l r : Expr α} {err : EvalError} :
    (Expr.binary mark op l r).eval table = .error err ↔
      l.eval table = .error err ∨
      (∃ a, l.eval table = .ok a ∧ r.eval table = .error err) ∨
      ∃ a b cause, l.eval table = .ok a ∧ r.eval table = .ok b ∧
        op.apply a b = .error cause ∧ err = .divisionByZero a := by
  cases hl : l.eval table with
  | error err' => simp [hl]
  | ok a =>
    cases hr : r.eval table with
    | error err' => simp [hl, hr]
    | ok b => cases h : op.apply a b <;> simp [hl, hr, h, eq_comm]

end Cases

/-! ## Names -/

theorem reads_bound_of_eval {e : Expr α} {value : Int64} (h : e.eval table = .ok value) :
    ∀ read ∈ e.reads, table.contains read.2 = true := by
  induction e generalizing value with
  | number mark n => simp [reads]
  | name mark word =>
    have hget := eval_name_eq_ok.mp h
    simp [reads, Table.contains, hget]
  | unary mark op operand ih =>
    obtain ⟨a, ha, -⟩ := eval_unary_eq_ok.mp h
    exact ih ha
  | binary mark op left right ihl ihr =>
    obtain ⟨a, b, ha, hb, -⟩ := eval_binary_eq_ok.mp h
    intro read hread
    rcases List.mem_append.mp hread with hread | hread
    · exact ihl ha read hread
    · exact ihr hb read hread

end Expr

namespace EvalError

/-- Whether the error comes from an operation and not from a name. -/
def IsArithmetic : EvalError → Prop
  | .unassigned _ => False
  | .divisionByZero _ | .negativeRoot _ => True

theorem IsArithmetic.kind_cases {err : EvalError} (h : err.IsArithmetic) :
    err.kind = .divideByZero ∨ err.kind = .negativeSqrt := by
  cases err with
  | unassigned name => exact h.elim
  | divisionByZero a => exact .inl rfl
  | negativeRoot a => exact .inr rfl

end EvalError

theorem Expr.isArithmetic_of_eval_error {α : Type} {table : Table} {e : Expr α} {err : EvalError}
    (h : e.eval table = .error err)
    (hbound : ∀ read ∈ e.reads, table.contains read.2 = true) : err.IsArithmetic := by
  induction e generalizing err with
  | number mark n => cases h
  | name mark word =>
    obtain ⟨hget, -⟩ := eval_name_eq_error.mp h
    obtain ⟨n, hn⟩ := Table.contains_iff.mp (hbound (mark, word) (by simp [reads]))
    rw [hn] at hget
    cases hget
  | unary mark op operand ih =>
    rcases eval_unary_eq_error.mp h with ha | ⟨a, cause, -, -, rfl⟩
    · exact ih ha hbound
    · trivial
  | binary mark op left right ihl ihr =>
    rcases eval_binary_eq_error.mp h with ha | ⟨a, -, hb⟩ | ⟨a, b, cause, -, -, -, rfl⟩
    · exact ihl ha fun read hread => hbound read (List.mem_append_left _ hread)
    · exact ihr hb fun read hread => hbound read (List.mem_append_right _ hread)
    · trivial

/-! ## Programs -/

namespace Evaluator

/-- All that carrying out a command can do: an error changes nothing, an
assignment changes the table only, a print the log and the sink. -/
theorem perform_cases {α : Type} {v v' : Evaluator} {st : Statement} {command : Command α}
    {stop : Option Stop} (h : v.perform st command = (v', stop)) :
    (∃ err, command.value.eval v.table = .error err ∧ v' = v ∧
      stop = some (.diagnosed (err.diagnostic st))) ∨
    (∃ mark targetMark target e value, command = .assign mark targetMark target e ∧
      e.eval v.table = .ok value ∧ v' = { v with table := v.table.insert target value } ∧
      stop = none) ∨
    (∃ mark e value, command = .print mark e ∧ e.eval v.table = .ok value ∧
      v' = { v with
        printed := v.printed.push value
        sink := v.sink.offer (printedLine value) } ∧
      stop = v.sink.refusal) := by
  unfold perform at h
  cases heval : command.value.eval v.table with
  | error err =>
    rw [heval] at h
    cases h
    exact .inl ⟨err, rfl, rfl, rfl⟩
  | ok value =>
    rw [heval] at h
    cases command with
    | assign mark targetMark target e =>
      cases h
      exact .inr (.inl ⟨mark, targetMark, target, e, value, rfl, heval, rfl, rfl⟩)
    | print mark e =>
      cases h
      exact .inr (.inr ⟨mark, e, value, rfl, heval, rfl, rfl⟩)

theorem performAll_append (v : Evaluator) (first second : List Statement) :
    v.performAll (first ++ second) = match v.performAll first with
      | (v', none) => v'.performAll second
      | (v', some stop) => (v', some stop) := by
  induction first generalizing v with
  | nil => rfl
  | cons st rest ih =>
    simp only [List.cons_append, performAll]
    cases st.parse with
    | error d => rfl
    | ok command =>
      dsimp only
      cases v.perform st command with
      | mk v' stop =>
        cases stop with
        | none => exact ih v'
        | some stop => rfl

theorem performAll_append_of_ok {v v' : Evaluator} {first : List Statement}
    (h : v.performAll first = (v', none)) (second : List Statement) :
    v.performAll (first ++ second) = v'.performAll second := by
  rw [performAll_append, h]

theorem performAll_append_of_stop {v v' : Evaluator} {first : List Statement} {stop : Stop}
    (h : v.performAll first = (v', some stop)) (second : List Statement) :
    v.performAll (first ++ second) = (v', some stop) := by
  rw [performAll_append, h]

theorem performAll_singleton {st : Statement} {command : Command Token}
    (h : st.parse = .ok command) (v : Evaluator) : v.performAll [st] = v.perform st command := by
  simp only [performAll, h]
  split <;> simp_all

theorem performAll_cons_eq_ok {v v' : Evaluator} {st : Statement} {rest : List Statement}
    (h : v.performAll (st :: rest) = (v', none)) :
    ∃ v₁, v.performAll [st] = (v₁, none) ∧ v₁.performAll rest = (v', none) := by
  rw [← List.singleton_append, performAll_append] at h
  cases hst : v.performAll [st] with
  | mk v₁ stop =>
    cases stop with
    | some stop => rw [hst] at h; cases h
    | none =>
      rw [hst] at h
      exact ⟨v₁, rfl, h⟩

theorem performAll_stop_split {v v' : Evaluator} {program : List Statement} {stop : Stop}
    (h : v.performAll program = (v', some stop)) :
    ∃ before st after v₁, program = before ++ st :: after ∧
      v.performAll before = (v₁, none) ∧ v₁.performAll [st] = (v', some stop) := by
  induction program generalizing v with
  | nil => cases h
  | cons st rest ih =>
    cases hst : v.performAll [st] with
    | mk v₁ stop₁ =>
      cases stop₁ with
      | some stop₁ =>
        rw [← List.singleton_append, performAll_append_of_stop hst] at h
        cases h
        exact ⟨[], st, rest, v, rfl, rfl, hst⟩
      | none =>
        rw [← List.singleton_append, performAll_append_of_ok hst] at h
        obtain ⟨before, st', after, v₂, rfl, hbefore, hstop⟩ := ih h
        refine ⟨st :: before, st', after, v₂, rfl, ?_, hstop⟩
        rw [← List.singleton_append, performAll_append_of_ok hst, hbefore]

end Evaluator

end Polish
