import Polish.Proofs.Simulation
import Polish.Proofs.Step

/-
  Frames — compiled code on a machine in any state

  Two machines run the same code. One starts with nothing, the other with a
  stack, a table and a log of its own. As long as the first finds on its stack
  and in its table all that it asks for, the second does the same above what it
  started with, and never looks at it.

  What is proved:
    1. `Above.step`, `Above.runFrom` — the frame property of one instruction and
       of any code: an instruction that lacks nothing on the bare machine does
       the same on the other.
    2. `not_isLack_of_compile` — compiled code lacks nothing on a bare machine.
    3. `run_compiled_above_any_state` — so it lacks nothing on any machine.
-/

namespace Polish

namespace Stop

/-- The run stopped because the stack or the table lacked a value. -/
def IsLack : Stop → Prop
  | .diagnosed d => d.kind = .stackUnderflow ∨ d.kind = .undefinedVariable
  | .outputRefused _ => False

/-- The same stop with `n` more values at the bottom of the stack. -/
def raised (n : Nat) : Stop → Stop
  | .diagnosed d => .diagnosed { d with depth := d.depth + n }
  | .outputRefused reason => .outputRefused reason

end Stop

namespace Machine

/-- Machine `m` is at the point where `m₀` is, above what `base` had on its stack, in
its table and in its log. Before that the sinks had kept what `base` has kept, and
`taken`. -/
structure Above (base : Machine) (taken : Array Text) (m₀ m : Machine) : Prop where
  stack : m.stack = m₀.stack ++ base.stack
  table : ∀ name, m.table.get? name = (m₀.table.get? name).or (base.table.get? name)
  printed : m.printed = base.printed ++ m₀.printed
  writer : m.sink.writer = m₀.sink.writer
  written : ∃ lines : Array Text,
    m.sink.taken = base.sink.taken ++ lines ∧ m₀.sink.taken = taken ++ lines

namespace Above

variable {base m₀ m : Machine} {taken : Array Text}

theorem bare (base : Machine) (taken : Array Text) :
    Above base taken { sink := ⟨base.sink.writer, taken⟩ } base := by
  refine ⟨rfl, fun name => rfl, ?_, rfl, #[], ?_, ?_⟩
  · exact (Array.append_empty).symm
  · exact (Array.append_empty).symm
  · exact (Array.append_empty).symm

/-! ## One instruction -/

theorem stack_of_top (h : Above base taken m₀ m) (top : List Int64) {rest : List Int64}
    (htop : m₀.stack = top ++ rest) : m.stack = top ++ (rest ++ base.stack) := by
  rw [h.stack, htop, List.append_assoc]

theorem setStack (h : Above base taken m₀ m) (stack : List Int64) :
    Above base taken { m₀ with stack } { m with stack := stack ++ base.stack } :=
  ⟨rfl, h.table, h.printed, h.writer, h.written⟩

theorem insert (h : Above base taken m₀ m) (name : Text) (value : Int64) :
    Above base taken { m₀ with table := m₀.table.insert name value }
      { m with table := m.table.insert name value } := by
  refine ⟨h.stack, ?_, h.printed, h.writer, h.written⟩
  intro other
  simp only [Table.get?_insert]
  by_cases hname : name = other
  · simp [hname]
  · simp [hname, h.table]

theorem print (h : Above base taken m₀ m) (value : Int64) :
    Above base taken
      { m₀ with printed := m₀.printed.push value, sink := m₀.sink.offer (printedLine value) }
      { m with printed := m.printed.push value, sink := m.sink.offer (printedLine value) } := by
  obtain ⟨lines, hm, hm₀⟩ := h.written
  -- of the line, both sinks keep the same
  refine ⟨h.stack, h.table, ?_, Sink.writer_offer_congr h.writer _ _,
    lines.push (m₀.sink.writer.answer.kept (printedLine value)), ?_, ?_⟩
  · rw [h.printed, Array.push_append]
  · rw [Sink.offer, hm, h.writer, Array.append_push]
  · rw [Sink.offer, hm₀, Array.append_push]

theorem halt (h : Above base taken m₀ m) (pc : Nat) (i : Instruction) (fault : Fault) :
    Above base taken (m₀.halt pc i fault).1 (m.halt pc i fault).1 ∧
      (m.halt pc i fault).2 = (m₀.halt pc i fault).2.map (Stop.raised base.depth) := by
  refine ⟨h, ?_⟩
  simp only [Machine.halt, Machine.diagnostic, depth, h.stack, List.length_append, Option.map_some,
    Stop.raised, Int.natCast_add]

/-- An instruction that lacks nothing on the bare machine does the same on the
other, above what that one started with. -/
theorem step (h : Above base taken m₀ m) (pc : Nat) (i : Instruction)
    (hlack : ∀ stop, (m₀.step pc i).2 = some stop → ¬ stop.IsLack) :
    Above base taken (m₀.step pc i).1 (m.step pc i).1 ∧
      (m.step pc i).2 = (m₀.step pc i).2.map (Stop.raised base.depth) := by
  have hstep := stepped pc i m₀
  generalize m₀.step pc i = r at hstep hlack ⊢
  cases hstep with
  | underflow lacking => exact absurd (.inl rfl) (hlack _ rfl)
  | unbound op free => exact absurd (.inr rfl) (hlack _ rfl)
  | push op =>
    rw [(Stepped.push (m := m) op).eq, h.stack]
    exact ⟨h.setStack _, rfl⟩
  | @load value op bound =>
    have hbound : m.table.get? i.name = some value := by rw [h.table, bound, Option.some_or]
    rw [(Stepped.load op hbound).eq, h.stack]
    exact ⟨h.setStack _, rfl⟩
  | @store value stack op top =>
    rw [(Stepped.store op (h.stack_of_top [value] top)).eq]
    exact ⟨(h.insert i.name value).setStack stack, rfl⟩
  | @unary f a value stack op top result =>
    rw [(Stepped.unary op (h.stack_of_top [a] top) result).eq]
    exact ⟨h.setStack _, rfl⟩
  | @negativeRoot f a stack cause op top result =>
    rw [(Stepped.negativeRoot op (h.stack_of_top [a] top) result).eq]
    exact h.halt pc i _
  | @binary f a b value stack op top result =>
    rw [(Stepped.binary op (h.stack_of_top [b, a] top) result).eq]
    exact ⟨h.setStack _, rfl⟩
  | @divisionByZero f a b stack cause op top result =>
    rw [(Stepped.divisionByZero op (h.stack_of_top [b, a] top) result).eq]
    exact h.halt pc i _
  | @print value stack op top =>
    rw [(Stepped.print op (h.stack_of_top [value] top)).eq]
    refine ⟨(h.print value).setStack stack, ?_⟩
    rw [Sink.refusal_congr h.writer]
    exact (Sink.refusal_map fun _ => rfl).symm
  | unlisted op =>
    rw [(Stepped.unlisted op).eq]
    exact h.halt pc i _

/-! ## Any code -/

theorem runFrom (h : Above base taken m₀ m) (pc : Nat) (code : List Instruction)
    (hlack : ∀ stop, (Machine.runFrom pc code m₀).2 = some stop → ¬ stop.IsLack) :
    Above base taken (Machine.runFrom pc code m₀).1 (Machine.runFrom pc code m).1 ∧
      (Machine.runFrom pc code m).2 =
        (Machine.runFrom pc code m₀).2.map (Stop.raised base.depth) := by
  induction code generalizing pc m₀ m with
  | nil => exact ⟨h, rfl⟩
  | cons i rest ih =>
    have hstep := h.step pc i
    simp only [Machine.runFrom] at hlack ⊢
    cases hm₀ : m₀.step pc i with
    | mk m₁ stop =>
      rw [hm₀] at hstep hlack
      cases stop with
      | none =>
        obtain ⟨habove, hstop⟩ := hstep (by simp)
        cases hm : m.step pc i with
        | mk m' stop' =>
          rw [hm] at habove hstop
          cases hstop
          exact ih habove (pc + 1) hlack
      | some stop =>
        obtain ⟨habove, hstop⟩ := hstep hlack
        cases hm : m.step pc i with
        | mk m' stop' =>
          rw [hm] at habove hstop
          cases hstop
          exact ⟨habove, rfl⟩

end Above

end Machine

/-! ## Compiled code -/

theorem run_bare_cases {program : List Statement} {code : List Instruction}
    (h : compile program = .ok code) (sink : Sink) :
    let run := ({ sink } : Machine).run code
    (run.2 = none ∧ run.1.stack = []) ∨ (∃ reason, run.2 = some (.outputRefused reason)) ∨
      ∃ d, run.2 = some (.diagnosed d) ∧ (d.kind = .divideByZero ∨ d.kind = .negativeSqrt) := by
  intro run
  have hend : EndAlike sink program code run (evaluate sink program) :=
    (execute_endAlike h { sink } sink.taken).2
  clear_value run
  generalize evaluate sink program = eval at hend
  cases hend with
  | finished empty => exact .inl ⟨rfl, empty⟩
  | refused => exact .inr (.inl ⟨_, rfl⟩)
  | faulted same stopsAt writtenFor => exact .inr (.inr ⟨_, rfl, same.arithmetic⟩)

theorem not_isLack_of_compile {program : List Statement} {code : List Instruction}
    (h : compile program = .ok code) (sink : Sink) :
    ∀ stop, (({ sink } : Machine).run code).2 = some stop → ¬ stop.IsLack := by
  intro stop hstop
  rcases run_bare_cases h sink with ⟨hnone, -⟩ | ⟨reason, hrefused⟩ | ⟨d, hd, hkind⟩
  · rw [hnone] at hstop
    cases hstop
  · rw [hrefused] at hstop
    cases hstop
    exact id
  · rw [hd] at hstop
    cases hstop
    rcases hkind with hkind | hkind
    · simp [Stop.IsLack, hkind]
    · simp [Stop.IsLack, hkind]

/-- Compiled code, run on a machine in any state, stops only at a division by zero,
at a root of a negative number or at a refused line. Compared with the run from
nothing, into a sink whose writer does the same: what that leaves on the stack stands above
the old stack, so that a run which goes through leaves the old stack itself; the
same values are logged and the same lines written; the stop is the same, at the
same instruction, but for the old stack in its depth; and the table is the old
one, overridden by the table that run leaves. -/
theorem run_compiled_above_any_state {program : List Statement} {code : List Instruction}
    (h : compile program = .ok code) (m : Machine) (taken : Array Text) :
    let run := m.run code
    let bare := ({ sink := ⟨m.sink.writer, taken⟩ } : Machine).run code
    (run.2 = none ∨ (∃ reason, run.2 = some (.outputRefused reason)) ∨
      ∃ d, run.2 = some (.diagnosed d) ∧ (d.kind = .divideByZero ∨ d.kind = .negativeSqrt)) ∧
    run.1.stack = bare.1.stack ++ m.stack ∧ (run.2 = none → run.1.stack = m.stack) ∧
    run.1.printed = m.printed ++ bare.1.printed ∧
    (∃ lines, run.1.sink.taken = m.sink.taken ++ lines ∧ bare.1.sink.taken = taken ++ lines) ∧
    run.2 = bare.2.map (Stop.raised m.depth) ∧
    ∀ name, run.1.table.get? name = (bare.1.table.get? name).or (m.table.get? name) := by
  intro run bare
  obtain ⟨habove, hstop⟩ : Machine.Above m taken bare.1 run.1 ∧
      run.2 = bare.2.map (Stop.raised m.depth) :=
    (Machine.Above.bare m taken).runFrom 0 code (not_isLack_of_compile h _)
  have hbare := run_bare_cases h ⟨m.sink.writer, taken⟩
  refine ⟨?_, habove.stack, ?_, habove.printed, habove.written, hstop, habove.table⟩
  · rw [hstop]
    rcases hbare with ⟨hnone, -⟩ | ⟨reason, hrefused⟩ | ⟨d, hd, hkind⟩
    · exact .inl (congrArg (Option.map (Stop.raised m.depth)) hnone)
    · exact .inr (.inl ⟨reason, congrArg (Option.map (Stop.raised m.depth)) hrefused⟩)
    · exact .inr (.inr ⟨_, congrArg (Option.map (Stop.raised m.depth)) hd, hkind⟩)
  · intro hnone
    -- the bare run went through as well, and left nothing
    have hthrough : bare.2 = none := by simpa [hstop] using hnone
    rcases hbare with ⟨-, hempty⟩ | ⟨reason, hrefused⟩ | ⟨d, hd, -⟩
    · rw [habove.stack, hempty, List.nil_append]
    · rw [hrefused] at hthrough
      cases hthrough
    · rw [hd] at hthrough
      cases hthrough

/-- A machine in the middle of something else. -/
def busyMachine : Machine where
  stack := [5, 6]
  table := (Table.empty.insert (ascii "x") 100).insert (ascii "y") 3
  printed := #[8]

/-- The division by zero in `faultingCode` is met above the old stack of two values,
under the old table. -/
theorem run_compiled_above_busyMachine :
    compile faultingProgram = .ok faultingCode ∧
    (∃ d, (busyMachine.run faultingCode).2 = some (.diagnosed d) ∧
      (d.kind = .divideByZero ∨ d.kind = .negativeSqrt)) ∧
    (busyMachine.run faultingCode).2 =
      (({} : Machine).run faultingCode).2.map (Stop.raised 2) ∧
    (busyMachine.run faultingCode).1.stack =
      (({} : Machine).run faultingCode).1.stack ++ [5, 6] ∧
    (busyMachine.run faultingCode).1.table.get? (ascii "y") =
      ((({} : Machine).run faultingCode).1.table.get? (ascii "y")).or (some 3) := by
  have hcompile : compile faultingProgram = .ok faultingCode := by decide +kernel
  have hstopped : (busyMachine.run faultingCode).2 ≠ none := by decide +kernel
  have hkind : (busyMachine.run faultingCode).2.map (fun stop => stop.machineReport.kind) =
      some .divideByZero := by decide +kernel
  obtain ⟨hcases, hstack, -, -, -, hstop, htable⟩ :=
    run_compiled_above_any_state hcompile busyMachine #[]
  refine ⟨hcompile, ?_, hstop, hstack, htable (ascii "y")⟩
  rcases hcases with hnone | ⟨reason, hrefused⟩ | hfault
  · exact absurd hnone hstopped
  · rw [hrefused] at hkind
    cases hkind
  · exact hfault

end Polish
