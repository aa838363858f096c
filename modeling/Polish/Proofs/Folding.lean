import Polish.Proofs.Constants
import Polish.Proofs.Listing

/-
  Folding — the compiler as an evaluator

  In a program that runs through, nothing that compiled has failed to run, and
  then the compiler is not only right about the values it knows: it knows them all.
  Its own evaluation follows the run statement by statement, and the first
  assignment whose value it cannot tell is the first that faults.

  What is proved:
    1. `Expr.known_eq_eval` — the value worked out without running is the value that
       running gives, or unknown where running fails.
    2. `Knows.runFrom`, `Knows.runFrom_program` — code that goes through keeps what
       the compiler knows equal to the table, for a statement and for a program.
    3. `Knows.foretells` — for the next assignment, an unknown value means a fault and
       a known one is stored.
    4. `constants_exact_along_execution` — both, for a new compiler and a program at
       any of its statements and at its end.
-/

namespace Polish

/-- A value that running gives is known without running, if the values that the
table holds are known. -/
theorem Expr.known_of_eval {α : Type} {values : Text → Option Int64} {table : Table} {e : Expr α}
    {value : Int64} (hvalues : ∀ name v, table.get? name = some v → values name = some v)
    (h : e.eval table = .ok value) : e.known values = some value := by
  induction e generalizing value with
  | number mark n =>
    cases h
    rfl
  | name mark word => exact hvalues word value (eval_name_eq_ok.mp h)
  | unary mark op operand ih =>
    obtain ⟨a, ha, hvalue⟩ := eval_unary_eq_ok.mp h
    rw [known, ih ha, Option.bind_some, hvalue]
    rfl
  | binary mark op left right ihl ihr =>
    obtain ⟨a, b, ha, hb, hvalue⟩ := eval_binary_eq_ok.mp h
    rw [known, ihl ha, ihr hb, Option.bind_some, Option.bind_some, hvalue]
    rfl

theorem Expr.known_eq_eval {α : Type} {values : Text → Option Int64} {table : Table}
    (hvalues : ∀ name, values name = table.get? name) (e : Expr α) :
    e.known values = (e.eval table).toOption := by
  cases heval : e.eval table with
  | ok value => exact known_of_eval (fun name v hv => (hvalues name).trans hv) heval
  | error err =>
    rw [Except.toOption, Option.eq_none_iff_forall_ne_some]
    intro v hknown
    have hok := eval_of_known (fun name v hv => (hvalues name).symm.trans hv) hknown
    rw [heval] at hok
    cases hok

namespace Compiler

/-- The compiler knows the table: it has assigned what the table binds, and the value
of each name is known. -/
structure Knows (c : Compiler) (table : Table) : Prop where
  symbols : c.symbols = table
  constant : ∀ name, c.constant? name = table.get? name

/-- What `c` knows of `name`, once it took in an assignment to it, is what becomes of
running the assignment on `m`: the value stored, and no value if there is a fault. -/
structure Foretells (c : Compiler) (name : Text) (m : Machine)
    (outcome : Machine × Option Stop) : Prop where
  faults : (∃ d, outcome.2 = some (.diagnosed d)) ↔ c.constant? name = none
  stores : (∀ d, outcome.2 ≠ some (.diagnosed d)) → ∃ value, c.constant? name = some value ∧
    outcome = ({ m with table := m.table.insert name value }, none)

namespace Knows

variable {c c' : Compiler} {m m' : Machine}

theorem start : Knows {} .empty := ⟨rfl, fun _ => rfl⟩

theorem setProgram {table : Table} (h : c.Knows table) (program : Array Instruction) :
    Knows { c with program } table :=
  ⟨h.symbols, h.constant⟩

theorem assign {table : Table} (h : c.Knows table) (target : Text) (value : Int64) :
    (c.assign target ⟨value, true⟩).Knows (table.insert target value) := by
  refine ⟨?_, ?_⟩
  · rw [Compiler.assign, h.symbols]
  · intro name
    rw [constant?_assign, Table.get?_insert, h.constant]
    rfl

theorem runFrom {st : Statement} {code : List Instruction} {pc : Nat} (h : c.Knows m.table)
    (hc : c.extend st = .ok (code, c')) (hrun : Machine.runFrom pc code m = (m', none)) :
    c'.Knows m'.table := by
  obtain ⟨command, -, -, rfl, rfl⟩ := extend_eq_ok_iff.mp hc
  have hprogram := h.setProgram (c.program ++ command.code)
  rcases Machine.runFrom_command_cases hrun with
    ⟨err, n, i, above, -, -, hstop⟩ | ⟨mark, targetMark, target, e, value, rfl, heval, rfl, -⟩ |
    ⟨mark, e, value, rfl, -, rfl, -⟩
  · cases hstop
  · have hknown : e.known c.constant? = some value := by
      rw [Expr.known_eq_eval h.constant, heval]
      rfl
    rw [← c.constant?_folded_look] at hknown
    simp only [commit, Command.assigned, Folded.eq_of_constant? hknown]
    exact hprogram.assign target value
  · exact hprogram

theorem runFrom_program {program : List Statement} {code : List Instruction} {pc : Nat}
    (h : c.Knows m.table) (hc : c.extendAll program = (c', none))
    (hcode : c'.program.toList = c.program.toList ++ code)
    (hrun : Machine.runFrom pc code m = (m', none)) : c'.Knows m'.table := by
  induction program generalizing c m pc code with
  | nil =>
    cases hc
    obtain rfl : code = [] := List.self_eq_append_right.mp hcode
    cases hrun
    exact h
  | cons st rest ih =>
    obtain ⟨first, c₁, hst, hrest⟩ := extendAll_cons_eq_ok hc
    obtain ⟨second, hsecond⟩ := extendAll_program hrest
    obtain rfl : first ++ second = code := by
      rw [← hsecond, extend_program hst, List.append_assoc] at hcode
      exact List.append_cancel_left hcode
    cases hfirst : Machine.runFrom pc first m with
    | mk m₁ stop =>
      cases stop with
      | some stop =>
        rw [Machine.runFrom_append_of_stop hfirst] at hrun
        cases hrun
      | none =>
        rw [Machine.runFrom_append_of_ok hfirst] at hrun
        exact ih (h.runFrom hst hfirst) hrest hsecond.symm hrun

theorem of_execute {program : List Statement} (hc : extendAll {} program = (c, none))
    (hrun : m.execute c.program.toList = (m', none)) : c.Knows m'.table :=
  runFrom_program (m := m.reset) start hc rfl hrun

/-- A compiler that knows the table can tell what becomes of the next assignment. -/
theorem foretells {st : Statement} {code : List Instruction} {name : Text} (h : c.Knows m.table)
    (hc : c.extend st = .ok (code, c')) (hname : st.assigned? = some name) (pc : Nat) :
    c'.Foretells name m (Machine.runFrom pc code m) := by
  obtain ⟨command, hparse, -, rfl, rfl⟩ := extend_eq_ok_iff.mp hc
  have hassigned := (Statement.assigned?_of_parse hparse c.look).1
  rw [hname] at hassigned
  cases command with
  | print mark e => cases hassigned
  | assign mark targetMark target e =>
    obtain rfl : target = name := Option.some.inj hassigned
    -- the compiler has evaluated the expression in the machine's table
    have hconstant : ∀ code, (c.commit ⟨code, some (target, e.folded c.look)⟩).constant? target =
        (e.eval m.table).toOption := by
      intro code
      rw [commit, constant?_assign, if_pos rfl, c.constant?_folded_look,
        Expr.known_eq_eval h.constant]
    cases heval : e.eval m.table with
    | error err =>
      rw [heval] at hconstant
      have hfaults : Machine.FaultsWithin pc (Command.assign mark targetMark target e).code m
          err.fault := Machine.runFrom_command_of_error heval pc
      obtain ⟨j, i, above, -, hrun⟩ := hfaults
      rw [hrun]
      exact ⟨⟨fun _ => hconstant _, fun _ => ⟨_, rfl⟩⟩, fun hgoes => absurd rfl (hgoes _)⟩
    | ok value =>
      rw [heval] at hconstant
      rw [Machine.runFrom_assign heval]
      refine ⟨⟨?_, ?_⟩, fun _ => ⟨value, hconstant _, rfl⟩⟩
      · rintro ⟨d, hstop⟩
        cases hstop
      · intro hunknown
        cases hunknown.symm.trans (hconstant _)

end Knows

end Compiler

/-- For every program that a new compiler takes in, and whatever the machine's sink
takes. Let the code of the statements before one run through. If that statement is
an assignment, then running its code next, alone or behind the code before it, faults
exactly if the compiler that took it in does not know the value of the name, and
otherwise it stores the value that the compiler knows. And if the code of the whole
program runs through, the table that it leaves is the compiler's own, and the value
of every name that has been assigned is known. -/
theorem constants_exact_along_execution {program : List Statement} {c : Compiler}
    (h : Compiler.extendAll {} program = (c, none)) (m : Machine) :
    (∀ k st name, program[k]? = some st → st.assigned? = some name →
      ∃ before code after, Compiler.extendAll {} (program.take k) = (before, none) ∧
        before.extend st = .ok (code, after) ∧
        ∀ m₁, m.execute before.program.toList = (m₁, none) →
          after.Foretells name m₁ (m₁.run code) ∧
          after.Foretells name m₁ (m.execute after.program.toList)) ∧
    ∀ m', m.execute c.program.toList = (m', none) →
      c.symbols = m'.table ∧ (∀ name, c.constant? name = m'.table.get? name) ∧
      ∀ name, c.symbols.contains name = true → (c.constant? name).isSome = true := by
  refine ⟨?_, ?_⟩
  · intro k st name hst hname
    obtain ⟨hk, rfl⟩ := List.getElem?_eq_some_iff.mp hst
    have hsplit : program.take k ++ program[k] :: program.drop (k + 1) = program := by
      rw [List.getElem_cons_drop, List.take_append_drop]
    rw [← hsplit] at h
    obtain ⟨before, code, after, hbefore, hextend, -⟩ := Compiler.extendAll_split h
    refine ⟨before, code, after, hbefore, hextend, ?_⟩
    intro m₁ hrun
    have hknows := Compiler.Knows.of_execute hbefore hrun
    refine ⟨hknows.foretells hextend hname 0, ?_⟩
    have hexecute : m.execute after.program.toList =
        Machine.runFrom (0 + before.program.toList.length) code m₁ := by
      rw [Compiler.extend_program hextend]
      exact Machine.runFrom_append_of_ok hrun code
    rw [hexecute]
    exact hknows.foretells hextend hname _
  · intro m' hrun
    have hknows := Compiler.Knows.of_execute h hrun
    refine ⟨hknows.symbols, hknows.constant, ?_⟩
    intro name hname
    rw [hknows.constant, ← hknows.symbols]
    exact hname

/-- Three statements that run through, and an assignment that divides by zero. -/
def foldedProgram : List Statement :=
  Statement.ofSource (ascii ":= x 7\n:= y / x 2\n@ y\n:= z / 1 - x 7")

/-- The compiler after the first three statements of `foldedProgram` knows the table
that they leave, with `y` bound to 3. After the fourth it does not know `z`, and the
code of the fourth faults. -/
theorem constants_exact_along_execution_folded :
    ∃ before code after m₁ d,
      Compiler.extendAll {} (foldedProgram.take 3) = (before, none) ∧
      (∃ st ∈ foldedProgram, st.assigned? = some (ascii "z") ∧
        before.extend st = .ok (code, after)) ∧
      ({} : Machine).execute before.program.toList = (m₁, none) ∧
      before.symbols = m₁.table ∧ before.constant? (ascii "y") = some 3 ∧
      m₁.table.get? (ascii "y") = some 3 ∧
      after.constant? (ascii "z") = none ∧ (m₁.run code).2 = some (.diagnosed d) := by
  have hcompiles : (Compiler.extendAll {} foldedProgram).2 = none := by decide +kernel
  have hlast : foldedProgram[3]?.bind Statement.assigned? = some (ascii "z") := by decide +kernel
  have hrun : (({} : Machine).execute
      (Compiler.extendAll {} (foldedProgram.take 3)).1.program.toList).2 = none := by decide +kernel
  have hy : (Compiler.extendAll {} (foldedProgram.take 3)).1.constant? (ascii "y") = some 3 := by
    decide +kernel
  have hz : (foldedProgram[3]?.bind fun st =>
      ((Compiler.extendAll {} (foldedProgram.take 3)).1.extend st).toOption.map fun r =>
        r.2.constant? (ascii "z")) = some none := by decide +kernel
  obtain ⟨st, hst, hname⟩ := Option.bind_eq_some_iff.mp hlast
  obtain ⟨before, code, after, hbefore, hextend, hforetells⟩ :=
    (constants_exact_along_execution (Prod.ext rfl hcompiles) {}).1 3 st _ hst hname
  rw [hbefore] at hrun hy hz
  have hunknown : after.constant? (ascii "z") = none := by
    simpa [hst, hextend, Except.toOption] using hz
  obtain ⟨hsymbols, hconstant, -⟩ :=
    (constants_exact_along_execution hbefore {}).2 _ (Prod.ext rfl hrun)
  obtain ⟨d, hd⟩ := (hforetells _ (Prod.ext rfl hrun)).1.faults.mpr hunknown
  exact ⟨before, code, after, _, d, hbefore, ⟨st, List.mem_of_getElem? hst, hname, hextend⟩,
    Prod.ext rfl hrun, hsymbols, hy, (hconstant _).symm.trans hy, hunknown, hd⟩

end Polish
