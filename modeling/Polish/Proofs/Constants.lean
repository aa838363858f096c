import Polish.Proofs.Replay

/-
  Constants — what the compiler knows of a session's values

  The compiler works out values before anything runs. In a session a line may
  compile and then stop, and then the compiler takes a name for assigned that the
  machine has never stored. The value of such a name is unknown to the compiler,
  and so is every value made from it. Whatever it does know is right.

  What is proved:
    1. `eval_of_known` — a value that is known without running is the value that
       running gives; `value_folded` — one that is not known is worked out as 0.
    2. `Tracks.run` — a statement that compiles keeps the compiler in step with the
       table, whether its code goes through or stops.
    3. `tracks_follow` — so does any sequence of inputs to a session.
    4. `session_constants_sound` — the same, spelled out, with what it says of
       reads that find no value.
-/

namespace Polish

/-- A value that is known without running is the value of the expression, if the
known values of names are those that the table holds. -/
theorem Expr.eval_of_known {α : Type} {values : Text → Option Int64} {table : Table} {e : Expr α}
    {value : Int64} (hvalues : ∀ name v, values name = some v → table.get? name = some v)
    (h : e.known values = some value) : e.eval table = .ok value := by
  induction e generalizing value with
  | number mark n =>
    cases h
    rfl
  | name mark word => exact eval_name_eq_ok.mpr (hvalues word value h)
  | unary mark op operand ih =>
    obtain ⟨a, ha, hvalue⟩ := Option.bind_eq_some_iff.mp h
    refine eval_unary_eq_ok.mpr ⟨a, ih ha, ?_⟩
    cases happly : op.apply a with
    | error cause => simp [happly, Except.toOption] at hvalue
    | ok v => simpa [happly, Except.toOption] using hvalue
  | binary mark op left right ihl ihr =>
    obtain ⟨a, ha, h⟩ := Option.bind_eq_some_iff.mp h
    obtain ⟨b, hb, hvalue⟩ := Option.bind_eq_some_iff.mp h
    refine eval_binary_eq_ok.mpr ⟨a, b, ihl ha, ihr hb, ?_⟩
    cases happly : op.apply a b with
    | error cause => simp [happly, Except.toOption] at hvalue
    | ok v => simpa [happly, Except.toOption] using hvalue

/-- An expression that lacks the value of a name reads a name the table does not
bind. -/
theorem Expr.get?_of_eval_unassigned {α : Type} {table : Table} {e : Expr α} {name : Text}
    (h : e.eval table = .error (.unassigned name)) : table.get? name = none := by
  induction e with
  | number mark n => cases h
  | name mark word =>
    obtain ⟨hget, hname⟩ := eval_name_eq_error.mp h
    cases hname
    exact hget
  | unary mark op operand ih =>
    rcases eval_unary_eq_error.mp h with ha | ⟨a, cause, -, -, herr⟩
    · exact ih ha
    · cases herr
  | binary mark op left right ihl ihr =>
    rcases eval_binary_eq_error.mp h with ha | ⟨a, -, hb⟩ | ⟨a, b, cause, -, -, -, herr⟩
    · exact ihl ha
    · exact ihr hb
    · cases herr

namespace Compiler

theorem constant?_assign (c : Compiler) (name : Text) (folded : Folded) (other : Text) :
    (c.assign name folded).constant? other =
      if name = other then folded.constant? else c.constant? other := by
  obtain ⟨value, known⟩ := folded
  by_cases hname : name = other
  · subst hname
    cases known with
    | false => simp [constant?, assign, Folded.constant?]
    | true => simp [constant?, assign, Folded.constant?, Table.get?_insert]
  · -- the name leaves or enters the list of unknown names, the other one stays
    have hother : ¬ other = name := fun h => hname h.symm
    cases known with
    | false => simp [constant?, assign, Table.get?_insert, hname, hother]
    | true => simp [constant?, assign, Table.get?_insert, hname, hother]

/-- The compiler is in step with a table: what it knows is there, what is there has
been assigned, and what it does not know it keeps as 0. -/
structure Tracks (c : Compiler) (table : Table) : Prop where
  known : ∀ name value, c.constant? name = some value → table.get? name = some value
  declared : ∀ name, table.contains name = true → c.symbols.contains name = true
  zero : ∀ name, c.symbols.contains name = true → c.constant? name = none →
    c.symbols.get? name = some 0

namespace Tracks

variable {c : Compiler} {table : Table}

theorem start : Tracks {} .empty :=
  ⟨fun _ _ h => h, fun _ h => h, fun _ h => by simp at h⟩

theorem setProgram (h : c.Tracks table) (program : Array Instruction) :
    Tracks { c with program } table :=
  ⟨h.known, h.declared, h.zero⟩

theorem value_look (h : c.Tracks table) (name : Text) (hunknown : (c.look name).known = false) :
    (c.look name).value = 0 := by
  have hconstant : c.constant? name = none := by
    rw [← c.constant?_look, Folded.constant?, hunknown]
    rfl
  cases hget : c.symbols.get? name with
  | none => rw [look, folded?, hget, Option.map_none, Option.getD_none]
  | some value =>
    have hzero := h.zero name (Table.contains_iff.mpr ⟨value, hget⟩) hconstant
    rw [hget] at hzero
    rw [look, folded?, hget, Option.map_some, Option.getD_some]
    exact Option.some.inj hzero

theorem value_folded {α : Type} (h : c.Tracks table) {e : Expr α}
    (hunknown : e.known c.constant? = none) : (e.folded c.look).value = 0 := by
  apply Expr.value_folded_of_unknown h.value_look
  rw [← c.constant?_folded_look, Folded.constant?] at hunknown
  cases hknown : (e.folded c.look).known with
  | false => rfl
  | true =>
    rw [hknown, if_pos rfl] at hunknown
    cases hunknown

/-- Whatever becomes of the table, a name assigned has a value that is known or is
kept as 0. -/
theorem zero_assign {α : Type} (h : c.Tracks table) (target : Text) (e : Expr α) (name : Text)
    (hname : (c.assign target (e.folded c.look)).symbols.contains name = true)
    (hunknown : (c.assign target (e.folded c.look)).constant? name = none) :
    (c.assign target (e.folded c.look)).symbols.get? name = some 0 := by
  rw [constant?_assign] at hunknown
  simp only [assign, Table.get?_insert, Table.contains_insert] at hname ⊢
  by_cases htarget : target = name
  · simp only [htarget, if_true] at hunknown ⊢
    rw [c.constant?_folded_look] at hunknown
    rw [h.value_folded hunknown]
  · simp only [htarget, if_false, decide_false, Bool.false_or] at hname hunknown ⊢
    exact h.zero name hname hunknown

theorem stored {α : Type} (h : c.Tracks table) (target : Text) {e : Expr α} {value : Int64}
    (hknown : ∀ v, e.known c.constant? = some v → v = value) :
    (c.assign target (e.folded c.look)).Tracks (table.insert target value) := by
  refine ⟨?_, ?_, h.zero_assign target e⟩
  · intro name v hv
    rw [constant?_assign, c.constant?_folded_look] at hv
    rw [Table.get?_insert]
    by_cases htarget : target = name
    · simp only [htarget, if_true] at hv ⊢
      rw [hknown v hv]
    · simp only [htarget, if_false] at hv ⊢
      exact h.known name v hv
  · intro name hname
    simp only [assign, Table.contains_insert, Bool.or_eq_true] at hname ⊢
    exact hname.imp_right (h.declared name)

theorem unstored {α : Type} (h : c.Tracks table) (target : Text) {e : Expr α}
    (hunknown : e.known c.constant? = none) :
    (c.assign target (e.folded c.look)).Tracks table := by
  refine ⟨?_, ?_, h.zero_assign target e⟩
  · intro name v hv
    rw [constant?_assign, c.constant?_folded_look, hunknown] at hv
    by_cases htarget : target = name
    · simp [htarget] at hv
    · simp only [htarget, if_false] at hv
      exact h.known name v hv
  · intro name hname
    simp only [assign, Table.contains_insert, Bool.or_eq_true]
    exact .inr (h.declared name hname)

open Machine in
/-- A statement that compiles keeps the compiler in step with the table, however
the run of its code ends. -/
theorem run {c' : Compiler} {m m' : Machine} {st : Statement} {code : List Instruction}
    {stop : Option Stop} (h : c.Tracks m.table) (hc : c.extend st = .ok (code, c'))
    (hrun : m.run code = (m', stop)) : c'.Tracks m'.table := by
  obtain ⟨command, -, -, rfl, rfl⟩ := extend_eq_ok_iff.mp hc
  have hprogram := h.setProgram (c.program ++ command.code)
  rcases runFrom_command_cases hrun with
    ⟨err, pc, i, above, heval, rfl, -⟩ |
    ⟨mark, targetMark, target, e, value, rfl, heval, rfl, -⟩ | ⟨mark, e, value, rfl, -, rfl, -⟩
  · cases command with
    | print mark e => exact hprogram
    | assign mark targetMark target e =>
      -- had the value been known, there would have been no fault
      have hunknown : e.known c.constant? = none := by
        cases hknown : e.known c.constant? with
        | none => rfl
        | some v =>
          have hok := Expr.eval_of_known h.known hknown
          rw [Command.value, hok] at heval
          cases heval
      exact hprogram.unstored target hunknown
  · apply hprogram.stored target
    intro v hknown
    have hok := Expr.eval_of_known h.known hknown
    rw [heval] at hok
    exact (Except.ok.inj hok).symm
  · exact hprogram

end Tracks

end Compiler

/-! ## Sessions -/

theorem tracks_of_effect {s s' : Session} {line : Text} {outcome : Session.Outcome}
    (h : s.compiler.Tracks s.machine.table) (heffect : Session.Effect s line outcome s') :
    s'.compiler.Tracks s'.machine.table := by
  cases heffect with
  | idle => exact h
  | told texts => exact h
  | restarted => exact .start
  | rejected compiled => exact h
  -- dropping the stack and emptying the sink leave the table alone
  | stopped compiled ran => exact (h.run compiled ran :)
  | carriedOut compiled ran => exact (h.run compiled ran :)

theorem tracks_follow {s : Session} (h : s.compiler.Tracks s.machine.table)
    (inputs : List Text) : (s.follow inputs).compiler.Tracks (s.follow inputs).machine.table := by
  induction inputs generalizing s with
  | nil => exact h
  | cons input rest ih => exact ih (tracks_of_effect h (s.effect_respond input))

theorem EvalError.eq_unassigned_of_kind {err : EvalError}
    (h : err.fault.kind = .undefinedVariable) : ∃ name, err = .unassigned name := by
  cases err with
  | unassigned name => exact ⟨name, rfl⟩
  | divisionByZero a => cases h
  | negativeRoot a => cases h

/-- A read that finds no value is of a name whose value the compiler did not know,
and does not know after the line. -/
theorem constant?_of_undefinedVariable {c c' : Compiler} {m m' : Machine} {st : Statement}
    {code : List Instruction} {d : Diagnostic} (h : c.Tracks m.table)
    (hc : c.extend st = .ok (code, c')) (hrun : m.run code = (m', some (.diagnosed d)))
    (hkind : d.kind = .undefinedVariable) :
    ∃ name, d.message = (Machine.Fault.unbound name).message ∧
      c.constant? name = none ∧ c'.constant? name = none := by
  have hafter := h.run hc hrun
  obtain ⟨command, -, -, rfl, -⟩ := Compiler.extend_eq_ok_iff.mp hc
  rcases Machine.runFrom_command_cases hrun with
    ⟨err, pc, i, above, heval, rfl, hstop⟩ | ⟨-, -, -, -, -, -, -, -, hstop⟩ |
    ⟨-, -, -, -, -, -, hstop⟩
  · cases hstop
    obtain ⟨name, rfl⟩ := err.eq_unassigned_of_kind hkind
    have hget := Expr.get?_of_eval_unassigned heval
    -- a known value would be in the table, before the run and after it
    have hunknown : ∀ c : Compiler, c.Tracks m.table → c.constant? name = none := by
      intro c htracks
      cases hknown : c.constant? name with
      | none => rfl
      | some v =>
        rw [htracks.known name v hknown] at hget
        cases hget
    exact ⟨name, rfl, hunknown c h, hunknown c' hafter⟩
  · cases hstop
  · exact absurd hstop.symm (m.sink.refusal_ne_diagnosed d)

theorem Session.err_of_stopped {s : Session} {line : Text} {code : List Instruction}
    {compiler : Compiler} {m : Machine} {stop : Stop}
    (hc : s.compiler.extend (s.statement line) = .ok (code, compiler))
    (hrun : s.machine.run code = (m, some stop)) :
    (s.enter line).1.err = runtimeError stop := by
  rw [statement] at hc
  simp only [enter, hc, hrun]

/-- After any inputs to a new session, whatever its sink takes: a value that the
compiler knows is the one the machine's table holds, every name in that table has
been assigned, and an assigned name whose value is not known stands with 0 in the
compiler's table. So a line that stops because a name has no value reads a name
whose value the compiler does not know, before that line and after it. -/
theorem session_constants_sound (sink : Sink) (inputs : List Text) :
    let s := Session.follow { machine := { sink } } inputs
    (∀ name value, s.compiler.constant? name = some value →
      s.machine.table.get? name = some value) ∧
    (∀ name, s.machine.table.contains name = true → s.compiler.symbols.contains name = true) ∧
    (∀ name, s.compiler.symbols.contains name = true → s.compiler.constant? name = none →
      s.compiler.symbols.get? name = some 0) ∧
    ∀ line code compiler m d, s.compiler.extend (s.statement line) = .ok (code, compiler) →
      s.machine.run code = (m, some (.diagnosed d)) → d.kind = .undefinedVariable →
      (s.enter line).1.err = Session.runtimeError (.diagnosed d) ∧
      ∃ name, d.message = (Machine.Fault.unbound name).message ∧
        s.compiler.constant? name = none ∧ compiler.constant? name = none := by
  intro s
  have h : s.compiler.Tracks s.machine.table := tracks_follow .start inputs
  refine ⟨h.known, h.declared, h.zero, ?_⟩
  intro line code compiler m d hc hrun hkind
  exact ⟨Session.err_of_stopped hc hrun, constant?_of_undefinedVariable h hc hrun hkind⟩

/-- After `troubledInputs` the compiler knows `x` and has `y` with 0, and reading `y`
stops the line for want of a value. -/
theorem session_constants_sound_troubled :
    let s := Session.follow {} troubledInputs
    (s.compiler.constant? (ascii "x") = some 7 ∧
      s.machine.table.get? (ascii "x") = some 7 ∧
      s.compiler.symbols.contains (ascii "x") = true) ∧
    (s.compiler.constant? (ascii "y") = none ∧
      s.compiler.symbols.get? (ascii "y") = some 0) ∧
    ∃ code compiler m d,
      s.compiler.extend (s.statement (ascii "@ + x y")) = .ok (code, compiler) ∧
      s.machine.run code = (m, some (.diagnosed d)) ∧ d.kind = .undefinedVariable ∧
      ∃ name, d.message = (Machine.Fault.unbound name).message ∧
        s.compiler.constant? name = none ∧ compiler.constant? name = none := by
  intro s
  obtain ⟨hknown, hdeclared, hzero, hfault⟩ := session_constants_sound {} troubledInputs
  have hx : s.compiler.constant? (ascii "x") = some 7 := by decide +kernel
  have hy : s.compiler.constant? (ascii "y") = none := by decide +kernel
  have hydeclared : s.compiler.symbols.contains (ascii "y") = true := by decide +kernel
  have hxbound : s.machine.table.get? (ascii "x") = some 7 := hknown _ _ hx
  refine ⟨⟨hx, hxbound, hdeclared _ (Table.contains_iff.mpr ⟨7, hxbound⟩)⟩,
    ⟨hy, hzero _ hydeclared hy⟩, ?_⟩
  -- the line compiles, and its run stops with that kind
  have hstops : (s.compiler.extend (s.statement (ascii "@ + x y"))).toOption.bind (fun r =>
      (s.machine.run r.1).2.map fun stop => stop.machineReport.kind) =
        some .undefinedVariable := by decide +kernel
  cases hc : s.compiler.extend (s.statement (ascii "@ + x y")) with
  | error d => rw [hc] at hstops; cases hstops
  | ok r =>
    rw [hc] at hstops
    cases hrun : s.machine.run r.1 with
    | mk m stop =>
      simp only [Except.toOption, Option.bind_some, hrun] at hstops
      cases stop with
      | none => cases hstops
      | some stop =>
        cases stop with
        | outputRefused reason => cases hstops
        | diagnosed d =>
          have hkind : d.kind = .undefinedVariable := Option.some.inj hstops
          obtain ⟨-, hname⟩ := hfault _ r.1 r.2 m d hc hrun hkind
          exact ⟨r.1, r.2, m, d, rfl, hrun, hkind, hname⟩

end Polish
