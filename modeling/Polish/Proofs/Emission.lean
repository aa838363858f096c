import Polish.Proofs.Postfix

/-
  Emission — compiling in place, call after call

  An emitter is a compiler that works in place. While it reads a statement it keeps
  a place among the tokens and a buffer of code, and it writes code before it knows
  whether the statement is right: the name that has not been assigned, the number
  out of range or the token too many may come last. What a failed call has written
  stays in the buffer until the next call, so the question is whether any of it is
  ever seen.

  What is proved:
    1. `emitExpr_beside`, `emitCommand_beside` — an emitter reads as the compiler
       does, and up to the end of a statement commits nothing.
    2. `emit_cases` — a call does what `Compiler.extend` does, whatever was left in
       the buffer.
    3. `emitEach_accepted` — a sequence of calls commits what its successful calls
       commit.
    4. `emission_keeps_what_succeeds` — all this, from a new emitter.
-/

namespace Polish

/-- A compiler with the statement it reads, the place of the next token in it, and
the code written for it so far. -/
structure Emitter extends Compiler where
  statement : Statement := ⟨0, []⟩
  place : Nat := 0
  buffer : Array Instruction := #[]

namespace Emitter

/-! ## Reading and writing -/

/-- The tokens of the statement that have not been read. -/
def ahead (e : Emitter) : List Token := e.statement.tokens.drop e.place

/-- An emitter that has read more of its tokens than `e`. -/
abbrev Beyond (e : Emitter) := { e' : Emitter // e'.ahead.length < e.ahead.length }

/-- The next token, if there is one, and the emitter that has read it. -/
def next? (e : Emitter) : Option (Token × Beyond e) :=
  if h : e.place < e.statement.tokens.length then
    some (e.statement.tokens[e.place], ⟨{ e with place := e.place + 1 }, by
      simp only [ahead, List.length_drop]
      omega⟩)
  else none

def write (e : Emitter) (i : Instruction) : Emitter := { e with buffer := e.buffer.push i }

def failure (e : Emitter) (reason : CompileError) : Diagnostic × Emitter :=
  (reason.diagnostic e.statement, e)

/-- Reads one expression, writes its code and works out its value. -/
def emitExpr (e : Emitter) : Except (Diagnostic × Emitter) (Folded × Beyond e) :=
  match e.next? with
  | none => .error (e.failure (.grammar .missingOperand))
  | some (t, ⟨e₁, h₁⟩) =>
    match t.kind with
    | .number =>
      match Literal.read t.text with
      | .ok value => .ok (⟨value, true⟩, ⟨e₁.write (.push value), h₁⟩)
      | .error reason => .error (e₁.failure (.badNumber t reason))
    | .name =>
      match e₁.folded? t.text with
      | some folded => .ok (folded, ⟨e₁.write (.load t.text), h₁⟩)
      | none => .error (e₁.failure (.unassigned t))
    | .unary op =>
      match e₁.emitExpr with
      | .error failed => .error failed
      | .ok (operand, ⟨e₂, h₂⟩) =>
        .ok (.unary op operand, ⟨e₂.write (.plain op.opcode), Nat.lt_trans h₂ h₁⟩)
    | .binary op =>
      match e₁.emitExpr with
      | .error failed => .error failed
      | .ok (left, ⟨e₂, h₂⟩) =>
        match e₂.emitExpr with
        | .error failed => .error failed
        | .ok (right, ⟨e₃, h₃⟩) =>
          .ok (.binary op left right,
            ⟨e₃.write (.plain op.opcode), Nat.lt_trans h₃ (Nat.lt_trans h₂ h₁)⟩)
    | .finish | .unknown | .assign | .print => .error (e₁.failure (.grammar (.notOperand t)))
termination_by e.ahead.length

/-- Reads the words in front of the expression: the name that is assigned, or none
where the value is printed. -/
def emitHead (e : Emitter) : Except (Diagnostic × Emitter) (Option Text × Emitter) :=
  match e.next? with
  | none => .error (e.failure (.grammar .emptyStatement))
  | some (keyword, ⟨e₁, _⟩) =>
    match keyword.kind with
    | .assign =>
      match e₁.next? with
      | none => .error (e₁.failure (.grammar .missingTarget))
      | some (target, ⟨e₂, _⟩) =>
        match target.kind with
        | .name => .ok (some target.text, e₂)
        | _ => .error (e₂.failure (.grammar (.targetNotName target)))
    | .print => .ok (none, e₁)
    | _ => .error (e₁.failure (.grammar (.unknownKeyword keyword)))

/-- Reads an expression that takes up the rest of the tokens. -/
def emitWholeExpr (e : Emitter) : Except (Diagnostic × Emitter) (Folded × Emitter) :=
  match e.emitExpr with
  | .error failed => .error failed
  | .ok (folded, ⟨e₁, _⟩) =>
    match e₁.ahead with
    | [] => .ok (folded, e₁)
    | extra :: _ => .error (e₁.failure (.grammar (.unexpectedToken extra)))

/-- Reads the expression of a statement and writes the instruction that ends it. -/
def emitBody (e : Emitter) (target : Option Text) :
    Except (Diagnostic × Emitter) (Option (Text × Folded) × Emitter) :=
  match e.emitWholeExpr with
  | .error failed => .error failed
  | .ok (folded, e₁) =>
    .ok (target.map fun name => (name, folded), e₁.write (target.elim (.plain .print) .store))

/-- Reads a command that takes up all the tokens: the name it assigns, if it assigns
one, with its value. -/
def emitCommand (e : Emitter) :
    Except (Diagnostic × Emitter) (Option (Text × Folded) × Emitter) :=
  match e.emitHead with
  | .error failed => .error failed
  | .ok (target, e₁) => e₁.emitBody target

/-- Starts on a statement, with nothing read and nothing written. -/
def start (e : Emitter) (st : Statement) : Emitter :=
  { e with statement := st, place := 0, buffer := #[] }

/-- Takes the code in the buffer into the program. -/
def commitBuffer (e : Emitter) (assigned : Option (Text × Folded)) : Emitter :=
  { e with toCompiler := e.commit ⟨e.buffer.toList, assigned⟩ }

/-- Compiles a statement. After a failure the emitter is left as it stood then. -/
def emit (e : Emitter) (st : Statement) : Except Diagnostic (List Instruction) × Emitter :=
  match (e.start st).emitCommand with
  | .error (d, e₁) => (.error d, e₁)
  | .ok (assigned, e₁) => (.ok e₁.buffer.toList, e₁.commitBuffer assigned)

/-! ## Beside the compiler -/

/-- From `e` the emitter `e'` was reached within a statement: nothing has been
committed, `rest` is left to read, and `code` stands in the buffer. -/
structure Reached (e e' : Emitter) (rest : List Token) (code : Array Instruction) : Prop where
  compiler : e'.toCompiler = e.toCompiler
  statement : e'.statement = e.statement
  ahead : e'.ahead = rest
  buffer : e'.buffer = code

theorem Reached.write {e e' : Emitter} {rest : List Token} {code : Array Instruction}
    (h : e.Reached e' rest code) (i : Instruction) : e.Reached (e'.write i) rest (code.push i) :=
  ⟨h.compiler, h.statement, h.ahead, congrArg (·.push i) h.buffer⟩

theorem Reached.trans {e e₁ e₂ : Emitter} {rest₁ rest₂ : List Token}
    {code₁ code₂ : Array Instruction} (h₁ : e.Reached e₁ rest₁ code₁)
    (h₂ : e₁.Reached e₂ rest₂ code₂) : e.Reached e₂ rest₂ code₂ :=
  ⟨h₂.compiler.trans h₁.compiler, h₂.statement.trans h₁.statement, h₂.ahead, h₂.buffer⟩

/-- What the emitter `e` does beside what the compiler does with the same tokens.
Both succeed, with results that `R` relates, or both fail with the same complaint,
and then nothing has been committed. -/
inductive Beside (e : Emitter) {α β : Type} (R : α → β → Prop) :
    Except (Diagnostic × Emitter) α → Except CompileError β → Prop
  | ok {a : α} {b : β} (related : R a b) : Beside e R (.ok a) (.ok b)
  | error {reason : CompileError} {e' : Emitter} {rest : List Token} {code : Array Instruction}
      (reached : e.Reached e' rest code) :
      Beside e R (.error (reason.diagnostic e.statement, e')) (.error reason)

theorem Reached.failure {e e' : Emitter} {rest : List Token} {code : Array Instruction}
    (h : e.Reached e' rest code) {α β : Type} {R : α → β → Prop} (reason : CompileError) :
    e.Beside R (.error (e'.failure reason)) (.error reason) := by
  rw [Emitter.failure, h.statement]
  exact .error h

theorem Reached.beside_error {e e₁ e' : Emitter} {rest₁ rest : List Token}
    {code₁ code : Array Instruction} (h : e.Reached e₁ rest₁ code₁) (h' : e₁.Reached e' rest code)
    {α β : Type} {R : α → β → Prop} (reason : CompileError) :
    e.Beside R (.error (reason.diagnostic e₁.statement, e')) (.error reason) := by
  rw [h.statement]
  exact .error (h.trans h')

theorem next?_of_nil {e : Emitter} (h : e.ahead = []) : e.next? = none := by
  have hplace := List.drop_eq_nil_iff.mp h
  exact dif_neg (by omega)

theorem next?_of_cons {e : Emitter} {t : Token} {rest : List Token} (h : e.ahead = t :: rest) :
    ∃ e₁ h₁, e.next? = some (t, ⟨e₁, h₁⟩) ∧ e.Reached e₁ rest e.buffer := by
  have hplace : e.place < e.statement.tokens.length := by
    have hlength := congrArg List.length h
    simp only [ahead, List.length_drop, List.length_cons] at hlength
    omega
  rw [ahead, List.drop_eq_getElem_cons hplace] at h
  obtain ⟨rfl, hrest⟩ := List.cons.inj h
  exact ⟨_, _, dif_pos hplace, rfl, rfl, hrest, rfl⟩

/-- The emitter that has read an expression stands at the tokens that the compiler
leaves, with the compiler's code in its buffer and the same value. -/
def ExprRead (e : Emitter) {tokens : List Token} (emitted : Folded × Beyond e)
    (compiled : Compiled × Shorter tokens) : Prop :=
  emitted.1 = compiled.1.folded ∧ e.Reached emitted.2 compiled.2 compiled.1.code

theorem emitExpr_beside {e : Emitter} {tokens : List Token} (h : e.ahead = tokens) :
    e.Beside e.ExprRead e.emitExpr (e.compileExpr e.buffer tokens) := by
  match tokens with
  | [] =>
    rw [emitExpr, next?_of_nil h, Compiler.compileExpr]
    exact Reached.failure ⟨rfl, rfl, h, rfl⟩ _
  | t :: rest =>
    obtain ⟨e₁, h₁, hnext, hreached⟩ := next?_of_cons h
    have hfirst := emitExpr_beside hreached.ahead
    rw [hreached.compiler, hreached.buffer] at hfirst
    rw [emitExpr, hnext, Compiler.compileExpr]
    cases hkind : t.kind with
    | number =>
      simp only [hkind]
      cases Literal.read t.text with
      | ok value => exact .ok ⟨rfl, hreached.write _⟩
      | error reason => exact hreached.failure _
    | name =>
      simp only [hkind, hreached.compiler]
      cases e.folded? t.text with
      | some folded => exact .ok ⟨rfl, hreached.write _⟩
      | none => exact hreached.failure _
    | unary op =>
      simp only [hkind]
      generalize e₁.emitExpr = emitted, e.compileExpr e.buffer rest = compiled at hfirst
      cases hfirst with
      | error reached => exact hreached.beside_error reached _
      | @ok emitted compiled related =>
        obtain ⟨value, e₂, h₂⟩ := emitted
        obtain ⟨operand, rest₁⟩ := compiled
        obtain ⟨rfl, hreached₂⟩ := related
        exact .ok ⟨rfl, (hreached.trans hreached₂).write _⟩
    | binary op =>
      simp only [hkind]
      generalize e₁.emitExpr = emitted, e.compileExpr e.buffer rest = compiled at hfirst
      cases hfirst with
      | error reached => exact hreached.beside_error reached _
      | @ok emitted compiled related =>
        obtain ⟨left, e₂, h₂⟩ := emitted
        obtain ⟨⟨code, value⟩, rest₁, hshorter⟩ := compiled
        obtain ⟨rfl, hreached₂⟩ := related
        have hleft := hreached.trans hreached₂
        -- the right operand goes on where the left one ended
        have hsecond := emitExpr_beside hleft.ahead
        rw [hleft.compiler, hleft.buffer] at hsecond
        dsimp only at hsecond ⊢
        generalize e₂.emitExpr = emitted, e.compileExpr code rest₁ = compiled at hsecond
        cases hsecond with
        | error reached => exact hleft.beside_error reached _
        | @ok emitted compiled related =>
          obtain ⟨right, e₃, h₃⟩ := emitted
          obtain ⟨right', rest₂⟩ := compiled
          obtain ⟨rfl, hreached₃⟩ := related
          exact .ok ⟨rfl, (hleft.trans hreached₃).write _⟩
    | finish | unknown | assign | print =>
      simp only [hkind]
      exact hreached.failure _
termination_by tokens.length
decreasing_by all_goals simp only [List.length_cons]; omega

/-! ## One call -/

theorem emitWholeExpr_beside {e : Emitter} {tokens : List Token} (h : e.ahead = tokens)
    (hbuffer : e.buffer = #[]) :
    e.Beside (fun emitted compiled => emitted.1 = compiled.folded ∧
      e.Reached emitted.2 [] compiled.code) e.emitWholeExpr (e.compileWholeExpr tokens) := by
  have hexpr := emitExpr_beside h
  rw [hbuffer] at hexpr
  unfold emitWholeExpr Compiler.compileWholeExpr
  generalize e.emitExpr = emitted, e.compileExpr #[] tokens = compiled at hexpr
  cases hexpr with
  | error reached => exact .error reached
  | @ok emitted compiled related =>
    obtain ⟨value, e₁, h₁⟩ := emitted
    obtain ⟨compiled, rest, hshorter⟩ := compiled
    obtain ⟨hvalue, hreached⟩ := related
    have hahead := hreached.ahead
    dsimp only at hahead hvalue ⊢
    cases rest with
    | nil =>
      rw [hahead]
      exact .ok ⟨hvalue, hreached⟩
    | cons extra rest =>
      rw [hahead]
      exact hreached.failure _

/-- The emitter that has read a command holds in its buffer what the compiler adds. -/
def CommandRead (e : Emitter) (emitted : Option (Text × Folded) × Emitter)
    (addition : Compiler.Addition) : Prop :=
  emitted.1 = addition.assigned ∧ e.Reached emitted.2 [] addition.code.toArray

/-- What a statement with the given target adds, once its expression is compiled. -/
def addition (target : Option Text) (compiled : Compiled) : Compiler.Addition where
  code := (compiled.code.push (target.elim (.plain .print) .store)).toList
  assigned := target.map fun name => (name, compiled.folded)

theorem emitBody_beside {e e₁ : Emitter} {rest : List Token} (h : e.Reached e₁ rest #[])
    (target : Option Text) :
    e.Beside e.CommandRead (e₁.emitBody target)
      ((e.compileWholeExpr rest).map (addition target)) := by
  have hexpr := emitWholeExpr_beside h.ahead h.buffer
  rw [h.compiler] at hexpr
  unfold emitBody
  generalize e₁.emitWholeExpr = emitted, e.compileWholeExpr rest = compiled at hexpr
  cases hexpr with
  | error reached => exact h.beside_error reached _
  | @ok emitted compiled related =>
    obtain ⟨value, e₂⟩ := emitted
    obtain ⟨rfl, hreached⟩ := related
    exact .ok ⟨rfl, (h.trans hreached).write _⟩

theorem emitCommand_beside {e : Emitter} {tokens : List Token} (h : e.ahead = tokens)
    (hbuffer : e.buffer = #[]) :
    e.Beside e.CommandRead e.emitCommand (e.compileCommand tokens) := by
  unfold emitCommand emitHead Compiler.compileCommand
  cases tokens with
  | nil =>
    rw [next?_of_nil h]
    exact Reached.failure ⟨rfl, rfl, h, rfl⟩ _
  | cons keyword rest =>
    obtain ⟨e₁, h₁, hnext, hreached⟩ := next?_of_cons h
    rw [hbuffer] at hreached
    rw [hnext]
    cases hkind : keyword.kind with
    | assign =>
      simp only [hkind]
      cases rest with
      | nil =>
        rw [next?_of_nil hreached.ahead]
        exact hreached.failure _
      | cons target rest =>
        obtain ⟨e₂, h₂, hnext₂, hreached₂⟩ := next?_of_cons hreached.ahead
        rw [hreached.buffer] at hreached₂
        have hbody := emitBody_beside (hreached.trans hreached₂) (some target.text)
        rw [hnext₂]
        cases htarget : target.kind with
        | name =>
          simp only [htarget]
          generalize e.compileWholeExpr rest = compiled at hbody ⊢
          cases compiled with
          | error reason => exact hbody
          | ok compiled => exact hbody
        | finish | unknown | number | unary | binary | assign | print =>
          simp only [htarget]
          exact (hreached.trans hreached₂).failure _
    | print =>
      have hbody := emitBody_beside hreached none
      simp only [hkind]
      generalize e.compileWholeExpr rest = compiled at hbody ⊢
      cases compiled with
      | error reason => exact hbody
      | ok compiled => exact hbody
    | finish | unknown | number | name | unary | binary =>
      simp only [hkind]
      exact hreached.failure _

/-- A call returns what compiling the statement gives and commits what that commits,
whatever the last call has left in the buffer. If it fails, it commits nothing. -/
theorem emit_cases (e : Emitter) (st : Statement) :
    ∃ e₁, (∃ code, e.emit st = (.ok code, e₁) ∧ e.extend st = .ok (code, e₁.toCompiler)) ∨
      (∃ d, e.emit st = (.error d, e₁) ∧ e.extend st = .error d ∧
        e₁.toCompiler = e.toCompiler) := by
  have hcommand : (e.start st).Beside (e.start st).CommandRead (e.start st).emitCommand
      (e.compileCommand st.tokens) := emitCommand_beside rfl rfl
  unfold emit Compiler.extend
  generalize (e.start st).emitCommand = emitted, e.compileCommand st.tokens = compiled at hcommand
  cases hcommand with
  | @error reason e₁ rest code reached => exact ⟨e₁, .inr ⟨_, rfl, rfl, reached.compiler⟩⟩
  | @ok emitted addition related =>
    obtain ⟨assigned, e₁⟩ := emitted
    obtain ⟨rfl, hreached⟩ := related
    have hcode : e₁.buffer.toList = addition.code := by rw [hreached.buffer]
    have hcommit : (e₁.commitBuffer addition.assigned).toCompiler = e.commit addition := by
      show e₁.commit ⟨e₁.buffer.toList, addition.assigned⟩ = e.commit addition
      rw [hcode, hreached.compiler]
      rfl
    refine ⟨_, .inl ⟨e₁.buffer.toList, rfl, ?_⟩⟩
    rw [hcommit, hcode]

/-! ## Several calls -/

abbrev Outcome := Except Diagnostic (List Instruction)

def emitEach (e : Emitter) : List Statement → List Outcome × Emitter
  | [] => ([], e)
  | st :: rest =>
    let (outcome, e₁) := e.emit st
    let (outcomes, e₂) := e₁.emitEach rest
    (outcome :: outcomes, e₂)

def codes (outcomes : List Outcome) : List (List Instruction) :=
  outcomes.filterMap Except.toOption

def accepted (sts : List Statement) (outcomes : List Outcome) : List Statement :=
  (sts.zip outcomes).filterMap fun call => call.2.toOption.map fun _ => call.1

theorem emitEach_cons (e : Emitter) (st : Statement) (rest : List Statement) :
    e.emitEach (st :: rest) =
      ((e.emit st).1 :: ((e.emit st).2.emitEach rest).1, ((e.emit st).2.emitEach rest).2) := rfl

theorem codes_ok (code : List Instruction) (outcomes : List Outcome) :
    codes (.ok code :: outcomes) = code :: codes outcomes := rfl

theorem codes_error (d : Diagnostic) (outcomes : List Outcome) :
    codes (.error d :: outcomes) = codes outcomes := rfl

theorem accepted_ok (st : Statement) (sts : List Statement) (code : List Instruction)
    (outcomes : List Outcome) :
    accepted (st :: sts) (.ok code :: outcomes) = st :: accepted sts outcomes := rfl

theorem accepted_error (st : Statement) (sts : List Statement) (d : Diagnostic)
    (outcomes : List Outcome) :
    accepted (st :: sts) (.error d :: outcomes) = accepted sts outcomes := rfl

theorem emit_of_extend {e : Emitter} {st : Statement} {code : List Instruction} {c : Compiler}
    (h : e.extend st = .ok (code, c)) : ∃ e₁, e.emit st = (.ok code, e₁) ∧ e₁.toCompiler = c := by
  obtain ⟨e₁, ⟨code', hemit, hextend⟩ | ⟨d, -, hextend, -⟩⟩ := e.emit_cases st
  · rw [h] at hextend
    cases hextend
    exact ⟨e₁, hemit, rfl⟩
  · rw [h] at hextend
    cases hextend

/-- The calls of a sequence add the code that they return, and what they leave is
left by the successful ones alone, from any emitter that has committed the same. -/
theorem emitEach_accepted {e e' : Emitter} {sts : List Statement} {outcomes : List Outcome}
    (h : e.emitEach sts = (outcomes, e')) {f : Emitter} (hf : f.toCompiler = e.toCompiler) :
    e'.program.toList = e.program.toList ++ (codes outcomes).flatten ∧
    (∃ f', f.emitEach (accepted sts outcomes) = ((codes outcomes).map .ok, f') ∧
      f'.toCompiler = e'.toCompiler) ∧
    f.extendAll (accepted sts outcomes) = (e'.toCompiler, none) := by
  induction sts generalizing e f outcomes with
  | nil =>
    cases h
    refine ⟨by simp [codes], ⟨f, rfl, hf⟩, ?_⟩
    show (f.toCompiler, none) = _
    rw [hf]
  | cons st rest ih =>
    obtain ⟨e₁, ⟨code, hemit, hextend⟩ | ⟨d, hemit, -, hsame⟩⟩ := e.emit_cases st
    · rw [emitEach_cons, hemit] at h
      obtain ⟨rfl, hafter⟩ := Prod.mk.inj h
      have hextend' : f.extend st = .ok (code, e₁.toCompiler) := by rw [hf, hextend]
      obtain ⟨f₁, hemit', hf₁⟩ := emit_of_extend hextend'
      obtain ⟨hprogram, ⟨f', hrest, hf'⟩, hall⟩ := ih (Prod.ext rfl hafter) hf₁
      rw [codes_ok, accepted_ok]
      refine ⟨?_, ⟨f', ?_, hf'⟩, ?_⟩
      · rw [hprogram, Compiler.extend_program hextend, List.flatten_cons, List.append_assoc]
      · rw [emitEach_cons, hemit', List.map_cons]
        dsimp only
        rw [hrest]
      · rw [Compiler.extendAll, hextend']
        dsimp only
        rw [← hf₁, hall]
    · -- the call has committed nothing, so the rest goes on from the same state
      rw [emitEach_cons, hemit] at h
      obtain ⟨rfl, hafter⟩ := Prod.mk.inj h
      obtain ⟨hprogram, hrest, hall⟩ := ih (Prod.ext rfl hafter) (hf.trans hsame.symm)
      rw [codes_error, accepted_error]
      refine ⟨?_, hrest, hall⟩
      rw [hprogram, hsame]

end Emitter

/-- For any sequence of calls on a new emitter, some successful and some not. The
program is what the successful calls returned, in order. A new emitter that is given
only the statements of those calls takes in each of them, returns the same code for
it, and ends with the same program, the same symbols and the same constants; so does
compiling them in one go. A call that fails now changes none of the three, and what
a call returns is what compiling the statement gives, whatever is left of earlier
ones. -/
theorem emission_keeps_what_succeeds {sts : List Statement} {outcomes : List Emitter.Outcome}
    {e : Emitter} (h : Emitter.emitEach {} sts = (outcomes, e)) :
    e.program.toList = (Emitter.codes outcomes).flatten ∧
    (∃ e', Emitter.emitEach {} (Emitter.accepted sts outcomes) =
        ((Emitter.codes outcomes).map .ok, e') ∧ e'.program = e.program ∧
      e'.symbols = e.symbols ∧ ∀ name, e'.constant? name = e.constant? name) ∧
    Compiler.extendAll {} (Emitter.accepted sts outcomes) = (e.toCompiler, none) ∧
    ∀ st, (e.emit st).1 = (e.extend st).map Prod.fst ∧
      ∀ d, (e.emit st).1 = .error d → (e.emit st).2.program = e.program ∧
        (e.emit st).2.symbols = e.symbols ∧
        ∀ name, (e.emit st).2.constant? name = e.constant? name := by
  obtain ⟨hprogram, ⟨e', hagain, hsame⟩, hall⟩ := Emitter.emitEach_accepted h rfl
  refine ⟨by simpa using hprogram, ⟨e', hagain, ?_⟩, hall, fun st => ?_⟩
  · rw [hsame]
    exact ⟨rfl, rfl, fun _ => rfl⟩
  · obtain ⟨e₁, ⟨code, hemit, hextend⟩ | ⟨d, hemit, hextend, hnone⟩⟩ := e.emit_cases st
    · rw [hemit, hextend]
      exact ⟨rfl, fun d hd => by cases hd⟩
    · rw [hemit, hextend]
      refine ⟨rfl, fun d hd => ?_⟩
      dsimp only
      rw [hnone]
      exact ⟨rfl, rfl, fun _ => rfl⟩

/-- Statements of which every second one fails: at a name, at a token too many and at
a number, each time behind code that was already written. -/
def stumbling : List Statement :=
  [":= x 6", "@ + x y", ":= y / x 0", "@ * x x x", "@ _ y", ":= x - x 9223372036854775808"].map
    fun line => .ofText (ascii line)

def steady : List Statement :=
  [":= x 6", ":= y / x 0", "@ _ y"].map fun line => .ofText (ascii line)

/-- A statement that fails at its last token. -/
def lateFailure : Statement := .ofText (ascii "@ + x z")

/-- Only the statements that compile leave a trace, and one more that fails leaves
none. -/
theorem emission_keeps_what_succeeds_stumbling :
    ∃ outcomes e d, Emitter.emitEach {} stumbling = (outcomes, e) ∧
      Emitter.accepted stumbling outcomes = steady ∧
      e.program.toList = (Emitter.codes outcomes).flatten ∧
      Compiler.extendAll {} steady = (e.toCompiler, none) ∧
      (e.emit lateFailure).1 = .error d ∧ (e.emit lateFailure).2.program = e.program := by
  have haccepted : Emitter.accepted stumbling (Emitter.emitEach {} stumbling).1 = steady := by
    decide +kernel
  have hfails : ((Emitter.emitEach {} stumbling).2.emit lateFailure).1.toOption = none := by
    decide +kernel
  cases hcalls : Emitter.emitEach {} stumbling with
  | mk outcomes e =>
    rw [hcalls] at haccepted hfails
    obtain ⟨hprogram, -, hall, hnext⟩ := emission_keeps_what_succeeds hcalls
    rw [haccepted] at hall
    cases hfailure : (e.emit lateFailure).1 with
    | ok code =>
      rw [hfailure] at hfails
      cases hfails
    | error d =>
      obtain ⟨hsame, -⟩ := (hnext lateFailure).2 d hfailure
      exact ⟨outcomes, e, d, rfl, haccepted, hprogram, hall, hfailure, hsame⟩

end Polish
