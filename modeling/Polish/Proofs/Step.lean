import Polish.Compiler
import Polish.Machine

/-
  Steps — all that one instruction can do

  `Stepped` has one rule for each thing that can come of an instruction: three
  ways to put a value on the stack, a store, a print, and the faults. A proof
  about every instruction goes by these rules and does not open `step`.

  What is proved:
    1. `Stepped.eq` — what a rule says is what the machine does.
    2. `stepped` — there is a rule for everything the machine does.
-/

namespace Polish.Machine

/-- What comes of instruction `i`, number `pc` of its program, on the machine `m`. -/
inductive Stepped (pc : Nat) (i : Instruction) (m : Machine) : Machine × Option Stop → Prop
  | underflow (lacking : m.depth < i.op.pops) :
      Stepped pc i m (m.halt pc i (.underflow i.op.pops m.depth))
  | push (op : i.op = .push) : Stepped pc i m ({ m with stack := i.const :: m.stack }, none)
  | load {value : Int64} (op : i.op = .load) (bound : m.table.get? i.name = some value) :
      Stepped pc i m ({ m with stack := value :: m.stack }, none)
  | unbound (op : i.op = .load) (free : m.table.get? i.name = none) :
      Stepped pc i m (m.halt pc i (.unbound i.name))
  | store {value : Int64} {stack : List Int64} (op : i.op = .store)
      (top : m.stack = value :: stack) :
      Stepped pc i m ({ m with stack, table := m.table.insert i.name value }, none)
  | unary {f : UnaryOp} {a value : Int64} {stack : List Int64} (op : i.op = f.opcode)
      (top : m.stack = a :: stack) (result : f.apply a = .ok value) :
      Stepped pc i m ({ m with stack := value :: stack }, none)
  | negativeRoot {f : UnaryOp} {a : Int64} {stack : List Int64} {cause : ArithmeticError}
      (op : i.op = f.opcode) (top : m.stack = a :: stack) (result : f.apply a = .error cause) :
      Stepped pc i m (m.halt pc i (.negativeRoot a))
  | binary {f : BinaryOp} {a b value : Int64} {stack : List Int64} (op : i.op = f.opcode)
      (top : m.stack = b :: a :: stack) (result : f.apply a b = .ok value) :
      Stepped pc i m ({ m with stack := value :: stack }, none)
  | divisionByZero {f : BinaryOp} {a b : Int64} {stack : List Int64} {cause : ArithmeticError}
      (op : i.op = f.opcode) (top : m.stack = b :: a :: stack)
      (result : f.apply a b = .error cause) :
      Stepped pc i m (m.halt pc i (.divisionByZero a))
  | print {value : Int64} {stack : List Int64} (op : i.op = .print)
      (top : m.stack = value :: stack) :
      Stepped pc i m
        ({ m with
            stack
            printed := m.printed.push value
            sink := m.sink.offer (printedLine value) }, m.sink.refusal)
  | unlisted {code : UInt8} (op : i.op = .unlisted code) :
      Stepped pc i m (m.halt pc i (.unknownOpcode code))

variable {pc : Nat} {i : Instruction} {m : Machine}

theorem step_of_lacking (h : m.depth < i.op.pops) :
    m.step pc i = m.halt pc i (.underflow i.op.pops m.depth) := by
  unfold depth at h ⊢
  unfold step
  match hstack : m.stack with
  | [] =>
    cases hop : i.op with
    | push | load | unlisted code => simp [hop, Opcode.pops] at h
    | _ => rfl
  | [a] =>
    cases hop : i.op with
    | add | sub | mul | div => rfl
    | _ => simp [hop, hstack, Opcode.pops] at h
  | b :: a :: stack =>
    have hpops : i.op.pops ≤ 2 := by cases i.op <;> simp [Opcode.pops]
    rw [hstack, List.length_cons, List.length_cons] at h
    omega

theorem Stepped.eq {r : Machine × Option Stop} (h : Stepped pc i m r) : m.step pc i = r := by
  cases h with
  | underflow lacking => exact step_of_lacking lacking
  | push op => simp only [step, op]
  | load op bound => simp only [step, op, bound]
  | unbound op free => simp only [step, op, free]
  | store op top => simp only [step, op, top]
  | @unary f a value stack op top result =>
    cases f with
    | negate =>
      cases result
      simp only [step, op, top, UnaryOp.opcode]
    | sqrt =>
      rw [UnaryOp.apply] at result
      simp only [step, op, top, UnaryOp.opcode, result]
  | @negativeRoot f a stack cause op top result =>
    cases f with
    | negate => cases result
    | sqrt =>
      rw [UnaryOp.apply] at result
      simp only [step, op, top, UnaryOp.opcode, result]
  | @binary f a b value stack op top result =>
    cases f with
    | divide =>
      rw [BinaryOp.apply] at result
      simp only [step, op, top, BinaryOp.opcode, result]
    | add | subtract | multiply =>
      cases result
      simp only [step, op, top, BinaryOp.opcode]
  | @divisionByZero f a b stack cause op top result =>
    cases f with
    | divide =>
      rw [BinaryOp.apply] at result
      simp only [step, op, top, BinaryOp.opcode, result]
    | add | subtract | multiply => cases result
  | print op top => simp only [step, op, top]
  | unlisted op => simp only [step, op]

theorem exists_top (h : ¬ m.depth < 1) : ∃ a stack, m.stack = a :: stack :=
  List.exists_cons_of_length_pos (Nat.not_lt.mp h)

theorem exists_unary {f : UnaryOp} (op : i.op = f.opcode) (h : ¬ m.depth < i.op.pops) :
    ∃ r, Stepped pc i m r := by
  have hpops : f.opcode.pops = 1 := by cases f <;> rfl
  rw [op, hpops] at h
  obtain ⟨a, stack, top⟩ := exists_top h
  cases result : f.apply a with
  | ok value => exact ⟨_, .unary op top result⟩
  | error cause => exact ⟨_, .negativeRoot op top result⟩

theorem exists_binary {f : BinaryOp} (op : i.op = f.opcode) (h : ¬ m.depth < i.op.pops) :
    ∃ r, Stepped pc i m r := by
  have hpops : f.opcode.pops = 2 := by cases f <;> rfl
  rw [op, hpops, depth] at h
  match top : m.stack with
  | [] | [_] => simp [top] at h
  | b :: a :: stack =>
    cases result : f.apply a b with
    | ok value => exact ⟨_, .binary op top result⟩
    | error cause => exact ⟨_, .divisionByZero op top result⟩

theorem stepped (pc : Nat) (i : Instruction) (m : Machine) : Stepped pc i m (m.step pc i) := by
  obtain ⟨r, h⟩ : ∃ r, Stepped pc i m r := by
    by_cases hdepth : m.depth < i.op.pops
    · exact ⟨_, .underflow hdepth⟩
    · cases op : i.op with
      | push => exact ⟨_, .push op⟩
      | load =>
        cases bound : m.table.get? i.name with
        | none => exact ⟨_, .unbound op bound⟩
        | some value => exact ⟨_, .load op bound⟩
      | store =>
        obtain ⟨value, stack, top⟩ := exists_top (op ▸ hdepth)
        exact ⟨_, .store op top⟩
      | print =>
        obtain ⟨value, stack, top⟩ := exists_top (op ▸ hdepth)
        exact ⟨_, .print op top⟩
      | neg => exact exists_unary (f := .negate) op hdepth
      | sqrt => exact exists_unary (f := .sqrt) op hdepth
      | add => exact exists_binary (f := .add) op hdepth
      | sub => exact exists_binary (f := .subtract) op hdepth
      | mul => exact exists_binary (f := .multiply) op hdepth
      | div => exact exists_binary (f := .divide) op hdepth
      | unlisted code => exact ⟨_, .unlisted op⟩
  rw [h.eq]
  exact h

end Polish.Machine
