import Mathlib.Algebra.Ring.Int.Defs
import Polish.Proofs.Atomic
import Polish.Proofs.Frame

/-
  Depth — the stack of a run, from the opcodes alone

  How many values an opcode takes and puts is a table of its own (`Opcode.pops` and
  `Opcode.pushes`), and the machine never asks it except to word a fault. Here the
  table is compared with what instructions do: along any run, of any instructions, the
  depth of the stack is the one that the table predicts, and a run meets an underflow
  exactly where the table says that a value is lacking.

  What is proved:
    1. `depth_of_step`, `step_underflow_iff` — one instruction against the table.
    2. `step_above`, `step_of_operands` — an instruction whose operands are there looks
       at nothing below them.
    3. `depth_of_reaches` — the depth at every instruction that a run comes to.
    4. `underflowsAt_iff`, `lackAt?_of_reaches` — where a run lacks a value.
    5. `opcodes_predict_depth` — all this for any run.
-/

namespace Polish

/-- The first opcode that lacks an operand, on a stack of the given depth. -/
def lackAt? : Nat → List Opcode → Option Nat
  | _, [] => none
  | depth, op :: rest =>
    if depth < op.pops then some 0
    else (lackAt? (depth - op.pops + op.pushes) rest).map (· + 1)

namespace Machine

/-! ## One instruction -/

theorem depth_of_step {pc : Nat} {i : Instruction} {m m' : Machine}
    (h : m.step pc i = (m', none)) :
    i.op.pops ≤ m.depth ∧ m'.depth = m.depth - i.op.pops + i.op.pushes := by
  have hstep := stepped pc i m
  rw [h] at hstep
  generalize hr : (m', none) = r at hstep
  cases hstep with
  | underflow | unbound | negativeRoot | divisionByZero | unlisted => cases hr
  | push op =>
    cases hr
    simp [depth, op, Opcode.pops, Opcode.pushes]
  | load op bound =>
    cases hr
    simp [depth, op, Opcode.pops, Opcode.pushes]
  | store op top =>
    cases hr
    simp [depth, op, top, Opcode.pops, Opcode.pushes]
  | @unary f a value stack op top result =>
    cases hr
    cases f <;> simp [depth, op, top, UnaryOp.opcode, Opcode.pops, Opcode.pushes]
  | @binary f a b value stack op top result =>
    cases hr
    cases f <;> simp [depth, op, top, BinaryOp.opcode, Opcode.pops, Opcode.pushes]
  | print op top =>
    simp only [Prod.mk.injEq] at hr
    obtain ⟨rfl, -⟩ := hr
    simp [depth, op, top, Opcode.pops, Opcode.pushes]

theorem step_underflow_iff {pc : Nat} {i : Instruction} {m : Machine} :
    (∃ d, (m.step pc i).2 = some (.diagnosed d) ∧ d.kind = .stackUnderflow) ↔
      m.depth < i.op.pops := by
  constructor
  · rintro ⟨d, hd, hkind⟩
    have hstep := stepped pc i m
    generalize m.step pc i = r at hstep hd
    cases hstep with
    | underflow lacking => exact lacking
    | unbound | negativeRoot | divisionByZero | unlisted =>
      cases hd
      cases hkind
    | push | load | store | unary | binary => cases hd
    | print op top => exact absurd hd (Sink.refusal_ne_diagnosed _ d)
  · intro hlacking
    rw [step_of_lacking hlacking]
    exact ⟨_, rfl, rfl⟩

/-- The machine with `below` under what is on its stack. -/
def above (m : Machine) (below : List Int64) : Machine := { m with stack := m.stack ++ below }

theorem halt_above (m : Machine) (below : List Int64) (pc : Nat) (i : Instruction)
    (fault : Fault) :
    (m.above below).halt pc i fault =
      ((m.halt pc i fault).1.above below,
        (m.halt pc i fault).2.map (Stop.raised below.length)) := by
  simp [halt, diagnostic, above, depth, Stop.raised]

theorem step_above {pc : Nat} {i : Instruction} {m : Machine} (h : i.op.pops ≤ m.depth)
    (below : List Int64) :
    (m.above below).step pc i =
      ((m.step pc i).1.above below, (m.step pc i).2.map (Stop.raised below.length)) := by
  have htop : ∀ (top : List Int64) {rest : List Int64}, m.stack = top ++ rest →
      (m.above below).stack = top ++ (rest ++ below) := by
    intro top rest hstack
    rw [above, hstack, List.append_assoc]
  have hstep := stepped pc i m
  generalize m.step pc i = r at hstep
  cases hstep with
  | underflow lacking => omega
  | push op => exact (Stepped.push op).eq
  | load op bound => exact (Stepped.load (m := m.above below) op bound).eq
  | unbound op free =>
    exact (Stepped.unbound (m := m.above below) op free).eq.trans (halt_above ..)
  | @store value stack op top => exact (Stepped.store op (htop [value] top)).eq
  | @unary f a value stack op top result =>
    exact (Stepped.unary op (htop [a] top) result).eq
  | @negativeRoot f a stack cause op top result =>
    exact (Stepped.negativeRoot op (htop [a] top) result).eq.trans (halt_above ..)
  | @binary f a b value stack op top result =>
    exact (Stepped.binary op (htop [b, a] top) result).eq
  | @divisionByZero f a b stack cause op top result =>
    exact (Stepped.divisionByZero op (htop [b, a] top) result).eq.trans (halt_above ..)
  | @print value stack op top =>
    rw [(Stepped.print op (htop [value] top)).eq, Sink.refusal_map fun _ => rfl]
    rfl
  | unlisted op => exact (Stepped.unlisted op).eq.trans (halt_above ..)

/-- The machine with only the operands of an instruction on its stack. -/
def operandsOf (m : Machine) (i : Instruction) : Machine :=
  { m with stack := m.stack.take i.op.pops }

/-- An instruction whose operands are there does what it does on them alone, and what
is below them is neither looked at nor changed. -/
theorem step_of_operands {pc : Nat} {i : Instruction} {m : Machine} (h : i.op.pops ≤ m.depth) :
    m.step pc i =
      (((m.operandsOf i).step pc i).1.above (m.stack.drop i.op.pops),
        ((m.operandsOf i).step pc i).2.map (Stop.raised (m.depth - i.op.pops))) := by
  have hdepth : (m.operandsOf i).depth = i.op.pops := List.length_take_of_le h
  have habove : (m.operandsOf i).above (m.stack.drop i.op.pops) = m := by
    rw [operandsOf, above, List.take_append_drop]
  calc m.step pc i
      = ((m.operandsOf i).above (m.stack.drop i.op.pops)).step pc i := by rw [habove]
    _ = _ := step_above (Nat.le_of_eq hdepth.symm) _
    _ = _ := by rw [List.length_drop, depth]

/-! ## Runs -/

/-- The depth that the opcodes of the first `k` instructions lead to. -/
def foretoldDepth (depth : Nat) (code : List Instruction) (k : Nat) : Int :=
  depth + ((code.take k).map fun i => (i.op.pushes : Int) - i.op.pops).sum

theorem depth_of_reaches {code : List Instruction} {k : Nat} {m m' : Machine}
    (h : Reaches code m k m') : (m'.depth : Int) = foretoldDepth m.depth code k := by
  induction h with
  | start => simp [foretoldDepth]
  | next _ here through ih =>
    obtain ⟨hpops, hdepth⟩ := depth_of_step through
    rw [foretoldDepth] at ih ⊢
    rw [take_succ_of_getElem? here, List.map_append, List.sum_append, List.map_singleton,
      List.sum_singleton]
    omega

/-- The run stops at instruction number `k` because the stack holds too little. -/
def UnderflowsAt (m : Machine) (code : List Instruction) (k : Nat) : Prop :=
  ∃ d, (m.run code).2 = some (.diagnosed d) ∧ d.kind = .stackUnderflow ∧ d.pc = k

theorem underflowsAt_iff {code : List Instruction} {k : Nat} {m : Machine} :
    UnderflowsAt m code k ↔
      ∃ i m', code[k]? = some i ∧ Reaches code m k m' ∧ m'.depth < i.op.pops := by
  constructor
  · rintro ⟨d, hd, hkind, hpc⟩
    rcases run_cases code m with ⟨m', -, hrun⟩ | ⟨j, i, m₁, m', stop, hreaches, here, hstep, hrun⟩
    · rw [hrun] at hd
      cases hd
    · rw [hrun] at hd
      cases hd
      have hlacking := step_underflow_iff.mp ⟨d, congrArg Prod.snd hstep, hkind⟩
      cases halted_of_step hstep with
      | faulted fault =>
        obtain rfl : j = k := Int.ofNat.inj hpc
        exact ⟨i, m₁, here, hreaches, hlacking⟩
  · rintro ⟨i, m', here, hreaches, hlacking⟩
    have hrun := run_of_reaches hreaches here (step_of_lacking hlacking)
    exact ⟨_, congrArg Prod.snd hrun, rfl, rfl⟩

/-- What the opcodes say of a run from its start, they say from any instruction on. -/
theorem lackAt?_of_reaches {code : List Instruction} {k : Nat} {m m' : Machine}
    (h : Reaches code m k m') :
    lackAt? m.depth (code.map Instruction.op) =
      (lackAt? m'.depth ((code.drop k).map Instruction.op)).map (· + k) := by
  induction h with
  | start => simp
  | @next k i m₁ m₂ _ here through ih =>
    obtain ⟨hpops, hdepth⟩ := depth_of_step through
    obtain ⟨hlt, rfl⟩ := List.getElem?_eq_some_iff.mp here
    rw [ih, List.drop_eq_getElem_cons hlt, List.map_cons, lackAt?, if_neg (by omega), ← hdepth,
      Option.map_map]
    congr 1
    funext j
    show j + 1 + k = j + (k + 1)
    omega

/-- A run that comes to instruction `k` underflows there exactly if the opcodes say that
it is the first to lack a value. -/
theorem underflowsAt_iff_lackAt? {code : List Instruction} {k : Nat} {m : Machine} :
    UnderflowsAt m code k ↔
      (∃ m', Reaches code m k m') ∧ lackAt? m.depth (code.map Instruction.op) = some k := by
  rw [underflowsAt_iff]
  constructor
  · rintro ⟨i, m', here, hreaches, hlacking⟩
    obtain ⟨hlt, rfl⟩ := List.getElem?_eq_some_iff.mp here
    refine ⟨⟨m', hreaches⟩, ?_⟩
    rw [lackAt?_of_reaches hreaches, List.drop_eq_getElem_cons hlt, List.map_cons, lackAt?,
      if_pos hlacking, Option.map_some, Nat.zero_add]
  · rintro ⟨⟨m', hreaches⟩, hlack⟩
    rw [lackAt?_of_reaches hreaches] at hlack
    obtain ⟨j, hj, hjk⟩ := Option.map_eq_some_iff.mp hlack
    obtain rfl : j = 0 := by omega
    cases hrest : code.drop k with
    | nil =>
      rw [hrest] at hj
      cases hj
    | cons i rest =>
      have here : code[k]? = some i := by
        rw [← List.head?_drop, hrest, List.head?_cons]
      rw [hrest, List.map_cons, lackAt?] at hj
      split at hj
      · next hlacking => exact ⟨i, m', here, hreaches, hlacking⟩
      · obtain ⟨n, -, hn⟩ := Option.map_eq_some_iff.mp hj
        omega

/-- For every state of the machine and any instructions. At each instruction that a run
comes to, the depth of the stack is the depth at the start and what the opcodes before
it put, less what they take. The run underflows at an instruction exactly if it comes to
it and that depth is less than its opcode takes. An instruction of which an operand is
lacking leaves the machine as it is, and any other looks at no more of the stack than its
operands. So the place of an underflow is the first at which the opcodes, from that depth
on, lack a value. -/
theorem opcodes_predict_depth (m : Machine) (code : List Instruction) :
    (∀ k m', Reaches code m k m' → (m'.depth : Int) = foretoldDepth m.depth code k) ∧
    (∀ k, UnderflowsAt m code k ↔ ∃ i, code[k]? = some i ∧ (∃ m', Reaches code m k m') ∧
      foretoldDepth m.depth code k < i.op.pops) ∧
    (∀ pc i, m.depth < i.op.pops →
      m.step pc i = m.halt pc i (.underflow i.op.pops m.depth)) ∧
    (∀ pc i, i.op.pops ≤ m.depth →
      m.step pc i =
        (((m.operandsOf i).step pc i).1.above (m.stack.drop i.op.pops),
          ((m.operandsOf i).step pc i).2.map (Stop.raised (m.depth - i.op.pops)))) ∧
    ∀ k, UnderflowsAt m code k ↔
      (∃ m', Reaches code m k m') ∧ lackAt? m.depth (code.map Instruction.op) = some k := by
  refine ⟨fun k m' => depth_of_reaches, ?_, fun pc i => step_of_lacking,
    fun pc i => step_of_operands, fun k => underflowsAt_iff_lackAt?⟩
  intro k
  rw [underflowsAt_iff]
  constructor
  · rintro ⟨i, m', here, hreaches, hlacking⟩
    have hdepth := depth_of_reaches hreaches
    exact ⟨i, here, ⟨m', hreaches⟩, by omega⟩
  · rintro ⟨i, here, ⟨m', hreaches⟩, hlacking⟩
    have hdepth := depth_of_reaches hreaches
    exact ⟨i, m', here, hreaches, by omega⟩

/-- Needs three values in all. -/
def lackingCode : List Instruction := [.plain .add, .plain .print, .store (ascii "z")]

/-- On a stack of two values nothing is left for the store; the sum is that of the two
values, and the store alone lacks its value too. -/
theorem opcodes_predict_depth_lacking :
    (∃ m', Reaches lackingCode busyMachine 2 m' ∧
      (m'.depth : Int) = foretoldDepth busyMachine.depth lackingCode 2) ∧
    UnderflowsAt busyMachine lackingCode 2 ∧
    busyMachine.step 0 (.plain .add) =
      (((busyMachine.operandsOf (.plain .add)).step 0 (.plain .add)).1.above [],
        ((busyMachine.operandsOf (.plain .add)).step 0 (.plain .add)).2.map (Stop.raised 0)) ∧
    ({} : Machine).step 2 (.store (ascii "z")) =
      ({} : Machine).halt 2 (.store (ascii "z")) (.underflow 1 0) := by
  have hthrough : (busyMachine.run (lackingCode.take 2)).2 = none := by decide +kernel
  have hreaches : Reaches lackingCode busyMachine 2 (busyMachine.run (lackingCode.take 2)).1 :=
    reaches_iff.mpr ⟨by decide, Prod.ext rfl hthrough⟩
  obtain ⟨hdepth, -, -, halone, hlack⟩ := opcodes_predict_depth busyMachine lackingCode
  refine ⟨⟨_, hreaches, hdepth 2 _ hreaches⟩, (hlack 2).mpr ⟨⟨_, hreaches⟩, by decide⟩,
    halone 0 (.plain .add) (by decide), ?_⟩
  exact (opcodes_predict_depth {} lackingCode).2.2.1 2 (.store (ascii "z")) (by decide)

end Machine

end Polish
