import Polish.Proofs.Execution

/-
  Wrapping — what overflows on the way cancels out

  Negations, sums, differences and products wrap around at 64 bits. Wrapping an
  integer takes each of these operations on integers without bounds to the one on
  64-bit integers. So an expression of these operations alone may wrap at every
  node or once at its end, and the value is the same. Roots and quotients do not
  commute with wrapping, and an expression with one of them is no polynomial.

  What is proved:
    1. `UnaryOp.apply_ofInt` and `BinaryOp.apply_ofInt` — wrapping commutes with
       one operation.
    2. `Expr.eval_of_unwrapped?` — it commutes with a whole expression.
    3. `Expr.exists_unwrapped` — a polynomial over bound names has a value without
       wrapping.
    4. `polynomial_wraps_once` — the evaluator and the compiled code give that
       value, wrapped once.
-/

namespace Polish

/-- A unary operation on integers without bounds; none for the root. -/
def UnaryOp.unwrapped? : UnaryOp → Int → Option Int
  | .negate, a => some (-a)
  | .sqrt, _ => none

/-- A binary operation on integers without bounds; none for the quotient. -/
def BinaryOp.unwrapped? : BinaryOp → Int → Int → Option Int
  | .add, a, b => some (a + b)
  | .subtract, a, b => some (a - b)
  | .multiply, a, b => some (a * b)
  | .divide, _, _ => none

theorem UnaryOp.apply_ofInt {op : UnaryOp} {a n : Int} (h : op.unwrapped? a = some n) :
    op.apply (Int64.ofInt a) = .ok (Int64.ofInt n) := by
  cases op with
  | negate =>
    cases h
    rw [apply, Int64.ofInt_neg]
  | sqrt => cases h

theorem BinaryOp.apply_ofInt {op : BinaryOp} {a b n : Int} (h : op.unwrapped? a b = some n) :
    op.apply (Int64.ofInt a) (Int64.ofInt b) = .ok (Int64.ofInt n) := by
  cases op with
  | add =>
    cases h
    rw [apply, Int64.ofInt_add]
  | subtract =>
    cases h
    rw [apply, Int64.ofInt_sub]
  | multiply =>
    cases h
    rw [apply, Int64.ofInt_mul]
  | divide => cases h

namespace Expr

variable {α : Type} {table : Table}

/-- Whether negations, sums, differences and products are the only operations. -/
def isPolynomial : Expr α → Bool
  | .number _ _ | .name _ _ => true
  | .unary _ op operand => op == .negate && operand.isPolynomial
  | .binary _ op left right => op != .divide && left.isPolynomial && right.isPolynomial

/-- The value of an expression on integers without bounds, with the names read as
the table binds them. -/
def unwrapped? (table : Table) : Expr α → Option Int
  | .number _ value => some value.toInt
  | .name _ word => (table.get? word).map Int64.toInt
  | .unary _ op operand => (operand.unwrapped? table).bind op.unwrapped?
  | .binary _ op left right =>
    (left.unwrapped? table).bind fun a => (right.unwrapped? table).bind (op.unwrapped? a)

theorem exists_unwrapped {e : Expr α} (hpoly : e.isPolynomial = true)
    (hbound : ∀ read ∈ e.reads, table.contains read.2 = true) :
    ∃ n, e.unwrapped? table = some n := by
  induction e with
  | number mark value => exact ⟨value.toInt, rfl⟩
  | name mark word =>
    obtain ⟨value, hget⟩ := Table.contains_iff.mp (hbound (mark, word) (by simp [reads]))
    exact ⟨value.toInt, by rw [unwrapped?, hget, Option.map_some]⟩
  | unary mark op operand ih =>
    simp only [isPolynomial, Bool.and_eq_true, beq_iff_eq] at hpoly
    obtain ⟨rfl, hoperand⟩ := hpoly
    obtain ⟨n, hn⟩ := ih hoperand hbound
    exact ⟨-n, by rw [unwrapped?, hn, Option.bind_some, UnaryOp.unwrapped?]⟩
  | binary mark op left right ihl ihr =>
    simp only [isPolynomial, Bool.and_eq_true, bne_iff_ne] at hpoly
    obtain ⟨⟨hop, hleft⟩, hright⟩ := hpoly
    obtain ⟨a, ha⟩ := ihl hleft fun read hread => hbound read (List.mem_append_left _ hread)
    obtain ⟨b, hb⟩ := ihr hright fun read hread => hbound read (List.mem_append_right _ hread)
    rw [unwrapped?, ha, hb, Option.bind_some, Option.bind_some]
    cases op with
    | add => exact ⟨a + b, rfl⟩
    | subtract => exact ⟨a - b, rfl⟩
    | multiply => exact ⟨a * b, rfl⟩
    | divide => exact absurd rfl hop

/-- Wrapping at every node is wrapping once. -/
theorem eval_of_unwrapped? {e : Expr α} {n : Int} (h : e.unwrapped? table = some n) :
    e.eval table = .ok (Int64.ofInt n) := by
  induction e generalizing n with
  | number mark value =>
    cases h
    rw [eval, Int64.ofInt_toInt]
  | name mark word =>
    obtain ⟨value, hget, rfl⟩ := Option.map_eq_some_iff.mp h
    rw [eval_name_eq_ok, Int64.ofInt_toInt, hget]
  | unary mark op operand ih =>
    obtain ⟨a, ha, hn⟩ := Option.bind_eq_some_iff.mp h
    exact eval_unary_eq_ok.mpr ⟨Int64.ofInt a, ih ha, UnaryOp.apply_ofInt hn⟩
  | binary mark op left right ihl ihr =>
    obtain ⟨a, ha, hrest⟩ := Option.bind_eq_some_iff.mp h
    obtain ⟨b, hb, hn⟩ := Option.bind_eq_some_iff.mp hrest
    exact eval_binary_eq_ok.mpr
      ⟨Int64.ofInt a, Int64.ofInt b, ihl ha, ihr hb, BinaryOp.apply_ofInt hn⟩

end Expr

/-- The code of a statement that prints an expression, compiled where its names are
assigned, logs the value that the expression has over the table of the machine. -/
theorem exists_run_print {st : Statement} {keyword : Token} {e : Expr Token} {c : Compiler}
    (hparse : st.parse = .ok (.print keyword e))
    (hassigned : ∀ read ∈ e.reads, c.symbols.contains read.2 = true) :
    ∃ code c', c.extend st = .ok (code, c') ∧
      ∀ (m : Machine) (value : Int64), e.eval m.table = .ok value →
        m.run code = ({ m with
          printed := m.printed.push value
          sink := m.sink.offer (Machine.printedLine value) }, m.sink.refusal) := by
  have hnames : c.unassigned? e = none := Compiler.unassigned?_eq_none_iff.mpr hassigned
  refine ⟨_, _, Compiler.extend_eq_ok_iff.mpr ⟨_, hparse, hnames, rfl, rfl⟩, ?_⟩
  intro m value heval
  exact Machine.runFrom_print heval 0 keyword

/-- An expression of numbers and names by negations, sums, differences and products,
over a table that binds its names, has a value on integers without bounds. The
evaluator gives the representative of that value modulo 2^64 among the signed 64-bit
integers, and so the value itself if it is one of them, whatever overflows on the
way. Where its names are assigned, every statement that prints the expression
compiles, and the code logs the same value on every machine with that table. -/
theorem polynomial_wraps_once {e : Expr Token} {table : Table} (hpoly : e.isPolynomial = true)
    (hbound : ∀ read ∈ e.reads, table.contains read.2 = true) :
    ∃ (n : Int) (value : Int64), e.unwrapped? table = some n ∧ e.eval table = .ok value ∧
      value.toInt = n.bmod (2 ^ 64) ∧
      (-2 ^ 63 ≤ n → n < 2 ^ 63 → value.toInt = n) ∧
      ∀ (c : Compiler) (st : Statement) (keyword : Token),
        st.parse = .ok (.print keyword e) →
        (∀ read ∈ e.reads, c.symbols.contains read.2 = true) →
        ∃ code c', c.extend st = .ok (code, c') ∧
          ∀ m : Machine, m.table = table →
            m.run code = ({ m with
              printed := m.printed.push value
              sink := m.sink.offer (Machine.printedLine value) }, m.sink.refusal) := by
  obtain ⟨n, hn⟩ := Expr.exists_unwrapped hpoly hbound
  have heval := Expr.eval_of_unwrapped? hn
  refine ⟨n, Int64.ofInt n, hn, heval, Int64.toInt_ofInt, Int64.toInt_ofInt_of_le, ?_⟩
  intro c st keyword hparse hassigned
  obtain ⟨code, c', hextend, hrun⟩ := exists_run_print hparse hassigned
  refine ⟨code, c', hextend, ?_⟩
  rintro m rfl
  exact hrun m (Int64.ofInt n) heval

/-- The largest integer under `x` and the least under `m`. -/
def extremes : Table :=
  (Table.empty.insert (ascii "m") Int64.minValue).insert (ascii "x") Int64.maxValue

def overflowing : Statement := Statement.ofText (ascii "@ - * 2 x _ m")

def overflowingValue : Expr Token :=
  .binary (Word.token ⟨ascii "-", 2, 1⟩) .subtract
    (.binary (Word.token ⟨ascii "*", 4, 1⟩) .multiply (.number (Word.token ⟨ascii "2", 6, 1⟩) 2)
      (.name (Word.token ⟨ascii "x", 8, 1⟩) (ascii "x")))
    (.unary (Word.token ⟨ascii "_", 10, 1⟩) .negate
      (.name (Word.token ⟨ascii "m", 12, 1⟩) (ascii "m")))

/-- The product overflows and so does the negation of the least integer. The
difference is in range, and is printed above whatever is on the stack. -/
theorem polynomial_wraps_once_extremes :
    overflowing.parse = .ok (.print (Word.token ⟨ascii "@", 0, 1⟩) overflowingValue) ∧
    overflowingValue.unwrapped? extremes = some (2 ^ 63 - 2) ∧
    (∃ value : Int64, overflowingValue.eval extremes = .ok value ∧ value.toInt = 2 ^ 63 - 2 ∧
      ∃ code c', ({ symbols := extremes } : Compiler).extend overflowing = .ok (code, c') ∧
        ((Machine.mk [7] extremes #[] {}).run code).1.printed = #[value]) := by
  have hparse : overflowing.parse =
      .ok (.print (Word.token ⟨ascii "@", 0, 1⟩) overflowingValue) := by decide +kernel
  have hbound : ∀ read ∈ overflowingValue.reads, extremes.contains read.2 = true := by
    decide +kernel
  have hunwrapped : overflowingValue.unwrapped? extremes = some (2 ^ 63 - 2) := by
    decide +kernel
  obtain ⟨n, value, hn, heval, -, hexact, hcompiled⟩ :=
    polynomial_wraps_once (e := overflowingValue) (by decide) hbound
  rw [hunwrapped] at hn
  cases hn
  obtain ⟨code, c', hextend, hrun⟩ :=
    hcompiled { symbols := extremes } overflowing (Word.token ⟨ascii "@", 0, 1⟩) hparse hbound
  refine ⟨hparse, hunwrapped, value, heval, hexact (by decide) (by decide), code, c', hextend, ?_⟩
  rw [hrun (Machine.mk [7] extremes #[] {}) rfl]
  rfl

end Polish
