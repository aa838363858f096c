import Polish.Text

/-
  Integers — the one kind of value

  Values are signed 64-bit integers. Sum, difference, product and negation wrap
  around and are those of `Int64`; the two partial operations, quotient and
  square root, say why they fail.

  The square root is settled in two steps from an estimate: `lowerRoot` steps
  down while the estimate is too large, `raiseRoot` steps up while the next
  number still fits. Only division is used to compare, so no square overflows.
  The result does not depend on the estimate; a good one only saves steps.

  Correspondence (dendron ↔ Lean):
    `Div`         ↔ `quotient`
    `Sqrt`        ↔ `root`
    its two loops ↔ `lowerRoot`, `raiseRoot`
-/

namespace Polish

/-- Why an operation on integers has no result. -/
inductive ArithmeticError where
  | divisionByZero
  | negativeRoot
  deriving DecidableEq, Repr

namespace Integer

/-- The quotient, cut off toward zero. The least integer divided by `-1` wraps
around to itself. -/
def quotient (a b : Int64) : Except ArithmeticError Int64 :=
  if b = 0 then .error .divisionByZero else .ok (a / b)

/-! ## Square roots -/

theorem toInt_sub_one {r : Int64} (h : 0 < r) : (r - 1).toInt = r.toInt - 1 := by
  have hr : 0 < r.toInt := by simpa using Int64.lt_iff_toInt_lt.mp h
  have hmax := r.toInt_lt
  rw [Int64.toInt_sub, Int64.toInt_one]
  exact Int.bmod_eq_of_le (by omega) (by omega)

theorem toInt_add_one {r : Int64} (h : r ≠ Int64.maxValue) : (r + 1).toInt = r.toInt + 1 := by
  have hmin := r.le_toInt
  have hmax := r.toInt_lt
  have hne : r.toInt ≠ 2 ^ 63 - 1 := fun heq => h (Int64.toInt_inj.mp (by rw [heq]; decide))
  rw [Int64.toInt_add, Int64.toInt_one]
  exact Int.bmod_eq_of_le (by omega) (by omega)

/-- Steps down from `r` to a number whose square is at most `a`. -/
def lowerRoot (a r : Int64) : Int64 :=
  if h : 0 < r ∧ a / r < r then lowerRoot a (r - 1) else r
termination_by r.toInt.toNat
decreasing_by
  have hr : 0 < r.toInt := by simpa using Int64.lt_iff_toInt_lt.mp h.1
  rw [toInt_sub_one h.1]
  omega

/-- The steps that `raiseRoot` can still take: the numbers above `r`, and all of
them when the next step would wrap around. -/
def stepsAbove (r : Int64) : Nat :=
  if r = Int64.maxValue then Int64.size else (Int64.maxValue.toInt - r.toInt).toNat

theorem div_maxValue_lt (a : Int64) : a / Int64.maxValue < Int64.maxValue := by
  have h1 := a.toInt_lt
  have h2 := a.le_toInt
  rw [Int64.lt_iff_toInt_lt, Int64.toInt_div]
  have h3 : Int64.maxValue.toInt = 2 ^ 63 - 1 := by decide
  rw [h3]
  have h4 : a.toInt.tdiv (2 ^ 63 - 1) ≤ 1 := by
    rcases Int.le_total 0 a.toInt with h | h
    · rw [Int.tdiv_eq_ediv_of_nonneg h]
      omega
    · have := Int.tdiv_nonneg (a := -a.toInt) (by omega) (by omega : (0 : Int) ≤ 2 ^ 63 - 1)
      rw [Int.neg_tdiv] at this
      omega
  have h5 : -2 ≤ a.toInt.tdiv (2 ^ 63 - 1) := by
    rcases Int.le_total 0 a.toInt with h | h
    · have := Int.tdiv_nonneg h (by omega : (0 : Int) ≤ 2 ^ 63 - 1)
      omega
    · have := Int.tdiv_eq_ediv_of_nonneg (a := -a.toInt) (b := 2 ^ 63 - 1) (by omega)
      rw [Int.neg_tdiv] at this
      omega
  rw [Int.bmod_eq_of_le (by omega) (by omega)]
  omega

theorem stepsAbove_add_one {a r : Int64} (h : r + 1 ≤ a / (r + 1)) :
    stepsAbove (r + 1) < stepsAbove r := by
  have hne : r + 1 ≠ Int64.maxValue := by
    intro hmax
    rw [hmax] at h
    exact absurd (div_maxValue_lt a) (Int64.not_lt.mpr h)
  have h1 := (r + 1).le_toInt
  have hsize : Int64.size = 2 ^ 64 := rfl
  have hmax : Int64.maxValue.toInt = 2 ^ 63 - 1 := by decide
  simp only [stepsAbove, if_neg hne, hsize, hmax]
  split
  · omega
  · rename_i hr
    have h2 := toInt_add_one hr
    have h3 := (r + 1).toInt_lt
    omega

/-- Steps up from `r` as long as the square of the next number is at most `a`. -/
def raiseRoot (a r : Int64) : Int64 :=
  if h : r + 1 ≤ a / (r + 1) then raiseRoot a (r + 1) else r
termination_by stepsAbove r
decreasing_by exact stepsAbove_add_one h

def settleRoot (a r : Int64) : Int64 := raiseRoot a (lowerRoot a r)

/-- One step of the averaging method toward the square root of `a`. -/
def improveRoot (a r : Nat) : Nat := if r = 0 then 0 else (r + a / r) / 2

/-- An estimate of the square root of `a`: a power of two above it, improved six
times, which is close enough for any 64-bit number. -/
def estimateRoot (a : Nat) : Nat :=
  (List.range 6).foldl (fun r _ => improveRoot a r) (2 <<< (a.log2 / 2))

/-- The largest integer whose square is at most `a`. -/
def root (a : Int64) : Except ArithmeticError Int64 :=
  if a < 0 then .error .negativeRoot
  else .ok (settleRoot a (Int64.ofNat (estimateRoot a.toInt.toNat)))

end Integer

def ArithmeticError.message : ArithmeticError → Text
  | .divisionByZero => ascii "value: division by zero"
  | .negativeRoot => ascii "value: square root of negative value"

end Polish
