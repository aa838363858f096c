import Mathlib.Tactic.Ring
import Polish.Integer

/-
  Square roots — exact from any estimate

  A root is settled by two loops from an estimate of which nothing is known but
  that it is not negative. The loops compare quotients, `a / r` with `r`, where a
  square could overflow. On numbers that are not negative this is the comparison
  of `a` with the square: the quotient is cut off, and so the corner cases fall on
  the right side.

  The loops are also given as a search of single steps (`Search.step?`), in which
  a division by zero or a number that wraps around leaves no next state. What a
  loop computes is then one thing, and that each of its steps has a meaning
  another.

  What is proved:
    1. `div_lt_iff` — the test of the loops, on the mathematical integers.
    2. `lowered` and `raised` — what each loop preserves, where it ends, and that
       the search goes there step by step.
    3. `root_settled_from_any_estimate` — both loops together, and `root`.
-/

namespace Polish.Integer

/-! ## The search, step by step -/

/-- Where the search for a root stands: stepping down, stepping up, or at its end. -/
inductive Search where
  | lowering (r : Int64)
  | raising (r : Int64)
  | settled (r : Int64)
  deriving DecidableEq, Repr

/-- The next number; none where it wraps around. -/
def next? (r : Int64) : Option Int64 := if r = Int64.maxValue then none else some (r + 1)

namespace Search

/-- The test of a loop and the step that it decides. There is none where the test
divides by zero or the next number wraps around. -/
def step? (a : Int64) : Search → Option Search
  | .lowering r =>
    if 0 < r then
      (quotient a r).toOption.map fun q => if q < r then .lowering (r - 1) else .raising r
    else some (.raising r)
  | .raising r =>
    (next? r).bind fun next =>
      (quotient a next).toOption.map fun q => if next ≤ q then .raising next else .settled r
  | .settled r => some (.settled r)

/-- Where the search stands after `n` steps, if each of them can be taken. -/
def steps? (a : Int64) : Nat → Search → Option Search
  | 0, s => some s
  | n + 1, s => (s.step? a).bind (steps? a n)

theorem steps?_add (a : Int64) (m n : Nat) (s : Search) :
    s.steps? a (m + n) = (s.steps? a m).bind (steps? a n) := by
  induction m generalizing s with
  | zero => simp [steps?]
  | succ m ih =>
    rw [Nat.add_right_comm]
    simp only [steps?, Option.bind_assoc]
    congr 1
    funext t
    exact ih t

end Search

/-! ## Quotients and squares -/

theorem toInt_nonneg {r : Int64} (h : 0 ≤ r) : 0 ≤ r.toInt := by
  simpa using Int64.le_iff_toInt_le.mp h

theorem toInt_div {a r : Int64} (ha : 0 ≤ a) (hr : 0 ≤ r) :
    (a / r).toInt = a.toInt / r.toInt := by
  have ha' := toInt_nonneg ha
  have hr' := toInt_nonneg hr
  have hlow : 0 ≤ a.toInt / r.toInt := Int.ediv_nonneg ha' hr'
  have hhigh : a.toInt / r.toInt ≤ a.toInt := Int.ediv_le_self _ ha'
  have hmax := a.toInt_lt
  rw [Int64.toInt_div, Int.tdiv_eq_ediv_of_nonneg ha']
  exact Int.bmod_eq_of_le (by omega) (by omega)

theorem div_lt_iff {a r : Int64} (ha : 0 ≤ a) (hr : 0 < r) :
    a / r < r ↔ a.toInt < r.toInt * r.toInt := by
  have hpos : 0 < r.toInt := by simpa using Int64.lt_iff_toInt_lt.mp hr
  rw [Int64.lt_iff_toInt_lt, toInt_div ha (Int64.le_of_lt hr)]
  exact Int.ediv_lt_iff_lt_mul hpos

theorem ne_maxValue {a r : Int64} (h : r.toInt * r.toInt ≤ a.toInt) : r ≠ Int64.maxValue := by
  intro hr
  have hmax := a.toInt_lt
  rw [hr, show Int64.maxValue.toInt = 2 ^ 63 - 1 by decide] at h
  omega

/-! ## One step -/

theorem quotient_toOption {a r : Int64} (h : 0 < r) :
    (quotient a r).toOption = some (a / r) := by
  have hne : r ≠ 0 := by
    intro hzero
    rw [hzero] at h
    exact Int64.lt_irrefl h
  rw [quotient, if_neg hne, Except.toOption]

/-- Stepping down divides by positive numbers only. -/
theorem Search.step?_lowering (a r : Int64) :
    (Search.lowering r).step? a =
      some (if 0 < r ∧ a / r < r then .lowering (r - 1) else .raising r) := by
  by_cases hpos : 0 < r
  · simp [step?, hpos, quotient_toOption hpos]
  · simp [step?, hpos]

theorem add_one_pos {r : Int64} (hr : 0 ≤ r) (hmax : r ≠ Int64.maxValue) : 0 < r + 1 := by
  have hnonneg := toInt_nonneg hr
  rw [Int64.lt_iff_toInt_lt, toInt_add_one hmax, Int64.toInt_zero]
  omega

/-- Stepping up from a number below the largest one divides by its successor. -/
theorem Search.step?_raising {r : Int64} (hr : 0 ≤ r) (hmax : r ≠ Int64.maxValue) (a : Int64) :
    (Search.raising r).step? a =
      some (if r + 1 ≤ a / (r + 1) then .raising (r + 1) else .settled r) := by
  have hnext : next? r = some (r + 1) := if_neg hmax
  have hquotient := quotient_toOption (a := a) (add_one_pos hr hmax)
  simp only [step?, hnext, Option.bind_some, hquotient, Option.map_some]

/-! ## The loops -/

theorem lowered {a r : Int64} (ha : 0 ≤ a) (hr : 0 ≤ r) :
    0 ≤ lowerRoot a r ∧ (lowerRoot a r).toInt * (lowerRoot a r).toInt ≤ a.toInt ∧
      ∃ n, (Search.lowering r).steps? a n = some (.raising (lowerRoot a r)) := by
  fun_induction lowerRoot a r with
  | case1 r h ih =>
    have hpos : 0 < r.toInt := by simpa using Int64.lt_iff_toInt_lt.mp h.1
    have hpred : 0 ≤ r - 1 := by
      rw [Int64.le_iff_toInt_le, toInt_sub_one h.1, Int64.toInt_zero]
      omega
    obtain ⟨hnonneg, hsquare, n, hsteps⟩ := ih hpred
    refine ⟨hnonneg, hsquare, n + 1, ?_⟩
    rw [Search.steps?, Search.step?_lowering, if_pos h, Option.bind_some, hsteps]
  | case2 r h =>
    refine ⟨hr, ?_, 1, ?_⟩
    · by_cases hpos : 0 < r
      · have hnot : ¬ a / r < r := fun hlt => h ⟨hpos, hlt⟩
        rw [div_lt_iff ha hpos] at hnot
        omega
      · -- the estimate has come down to zero
        have hzero : r = 0 := Int64.le_antisymm (Int64.not_lt.mp hpos) hr
        rw [hzero]
        simpa using toInt_nonneg ha
    · rw [Search.steps?, Search.step?_lowering, if_neg h]
      rfl

theorem raised {a r : Int64} (ha : 0 ≤ a) (hr : 0 ≤ r) (hsquare : r.toInt * r.toInt ≤ a.toInt) :
    (raiseRoot a r).toInt * (raiseRoot a r).toInt ≤ a.toInt ∧
      a.toInt < ((raiseRoot a r).toInt + 1) * ((raiseRoot a r).toInt + 1) ∧
      ∃ n, (Search.raising r).steps? a n = some (.settled (raiseRoot a r)) := by
  fun_induction raiseRoot a r with
  | case1 r h ih =>
    have hmax := ne_maxValue hsquare
    have hpos := add_one_pos hr hmax
    have hsquare' : (r + 1).toInt * (r + 1).toInt ≤ a.toInt := by
      have hnot := mt (div_lt_iff ha hpos).mpr (Int64.not_lt.mpr h)
      omega
    obtain ⟨hlow, hhigh, n, hsteps⟩ := ih (Int64.le_of_lt hpos) hsquare'
    refine ⟨hlow, hhigh, n + 1, ?_⟩
    rw [Search.steps?, Search.step?_raising hr hmax, if_pos h, Option.bind_some, hsteps]
  | case2 r h =>
    have hmax := ne_maxValue hsquare
    have hpos := add_one_pos hr hmax
    refine ⟨hsquare, ?_, 1, ?_⟩
    · rw [← toInt_add_one hmax, ← div_lt_iff ha hpos]
      exact Int64.not_le.mp h
    · rw [Search.steps?, Search.step?_raising hr hmax, if_neg h]
      rfl

/-! ## Roots -/

/-- The integer `r` is the square root of `a`, rounded down. -/
def IsFloorRoot (a r : Int) : Prop := r * r ≤ a ∧ a < (r + 1) * (r + 1)

theorem IsFloorRoot.nonneg {a r : Int} (h : IsFloorRoot a r) : 0 ≤ r := by
  have hsquares : r * r < r * r + 2 * r + 1 := by
    calc r * r ≤ a := h.1
      _ < (r + 1) * (r + 1) := h.2
      _ = r * r + 2 * r + 1 := by ring
  omega

theorem IsFloorRoot.le {a r s : Int} (hr : IsFloorRoot a r) (hs : IsFloorRoot a s) : r ≤ s := by
  by_contra hlt
  have hnext : s + 1 ≤ r := by omega
  have hsquares : a < a := by
    calc a < (s + 1) * (s + 1) := hs.2
      _ ≤ r * r := Int.mul_self_le_mul_self (by have := hs.nonneg; omega) hnext
      _ ≤ a := hr.1
  omega

theorem IsFloorRoot.unique {a r s : Int} (hr : IsFloorRoot a r) (hs : IsFloorRoot a s) : r = s :=
  Int.le_antisymm (hr.le hs) (hs.le hr)

theorem isFloorRoot_settleRoot {a r : Int64} (ha : 0 ≤ a) (hr : 0 ≤ r) :
    IsFloorRoot a.toInt (settleRoot a r).toInt := by
  obtain ⟨hnonneg, hsquare, -⟩ := lowered ha hr
  obtain ⟨hlow, hhigh, -⟩ := raised ha hnonneg hsquare
  exact ⟨hlow, hhigh⟩

theorem steps?_settleRoot {a r : Int64} (ha : 0 ≤ a) (hr : 0 ≤ r) :
    ∃ n, (Search.lowering r).steps? a n = some (.settled (settleRoot a r)) := by
  obtain ⟨hnonneg, hsquare, m, hdown⟩ := lowered ha hr
  obtain ⟨-, -, n, hup⟩ := raised ha hnonneg hsquare
  refine ⟨m + n, ?_⟩
  rw [Search.steps?_add, hdown, Option.bind_some, hup, settleRoot]

/-! ## The estimate -/

theorem improveRoot_lt {a r : Nat} (ha : a < 2 ^ 63) (hr : r < 2 ^ 63) :
    improveRoot a r < 2 ^ 63 := by
  unfold improveRoot
  split
  · decide
  · have hquotient := Nat.div_le_self a r
    omega

theorem estimateRoot_lt {a : Nat} (ha : a < 2 ^ 63) : estimateRoot a < 2 ^ 63 := by
  have hfirst : 2 <<< (a.log2 / 2) < 2 ^ 63 := by
    have hlog : a.log2 < 63 := by
      by_cases hzero : a = 0
      · rw [hzero]
        decide
      · exact (Nat.log2_lt hzero).mpr ha
    calc 2 <<< (a.log2 / 2) = 2 * 2 ^ (a.log2 / 2) := Nat.shiftLeft_eq _ _
      _ ≤ 2 * 2 ^ 31 := Nat.mul_le_mul_left _ (Nat.pow_le_pow_right (by decide) (by omega))
      _ < 2 ^ 63 := by decide
  -- each improvement keeps the bound, however many there are
  have hrest : ∀ (rounds : List Nat) (r : Nat), r < 2 ^ 63 →
      rounds.foldl (fun r _ => improveRoot a r) r < 2 ^ 63 := by
    intro rounds
    induction rounds with
    | nil => exact fun r hr => hr
    | cons _ rounds ih => exact fun r hr => ih _ (improveRoot_lt ha hr)
  exact hrest _ _ hfirst

theorem estimate_nonneg (a : Int64) :
    0 ≤ Int64.ofNat (estimateRoot a.toInt.toNat) := by
  have hmax := a.toInt_lt
  have hlt : estimateRoot a.toInt.toNat < 2 ^ 63 := estimateRoot_lt (by omega)
  rw [Int64.le_iff_toInt_le, Int64.toInt_ofNat_of_lt hlt, Int64.toInt_zero]
  omega

/-- For a number that is not negative and any estimate that is not negative, the
two loops come to an end without a division by zero and without a number that
wraps around, and end at the one integer that is the square root rounded down. The
root is settled so, and a negative number has none. -/
theorem root_settled_from_any_estimate (a : Int64) :
    (0 ≤ a → ∀ r, 0 ≤ r →
      (∃ n, (Search.lowering r).steps? a n = some (.settled (settleRoot a r))) ∧
      ∀ s, IsFloorRoot a.toInt s ↔ s = (settleRoot a r).toInt) ∧
    (0 ≤ a → ∃ r, root a = .ok r ∧ IsFloorRoot a.toInt r.toInt) ∧
    (a < 0 → root a = .error .negativeRoot) := by
  refine ⟨?_, ?_, ?_⟩
  · intro ha r hr
    have hroot := isFloorRoot_settleRoot ha hr
    refine ⟨steps?_settleRoot ha hr, fun s => ⟨fun hs => hs.unique hroot, ?_⟩⟩
    intro hs
    rw [hs]
    exact hroot
  · intro ha
    refine ⟨_, if_neg (Int64.not_lt.mpr ha), ?_⟩
    exact isFloorRoot_settleRoot ha (estimate_nonneg a)
  · intro ha
    exact if_pos ha

/-- Even from the largest estimate the root of the largest number is settled, and
so is that of zero. -/
theorem root_settled_from_maxValue :
    (∃ n, (Search.lowering Int64.maxValue).steps? Int64.maxValue n =
      some (.settled (settleRoot Int64.maxValue Int64.maxValue))) ∧
    settleRoot Int64.maxValue Int64.maxValue = 3037000499 ∧
    settleRoot 0 Int64.maxValue = 0 ∧
    (∃ r, root Int64.maxValue = .ok r ∧ IsFloorRoot Int64.maxValue.toInt r.toInt) ∧
    root Int64.minValue = .error .negativeRoot := by
  obtain ⟨hsteps, hunique⟩ :=
    (root_settled_from_any_estimate Int64.maxValue).1 (by decide) Int64.maxValue (by decide)
  obtain ⟨-, hzero⟩ := (root_settled_from_any_estimate 0).1 (by decide) Int64.maxValue (by decide)
  refine ⟨hsteps, ?_, ?_, (root_settled_from_any_estimate _).2.1 (by decide),
    (root_settled_from_any_estimate _).2.2 (by decide)⟩
  · apply Int64.toInt_inj.mp
    rw [← (hunique 3037000499).mp ⟨by decide, by decide⟩]
    decide
  · apply Int64.toInt_inj.mp
    rw [← (hzero 0).mp ⟨by decide, by decide⟩]
    decide

end Polish.Integer
