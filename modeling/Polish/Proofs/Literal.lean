import Mathlib.Algebra.Group.Int.Defs
import Mathlib.Algebra.Group.Nat.Defs
import Polish.Integer.Literal
import Polish.Proofs.Text

/-
  Literals read back — every value has a literal, and it is the value's own

  What is proved:
    1. `ofDigits_decimal` — the decimal digits of a number spell that number.
    2. `length_decimal_le` — a number below a power of ten has at most as many
       digits as the power.
    3. `read_write` — reading the literal of a value gives the value, at both
       ends of the range as well.
-/

namespace Polish

namespace Text

theorem isDigit_iff {b : UInt8} : isDigit b = true ↔ 48 ≤ b.toNat ∧ b.toNat ≤ 57 := by
  simp only [isDigit, Bool.and_eq_true, decide_eq_true_eq, UInt8.le_iff_toNat_le]
  exact Iff.rfl

theorem toNat_digit {d : Nat} (h : d < 10) : (digit d).toNat = 48 + d := by
  have hall : ∀ d, d < 10 → (digit d).toNat = 48 + d := by decide
  exact hall d h

theorem isDigit_digit {d : Nat} (h : d < 10) : isDigit (digit d) = true := by
  rw [isDigit_iff, toNat_digit h]
  omega

theorem decimal_ne_nil (n : Nat) : decimal n ≠ [] := by
  rw [decimal]
  split <;> simp

theorem isDigit_of_mem_decimal {n : Nat} {b : UInt8} (h : b ∈ decimal n) : isDigit b = true := by
  fun_induction decimal n with
  | case1 n hn =>
    rw [List.mem_singleton] at h
    rw [h, isDigit_digit hn]
  | case2 n hn ih =>
    rw [List.mem_append, List.mem_singleton] at h
    rcases h with hhigh | hlast
    · exact ih hhigh
    · rw [hlast, isDigit_digit (Nat.mod_lt n (by decide))]

theorem ofDigits_concat (t : Text) (b : UInt8) :
    ofDigits (t ++ [b]) = 10 * ofDigits t + (b.toNat - 48) := by
  simp [ofDigits]

theorem ofDigits_decimal (n : Nat) : ofDigits (decimal n) = n := by
  fun_induction decimal n with
  | case1 n hn =>
    show 10 * 0 + ((digit n).toNat - 48) = n
    rw [toNat_digit hn]
    omega
  | case2 n hn ih =>
    rw [ofDigits_concat, ih, toNat_digit (Nat.mod_lt n (by decide))]
    omega

theorem decimal_injective {n k : Nat} (h : decimal n = decimal k) : n = k := by
  rw [← ofDigits_decimal n, h, ofDigits_decimal]

theorem length_decimal_le {n k : Nat} (hk : 1 ≤ k) (h : n < 10 ^ k) : (decimal n).length ≤ k := by
  induction k generalizing n with
  | zero => omega
  | succ k ih =>
    rw [decimal]
    split
    · simp
    · next hn =>
      -- a second digit needs a second power of ten
      have hk' : 1 ≤ k := by
        cases k with
        | zero => omega
        | succ k => omega
      have hquotient : n / 10 < 10 ^ k := by
        rw [Nat.pow_succ] at h
        omega
      have hlength := ih hk' hquotient
      rw [List.length_append, List.length_singleton]
      omega

end Text

namespace Literal

theorem isNumeral_decimal (n : Nat) : isNumeral (Text.decimal n) = true := by
  simp only [isNumeral, Bool.and_eq_true, List.all_eq_true]
  exact ⟨by simpa using Text.decimal_ne_nil n, fun b hb => Text.isDigit_of_mem_decimal hb⟩

/-- The digits of a number do not start with a `-`. -/
theorem decimal_eq_cons (n : Nat) : ∃ b rest, Text.decimal n = b :: rest ∧ b ≠ 45 := by
  cases hdecimal : Text.decimal n with
  | nil => exact absurd hdecimal (Text.decimal_ne_nil n)
  | cons b rest =>
    refine ⟨b, rest, rfl, ?_⟩
    rintro rfl
    have hdigit := Text.isDigit_of_mem_decimal (hdecimal ▸ List.mem_cons_self : (45 : UInt8) ∈ _)
    revert hdigit
    decide

theorem isLiteral_decimalInt (n : Int) : isLiteral (Text.decimalInt n) = true := by
  unfold Text.decimalInt
  split
  · exact isNumeral_decimal n.natAbs
  · obtain ⟨b, rest, hdecimal, hb⟩ := decimal_eq_cons n.natAbs
    have hnumeral := isNumeral_decimal n.natAbs
    rw [hdecimal] at hnumeral ⊢
    rw [isLiteral, if_neg hb, hnumeral]

theorem spelled_decimalInt (n : Int) : spelled (Text.decimalInt n) = n := by
  unfold Text.decimalInt
  split
  · show -(Text.ofDigits (Text.decimal n.natAbs) : Int) = n
    rw [Text.ofDigits_decimal]
    omega
  · obtain ⟨b, rest, hdecimal, hb⟩ := decimal_eq_cons n.natAbs
    have hspelled := Text.ofDigits_decimal n.natAbs
    rw [hdecimal] at hspelled ⊢
    rw [spelled, if_neg hb, hspelled]
    omega

theorem read_write (v : Int64) : read (write v) = .ok v := by
  have hlow := v.le_toInt
  have hhigh := v.toInt_lt
  have hrange : Int64.minValue.toInt ≤ v.toInt ∧ v.toInt ≤ Int64.maxValue.toInt := by
    rw [show Int64.minValue.toInt = -2 ^ 63 by decide,
      show Int64.maxValue.toInt = 2 ^ 63 - 1 by decide]
    omega
  simp only [read, write, isLiteral_decimalInt, spelled_decimalInt, hrange, and_self, if_true,
    Int64.ofInt_toInt]

theorem write_injective {v w : Int64} (h : write v = write w) : v = w := by
  have hread := read_write v
  rw [h, read_write] at hread
  cases hread
  rfl

theorem write_of_nonneg {v : Int64} (h : 0 ≤ v) : write v = Text.decimal v.toInt.natAbs := by
  have hv : ¬ v.toInt < 0 := Int.not_lt.mpr (Int64.le_iff_toInt_le.mp h)
  rw [write, Text.decimalInt, if_neg hv]

theorem write_of_neg {v : Int64} (h : v < 0) : write v = 45 :: Text.decimal v.toInt.natAbs := by
  have hv : v.toInt < 0 := Int64.lt_iff_toInt_lt.mp h
  rw [write, Text.decimalInt, if_pos hv]

theorem isWord_write (v : Int64) : Text.IsWord (write v) := by
  have hdigits : ∀ b ∈ Text.decimal v.toInt.natAbs, Text.IsVisible b := by
    intro b hb
    obtain ⟨hlow, hhigh⟩ := Text.isDigit_iff.mp (Text.isDigit_of_mem_decimal hb)
    exact ⟨by omega, by omega⟩
  unfold write Text.decimalInt
  split
  · refine ⟨List.cons_ne_nil _ _, ?_⟩
    intro b hb
    rcases List.mem_cons.mp hb with rfl | hb
    · exact ⟨by decide, by decide⟩
    · exact hdigits b hb
  · exact ⟨Text.decimal_ne_nil _, hdigits⟩

theorem length_write_le (v : Int64) : (write v).length ≤ 20 := by
  have hlow := v.le_toInt
  have hhigh := v.toInt_lt
  have hlength : (Text.decimal v.toInt.natAbs).length ≤ 19 :=
    Text.length_decimal_le (by decide) (by omega)
  unfold write Text.decimalInt
  split
  · rw [List.length_cons]
    omega
  · omega

end Literal

end Polish
