import Mathlib.Data.Nat.Init
import Mathlib.Algebra.Order.Group.Nat
import Mathlib.Data.List.Range
import Mathlib.Data.Nat.Bitwise

/-!
# Bit masks

A set of numbers below `w` is kept as a number of `w` bits. The facts here are those that code needs
which marks and unmarks elements, looks for the lowest one, and tests for a single one.

## Main definitions

* `BitMask.lowest w x`: the lowest bit of `x`.
* `BitMask.count w x`: the number of bits of `x`.

## Main results

* `BitMask.testBit_lowest`: the lowest bit is one of the bits.
* `BitMask.and_pred_eq_zero_iff`: the test `x & (x - 1) == 0`.
* `BitMask.and_not_low`: clearing the low bits rounds down to a multiple of a power of two.
-/

set_option autoImplicit false

namespace BitMask

variable {w n k x i j : ℕ}

/-- The lowest bit of `x` among the first `w`, or `w` if there is none. -/
def lowest (w x : ℕ) : ℕ := ((List.range w).find? x.testBit).getD w

/-- The lowest bit of a number other than zero is one of its bits. -/
theorem testBit_lowest (hx : x ≠ 0) (hlt : x < 2 ^ w) :
    x.testBit (lowest w x) = true ∧ lowest w x < w := by
  obtain ⟨i, hi⟩ := Nat.exists_testBit_of_ne_zero hx
  -- no bit is set at or above `w`
  have hiw : i < w := by
    by_contra hle
    have hbig : x < 2 ^ i := hlt.trans_le (Nat.pow_le_pow_right Nat.two_pos (by omega))
    rw [Nat.testBit_lt_two_pow hbig] at hi
    cases hi
  cases hfind : (List.range w).find? x.testBit with
  | none =>
    rw [List.find?_eq_none] at hfind
    exact absurd hi (hfind i (List.mem_range.2 hiw))
  | some m =>
    rw [lowest, hfind]
    exact ⟨List.find?_some hfind, List.mem_range.1 (List.mem_of_find?_eq_some hfind)⟩

/-! ## Marking and unmarking -/

/-- Exclusive or with a single bit flips it. -/
theorem testBit_xor_shift : (x ^^^ 1 <<< i).testBit j = (x.testBit j ^^ decide (i = j)) := by
  rw [Nat.testBit_xor, Nat.one_shiftLeft, Nat.testBit_two_pow]

theorem testBit_or_shift : (x ||| 1 <<< i).testBit j = (x.testBit j || decide (i = j)) := by
  rw [Nat.testBit_or, Nat.one_shiftLeft, Nat.testBit_two_pow]

/-- All of the first `n` bits are set. -/
theorem eq_ones_iff (hlt : x < 2 ^ n) : x = 2 ^ n - 1 ↔ ∀ i < n, x.testBit i = true := by
  constructor
  · rintro rfl i hi
    rw [Nat.testBit_two_pow_sub_one, decide_eq_true hi]
  · intro h
    apply Nat.eq_of_testBit_eq
    intro i
    rw [Nat.testBit_two_pow_sub_one]
    by_cases hi : i < n
    · rw [h i hi, decide_eq_true hi]
    · have hbig : x < 2 ^ i := hlt.trans_le (Nat.pow_le_pow_right Nat.two_pos (by omega))
      rw [Nat.testBit_lt_two_pow hbig, decide_eq_false hi]

theorem eq_zero_iff (hlt : x < 2 ^ n) : x = 0 ↔ ∀ i < n, x.testBit i = false := by
  constructor
  · rintro rfl i -
    exact Nat.zero_testBit i
  · intro h
    apply Nat.eq_of_testBit_eq
    intro i
    rw [Nat.zero_testBit]
    by_cases hi : i < n
    · exact h i hi
    · have hbig : x < 2 ^ i := hlt.trans_le (Nat.pow_le_pow_right Nat.two_pos (by omega))
      exact Nat.testBit_lt_two_pow hbig

/-- The bits among the first `n` that are not set. -/
theorem testBit_not_and (hle : n ≤ w) :
    (((2 ^ w - 1) ^^^ x) &&& (2 ^ n - 1)).testBit i = (decide (i < n) && !x.testBit i) := by
  rw [Nat.testBit_and, Nat.testBit_xor, Nat.testBit_two_pow_sub_one, Nat.testBit_two_pow_sub_one]
  by_cases hi : i < n
  · have hiw : i < w := by omega
    simp [hi, hiw]
  · simp [hi]

/-! ## A single bit -/

/-- The test of a bit with the mask of that bit. -/
theorem and_two_pow_eq_zero_iff : x &&& 2 ^ i = 0 ↔ x.testBit i = false := by
  rw [Nat.and_two_pow]
  cases x.testBit i <;> simp

/-- A number all of whose bits are the same bit is zero or a power of two. -/
theorem eq_two_pow_of_unique (hx : x ≠ 0)
    (huniq : ∀ i j, x.testBit i = true → x.testBit j = true → i = j) : x = 2 ^ x.log2 := by
  apply Nat.eq_of_testBit_eq
  intro i
  rw [Nat.testBit_two_pow]
  -- the highest bit is the only one
  have hlog := Nat.testBit_log2 hx
  by_cases hi : x.log2 = i
  · rw [← hi, hlog, decide_eq_true rfl]
  · rw [decide_eq_false hi, Bool.eq_false_iff]
    exact fun hbit => hi (huniq _ _ hlog hbit)

/-- The test `x & (x - 1) == 0` in `w` bits holds when at most one bit is set. -/
theorem and_pred_eq_zero_iff (hlt : x < 2 ^ w) :
    x &&& ((x + 2 ^ w - 1) % 2 ^ w) = 0 ↔
      ∀ i j, x.testBit i = true → x.testBit j = true → i = j := by
  by_cases hx : x = 0
  · subst hx
    simp
  · -- the subtraction does not wrap
    have hpred : (x + 2 ^ w - 1) % 2 ^ w = x - 1 := by
      rw [show x + 2 ^ w - 1 = x - 1 + 2 ^ w by omega, Nat.add_mod_right, Nat.mod_eq_of_lt]
      omega
    rw [hpred, Nat.and_sub_one_eq_zero_iff_isPowerOfTwo hx]
    constructor
    · rintro ⟨k, rfl⟩ i j hi hj
      rw [Nat.testBit_two_pow, decide_eq_true_iff] at hi hj
      omega
    · exact fun huniq => ⟨_, eq_two_pow_of_unique hx huniq⟩

/-! ## Counting -/

/-- The number of bits of `x` among the first `w`. -/
def count (w x : ℕ) : ℕ := (List.range w).countP fun i => x.testBit i

/-- The bits above those of `x` do not count. -/
theorem count_eq_of_lt (hlt : x < 2 ^ n) (hle : n ≤ w) : count w x = count n x := by
  obtain ⟨k, rfl⟩ := Nat.exists_eq_add_of_le hle
  have hrest : ((List.range k).map (n + ·)).countP (fun i => x.testBit i) = 0 := by
    rw [List.countP_eq_zero]
    intro i hi
    obtain ⟨j, -, rfl⟩ := List.mem_map.1 hi
    have hbig : x < 2 ^ (n + j) := hlt.trans_le (Nat.pow_le_pow_right Nat.two_pos (by omega))
    simp [Nat.testBit_lt_two_pow hbig]
  rw [count, List.range_add, List.countP_append, hrest, count, Nat.add_zero]

/-- A bit is set or it is not. -/
theorem count_add_unset (n x : ℕ) :
    count n x + ((List.range n).filter fun i => x.testBit i = false).length = n := by
  have hlen := List.length_eq_countP_add_countP (fun i => x.testBit i) (l := List.range n)
  rw [List.length_range] at hlen
  have hneg : ((List.range n).filter fun i => x.testBit i = false).length =
      (List.range n).countP fun i => ¬ x.testBit i = true := by
    rw [← List.countP_eq_length_filter]
    simp only [Bool.not_eq_true]
  rw [count, hneg, ← hlen]

theorem count_pos_iff : 0 < count n x ↔ ∃ i < n, x.testBit i = true := by
  rw [count, List.countP_pos_iff]
  simp

theorem count_lt_iff : count n x < n ↔ ∃ i < n, x.testBit i = false := by
  have hsum := count_add_unset n x
  rw [show count n x < n ↔ 0 < ((List.range n).filter fun i => x.testBit i = false).length by
    omega, List.length_pos_iff_exists_mem]
  simp

/-! ## Low bits -/

/-- Clearing the `k` low bits rounds down to a multiple of `2 ^ k`. -/
theorem and_not_low (hlt : x < 2 ^ w) (hk : k ≤ w) :
    x &&& ((2 ^ w - 1) ^^^ (2 ^ k - 1)) = x / 2 ^ k * 2 ^ k := by
  rw [← Nat.shiftRight_eq_div_pow, ← Nat.shiftLeft_eq]
  apply Nat.eq_of_testBit_eq
  intro i
  rw [Nat.testBit_and, Nat.testBit_xor, Nat.testBit_two_pow_sub_one, Nat.testBit_two_pow_sub_one,
    Nat.testBit_shiftLeft, Nat.testBit_shiftRight]
  by_cases hik : i < k
  · have hiw : i < w := by omega
    simp [hik, hiw]
  · -- a bit that is kept has been shifted down and up again
    have hadd : k + (i - k) = i := by omega
    have hki : k ≤ i := by omega
    by_cases hiw : i < w
    · simp [hik, hiw, hadd, hki]
    · have hbig : x < 2 ^ i := hlt.trans_le (Nat.pow_le_pow_right Nat.two_pos (by omega))
      simp [hadd, Nat.testBit_lt_two_pow hbig]

end BitMask
