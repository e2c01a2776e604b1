import Mathlib.Data.Nat.Init
import Mathlib.Algebra.Order.Group.Nat

/-!
# Powers of two and significant bits

Facts about the binary representation of natural numbers that integer code relies on: the test
`x & (x - 1) == 0`, rounding up by smearing the highest set bit downwards, and rounding to a
number of significant bits with ties to even, as a binary floating-point format does.

## Main results

* `Nat.Smears.eq_two_pow_sub_one`: smearing the highest bit over all lower ones leaves
  `2 ^ (log2 x + 1) - 1`.
* `roundToBits_of_lt`: a number with few enough bits is not changed by rounding.
* `roundToBits_le_two_pow_iff`: which of the numbers above a power of two are rounded down to it.
-/

set_option autoImplicit false

/-! ## Smearing -/

/-- `y` has a bit wherever `x` has one among the `n` bits from there upwards. -/
def Nat.Smears (n x y : ℕ) : Prop :=
  ∀ i, y.testBit i = true ↔ ∃ d < n, x.testBit (i + d) = true

namespace Nat.Smears

variable {n x y : ℕ}

theorem one (x : ℕ) : Nat.Smears 1 x x := by
  intro i
  simp

/-- One step `y |= y >> n` doubles the reach. -/
theorem step (h : Nat.Smears n x y) : Nat.Smears (n + n) x (y ||| y >>> n) := by
  intro i
  rw [Nat.testBit_or, Nat.testBit_shiftRight, Bool.or_eq_true, h i, h (n + i)]
  constructor
  · rintro (⟨d, hd, hx⟩ | ⟨d, hd, hx⟩)
    · exact ⟨d, by omega, hx⟩
    · exact ⟨n + d, by omega, by rwa [show i + (n + d) = n + i + d by omega]⟩
  · rintro ⟨d, hd, hx⟩
    by_cases hlt : d < n
    · exact .inl ⟨d, hlt, hx⟩
    · exact .inr ⟨d - n, by omega, by rwa [show n + i + (d - n) = i + d by omega]⟩

/-- Smearing the highest bit over all lower ones leaves ones only. -/
theorem eq_two_pow_sub_one (h : Nat.Smears n x y) (hx : x ≠ 0) (hlt : x < 2 ^ n) :
    y = 2 ^ (x.log2 + 1) - 1 := by
  refine Nat.eq_of_testBit_eq fun i => ?_
  rw [Nat.testBit_two_pow_sub_one, Bool.eq_iff_iff, h i, decide_eq_true_iff]
  constructor
  · rintro ⟨d, -, hd⟩
    by_contra hi
    -- there is no bit above the highest one
    have hbig : x < 2 ^ (i + d) := (Nat.log2_lt hx).1 (by omega)
    simp [Nat.testBit_lt_two_pow hbig] at hd
  · intro hi
    -- every lower bit has been reached by the highest one
    refine ⟨x.log2 - i, ?_, ?_⟩
    · have := (Nat.log2_lt hx).2 hlt
      omega
    · rw [show i + (x.log2 - i) = x.log2 by omega]
      exact Nat.testBit_log2 hx

end Nat.Smears

/-! ## Significant bits -/

/-- `x` rounded to `n` significant bits, ties to even. -/
def roundToBits (n x : ℕ) : ℕ :=
  let dropped := x.log2 + 1 - n
  let quotient := x / 2 ^ dropped
  let remainder := x % 2 ^ dropped
  if 2 * remainder < 2 ^ dropped ∨ 2 * remainder = 2 ^ dropped ∧ quotient % 2 = 0 then
    quotient * 2 ^ dropped
  else (quotient + 1) * 2 ^ dropped

/-- A number with few enough bits is not changed by rounding. -/
theorem roundToBits_of_lt {n x : ℕ} (h : x < 2 ^ n) : roundToBits n x = x := by
  by_cases hx : x = 0
  · subst hx
    simp [roundToBits]
  · have hlog := (Nat.log2_lt hx).2 h
    have hdropped : x.log2 + 1 - n = 0 := by omega
    simp [roundToBits, hdropped, Nat.mod_one]

section Round

variable {n k x : ℕ}

/-- Rounding does not go below a power of two. -/
theorem two_pow_le_roundToBits (hn : 1 ≤ n) (h : 2 ^ k ≤ x) : 2 ^ k ≤ roundToBits n x := by
  have hx : x ≠ 0 := by
    have := Nat.two_pow_pos k
    omega
  have hlog : k ≤ x.log2 := (Nat.le_log2 hx).2 h
  by_cases hsmall : x < 2 ^ n
  · rwa [roundToBits_of_lt hsmall]
  -- the quotient keeps the highest bit
  have hle : n ≤ x.log2 := (Nat.le_log2 hx).2 (Nat.not_lt.1 hsmall)
  have hsplit : 2 ^ (n - 1) * 2 ^ (x.log2 + 1 - n) = 2 ^ x.log2 := by
    rw [← pow_add]
    congr 1
    omega
  have hquot : 2 ^ (n - 1) ≤ x / 2 ^ (x.log2 + 1 - n) := by
    rw [Nat.le_div_iff_mul_le (Nat.two_pow_pos _), hsplit]
    exact Nat.log2_self_le hx
  calc 2 ^ k ≤ 2 ^ x.log2 := Nat.pow_le_pow_right Nat.two_pos hlog
    _ = 2 ^ (n - 1) * 2 ^ (x.log2 + 1 - n) := hsplit.symm
    _ ≤ roundToBits n x := by
      unfold roundToBits
      dsimp only
      split_ifs
      · exact Nat.mul_le_mul_right _ hquot
      · exact Nat.mul_le_mul_right _ (hquot.trans (Nat.le_succ _))

/-- Rounding does not go above a power of two. -/
theorem roundToBits_le_two_pow (h : x < 2 ^ k) : roundToBits n x ≤ 2 ^ k := by
  by_cases hsmall : x < 2 ^ n
  · rw [roundToBits_of_lt hsmall]
    exact h.le
  have hx : x ≠ 0 := by
    rintro rfl
    exact hsmall (Nat.two_pow_pos n)
  have hlog : x.log2 < k := (Nat.log2_lt hx).2 h
  have hle : n ≤ x.log2 := (Nat.le_log2 hx).2 (Nat.not_lt.1 hsmall)
  have hsplit : 2 ^ n * 2 ^ (x.log2 + 1 - n) = 2 ^ (x.log2 + 1) := by
    rw [← pow_add, Nat.add_sub_cancel' (by omega)]
  -- the quotient has `n` bits, so it is a power of two at most after one has been added
  have hquot : x / 2 ^ (x.log2 + 1 - n) < 2 ^ n := by
    rw [Nat.div_lt_iff_lt_mul (Nat.two_pow_pos _), hsplit]
    exact Nat.lt_log2_self
  calc roundToBits n x ≤ 2 ^ n * 2 ^ (x.log2 + 1 - n) := by
        unfold roundToBits
        dsimp only
        split_ifs
        · exact Nat.mul_le_mul_right _ hquot.le
        · exact Nat.mul_le_mul_right _ hquot
    _ = 2 ^ (x.log2 + 1) := hsplit
    _ ≤ 2 ^ k := Nat.pow_le_pow_right Nat.two_pos hlog

/-- A number above a power of two is rounded down to it if it is nearer to it than to the next
number with as few bits, or halfway between the two. -/
theorem roundToBits_le_two_pow_iff (hn : 2 ≤ n) (hk : n ≤ k) (hlo : 2 ^ k ≤ x)
    (hhi : x < 2 ^ (k + 1)) : roundToBits n x ≤ 2 ^ k ↔ x ≤ 2 ^ k + 2 ^ (k - n) := by
  have hx : x ≠ 0 := by
    have := Nat.two_pow_pos k
    omega
  have hlog : x.log2 = k := (Nat.log2_eq_iff hx).2 ⟨hlo, hhi⟩
  have hunit : 2 ^ (k + 1 - n) = 2 * 2 ^ (k - n) := by
    rw [← pow_succ']
    congr 1
    omega
  have hsplit : 2 ^ k = 2 ^ (n - 1) * 2 ^ (k + 1 - n) := by
    rw [← pow_add]
    congr 1
    omega
  have heven : 2 ^ (n - 1) % 2 = 0 := by
    obtain ⟨m, rfl⟩ := Nat.exists_eq_add_of_le hn
    rw [show 2 + m - 1 = m + 1 by omega, pow_succ, Nat.mul_mod_left]
  have hpos := Nat.two_pow_pos (k + 1 - n)
  have hdiv := Nat.div_add_mod x (2 ^ (k + 1 - n))
  have hmod := Nat.mod_lt x hpos
  unfold roundToBits
  dsimp only
  rw [hlog, hsplit]
  have hquot : 2 ^ (n - 1) ≤ x / 2 ^ (k + 1 - n) := by
    rw [Nat.le_div_iff_mul_le hpos, ← hsplit]
    exact hlo
  constructor
  · intro hle
    -- the quotient is the power of two, and the remainder is not rounded up
    split_ifs at hle with hdown
    · have heq : x / 2 ^ (k + 1 - n) = 2 ^ (n - 1) :=
        Nat.le_antisymm (Nat.le_of_mul_le_mul_right hle hpos) hquot
      rw [heq, Nat.mul_comm] at hdiv
      rcases hdown with hlt | ⟨hhalf, -⟩ <;> omega
    · have hup := Nat.le_of_mul_le_mul_right hle hpos
      omega
  · intro hle
    -- a number so close to the power of two has it as its quotient
    have heq : x / 2 ^ (k + 1 - n) = 2 ^ (n - 1) := by
      refine Nat.le_antisymm (Nat.lt_succ_iff.1 ?_) hquot
      rw [Nat.div_lt_iff_lt_mul hpos, Nat.succ_mul]
      have := Nat.two_pow_pos (k - n)
      omega
    rw [heq, Nat.mul_comm] at hdiv
    rw [heq, if_pos]
    rcases Nat.lt_or_ge (2 * (x % 2 ^ (k + 1 - n))) (2 ^ (k + 1 - n)) with hlt | hge
    · exact .inl hlt
    · exact .inr ⟨by omega, heven⟩

end Round
