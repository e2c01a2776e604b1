import Mathlib.Logic.Function.Basic
import Zalloc.Foundations.BitMask

/-!
# Arrays of bits

An array of bytes is an array of bits, of which bit `i` is bit `i % 8` of byte `i / 8`. Code that
walks through the bits keeps the number of the byte and a mask of one bit.

## Main definitions

* `BitArray.bit bytes i`: a bit.
* `BitArray.fill bits a n v`: the bits after `n` of them from `a` on have been set to `v`.
* `BitArray.cursor i`: the number of the byte and the mask of bit `i`.

## Main results

* `BitArray.and_mask_eq_zero_iff`: the test of a bit.
* `BitArray.bit_update_or`, `BitArray.bit_update_and`: a bit is set, a bit is cleared.
* `BitArray.mask_eq_last_iff`, `BitArray.mask_eq_first_iff`: the borders between two bytes.
-/

set_option autoImplicit false

namespace BitArray

/-- Bit `i` of an array of bytes. -/
def bit (bytes : ℕ → ℕ) (i : ℕ) : Bool := (bytes (i / 8)).testBit (i % 8)

/-- The number of the byte and the mask of a bit. -/
def cursor (i : ℕ) : ℕ × ℕ := (i / 8, 1 <<< (i % 8))

/-- The bits after `n` of them from `a` on have been set to `v`. -/
def fill (bits : ℕ → Bool) (a n : ℕ) (v : Bool) : ℕ → Bool :=
  fun i => if a ≤ i ∧ i < a + n then v else bits i

section

variable {bytes : ℕ → ℕ} {bits : ℕ → Bool} {a n i j w : ℕ} {v : Bool}

/-! ## Ranges -/

theorem fill_of_mem (ha : a ≤ i) (hi : i < a + n) : fill bits a n v i = v := if_pos ⟨ha, hi⟩

theorem fill_of_not_mem (h : i < a ∨ a + n ≤ i) : fill bits a n v i = bits i := if_neg (by omega)

theorem fill_zero : fill bits a 0 v = bits := funext fun _ => fill_of_not_mem (by omega)

/-- A bit, and then the ones behind it. -/
theorem fill_succ : fill (Function.update bits a v) (a + 1) n v = fill bits a (n + 1) v := by
  ext i
  by_cases hi : i = a
  · subst hi
    rw [fill_of_not_mem (by omega), Function.update_self, fill_of_mem le_rfl (by omega)]
  · by_cases hin : a + 1 ≤ i ∧ i < a + 1 + n
    · rw [fill_of_mem hin.1 hin.2, fill_of_mem (by omega) (by omega)]
    · rw [fill_of_not_mem (by omega), fill_of_not_mem (by omega), Function.update_of_ne hi]

/-! ## Single bits -/

/-- The mask selects the bit. -/
theorem and_mask_eq_zero_iff : bytes (i / 8) &&& 1 <<< (i % 8) = 0 ↔ bit bytes i = false := by
  rw [Nat.one_shiftLeft, BitMask.and_two_pow_eq_zero_iff, bit]

/-- Two different bits of the same byte. -/
theorem mod_ne (hdiv : j / 8 = i / 8) (hne : j ≠ i) : i % 8 ≠ j % 8 := by omega

/-- A bit is set. -/
theorem bit_update_or :
    bit (Function.update bytes (i / 8) (bytes (i / 8) ||| 1 <<< (i % 8))) =
      Function.update (bit bytes) i true := by
  ext j
  rw [bit]
  by_cases hdiv : j / 8 = i / 8
  · rw [hdiv, Function.update_self, BitMask.testBit_or_shift]
    by_cases hj : j = i
    · rw [hj, Function.update_self, decide_eq_true rfl, Bool.or_true]
    · rw [Function.update_of_ne hj, decide_eq_false (mod_ne hdiv hj), Bool.or_false, bit, hdiv]
  · have hj : j ≠ i := by
      rintro rfl
      exact hdiv rfl
    rw [Function.update_of_ne hdiv, Function.update_of_ne hj, bit]

/-- A bit that is set after a byte has been masked was set before. -/
theorem bit_of_update_and {m : ℕ} (h : bit (Function.update bytes i (bytes i &&& m)) j = true) :
    bit bytes j = true := by
  rw [bit] at h ⊢
  by_cases hj : j / 8 = i
  · rw [hj, Function.update_self, Nat.testBit_and, Bool.and_eq_true] at h
    rw [hj]
    exact h.1
  · rwa [Function.update_of_ne hj] at h

/-- A bit is cleared. -/
theorem bit_update_and (hw : 8 ≤ w) :
    bit (Function.update bytes (i / 8)
        (bytes (i / 8) &&& ((2 ^ w - 1) ^^^ 1 <<< (i % 8)))) =
      Function.update (bit bytes) i false := by
  ext j
  rw [bit]
  have hlt : j % 8 < w := by omega
  by_cases hdiv : j / 8 = i / 8
  · rw [hdiv, Function.update_self, Nat.testBit_and, BitMask.testBit_xor_shift,
      Nat.testBit_two_pow_sub_one, decide_eq_true hlt]
    by_cases hj : j = i
    · rw [hj, Function.update_self, decide_eq_true rfl, Bool.xor_self, Bool.and_false]
    · rw [Function.update_of_ne hj, decide_eq_false (mod_ne hdiv hj), Bool.xor_false,
        Bool.and_true, bit, hdiv]
  · have hj : j ≠ i := by
      rintro rfl
      exact hdiv rfl
    rw [Function.update_of_ne hdiv, Function.update_of_ne hj, bit]

/-! ## From bit to bit -/

/-- The last bit of a byte. -/
theorem mask_eq_last_iff : 1 <<< (i % 8) = 128 ↔ i % 8 = 7 := by
  rw [Nat.one_shiftLeft, show 128 = 2 ^ 7 by decide, Nat.pow_right_inj (by decide)]

/-- The first bit of a byte. -/
theorem mask_eq_first_iff : 1 <<< (i % 8) = 1 ↔ i % 8 = 0 := by
  rw [Nat.one_shiftLeft, show 1 = 2 ^ 0 by decide, Nat.pow_right_inj (by decide)]

/-- The next bit of the same byte. -/
theorem mask_shiftLeft (h : i % 8 ≠ 7) : (1 <<< (i % 8)) <<< 1 = 1 <<< ((i + 1) % 8) := by
  rw [← Nat.shiftLeft_add, show (i + 1) % 8 = i % 8 + 1 by omega]

/-- The bit before, of the same byte. -/
theorem mask_shiftRight (h : i % 8 ≠ 0) : (1 <<< (i % 8)) >>> 1 = 1 <<< ((i - 1) % 8) := by
  rw [show i % 8 = (i - 1) % 8 + 1 by omega, Nat.shiftLeft_add]
  simp

end

end BitArray
