import Zalloc.Foundations.Bits

/-!
# From a request to a page count

`buddy_alloc` turns the requested number of bytes into a number of pages with
`next_pow_of_2(ceil((float) s / PAGE_SIZE))`. The conversion to `float` keeps 24 significant bits;
the division by a power of two and `ceil`, which works on a `double`, are exact.

All numbers here are at most `2 ^ 52 + 1` for a 64-bit request, so the `uint64_t` arithmetic does
not wrap and is written as arithmetic on `ℕ`.

## Main results

* `allocSize_pos`: at least one page is asked for.
* `exists_allocSize_eq_two_pow`: a page count below `2 ^ 32` is a power of two.
* `allocSize_le`: no power of two that is large enough is smaller.
* `le_mul_allocSize_iff`: the requests for which the page count is large enough.
-/

set_option autoImplicit false

namespace Zalloc

/-- `PAGE_SIZE`. -/
def pageSize : ℕ := 4096

/-- `is_pow_of_2`. The parameter is a `uint32_t`, so the argument loses its upper bits; `0` passes
the test. -/
def isPowOf2 (x : ℕ) : Bool :=
  let x := x % 2 ^ 32
  x &&& ((x + 2 ^ 32 - 1) % 2 ^ 32) == 0

/-- `next_pow_of_2`. -/
def nextPowOf2 (x : ℕ) : ℕ :=
  if isPowOf2 x then x
  else
    let x := x ||| x >>> 1
    let x := x ||| x >>> 2
    let x := x ||| x >>> 4
    let x := x ||| x >>> 8
    let x := x ||| x >>> 16
    x + 1

/-- `ceil((float) s / PAGE_SIZE)`. -/
def ceilPages (s : ℕ) : ℕ := (roundToBits 24 s + (pageSize - 1)) / pageSize

/-- The page count of a request for `s` bytes: `size` in `buddy_alloc`, lines 123 to 125. -/
def allocSize (s : ℕ) : ℕ :=
  let size := nextPowOf2 (ceilPages s)
  if size = 0 then 1 else size

theorem allocSize_pos (s : ℕ) : 0 < allocSize s := by
  unfold allocSize
  dsimp only
  split_ifs with h
  · exact Nat.one_pos
  · exact Nat.pos_of_ne_zero h

/-- The test is exact for 32-bit values. -/
theorem isPowOf2_iff {x : ℕ} (hx : x ≠ 0) (hlt : x < 2 ^ 32) :
    isPowOf2 x = true ↔ ∃ j, x = 2 ^ j := by
  have hpred : (x + 2 ^ 32 - 1) % 2 ^ 32 = x - 1 := by omega
  rw [isPowOf2, Nat.mod_eq_of_lt hlt, hpred, beq_iff_eq,
    Nat.and_sub_one_eq_zero_iff_isPowerOfTwo hx, Nat.isPowerOfTwo]

/-- Below `2 ^ 32` a value that is not a power of two is rounded up to the next one. -/
theorem nextPowOf2_of_not {x : ℕ} (hlt : x < 2 ^ 32) (h : isPowOf2 x = false) :
    nextPowOf2 x = 2 ^ (x.log2 + 1) := by
  have hx : x ≠ 0 := by
    rintro rfl
    simp [isPowOf2] at h
  have hsmear := ((((Nat.Smears.one x).step.step).step).step).step
  have hones := hsmear.eq_two_pow_sub_one hx hlt
  simp only [Nat.reduceAdd] at hones
  have hpos := Nat.two_pow_pos (x.log2 + 1)
  simp only [nextPowOf2, h, Bool.false_eq_true, ↓reduceIte]
  omega

theorem le_nextPowOf2 (x : ℕ) : x ≤ nextPowOf2 x := by
  unfold nextPowOf2
  dsimp only
  split_ifs
  · exact le_rfl
  · have hor : ∀ y n : ℕ, y ≤ y ||| y >>> n := fun y n => Nat.left_le_or
    exact ((hor x 1).trans ((hor _ 2).trans ((hor _ 4).trans ((hor _ 8).trans (hor _ 16))))).trans
      (Nat.le_succ _)

/-- A page count below `2 ^ 32` is a power of two. -/
theorem exists_allocSize_eq_two_pow {s : ℕ} (h : allocSize s < 2 ^ 32) :
    ∃ j, allocSize s = 2 ^ j := by
  unfold allocSize at h ⊢
  dsimp only at h ⊢
  split_ifs at h ⊢ with h0
  · exact ⟨0, rfl⟩
  · have hlt : ceilPages s < 2 ^ 32 := (le_nextPowOf2 _).trans_lt h
    cases hpow : isPowOf2 (ceilPages s) with
    | true =>
      have hx : ceilPages s ≠ 0 := by
        intro hz
        exact h0 (by rw [hz]; rfl)
      simpa [nextPowOf2, hpow] using (isPowOf2_iff hx hlt).1 hpow
    | false => exact ⟨_, nextPowOf2_of_not hlt hpow⟩

/-! ## Is the page count large enough? -/

/-- The conversion to `float` rounds `s` down to a power of two. -/
def RoundsDown (s : ℕ) : Prop := ∃ k ≥ 24, 2 ^ k < s ∧ s ≤ 2 ^ k + 2 ^ (k - 24)

section

variable {s j : ℕ}

theorem ceilPages_le_iff : ceilPages s ≤ 2 ^ j ↔ roundToBits 24 s ≤ pageSize * 2 ^ j := by
  rw [ceilPages, pageSize]
  omega

theorem ceilPages_le_allocSize (s : ℕ) : ceilPages s ≤ allocSize s := by
  have hle := le_nextPowOf2 (ceilPages s)
  unfold allocSize
  dsimp only
  split_ifs with h0
  · omega
  · exact hle

theorem pageSize_mul_two_pow (j : ℕ) : pageSize * 2 ^ j = 2 ^ (12 + j) := by
  rw [pageSize, pow_add]
  rfl

/-- A power of two that is at least the number of pages is at least the page count. -/
theorem allocSize_le_of_ceilPages_le (hlt : allocSize s < 2 ^ 32) (h : ceilPages s ≤ 2 ^ j) :
    allocSize s ≤ 2 ^ j := by
  have hceil : ceilPages s < 2 ^ 32 := (ceilPages_le_allocSize s).trans_lt hlt
  unfold allocSize
  dsimp only
  split_ifs with h0
  · exact Nat.one_le_two_pow
  · cases hpow : isPowOf2 (ceilPages s) with
    | true => simpa [nextPowOf2, hpow] using h
    | false =>
      rw [nextPowOf2_of_not hceil hpow]
      have hx : ceilPages s ≠ 0 := by
        intro hz
        simp [hz, isPowOf2] at hpow
      -- it is not a power of two itself
      have hne : ceilPages s ≠ 2 ^ j := by
        intro heq
        rw [(isPowOf2_iff hx hceil).2 ⟨j, heq⟩] at hpow
        cases hpow
      have hlog := (Nat.log2_lt hx).2 (Nat.lt_of_le_of_ne h hne)
      exact Nat.pow_le_pow_right Nat.two_pos hlog

/-- No power of two that is large enough for a request is smaller than its page count. -/
theorem allocSize_le (hlt : allocSize s < 2 ^ 32) (h : s ≤ pageSize * 2 ^ j) :
    allocSize s ≤ 2 ^ j := by
  refine allocSize_le_of_ceilPages_le hlt (ceilPages_le_iff.2 ?_)
  rw [pageSize_mul_two_pow] at h ⊢
  rcases Nat.lt_or_eq_of_le h with hs | rfl
  · exact roundToBits_le_two_pow hs
  · by_cases hk : 24 ≤ 12 + j
    · exact (roundToBits_le_two_pow_iff (by decide) hk le_rfl
        (Nat.pow_lt_pow_right (by decide) (Nat.lt_succ_self _))).2 (Nat.le_add_right _ _)
    · rw [roundToBits_of_lt (Nat.pow_lt_pow_right (by decide) (by omega))]

/-- The page count is large enough unless the conversion to `float` rounds down to a power of
two. -/
theorem le_mul_allocSize_iff (hlt : allocSize s < 2 ^ 32) :
    s ≤ pageSize * allocSize s ↔ ¬ RoundsDown s := by
  obtain ⟨i, hi⟩ := exists_allocSize_eq_two_pow hlt
  constructor
  · rintro hle ⟨k, hk, hlo, hhi⟩
    have hpow : 2 ^ (k - 24) < 2 ^ k := Nat.pow_lt_pow_right (by decide) (by omega)
    have hround : roundToBits 24 s ≤ 2 ^ k :=
      (roundToBits_le_two_pow_iff (by decide) hk hlo.le (by rw [pow_succ]; omega)).2 hhi
    -- so many pages hold `2 ^ k` bytes, which are fewer than `s`
    have hk' : 2 ^ k = pageSize * 2 ^ (k - 12) := by
      rw [pageSize_mul_two_pow, Nat.add_sub_cancel' (by omega)]
    have hceil : ceilPages s ≤ 2 ^ (k - 12) := ceilPages_le_iff.2 (hk' ▸ hround)
    have hsize := Nat.mul_le_mul_left pageSize (allocSize_le_of_ceilPages_le hlt hceil)
    omega
  · intro hno
    by_contra hshort
    have hround : roundToBits 24 s ≤ pageSize * 2 ^ i :=
      ceilPages_le_iff.1 (hi ▸ ceilPages_le_allocSize s)
    rw [hi, pageSize_mul_two_pow] at hshort
    rw [pageSize_mul_two_pow] at hround
    -- `s` lies above the power of two, and rounding leads down to it
    have hhi : s < 2 ^ (12 + i + 1) := by
      by_contra hge
      have hbig := two_pow_le_roundToBits (n := 24) (by decide) (Nat.not_lt.1 hge)
      rw [pow_succ] at hbig
      have := Nat.two_pow_pos (12 + i)
      omega
    have hk : 24 ≤ 12 + i := by
      by_contra hsmall
      have hlt24 : s < 2 ^ 24 :=
        hhi.trans_le (Nat.pow_le_pow_right Nat.two_pos (by omega))
      rw [roundToBits_of_lt hlt24] at hround
      exact hshort hround
    refine hno ⟨12 + i, hk, Nat.not_le.1 hshort, ?_⟩
    exact (roundToBits_le_two_pow_iff (by decide) hk (Nat.not_le.1 hshort).le hhi).1 hround

end

end Zalloc
