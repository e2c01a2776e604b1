import Mathlib.Data.Nat.Bitwise
import Zalloc.Foundations.BitMask
import Zalloc.Nvmalloc.Bitmap

/-!
# Headers and sizes

The word at the start of a block is made of its size and of eight bits of a checksum of its offset
and size. Its sign says whether the block is in use. Sizes are rounded up to units.

## Main definitions

* `unitsOf size`: the number of units that hold `size` bytes.
* `bucketOf n`: the number of the list for `n` units.

## Main results

* `crcGetSize_crcCompute`: the size can be read from the header.
* `getBestFit_eq`, `actualSizeOf_eq`: the list and the size for a request.
-/

set_option autoImplicit false

namespace Zalloc

/-! ## Checksums -/

section

variable {a location size size' : ℕ} {v : ℤ}

/-- The number that `crcCompute` returns. -/
theorem exists_crcCompute_eq (location size : ℕ) (h : size < 2 ^ 32) :
    ∃ w, crcCompute location size = ((w : ℕ) : ℤ) ∧ size ≤ w ∧ w < 2 ^ 56 ∧
      u32 (w &&& 0xFF00FFFFFFFFFFFF) = size := by
  refine ⟨_, rfl, Nat.left_le_or, Nat.or_lt_two_pow (by omega) ?_, ?_⟩
  · exact Nat.and_lt_two_pow _ (by decide)
  · -- the checksum has no bit among the lowest ones
    rw [u32, Nat.and_mod_two_pow, Nat.or_mod_two_pow, Nat.and_mod_two_pow,
      show 0x00FF000000000000 % 2 ^ 32 = 0 by decide,
      show 0xFF00FFFFFFFFFFFF % 2 ^ 32 = 2 ^ 32 - 1 by decide, Nat.and_zero, Nat.or_zero,
      Nat.and_two_pow_sub_one_eq_mod]
    omega

/-- The size can be read from the header. -/
theorem crcGetSize_crcCompute (h : size < 2 ^ 32) :
    crcGetSize (crcCompute location size) = size := by
  obtain ⟨w, hw, -, hlt, hsize⟩ := exists_crcCompute_eq location size h
  rw [hw, crcGetSize, BitVec.toNat_ofInt, ← hsize]
  congr 2
  omega

theorem crcCompute_pos (h : size < 2 ^ 32) (hpos : 0 < size) : 0 < crcCompute location size := by
  obtain ⟨w, hw, hle, -⟩ := exists_crcCompute_eq location size h
  rw [hw]
  omega

/-- A word that holds a checksum and a size. -/
theorem toInt_crcCompute (h : size < 2 ^ 32) :
    (BitVec.ofInt 64 (crcCompute location size)).toInt = crcCompute location size := by
  obtain ⟨w, hw, -, hlt, -⟩ := exists_crcCompute_eq location size h
  rw [hw]
  exact BitVec.toInt_ofInt_eq_self (by decide) (by omega) (by omega)

/-- A word that holds a checksum and a size, with a negative sign. -/
theorem toInt_neg_crcCompute (h : size < 2 ^ 32) :
    (BitVec.ofInt 64 (-crcCompute location size)).toInt = -crcCompute location size := by
  obtain ⟨w, hw, -, hlt, -⟩ := exists_crcCompute_eq location size h
  rw [hw]
  exact BitVec.toInt_ofInt_eq_self (by decide) (by omega) (by omega)

/-- Such a word is not positive. -/
theorem toInt_neg_crcCompute_nonpos (h : size < 2 ^ 32) :
    (BitVec.ofInt 64 (-crcCompute location size)).toInt ≤ 0 := by
  obtain ⟨w, hw, -⟩ := exists_crcCompute_eq location size h
  rw [toInt_neg_crcCompute h]
  omega

/-! ## Accesses -/

variable {st : NvState}

theorem returns_getWord (h : a + 8 ≤ st.endAddress) : (getWord a).Returns st st (st.mem a) := by
  refine Prog.Returns.bind (Prog.returns_require ?_) (Prog.returns_read _ _)
  exact h

theorem returns_setWord (h : a + 8 ≤ st.endAddress) (w : BitVec 64) :
    (setWord a w).Returns st { st with mem := Function.update st.mem a w } () := by
  refine Prog.Returns.bind (Prog.returns_require ?_) (Prog.returns_modify _ _)
  exact h

theorem returns_getHeaderSize (h : a + 8 ≤ st.endAddress) :
    (getHeaderSize a).Returns st st (st.mem a).toInt :=
  (returns_getWord h).bind (Prog.returns_pure _ _)

theorem returns_setHeaderSize (h : a + 8 ≤ st.endAddress) (v : ℤ) :
    (setHeaderSize a v).Returns st
      { st with mem := Function.update st.mem a (BitVec.ofInt 64 v) } () :=
  returns_setWord h _

theorem returns_getHeaderNext (h : a + 16 ≤ st.endAddress) :
    (getHeaderNext a).Returns st st (st.mem (a + 8)).toNat :=
  (returns_getWord h).bind (Prog.returns_pure _ _)

theorem returns_setHeaderNext (h : a + 16 ≤ st.endAddress) (v : ℕ) :
    (setHeaderNext a v).Returns st
      { st with mem := Function.update st.mem (a + 8) (BitVec.ofNat 64 v) } () :=
  returns_setWord h _

theorem returns_getTimeAdded (h : a + 32 ≤ st.endAddress) :
    (getTimeAdded a).Returns st st (st.mem (a + 24)).toNat :=
  (returns_getWord h).bind (Prog.returns_pure _ _)

theorem returns_setTimeAdded (h : a + 32 ≤ st.endAddress) (v : ℕ) :
    (setTimeAdded a v).Returns st
      { st with mem := Function.update st.mem (a + 24) (BitVec.ofNat 64 v) } () :=
  returns_setWord h _

end

/-! ## Sizes -/

/-- The number of units that hold `size` bytes. -/
def unitsOf (size : ℕ) : ℕ := (size + baseSizeMask) / baseSize

/-- The number of the list for `n` units. -/
def bucketOf (n : ℕ) : ℕ := if n ≤ nrSizes then n - 1 else nrSizes

section

variable {m n size : ℕ}

theorem nrSizes_eq : nrSizes = 64 := rfl

theorem bucketOf_le : bucketOf n ≤ nrSizes := by
  unfold bucketOf
  split_ifs <;> omega

theorem bucketOf_mono (h : m ≤ n) : bucketOf m ≤ bucketOf n := by
  unfold bucketOf
  split_ifs <;> omega

/-- In the lists before the last one, the number of units is that of the list. -/
theorem eq_of_bucketOf (hpos : 0 < n) (h : bucketOf n < nrSizes) : n = bucketOf n + 1 := by
  unfold bucketOf at h ⊢
  split_ifs at h ⊢ <;> omega

theorem unitsOf_mul : unitsOf (baseSize * n) = n := by
  simp only [unitsOf, baseSizeMask, baseSize]
  omega

theorem unitsOf_pos (h : 0 < size) : 0 < unitsOf size := by
  simp only [unitsOf, baseSizeMask, baseSize]
  omega

theorem and_baseSizeMask : size &&& baseSizeMask = size % 64 :=
  Nat.and_two_pow_sub_one_eq_mod size 6

/-- The list for a request. -/
theorem getBestFit_eq (hpos : 0 < size) : getBestFit size = bucketOf (unitsOf size) := by
  have hunits : unitsOf size = (size + 63) / 64 := rfl
  rw [getBestFit, and_baseSizeMask, show nrSizes * baseSize = 4096 from rfl]
  by_cases hlarge : size > 4096
  · have hindex : bucketOf (unitsOf size) = nrSizes := if_neg (by rw [hunits, nrSizes_eq]; omega)
    rw [if_pos hlarge, hindex]
  · have hindex : bucketOf (unitsOf size) = unitsOf size - 1 :=
      if_pos (by rw [hunits, nrSizes_eq]; omega)
    rw [if_neg hlarge, hindex, hunits]
    simp only [baseSize]
    split_ifs <;> omega

theorem getBestFit_mul (hpos : 0 < n) : getBestFit (baseSize * n) = bucketOf n := by
  rw [getBestFit_eq, unitsOf_mul]
  simp only [baseSize]
  omega

/-- The size for a request. -/
theorem actualSizeOf_eq (hpos : 0 < size) (hle : size ≤ 2 ^ 32 - 64) :
    actualSizeOf size = baseSize * unitsOf size := by
  have hround : size &&& (u32Max ^^^ baseSizeMask) = size / 64 * 64 :=
    BitMask.and_not_low (w := 32) (k := 6) (by omega) (by decide)
  have hunits : unitsOf size = (size + 63) / 64 := rfl
  unfold actualSizeOf
  dsimp only
  rw [getBestFit_eq hpos, and_baseSizeMask, hround]
  by_cases hlarge : unitsOf size ≤ 64
  · -- one of the lists for a fixed size
    have hindex : bucketOf (unitsOf size) = unitsOf size - 1 := if_pos hlarge
    have hpos' := unitsOf_pos hpos
    rw [if_pos (by rw [hindex, nrSizes_eq]; omega), hindex]
    simp only [baseSize, u32]
    omega
  · have hindex : bucketOf (unitsOf size) = 64 := if_neg hlarge
    rw [if_neg (by rw [hindex, nrSizes_eq]; omega), hunits]
    simp only [baseSize, u32]
    split_ifs <;> omega

end

end Zalloc
