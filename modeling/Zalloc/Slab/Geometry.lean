import Zalloc.Slab.Run

/-!
# The geometry of a slab, for all sizes of items

The assertion of `slab_init` admits all sizes of items. From `2 ^ 57` bytes on, what `64` of them
need does not fit into a `size_t`, or its logarithm is that of a slab which does not. There is no
test for this, and the sizes are right only where the wrapped sum happens to have a large enough
logarithm.

## Main definitions

* `Geometry z`: what `slab_is_valid` would check of the sizes and masks.

## Main results

* `slabInit_geometry_iff`: the sizes for which `slab_init` builds such a chain.
-/

set_option autoImplicit false

namespace Zalloc

/-- The sizes and the masks of a chain, as `slab_is_valid` would check them. -/
structure Geometry (z : SlabSizes) : Prop where
  /-- The size of a slab is a power of two. -/
  slabsize : ∃ k, z.slabsize = 2 ^ k
  /-- The size of a region is a power of two. -/
  pagesPerAlloc : ∃ k, z.pagesPerAlloc = 2 ^ k
  /-- A region is cut into slabs without rest. -/
  slabsize_dvd : z.slabsize ∣ z.pagesPerAlloc
  /-- A region is not smaller than `slab_pagesize`. -/
  le_pagesPerAlloc : slabPagesize ≤ z.pagesPerAlloc
  /-- There are at least two items. -/
  two_le : 2 ≤ z.itemcount
  /-- There are at most as many items as bits. -/
  itemcount_le : z.itemcount ≤ 64
  /-- The items fit into the slab. -/
  fits : dataOffset + z.itemcount * z.itemsize ≤ z.slabsize
  /-- Every slot has its bit. -/
  emptySlotmask : ∀ i, z.emptySlotmask.testBit i = decide (i < z.itemcount)
  /-- Every slot but the first has its bit. -/
  initialSlotmask : ∀ i, z.initialSlotmask.testBit i = decide (0 < i ∧ i < z.itemcount)

section

variable {itemsize itemcount k : ℕ}

/-! ## The logarithm -/

/-- What `64` items need is no power of two, so its logarithm is rounded up. -/
theorem exists_clog_leastSlabsize (itemsize : ℕ) :
    ∃ k, exactCeilLog2.val (leastSlabsize itemsize) = k + 1 ∧ 2 ^ k < leastSlabsize itemsize ∧
      leastSlabsize itemsize < 2 ^ (k + 1) := by
  obtain ⟨k, hval⟩ := exists_val_leastSlabsize exactCeilLog2 itemsize
  have hclog : Nat.clog 2 (leastSlabsize itemsize) = k + 1 := hval
  have hle : leastSlabsize itemsize ≤ 2 ^ (k + 1) := by
    rw [← hclog]
    exact Nat.le_pow_clog (by decide) _
  refine ⟨k, hval, ?_, Nat.lt_of_le_of_ne hle fun heq => ?_⟩
  · by_contra hnot
    have hbound := Nat.clog_le_of_le_pow (Nat.le_of_not_lt hnot)
    omega
  · -- a power of two from `40` on is a multiple of `64`
    rw [leastSlabsize_eq, dataOffset] at heq
    have hsix : 6 ≤ k + 1 := by
      by_contra hlt
      have hsmall : 2 ^ (k + 1) ≤ 2 ^ 5 := Nat.pow_le_pow_right Nat.two_pos (by omega)
      omega
    obtain ⟨j, hj⟩ := Nat.exists_eq_add_of_le hsix
    rw [hj, Nat.pow_add] at heq
    omega

/-- The first choice leaves room. -/
theorem u64Sub_leastSlabsize_ne_zero (hk : k ≤ 62) (hlt : leastSlabsize itemsize < 2 ^ (k + 1)) :
    u64Sub (2 ^ (k + 1)) (leastSlabsize itemsize) ≠ 0 := by
  have hpow : 2 ^ (k + 1) ≤ 2 ^ 63 := Nat.pow_le_pow_right Nat.two_pos (by omega)
  rw [u64Sub]
  omega

/-! ## The sizes -/

/-- The masks are those of the slots, and the rest is a matter of the sizes. -/
theorem geometry_slabChainOf_iff :
    Geometry (slabChainOf itemsize itemcount k).toSlabSizes ↔
      2 ≤ itemcount ∧ itemcount ≤ 64 ∧ dataOffset + itemcount * itemsize ≤ 2 ^ k := by
  constructor
  · exact fun h => ⟨h.two_le, h.itemcount_le, h.fits⟩
  · rintro ⟨htwo, hcount, hfits⟩
    have hpage : slabPagesize = 2 ^ 20 := by decide
    have hmask : ∀ i, (u64Max >>> (64 - itemcount)).testBit i = decide (i < itemcount) := by
      intro i
      rw [u64Max_shiftRight hcount, Nat.testBit_two_pow_sub_one]
    exact {
      slabsize := ⟨k, rfl⟩
      pagesPerAlloc := by
        dsimp only [slabChainOf]
        split_ifs
        · exact ⟨k, rfl⟩
        · exact ⟨20, hpage⟩
      slabsize_dvd := slabsize_dvd_pagesPerAlloc k
      le_pagesPerAlloc := by
        dsimp only [slabChainOf]
        split_ifs <;> omega
      two_le := htwo
      itemcount_le := hcount
      fits := hfits
      emptySlotmask := hmask
      initialSlotmask := fun i => by
        show ((u64Max >>> (64 - itemcount)) ^^^ 1 <<< 0).testBit i = decide (0 < i ∧ i < itemcount)
        rw [BitMask.testBit_xor_shift, hmask]
        by_cases hi : i = 0
        · simp [hi]
          omega
        · simp [Ne.symm hi, Nat.pos_of_ne_zero hi] }

/-- Two items and a header are what half of the first choice must have room for. -/
theorem shrinks_of_two_le (hlo : 1 ≤ itemsize) (hk : k ≤ 62)
    (hlt : leastSlabsize itemsize < 2 ^ (k + 1)) (htwo : dataOffset + 2 * itemsize ≤ 2 ^ k) :
    Shrinks itemsize k := by
  have hpow : 2 ^ k ≤ 2 ^ 62 := Nat.pow_le_pow_right Nat.two_pos hk
  refine ⟨u64Sub_leastSlabsize_ne_zero hk hlt, by omega, ?_⟩
  rw [u64, Nat.mod_eq_of_lt (by omega)]
  omega

/-- If the first choice is not halved, then there is not even room for two items in half of it. -/
theorem not_fits_of_not_shrinks (hlo : 1 ≤ itemsize) (hk : k ≤ 62)
    (hlt : leastSlabsize itemsize < 2 ^ (k + 1)) (h : ¬ Shrinks itemsize k) :
    ¬ dataOffset + 64 * itemsize ≤ 2 ^ (k + 1) := by
  intro hfits
  refine h (shrinks_of_two_le hlo hk hlt ?_)
  rw [Nat.pow_succ, dataOffset] at hfits
  rw [dataOffset]
  omega

/-- The sizes are right if and only if half of the first choice has room for two items. -/
theorem slabInit_geometry_iff_two_le (hlo : 1 ≤ itemsize) (hhi : itemsize ≤ u64Max) :
    (∃ sch, slabInit exactCeilLog2 itemsize = some sch ∧ Geometry sch.toSlabSizes) ↔
      ∃ k ≤ 62, 2 ^ k < leastSlabsize itemsize ∧ leastSlabsize itemsize < 2 ^ (k + 1) ∧
        dataOffset + 2 * itemsize ≤ 2 ^ k := by
  obtain ⟨k, hval, hgt, hlt⟩ := exists_clog_leastSlabsize itemsize
  constructor
  · rintro ⟨sch, hinit, hgeometry⟩
    have hk : k ≤ 62 := by
      by_contra hlarge
      rw [slabInit_eq_none hval (by omega)] at hinit
      cases hinit
    refine ⟨k, hk, hgt, hlt, ?_⟩
    rcases (slabInit_eq_some_iff hlo hhi hval hk).1 hinit with ⟨hshrinks, -, -, rfl⟩ | ⟨hnot, rfl⟩
    · have htwo := (geometry_slabChainOf_iff.1 hgeometry).1
      rw [Nat.le_div_iff_mul_le hlo] at htwo
      have hroom := hshrinks.2.1
      omega
    · exact absurd (geometry_slabChainOf_iff.1 hgeometry).2.2
        (not_fits_of_not_shrinks hlo hk hlt hnot)
  · rintro ⟨j, hj, hgt', hlt', htwo⟩
    -- the logarithm is the only one
    obtain rfl : j = k := by
      have hjk := (Nat.pow_lt_pow_iff_right (by decide)).1 (hgt'.trans hlt)
      have hkj := (Nat.pow_lt_pow_iff_right (by decide)).1 (hgt.trans hlt')
      omega
    have hcount : 2 ≤ (2 ^ j - dataOffset) / itemsize ∧ (2 ^ j - dataOffset) / itemsize ≤ 64 := by
      constructor
      · rw [Nat.le_div_iff_mul_le hlo]
        omega
      · have hmod := Nat.mod_le itemsize (2 ^ 58)
        rw [leastSlabsize_eq] at hgt
        rw [← Nat.lt_succ_iff, Nat.div_lt_iff_lt_mul hlo]
        omega
    refine ⟨_, (slabInit_eq_some_iff hlo hhi hval hj).2
      (.inl ⟨shrinks_of_two_le hlo hj hlt htwo, by omega, hcount.2, rfl⟩), ?_⟩
    refine geometry_slabChainOf_iff.2 ⟨hcount.1, hcount.2, ?_⟩
    have hfits := Nat.div_mul_le_self (2 ^ j - dataOffset) itemsize
    omega

/-- For items of less than `2 ^ 57` bytes nothing wraps. -/
theorem two_le_of_lt (hlo : 1 ≤ itemsize) (hlt : itemsize < 2 ^ 57) :
    ∃ k ≤ 62, 2 ^ k < leastSlabsize itemsize ∧ leastSlabsize itemsize < 2 ^ (k + 1) ∧
      dataOffset + 2 * itemsize ≤ 2 ^ k := by
  obtain ⟨k, -, hgt, hlt'⟩ := exists_clog_leastSlabsize itemsize
  have hleast := leastSlabsize_eq itemsize
  rw [Nat.mod_eq_of_lt (by omega), dataOffset] at hleast
  have hk : 2 ^ k < 2 ^ 63 := by omega
  have hk62 := (Nat.pow_lt_pow_iff_right (by decide)).1 hk
  refine ⟨k, by omega, hgt, hlt', ?_⟩
  rw [Nat.pow_succ] at hlt'
  rw [dataOffset]
  omega

/-- The sizes of items for which `slab_init` builds a chain as `slab_is_valid` would check it. -/
theorem slabInit_geometry_iff (hlo : 1 ≤ itemsize) (hhi : itemsize ≤ u64Max) :
    (∃ sch, slabInit exactCeilLog2 itemsize = some sch ∧ Geometry sch.toSlabSizes) ↔
      itemsize < 2 ^ 57 ∨ ∃ k, 60 ≤ k ∧ k ≤ 62 ∧ 2 ^ (k - 6) ≤ itemsize % 2 ^ 58 ∧
        itemsize % 2 ^ 58 < 2 ^ (k - 5) ∧ dataOffset + 2 * itemsize ≤ 2 ^ k := by
  rw [slabInit_geometry_iff_two_le hlo hhi]
  have hleast := leastSlabsize_eq itemsize
  rw [dataOffset] at hleast ⊢
  constructor
  · rintro ⟨k, hk, hgt, hlt, htwo⟩
    by_cases hsmall : itemsize < 2 ^ 57
    · exact .inl hsmall
    · -- a slab for two such items has `2 ^ 59` bytes, and that is too few for `64` of them
      right
      have hk59 : 59 ≤ k := by
        by_contra hle
        have hpow : 2 ^ k ≤ 2 ^ 58 := Nat.pow_le_pow_right Nat.two_pos (by omega)
        omega
      obtain rfl | rfl | rfl | rfl : k = 59 ∨ k = 60 ∨ k = 61 ∨ k = 62 := by omega
      · omega
      · exact ⟨60, le_rfl, by omega, by omega, by omega, htwo⟩
      · exact ⟨61, by omega, by omega, by omega, by omega, htwo⟩
      · exact ⟨62, by omega, by omega, by omega, by omega, htwo⟩
  · rintro (hsmall | ⟨k, hk60, hk62, hge, hlt, htwo⟩)
    · exact two_le_of_lt hlo hsmall
    · obtain rfl | rfl | rfl : k = 60 ∨ k = 61 ∨ k = 62 := by omega
      · exact ⟨60, by omega, by omega, by omega, htwo⟩
      · exact ⟨61, by omega, by omega, by omega, htwo⟩
      · exact ⟨62, by omega, by omega, by omega, htwo⟩

end

/-- The sizes are right for items of one byte. -/
theorem slabInit_geometry_iff_one :
    ∃ sch, slabInit exactCeilLog2 1 = some sch ∧ Geometry sch.toSlabSizes :=
  (slabInit_geometry_iff le_rfl (by decide)).2 (.inl (by decide))

/-- Items of `2 ^ 58` bytes are put into slabs of `64` bytes, `64` of them into each. -/
theorem not_geometry_large_items :
    1 ≤ 2 ^ 58 ∧ 2 ^ 58 ≤ u64Max ∧
      slabInit exactCeilLog2 (2 ^ 58) = some (slabChainOf (2 ^ 58) 64 6) ∧
      ¬ ∃ sch, slabInit exactCeilLog2 (2 ^ 58) = some sch ∧ Geometry sch.toSlabSizes := by
  have hval : exactCeilLog2.val (leastSlabsize (2 ^ 58)) = 5 + 1 := by decide
  have hinit : slabInit exactCeilLog2 (2 ^ 58) = some (slabChainOf (2 ^ 58) 64 6) := by
    refine (slabInit_eq_some_iff (by decide) (by decide) hval (by decide)).2 (.inr ⟨?_, rfl⟩)
    rintro ⟨-, hroom, -⟩
    exact absurd hroom (by decide)
  refine ⟨by decide, by decide, hinit, ?_⟩
  rintro ⟨sch, hsch, hgeometry⟩
  obtain rfl := Option.some.inj (hinit.symm.trans hsch)
  exact absurd hgeometry.fits (by decide)

end Zalloc
