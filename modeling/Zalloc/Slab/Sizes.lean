import Zalloc.Slab.Defs

/-!
# The geometry of a slab

What `slab_init` computes, for items of at most `2 ^ 56` bytes. The first choice of a slab size
always leaves room, so the slab is always shrunk to half of it, and it has between 2 and 64 slots.

## Main definitions

* `Sized z`: the items fit into the slab, and the masks are those of its slots.

## Main results

* `sized_slabInit`: `slab_init` succeeds and the sizes are right.
* `Sized.and_alignmentMask`, `Sized.slot_eq`: `slab_free` finds the slab and the slot of an item.
-/

set_option autoImplicit false

namespace Zalloc

/-- The items fit into the slab, and the masks are those of its slots. -/
structure Sized (z : SlabSizes) : Prop where
  /-- The size of a slab is a power of two. -/
  slabsize : ∃ k ≤ 62, z.slabsize = 2 ^ k
  /-- The items have a size. -/
  itemsize_pos : 0 < z.itemsize
  /-- There are at least two items. -/
  two_le : 2 ≤ z.itemcount
  /-- There are at most as many items as bits. -/
  itemcount_le : z.itemcount ≤ 64
  /-- The items fit into the slab. -/
  fits : dataOffset + z.itemcount * z.itemsize ≤ z.slabsize
  /-- All slots are free. -/
  emptySlotmask : z.emptySlotmask = 2 ^ z.itemcount - 1
  /-- All slots but the first are free. -/
  initialSlotmask : z.initialSlotmask = z.emptySlotmask ^^^ 1 <<< 0
  /-- The mask of a header address. -/
  alignmentMask : z.alignmentMask = u64Max ^^^ (z.slabsize - 1)
  /-- A region is cut into slabs without rest. -/
  slabsize_dvd : z.slabsize ∣ z.pagesPerAlloc
  /-- A region has a slab. -/
  pagesPerAlloc_pos : 0 < z.pagesPerAlloc

/-! ## `slab_init` -/

section Init

variable {itemsize : ℕ}

/-- `least_slabsize`. -/
def leastSlabsize (itemsize : ℕ) : ℕ := u64 (dataOffset + u64 (64 * itemsize))

/-- The first choice of a slab size, `2 ^ (k + 1)`, is halved. -/
def Shrinks (itemsize k : ℕ) : Prop :=
  u64Sub (2 ^ (k + 1)) (leastSlabsize itemsize) ≠ 0 ∧ dataOffset < 2 ^ k ∧
    2 ^ k - dataOffset ≥ u64 (2 * itemsize)

/-- What `slab_init` stores, for `itemcount` items in a slab of `2 ^ k` bytes. -/
def slabChainOf (itemsize itemcount k : ℕ) : SlabChain where
  itemsize
  itemcount
  slabsize := 2 ^ k
  pagesPerAlloc := if 2 ^ k > slabPagesize then 2 ^ k else slabPagesize
  initialSlotmask := (u64Max >>> (64 - itemcount)) ^^^ 1
  emptySlotmask := u64Max >>> (64 - itemcount)
  alignmentMask := u64Max ^^^ (2 ^ k - 1)
  head := fun _ => 0

/-- What is computed with wrapping arithmetic wraps as a whole. -/
theorem leastSlabsize_eq (itemsize : ℕ) :
    leastSlabsize itemsize = dataOffset + 64 * (itemsize % 2 ^ 58) := by
  rw [leastSlabsize, u64, u64, dataOffset]
  omega

/-- A slab has room for a header, so the first choice is at least `2`. -/
theorem exists_val_leastSlabsize (ceilLog2 : CeilLog2) (itemsize : ℕ) :
    ∃ k, ceilLog2.val (leastSlabsize itemsize) = k + 1 := by
  have hleast := leastSlabsize_eq itemsize
  rw [dataOffset] at hleast
  have hpow := ceilLog2.le_two_pow (leastSlabsize itemsize) (by omega)
  refine Nat.exists_eq_add_of_le' (Nat.one_le_iff_ne_zero.2 fun hzero => ?_)
  rw [hzero] at hpow
  omega

/-- What `slab_init` does. -/
theorem slabInit_eq_some_iff {ceilLog2 : CeilLog2} {sch : SlabChain} {k : ℕ} (hlo : 1 ≤ itemsize)
    (hhi : itemsize ≤ u64Max) (hval : ceilLog2.val (leastSlabsize itemsize) = k + 1)
    (hk : k ≤ 62) :
    slabInit ceilLog2 itemsize = some sch ↔
      Shrinks itemsize k ∧ 1 ≤ (2 ^ k - dataOffset) / itemsize ∧
          (2 ^ k - dataOffset) / itemsize ≤ 64 ∧
          slabChainOf itemsize ((2 ^ k - dataOffset) / itemsize) k = sch ∨
        ¬ Shrinks itemsize k ∧ slabChainOf itemsize 64 (k + 1) = sch := by
  have hhalf : (1 <<< (k + 1)) >>> 1 = 2 ^ k := by
    rw [Nat.one_shiftLeft, Nat.shiftRight_one, Nat.pow_succ, Nat.mul_div_cancel _ Nat.two_pos]
  have hleast : u64 (dataOffset + u64 (64 * itemsize)) = leastSlabsize itemsize := rfl
  unfold slabInit
  rw [if_neg (fun h => h ⟨hlo, hhi⟩)]
  dsimp only
  rw [hleast, hval, hhalf, if_neg (by omega), Nat.one_shiftLeft]
  by_cases h : Shrinks itemsize k
  · rw [decide_eq_true (p := _ ∧ _) h]
    simp only [↓reduceIte, h, not_true_eq_false, false_and, or_false, true_and]
    by_cases hcount : 1 ≤ (2 ^ k - dataOffset) / itemsize ∧ (2 ^ k - dataOffset) / itemsize ≤ 64
    · rw [if_neg (not_not.2 hcount), Option.some_inj]
      exact ⟨fun heq => ⟨hcount.1, hcount.2, heq⟩, fun heq => heq.2.2⟩
    · rw [if_pos hcount]
      refine iff_of_false (by simp) fun heq => hcount ⟨heq.1, heq.2.1⟩
  · rw [decide_eq_false (p := _ ∧ _) h]
    simp only [h, not_false_eq_true, false_and, false_or, true_and]
    exact Option.some_inj

/-- A slab of more than `2 ^ 63` bytes is not possible. -/
theorem slabInit_eq_none {ceilLog2 : CeilLog2} {k : ℕ}
    (hval : ceilLog2.val (leastSlabsize itemsize) = k + 1) (hk : 63 ≤ k) :
    slabInit ceilLog2 itemsize = none := by
  have hleast : u64 (dataOffset + u64 (64 * itemsize)) = leastSlabsize itemsize := rfl
  unfold slabInit
  split_ifs
  · dsimp only
    rw [hleast, hval, if_pos (by omega)]
  · rfl

/-- The first choice of a slab size: it has at least `128` bytes, half of it is less than what `64`
items need, and it is not exceeded by much. -/
theorem exists_first_slabsize (ceilLog2 : CeilLog2) (hlo : 1 ≤ itemsize)
    (hhi : itemsize ≤ 2 ^ 56) :
    ∃ k, ceilLog2.val (dataOffset + 64 * itemsize) = k + 1 ∧ 6 ≤ k ∧ k ≤ 62 ∧
      2 ^ k < dataOffset + 64 * itemsize ∧ dataOffset + 64 * itemsize ≤ 4 * 2 ^ k := by
  have hn : dataOffset + 64 * itemsize < 2 ^ 64 := by
    rw [dataOffset]
    omega
  have hclog := ceilLog2.le_clog _ hn
  have hpow := ceilLog2.le_two_pow _ hn
  generalize ceilLog2.val (dataOffset + 64 * itemsize) = c at hclog hpow
  -- a header and `64` items do not fit into `64` bytes
  have hseven : 7 ≤ c := by
    by_contra hlt
    have hsmall : 2 ^ c ≤ 2 ^ 6 := Nat.pow_le_pow_right Nat.two_pos (by omega)
    have hrest : 2 ^ c / 2 ^ 40 = 0 := Nat.div_eq_of_lt (by omega)
    rw [hrest, dataOffset] at hpow
    omega
  obtain ⟨k, rfl⟩ := Nat.exists_eq_add_of_le' (show 1 ≤ c by omega)
  -- the value is not above the exact one, so half of it is too small
  have hgt : 2 ^ k < dataOffset + 64 * itemsize := by
    by_contra hle
    have hbound := Nat.clog_le_of_le_pow (Nat.le_of_not_lt hle)
    omega
  have hk : 2 ^ k < 2 ^ 63 := by
    rw [dataOffset] at hgt
    omega
  have hdiv := Nat.div_le_self (2 ^ (k + 1)) (2 ^ 40)
  rw [Nat.pow_succ] at hpow hdiv
  refine ⟨k, rfl, by omega, ?_, hgt, by omega⟩
  have hlt := (Nat.pow_lt_pow_iff_right (by decide)).1 hk
  omega

/-- The mask of the first `n` slots. -/
theorem u64Max_shiftRight {n : ℕ} (hn : n ≤ 64) : u64Max >>> (64 - n) = 2 ^ n - 1 := by
  apply Nat.eq_of_testBit_eq
  intro i
  rw [u64Max, Nat.testBit_shiftRight, Nat.testBit_two_pow_sub_one, Nat.testBit_two_pow_sub_one,
    decide_eq_decide]
  omega

/-- The larger of the slab size and `slab_pagesize` is cut into slabs without rest. -/
theorem slabsize_dvd_pagesPerAlloc (k : ℕ) :
    2 ^ k ∣ if 2 ^ k > slabPagesize then 2 ^ k else slabPagesize := by
  split_ifs with h
  · exact Nat.dvd_refl _
  · have hpage : slabPagesize = 2 ^ 20 := by decide
    rw [hpage] at h ⊢
    have hle := (Nat.pow_le_pow_iff_right (by decide)).1 (Nat.le_of_not_lt h)
    exact Nat.pow_dvd_pow 2 hle

/-- `slab_init` succeeds, and the sizes are right. -/
theorem sized_slabInit (ceilLog2 : CeilLog2) (hlo : 1 ≤ itemsize) (hhi : itemsize ≤ 2 ^ 56) :
    ∃ sch, slabInit ceilLog2 itemsize = some sch ∧ Sized sch.toSlabSizes ∧
      sch.itemsize = itemsize ∧ ∀ w, sch.head w = 0 := by
  obtain ⟨k, hval, hk6, hk62, hgt, hle⟩ := exists_first_slabsize ceilLog2 hlo hhi
  have hsmall : 2 ^ 6 ≤ 2 ^ k := Nat.pow_le_pow_right Nat.two_pos hk6
  have hlarge : 2 ^ k ≤ 2 ^ 62 := Nat.pow_le_pow_right Nat.two_pos hk62
  -- nothing wraps
  have hleast : leastSlabsize itemsize = dataOffset + 64 * itemsize := by
    rw [leastSlabsize_eq, Nat.mod_eq_of_lt (by omega)]
  have htwice : u64 (2 * itemsize) = 2 * itemsize := Nat.mod_eq_of_lt (by omega)
  -- what `64` items need is no power of two, so the first choice leaves room
  have hroom : u64Sub (2 ^ (k + 1)) (dataOffset + 64 * itemsize) ≠ 0 := by
    obtain ⟨j, rfl⟩ := Nat.exists_eq_add_of_le hk6
    rw [u64Sub, Nat.pow_succ, Nat.pow_add]
    rw [Nat.pow_add] at hlarge hle
    simp only [dataOffset] at hle ⊢
    omega
  -- half of the first choice has room for more than two items
  have hshrinks : Shrinks itemsize k := by
    rw [Shrinks, hleast, htwice]
    refine ⟨hroom, ?_, ?_⟩
    · rw [dataOffset]
      omega
    · rw [dataOffset] at hle ⊢
      omega
  have hcount : 2 ≤ (2 ^ k - dataOffset) / itemsize ∧ (2 ^ k - dataOffset) / itemsize ≤ 64 := by
    constructor
    · rw [Nat.le_div_iff_mul_le hlo, ← htwice]
      exact hshrinks.2.2
    · rw [← Nat.lt_succ_iff, Nat.div_lt_iff_lt_mul hlo]
      rw [dataOffset] at hgt ⊢
      omega
  have hfits := Nat.div_mul_le_self (2 ^ k - dataOffset) itemsize
  rw [← hleast] at hval
  refine ⟨_, (slabInit_eq_some_iff hlo (by rw [u64Max]; omega) hval hk62).2
    (.inl ⟨hshrinks, by omega, hcount.2, rfl⟩), ?_, rfl, fun _ => rfl⟩
  exact {
    slabsize := ⟨k, hk62, rfl⟩
    itemsize_pos := hlo
    two_le := hcount.1
    itemcount_le := hcount.2
    fits := by
      dsimp only [slabChainOf]
      have hroom := hshrinks.2.1
      omega
    emptySlotmask := u64Max_shiftRight hcount.2
    initialSlotmask := rfl
    alignmentMask := rfl
    slabsize_dvd := slabsize_dvd_pagesPerAlloc k
    pagesPerAlloc_pos := by
      dsimp only [slabChainOf]
      split_ifs
      · omega
      · decide }

end Init

/-! ## Slabs and items -/

/-- The slabs of a region. -/
theorem inRegion_add_mul {z : SlabSizes} {base k : ℕ}
    (hk : k * z.slabsize < z.pagesPerAlloc) :
    z.InRegion base (base + k * z.slabsize) := by
  refine ⟨Nat.le_add_right _ _, Nat.add_lt_add_left hk _, ?_⟩
  rw [Nat.add_sub_cancel_left]
  exact Nat.dvd_mul_left _ _

namespace Sized

variable {z : SlabSizes} {base a a' i i' slots : ℕ}

theorem slabsize_pos (h : Sized z) : 0 < z.slabsize := by
  obtain ⟨k, -, hk⟩ := h.slabsize
  rw [hk]
  exact Nat.two_pow_pos k

/-- The first slab of a region. -/
theorem inRegion_base (h : Sized z) (base : ℕ) : z.InRegion base base := by
  refine ⟨le_rfl, Nat.lt_add_of_pos_right h.pagesPerAlloc_pos, ?_⟩
  rw [Nat.sub_self]
  exact Nat.dvd_zero _

/-- A slab of an aligned region is aligned. -/
theorem dvd_of_inRegion (hbase : z.slabsize ∣ base) (ha : z.InRegion base a) : z.slabsize ∣ a := by
  obtain ⟨hle, -, hdvd⟩ := ha
  rw [← Nat.sub_add_cancel hle]
  exact Nat.dvd_add hdvd hbase

/-- Two multiples of the slab size are a slab apart. -/
theorem add_slabsize_le (ha : z.slabsize ∣ a) (ha' : z.slabsize ∣ a') (hlt : a < a') :
    a + z.slabsize ≤ a' := by
  -- the difference is a positive multiple
  have hdvd := Nat.dvd_sub ha' ha
  have hle := Nat.le_of_dvd (by omega) hdvd
  omega

/-- A slab lies in its region. -/
theorem slab_le (h : Sized z) (hbase : z.slabsize ∣ base) (ha : z.InRegion base a) :
    a + z.slabsize ≤ base + z.pagesPerAlloc :=
  add_slabsize_le (dvd_of_inRegion hbase ha) (Nat.dvd_add hbase h.slabsize_dvd) ha.2.1

/-- An item lies in the data area of its slab. -/
theorem item_le (h : Sized z) (hi : i < z.itemcount) :
    z.item a i + z.itemsize ≤ a + z.slabsize := by
  have hfits := h.fits
  have hmul : (i + 1) * z.itemsize ≤ z.itemcount * z.itemsize := Nat.mul_le_mul_right _ hi
  rw [Nat.add_mul] at hmul
  rw [SlabSizes.item]
  omega

theorem le_item : a + dataOffset ≤ z.item a i := Nat.le_add_right _ _

/-- The slab and the slot of an item. -/
theorem item_inj (h : Sized z) (ha : z.slabsize ∣ a) (ha' : z.slabsize ∣ a')
    (hi : i < z.itemcount) (hi' : i' < z.itemcount) (heq : z.item a i = z.item a' i') :
    a = a' ∧ i = i' := by
  have hpos := h.itemsize_pos
  have hle := h.item_le (a := a) hi
  have hle' := h.item_le (a := a') hi'
  have hlo : a + dataOffset ≤ z.item a i := le_item
  have hlo' : a' + dataOffset ≤ z.item a' i' := le_item
  -- items of different slabs are apart
  have hslab : a = a' := by
    rcases Nat.lt_trichotomy a a' with hlt | rfl | hlt
    · have := add_slabsize_le ha ha' hlt
      omega
    · rfl
    · have := add_slabsize_le ha' ha hlt
      omega
  refine ⟨hslab, Nat.eq_of_mul_eq_mul_right hpos ?_⟩
  rw [SlabSizes.item, SlabSizes.item, hslab] at heq
  exact Nat.add_left_cancel heq

/-- Two items do not overlap. -/
theorem item_disjoint (h : Sized z) (ha : z.slabsize ∣ a) (ha' : z.slabsize ∣ a')
    (hi : i < z.itemcount) (hi' : i' < z.itemcount) (hne : z.item a i ≠ z.item a' i') :
    z.item a i + z.itemsize ≤ z.item a' i' ∨ z.item a' i' + z.itemsize ≤ z.item a i := by
  have hle := h.item_le (a := a) hi
  have hle' := h.item_le (a := a') hi'
  have hlo : a + dataOffset ≤ z.item a i := le_item
  have hlo' : a' + dataOffset ≤ z.item a' i' := le_item
  rcases Nat.lt_trichotomy a a' with hlt | rfl | hlt
  · have := add_slabsize_le ha ha' hlt
    exact .inl (by omega)
  · -- two slots of one slab
    rw [SlabSizes.item, SlabSizes.item] at hne ⊢
    rcases Nat.lt_trichotomy i i' with hlt | rfl | hlt
    · have hmul : (i + 1) * z.itemsize ≤ i' * z.itemsize := Nat.mul_le_mul_right _ hlt
      rw [Nat.add_mul] at hmul
      exact .inl (by omega)
    · exact absurd rfl hne
    · have hmul : (i' + 1) * z.itemsize ≤ i * z.itemsize := Nat.mul_le_mul_right _ hlt
      rw [Nat.add_mul] at hmul
      exact .inr (by omega)
  · have := add_slabsize_le ha' ha hlt
    exact .inr (by omega)

/-- An item does not overlap a header. -/
theorem item_disjoint_header (h : Sized z) (ha : z.slabsize ∣ a) (ha' : z.slabsize ∣ a')
    (hi : i < z.itemcount) :
    z.item a i + z.itemsize ≤ a' ∨ a' + dataOffset ≤ z.item a i := by
  have hle := h.item_le (a := a) hi
  have hlo : a + dataOffset ≤ z.item a i := le_item
  by_cases hlt : a < a'
  · have := add_slabsize_le ha ha' hlt
    exact .inl (by omega)
  · exact .inr (by omega)

/-- `slab_free` finds the slab of an item. -/
theorem and_alignmentMask (h : Sized z) (ha : z.slabsize ∣ a) (hi : i < z.itemcount)
    (hlt : a + z.slabsize ≤ 2 ^ 64) : z.item a i &&& z.alignmentMask = a := by
  have hpos := h.itemsize_pos
  have hle := h.item_le (a := a) hi
  have hlo : a + dataOffset ≤ z.item a i := le_item
  obtain ⟨k, hk, hsize⟩ := h.slabsize
  rw [h.alignmentMask, hsize, u64Max, BitMask.and_not_low (by omega) (by omega), ← hsize]
  -- the item is less than a slab behind the header
  obtain ⟨m, rfl⟩ := ha
  have hdiv : z.item (z.slabsize * m) i / z.slabsize = m := by
    rw [Nat.mul_comm] at hle hlo ⊢
    apply Nat.div_eq_of_lt_le
    · omega
    · rw [Nat.add_mul]
      omega
  rw [hdiv, Nat.mul_comm]

/-- `slab_free` finds the slot of an item. -/
theorem slot_eq (h : Sized z) (hi : i < z.itemcount) (hlt : a + z.slabsize ≤ 2 ^ 64) :
    u64Sub (u64Sub (z.item a i) a) dataOffset / z.itemsize = i := by
  have hle := h.item_le (a := a) hi
  have hpos := h.itemsize_pos
  -- no subtraction wraps
  have hsub : u64Sub (u64Sub (z.item a i) a) dataOffset = i * z.itemsize := by
    rw [SlabSizes.item] at hle ⊢
    simp only [u64Sub, dataOffset] at hle ⊢
    omega
  rw [hsub, Nat.mul_div_cancel _ hpos]

end Sized

end Zalloc
