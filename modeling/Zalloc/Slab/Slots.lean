import Zalloc.Slab.Sizes

/-!
# Slot masks

A slab keeps a mask of its free slots. Which list the slab belongs to depends on the mask: it is
full when no slot is free, empty when all are, and partial otherwise.

## Main definitions

* `SlabList.Holds w z slots`: a slab with this mask belongs to the list `w`.

## Main results

* `Holds.take`: the lowest free slot is taken.
* `Holds.put`, `holds_put_full`: a slot is given back.
* `Holds.oneUsedSlot_iff`: the test for a single used slot.
-/

set_option autoImplicit false

namespace Zalloc

/-- A slab with this mask belongs to the list. -/
def SlabList.Holds (w : SlabList) (z : SlabSizes) (slots : ℕ) : Prop :=
  match w with
  | .partly => slots &&& z.emptySlotmask = slots ∧ slots ≠ 0 ∧ slots ≠ z.emptySlotmask
  | .empty => slots = z.emptySlotmask
  | .full => slots = 0

section

variable {z : SlabSizes} {slots i j : ℕ} {w : SlabList}

/-- The masks are those of the first `itemcount` slots. -/
theorem and_emptySlotmask_iff (h : Sized z) :
    slots &&& z.emptySlotmask = slots ↔ slots < 2 ^ z.itemcount := by
  rw [h.emptySlotmask, Nat.and_two_pow_sub_one_eq_mod]
  constructor
  · intro heq
    rw [← heq]
    exact Nat.mod_lt _ (Nat.two_pow_pos _)
  · exact Nat.mod_eq_of_lt

theorem Sized.two_pow_le (h : Sized z) : 2 ^ z.itemcount ≤ 2 ^ 64 :=
  Nat.pow_le_pow_right Nat.two_pos h.itemcount_le

theorem SlabList.Holds.lt (hw : w.Holds z slots) (h : Sized z) : slots < 2 ^ z.itemcount := by
  cases w with
  | partly => exact (and_emptySlotmask_iff h).1 hw.1
  | empty =>
    have hslots : slots = z.emptySlotmask := hw
    rw [hslots, h.emptySlotmask]
    exact Nat.sub_lt (Nat.two_pow_pos _) Nat.one_pos
  | full =>
    have hslots : slots = 0 := hw
    rw [hslots]
    exact Nat.two_pow_pos _

/-- The mask of a partial slab has a free slot and a used one. -/
theorem holds_partly_iff (h : Sized z) :
    SlabList.Holds .partly z slots ↔ slots < 2 ^ z.itemcount ∧
      (∃ i < z.itemcount, slots.testBit i = true) ∧
      ∃ i < z.itemcount, slots.testBit i = false := by
  rw [SlabList.Holds, and_emptySlotmask_iff h, h.emptySlotmask]
  refine and_congr_right fun hlt => ?_
  rw [Ne, Ne, BitMask.eq_zero_iff hlt, BitMask.eq_ones_iff hlt]
  simp

/-- All slots of an empty slab are free. -/
theorem holds_empty_iff (h : Sized z) :
    SlabList.Holds .empty z slots ↔ slots < 2 ^ z.itemcount ∧
      ∀ i < z.itemcount, slots.testBit i = true := by
  constructor
  · intro hw
    have hlt := hw.lt h
    rw [SlabList.Holds, h.emptySlotmask, BitMask.eq_ones_iff hlt] at hw
    exact ⟨hlt, hw⟩
  · rintro ⟨hlt, hbits⟩
    rw [SlabList.Holds, h.emptySlotmask, BitMask.eq_ones_iff hlt]
    exact hbits

/-- No slot of a full slab is free. -/
theorem holds_full_iff (h : Sized z) :
    SlabList.Holds .full z slots ↔ slots < 2 ^ z.itemcount ∧
      ∀ i < z.itemcount, slots.testBit i = false := by
  constructor
  · intro hw
    have hlt := hw.lt h
    exact ⟨hlt, (BitMask.eq_zero_iff hlt).1 hw⟩
  · exact fun hbits => (BitMask.eq_zero_iff hbits.1).2 hbits.2

/-! ## Taking a slot -/

theorem one_shiftLeft_lt (hi : i < z.itemcount) : 1 <<< i < 2 ^ z.itemcount := by
  rw [Nat.one_shiftLeft]
  exact Nat.pow_lt_pow_right (by decide) hi

/-- The lowest free slot is free. -/
theorem SlabList.Holds.firstFreeSlot (hw : SlabList.Holds .partly z slots) (h : Sized z) :
    firstFreeSlot slots < z.itemcount ∧ slots.testBit (firstFreeSlot slots) = true := by
  have hlt := hw.lt h
  obtain ⟨hbit, -⟩ := BitMask.testBit_lowest (w := 64) hw.2.1 (hlt.trans_le h.two_pow_le)
  refine ⟨?_, hbit⟩
  by_contra hle
  -- a mask of `itemcount` bits has no bit above them
  have hbig : slots < 2 ^ Zalloc.firstFreeSlot slots :=
    hlt.trans_le (Nat.pow_le_pow_right Nat.two_pos (by omega))
  have hno := Nat.testBit_lt_two_pow hbig
  rw [Zalloc.firstFreeSlot, hbit] at hno
  cases hno

/-- The used slots after a free one has been taken. -/
theorem testBit_take (hbit : slots.testBit i = true) :
    (slots ^^^ 1 <<< i).testBit j = (slots.testBit j && decide (j ≠ i)) := by
  rw [BitMask.testBit_xor_shift]
  by_cases hj : j = i
  · rw [hj, hbit]
    simp
  · simp [hj, Ne.symm hj]

/-- The lowest free slot of a partial slab is taken; the slab becomes full, or stays partial. -/
theorem SlabList.Holds.take (hw : SlabList.Holds .partly z slots) (h : Sized z) :
    slots ^^^ 1 <<< Zalloc.firstFreeSlot slots ≠ 0 →
      SlabList.Holds .partly z (slots ^^^ 1 <<< Zalloc.firstFreeSlot slots) := by
  intro hne
  obtain ⟨hi, hbit⟩ := hw.firstFreeSlot h
  have hlt := Nat.xor_lt_two_pow (hw.lt h) (one_shiftLeft_lt hi)
  refine ⟨(and_emptySlotmask_iff h).2 hlt, hne, ?_⟩
  rw [h.emptySlotmask, Ne, BitMask.eq_ones_iff hlt]
  -- all slots would be free, the one just taken among them
  intro hall
  have hflip := hall _ hi
  rw [BitMask.testBit_xor_shift, hbit, decide_eq_true rfl] at hflip
  cases hflip

/-- The first slot of an empty slab is taken. -/
theorem holds_initialSlotmask (h : Sized z) : SlabList.Holds .partly z z.initialSlotmask := by
  have htwo := h.two_le
  have hempty : SlabList.Holds .empty z z.emptySlotmask := rfl
  obtain ⟨hlt, hall⟩ := (holds_empty_iff h).1 hempty
  rw [h.initialSlotmask, holds_partly_iff h]
  -- the second slot is free and the first one is used
  refine ⟨Nat.xor_lt_two_pow hlt (one_shiftLeft_lt (by omega)), ⟨1, by omega, ?_⟩, 0, by omega, ?_⟩
  · rw [BitMask.testBit_xor_shift, hall 1 (by omega)]
    rfl
  · rw [BitMask.testBit_xor_shift, hall 0 (by omega)]
    rfl

/-- The used slots after the first one has been taken. -/
theorem testBit_initialSlotmask (h : Sized z) (hj : j < z.itemcount) :
    z.initialSlotmask.testBit j = decide (j ≠ 0) := by
  have htwo := h.two_le
  have hempty : SlabList.Holds .empty z z.emptySlotmask := rfl
  have hall := ((holds_empty_iff h).1 hempty).2
  rw [h.initialSlotmask, testBit_take (hall 0 (by omega)), hall j hj, Bool.true_and]

/-! ## Giving a slot back -/

/-- The used slots after one has been given back. -/
theorem testBit_put : (slots ||| 1 <<< i).testBit j = (slots.testBit j || decide (j = i)) := by
  rw [BitMask.testBit_or_shift]
  exact congrArg _ (decide_eq_decide.2 eq_comm)

/-- A slot of a full slab is given back. -/
theorem holds_put_full (h : Sized z) (hi : i < z.itemcount) :
    SlabList.Holds .partly z (1 <<< i) := by
  have htwo := h.two_le
  rw [holds_partly_iff h]
  -- there are two slots at least, so another one is still used
  refine ⟨one_shiftLeft_lt hi, ⟨i, hi, ?_⟩, if i = 0 then 1 else 0, ?_, ?_⟩
  · rw [Nat.one_shiftLeft, Nat.testBit_two_pow_self]
  · split_ifs <;> omega
  · rw [Nat.one_shiftLeft, Nat.testBit_two_pow, decide_eq_false_iff_not]
    split_ifs <;> omega

/-- There is at most one used slot. -/
theorem oneUsedSlot_iff (h : Sized z) :
    oneUsedSlot slots z.emptySlotmask = true ↔
      ∀ i < z.itemcount, ∀ j < z.itemcount, slots.testBit i = false → slots.testBit j = false →
        i = j := by
  -- the bits of the tested number are the used slots
  have hbit : ∀ i, ((u64Max ^^^ slots) &&& z.emptySlotmask).testBit i =
      (decide (i < z.itemcount) && !slots.testBit i) := by
    intro i
    rw [h.emptySlotmask, u64Max, BitMask.testBit_not_and h.itemcount_le]
  have hlt : (u64Max ^^^ slots) &&& z.emptySlotmask < 2 ^ 64 := by
    apply Nat.and_lt_two_pow
    have hmask := SlabList.Holds.lt (w := .empty) (rfl : SlabList.Holds .empty z z.emptySlotmask) h
    exact hmask.trans_le h.two_pow_le
  rw [oneUsedSlot, u64Sub, beq_iff_eq, BitMask.and_pred_eq_zero_iff hlt]
  simp only [hbit, Bool.and_eq_true, decide_eq_true_iff, Bool.not_eq_true']
  constructor
  · exact fun huniq i hi j hj hbi hbj => huniq i j ⟨hi, hbi⟩ ⟨hj, hbj⟩
  · exact fun huniq i j hi hj => huniq i hi.1 j hj.1 hi.2 hj.2

/-- A slot of a partial slab is given back, and another one is still used. -/
theorem SlabList.Holds.put (hw : SlabList.Holds .partly z slots) (h : Sized z)
    (hi : i < z.itemcount) (hmore : ¬ oneUsedSlot slots z.emptySlotmask = true) :
    SlabList.Holds .partly z (slots ||| 1 <<< i) := by
  obtain ⟨hlt, -, -⟩ := (holds_partly_iff h).1 hw
  rw [holds_partly_iff h]
  refine ⟨Nat.or_lt_two_pow hlt (one_shiftLeft_lt hi), ⟨i, hi, ?_⟩, ?_⟩
  · rw [BitMask.testBit_or_shift, decide_eq_true rfl, Bool.or_true]
  · -- otherwise the slot would be the only one in use
    by_contra hall
    push Not at hall
    refine hmore ((oneUsedSlot_iff h).2 fun j hj k hk hbj hbk => ?_)
    have key : ∀ m < z.itemcount, slots.testBit m = false → m = i := by
      intro m hm hbm
      have hor := hall m hm
      rw [BitMask.testBit_or_shift, hbm] at hor
      by_contra hne
      rw [decide_eq_false (Ne.symm hne)] at hor
      exact hor rfl
    rw [key j hj hbj, key k hk hbk]

end

end Zalloc
