import Mathlib.Tactic.SplitIfs
import Zalloc.Foundations.Gaps
import Zalloc.Nvmalloc.Defs

/-!
# The bitmap

There is a bit for every unit of `BASE_SIZE` bytes. The scans walk through the bits with the number
of a byte and a mask, forwards or backwards, and so do the updates.

## Main definitions

* `NvState.bit st u`: the bit of a unit.

## Main results

* `returns_isFreeForward`, `returns_isFreeBackward`: how many units are free.
* `returns_makeOne`, `returns_makeZero`: the bits of a range are set or cleared.
* `returns_extendFreeLocation`: the free units around a block after its bits have been cleared.
-/

set_option autoImplicit false

open BitArray

namespace Zalloc

/-- The bit of a unit. -/
def NvState.bit (st : NvState) : ℕ → Bool := BitArray.bit st.bitmap

section

variable {st : NvState} {a i k n u v zone : ℕ}

/-! ## Positions -/

theorem unit_eq : baseSize * u / baseSize = u := Nat.mul_div_cancel_left u (by decide)

theorem mask_eq : 1 <<< (baseSize * u / baseSize &&& 0x00000007) = 1 <<< (u % 8) := by
  rw [unit_eq, show 0x00000007 = 2 ^ 3 - 1 by decide, Nat.and_two_pow_sub_one_eq_mod]

theorem index_eq : (baseSize * u / baseSize) >>> 3 = u / 8 := by
  rw [unit_eq, Nat.shiftRight_eq_div_pow]

theorem u32_eq (h : i < 2 ^ 32) : u32 i = i := Nat.mod_eq_of_lt h

theorem toInt_eq (h : i < 2 ^ 31) : toInt i = i := by
  have hlt : i % 2 ^ 32 < 2 ^ 31 := by omega
  rw [toInt, if_pos hlt]
  omega

/-- The step to the next bit. -/
theorem nextBit_cursor (h : i / 8 + 1 < 2 ^ 32) : nextBit (cursor i) = cursor (i + 1) := by
  unfold nextBit cursor
  dsimp only
  by_cases hlast : i % 8 = 7
  · rw [if_pos (mask_eq_last_iff.2 hlast), u32_eq h, show (i + 1) / 8 = i / 8 + 1 by omega,
      show (i + 1) % 8 = 0 by omega]
    rfl
  · rw [if_neg fun heq => hlast (mask_eq_last_iff.1 heq), mask_shiftLeft hlast,
      show (i + 1) / 8 = i / 8 by omega]

/-- The step to the bit before. -/
theorem prevBit_succ :
    prevBit ((((i + 1) / 8 : ℕ) : ℤ), 1 <<< ((i + 1) % 8)) =
      some (((i / 8 : ℕ) : ℤ), 1 <<< (i % 8)) := by
  unfold prevBit
  dsimp only
  by_cases hfirst : (i + 1) % 8 = 0
  · rw [if_pos (mask_eq_first_iff.2 hfirst), if_neg (by omega), show i % 8 = 7 by omega]
    congr 2
    omega
  · rw [if_neg fun heq => hfirst (mask_eq_first_iff.1 heq), mask_shiftRight hfirst,
      show i + 1 - 1 = i by omega, show (i + 1) / 8 = i / 8 by omega]

/-! ## Scans -/

theorem returns_getByte (h : i < st.bitmapSize) : (getByte i).Returns st st (st.bitmap i) := by
  refine Prog.Returns.bind (Prog.returns_require ?_) (Prog.returns_read _ _)
  exact h

/-- The test of a bit. -/
theorem and_cursor_eq_zero_iff :
    st.bitmap (u / 8) &&& 1 <<< (u % 8) = 0 ↔ st.bit u = false := and_mask_eq_zero_iff

/-- At the free zone the loop ends. -/
theorem returns_forwardBody_end {location : ℕ} (h : baseSize * zone ≤ location) (b : ℕ × ℕ) :
    (forwardBody (baseSize * zone) (n, location, b)).Returns st st (.inr n) := by
  unfold forwardBody
  dsimp only
  rw [if_neg (by omega)]
  exact Prog.returns_pure _ _

/-- The count goes round after `2 ^ 32` units. -/
theorem u32_succ : u32 (u32 n + 1) = u32 (n + 1) := by
  rw [u32, u32, u32]
  omega

/-- A free unit is counted. -/
theorem returns_forwardBody_clear (hbits : zone ≤ 8 * st.bitmapSize)
    (hlt : st.bitmapSize < 2 ^ 32) (hu : u < zone) (hclear : st.bit u = false) :
    (forwardBody (baseSize * zone) (u32 n, baseSize * u, cursor u)).Returns st st
      (.inl (u32 (n + 1), baseSize * (u + 1), cursor (u + 1))) := by
  have hin : baseSize * u < baseSize * zone := Nat.mul_lt_mul_of_pos_left hu (by decide)
  have hread : (getByte (u / 8)).Returns st st (st.bitmap (u / 8)) := returns_getByte (by omega)
  have hnext := nextBit_cursor (i := u) (by omega)
  unfold cursor at hnext
  unfold forwardBody cursor
  dsimp only
  rw [if_pos hin]
  refine hread.bind ?_
  rw [if_pos (and_cursor_eq_zero_iff.2 hclear), u32_succ, hnext]
  exact Prog.returns_pure _ _

/-- At a unit that is not free the loop ends. -/
theorem returns_forwardBody_set (hbits : zone ≤ 8 * st.bitmapSize) (hu : u < zone)
    (hset : ¬ st.bit u = false) :
    (forwardBody (baseSize * zone) (n, baseSize * u, cursor u)).Returns st st (.inr n) := by
  have hin : baseSize * u < baseSize * zone := Nat.mul_lt_mul_of_pos_left hu (by decide)
  have hread : (getByte (u / 8)).Returns st st (st.bitmap (u / 8)) := returns_getByte (by omega)
  unfold forwardBody cursor
  dsimp only
  rw [if_pos hin]
  refine hread.bind ?_
  rw [if_neg fun hzero => hset (and_cursor_eq_zero_iff.1 hzero)]
  exact Prog.returns_pure _ _

/-- The loop counts the free units, from the `n`-th one on. -/
theorem returns_forwardLoop (hbits : zone ≤ 8 * st.bitmapSize) (hlt : st.bitmapSize < 2 ^ 32)
    (hclear : ∀ v, u ≤ v → v < u + n → v < zone ∧ st.bit v = false) (hn : u + n ≤ max u zone) :
    ∃ m, (Prog.loop (forwardBody (baseSize * zone))
        (u32 n, baseSize * (u + n), cursor (u + n))).Returns st st (u32 m) ∧
      ClearFrom st.bit zone u m := by
  -- the induction is on the number of units below the zone
  induction hd : zone - (u + n) generalizing n with
  | zero =>
    have hend : baseSize * zone ≤ baseSize * (u + n) := Nat.mul_le_mul_left _ (by omega)
    exact ⟨n, Prog.Returns.loop_exit (returns_forwardBody_end hend _), hclear, .inl (by omega)⟩
  | succ d ih =>
    by_cases hbit : st.bit (u + n) = false
    · -- one unit more
      obtain ⟨m, hret, hm⟩ := ih (n := n + 1) (fun v h₁ h₂ => by
        by_cases hv : v = u + n
        · subst hv
          exact ⟨by omega, hbit⟩
        · exact hclear v h₁ (by omega)) (by omega) (by omega)
      exact ⟨m, Prog.Returns.loop_next
        (returns_forwardBody_clear hbits hlt (by omega) hbit) hret, hm⟩
    · -- a unit that is not free
      exact ⟨n, Prog.Returns.loop_exit (returns_forwardBody_set hbits (by omega) hbit), hclear,
        .inr (by simpa using hbit)⟩

/-- `isFreeForward` returns the number of free units from a unit on, up to the free zone, as a
`uint32_t`. -/
theorem returns_isFreeForward_u32 (hzone : st.freeZone = baseSize * zone)
    (hbits : zone ≤ 8 * st.bitmapSize) (hlt : st.bitmapSize < 2 ^ 32) (u : ℕ) :
    ∃ n, (isFreeForward (baseSize * u)).Returns st st (u32 n) ∧ ClearFrom st.bit zone u n := by
  by_cases hu : u < zone
  · obtain ⟨n, hret, hn⟩ := returns_forwardLoop (u := u) (n := 0) hbits hlt
      (fun v h₁ h₂ => by omega) (by omega)
    refine ⟨n, (Prog.returns_read _ _).bind ?_, hn⟩
    rw [hzone, mask_eq, index_eq, u32_eq (by omega)]
    exact hret
  · -- behind the free zone the bitmap is not looked at
    refine ⟨0, (Prog.returns_read _ _).bind (Prog.Returns.loop_exit ?_), fun v h₁ h₂ => by omega,
      .inl (by omega)⟩
    rw [hzone]
    exact returns_forwardBody_end (Nat.mul_le_mul_left _ (by omega)) _

/-- In an arena of less than `2 ^ 38` bytes the number is exact. -/
theorem returns_isFreeForward (hzone : st.freeZone = baseSize * zone)
    (hbits : zone ≤ 8 * st.bitmapSize) (hlt : st.bitmapSize < 2 ^ 29) (u : ℕ) :
    ∃ n, (isFreeForward (baseSize * u)).Returns st st n ∧ ClearFrom st.bit zone u n := by
  obtain ⟨n, hret, hn⟩ := returns_isFreeForward_u32 hzone hbits (by omega) u
  have hsmall : n < 2 ^ 32 := by
    by_cases hn0 : n = 0
    · omega
    · have hle := hn.add_le (by omega)
      omega
  rw [u32_eq hsmall] at hret
  exact ⟨n, hret, hn⟩

theorem returns_getByte_toNat (hu : u < 8 * st.bitmapSize) :
    (getByte (((u / 8 : ℕ) : ℤ).toNat)).Returns st st (st.bitmap (u / 8)) :=
  returns_getByte (by omega)

/-- The first unit of all is counted, and the loop ends. -/
theorem returns_backwardBody_zero (hbits : 0 < st.bitmapSize) (hclear : st.bit 0 = false) :
    (backwardBody (u32 n, ((0 / 8 : ℕ) : ℤ), 1 <<< (0 % 8))).Returns st st
      (.inr (u32 (n + 1))) := by
  unfold backwardBody
  dsimp only
  rw [if_pos (by omega)]
  refine (returns_getByte_toNat (by omega)).bind ?_
  rw [if_pos (and_cursor_eq_zero_iff.2 hclear), u32_succ]
  exact Prog.returns_pure _ _

/-- Another free unit is counted. -/
theorem returns_backwardBody_succ (hu : u + 1 < 8 * st.bitmapSize)
    (hclear : st.bit (u + 1) = false) :
    (backwardBody (u32 n, (((u + 1) / 8 : ℕ) : ℤ), 1 <<< ((u + 1) % 8))).Returns st st
      (.inl (u32 (n + 1), ((u / 8 : ℕ) : ℤ), 1 <<< (u % 8))) := by
  unfold backwardBody
  dsimp only
  rw [if_pos (by omega)]
  refine (returns_getByte_toNat hu).bind ?_
  rw [if_pos (and_cursor_eq_zero_iff.2 hclear), u32_succ, prevBit_succ]
  exact Prog.returns_pure _ _

/-- At a unit that is not free the loop ends. -/
theorem returns_backwardBody_set (hu : u < 8 * st.bitmapSize) (hset : ¬ st.bit u = false) :
    (backwardBody (n, ((u / 8 : ℕ) : ℤ), 1 <<< (u % 8))).Returns st st (.inr n) := by
  unfold backwardBody
  dsimp only
  rw [if_pos (by omega)]
  refine (returns_getByte_toNat hu).bind ?_
  rw [if_neg fun hzero => hset (and_cursor_eq_zero_iff.1 hzero)]
  exact Prog.returns_pure _ _

/-- The loop counts the free units backwards, from the `n`-th one on. -/
theorem returns_backwardLoop (hbits : u + n + 1 ≤ 8 * st.bitmapSize)
    (hclear : ∀ v, u < v → v < u + n + 1 → st.bit v = false) :
    ∃ m, (Prog.loop backwardBody (u32 n, ((u / 8 : ℕ) : ℤ), 1 <<< (u % 8))).Returns st st (u32 m) ∧
      ClearTo st.bit (u + n + 1) m := by
  -- at a unit that is not free the count is final
  have hstop : ∀ {u n : ℕ}, u < 8 * st.bitmapSize → ¬ st.bit u = false →
      (∀ v, u < v → v < u + n + 1 → st.bit v = false) →
      ∃ m, (Prog.loop backwardBody (u32 n, ((u / 8 : ℕ) : ℤ), 1 <<< (u % 8))).Returns st st
          (u32 m) ∧ ClearTo st.bit (u + n + 1) m := by
    intro u n hu hset hclear
    refine ⟨n, Prog.Returns.loop_exit (returns_backwardBody_set hu hset), by omega,
      fun v h₁ h₂ => hclear v (by omega) h₂, .inr ?_⟩
    rw [show u + n + 1 - n - 1 = u by omega]
    simpa using hset
  -- the induction is on the unit
  induction u generalizing n with
  | zero =>
    by_cases hbit : st.bit 0 = false
    · -- the first unit of all
      refine ⟨n + 1, Prog.Returns.loop_exit (returns_backwardBody_zero (by omega) hbit),
        by omega, fun v h₁ h₂ => ?_, .inl (by omega)⟩
      by_cases hv : v = 0
      · rw [hv, hbit]
      · exact hclear v (by omega) h₂
    · exact hstop (by omega) hbit hclear
  | succ u ih =>
    by_cases hbit : st.bit (u + 1) = false
    · -- one unit more
      obtain ⟨m, hret, hm⟩ := ih (n := n + 1) (by omega) fun v h₁ h₂ => by
        by_cases hv : v = u + 1
        · rw [hv, hbit]
        · exact hclear v (by omega) (by omega)
      rw [show u + (n + 1) + 1 = u + 1 + n + 1 by omega] at hm
      exact ⟨m, Prog.Returns.loop_next (returns_backwardBody_succ (by omega) hbit) hret, hm⟩
    · exact hstop (by omega) hbit hclear

/-- `isFreeBackward` returns the number of free units up to a unit, as a `uint32_t`. -/
theorem returns_isFreeBackward_u32 (hzone : st.freeZone = baseSize * zone)
    (hbits : zone ≤ 8 * st.bitmapSize) (hlt : u < 2 ^ 34) (hu : u ≤ zone) :
    ∃ n, (isFreeBackward (baseSize * u)).Returns st st (u32 n) ∧ ClearTo st.bit u n := by
  have hloc : ¬ baseSize * u > st.freeZone := by
    rw [hzone]
    simp only [baseSize]
    omega
  have hindex : toInt ((baseSize * u / baseSize) >>> 3) = ((u / 8 : ℕ) : ℤ) := by
    rw [index_eq, toInt_eq (by omega)]
  cases u with
  | zero =>
    refine ⟨0, (Prog.returns_read _ _).bind ?_, le_rfl, fun v h₁ h₂ => by omega, .inl rfl⟩
    rw [if_neg hloc, mask_eq, hindex]
    exact Prog.returns_pure _ _
  | succ u =>
    obtain ⟨n, hret, hn⟩ := returns_backwardLoop (n := 0)
      (show u + 0 + 1 ≤ 8 * st.bitmapSize by omega) fun v h₁ h₂ => by omega
    refine ⟨n, (Prog.returns_read _ _).bind ?_, hn⟩
    rw [if_neg hloc, mask_eq, hindex, prevBit_succ]
    exact hret

/-- In an arena of less than `2 ^ 38` bytes the number is exact. -/
theorem returns_isFreeBackward (hzone : st.freeZone = baseSize * zone)
    (hbits : zone ≤ 8 * st.bitmapSize) (hlt : st.bitmapSize < 2 ^ 29) (hu : u ≤ zone) :
    ∃ n, (isFreeBackward (baseSize * u)).Returns st st n ∧ ClearTo st.bit u n := by
  obtain ⟨n, hret, hn⟩ := returns_isFreeBackward_u32 hzone hbits (by omega) hu
  have hle := hn.le
  rw [u32_eq (by omega)] at hret
  exact ⟨n, hret, hn⟩

/-- Behind the free zone `isFreeBackward` returns zero. -/
theorem returns_isFreeBackward_of_gt (h : st.freeZone < a) :
    (isFreeBackward a).Returns st st 0 := by
  refine (Prog.returns_read _ _).bind ?_
  rw [if_pos h]
  exact Prog.returns_pure _ _

/-! ## Updates -/

/-- The bits of a range are changed. -/
theorem returns_changeBits {f : ℕ → ℕ → ℕ} {b : Bool}
    (hf : ∀ (bytes : ℕ → ℕ) i, BitArray.bit
      (Function.update bytes (i / 8) (f (bytes (i / 8)) (1 <<< (i % 8)))) =
        Function.update (BitArray.bit bytes) i b)
    (hbits : u + n ≤ 8 * st.bitmapSize) (hlt : st.bitmapSize < 2 ^ 32) :
    ∃ bitmap, (changeBits f n (cursor u)).Returns st { st with bitmap } () ∧
      BitArray.bit bitmap = fill st.bit u n b := by
  induction n generalizing st u with
  | zero => exact ⟨st.bitmap, Prog.returns_pure _ _, fill_zero.symm⟩
  | succ n ih =>
    have hstep := hf st.bitmap u
    -- the first bit, and then the ones behind it
    let st₁ : NvState := { st with
      bitmap := Function.update st.bitmap (u / 8) (f (st.bitmap (u / 8)) (1 <<< (u % 8))) }
    have hbits₁ : u + 1 + n ≤ 8 * st₁.bitmapSize := by
      show u + 1 + n ≤ 8 * st.bitmapSize
      omega
    obtain ⟨bitmap, hret, hbit⟩ := ih hbits₁ hlt
    refine ⟨bitmap, ?_, ?_⟩
    · refine (returns_getByte (by omega)).bind ?_
      refine Prog.Returns.bind (Prog.Returns.bind (Prog.returns_require ?_)
        (Prog.returns_modify _ _)) ?_
      · show u / 8 < st.bitmapSize
        omega
      · have hnext := nextBit_cursor (i := u) (by omega)
        rw [cursor] at hnext
        rw [hnext]
        exact hret
    · rw [hbit, NvState.bit, hstep]
      exact fill_succ

/-- `makeOne` sets the bits of a range. -/
theorem returns_makeOne (hbits : u + n ≤ 8 * st.bitmapSize) (hlt : st.bitmapSize < 2 ^ 32) :
    ∃ bitmap, (makeOne (baseSize * u) n).Returns st { st with bitmap } () ∧
      BitArray.bit bitmap = fill st.bit u n true := by
  unfold makeOne
  rw [mask_eq, index_eq, u32_eq (by omega)]
  exact returns_changeBits (fun bytes i => bit_update_or) hbits hlt

/-- `makeZero` clears the bits of a range. -/
theorem returns_makeZero (hbits : u + n ≤ 8 * st.bitmapSize) (hlt : st.bitmapSize < 2 ^ 32) :
    ∃ bitmap, (makeZero (baseSize * u) n).Returns st { st with bitmap } () ∧
      BitArray.bit bitmap = fill st.bit u n false := by
  unfold makeZero
  rw [mask_eq, index_eq, u32_eq (by omega)]
  exact returns_changeBits (fun bytes i => bit_update_and (by decide)) hbits hlt

/-- `extendFreeLocation` clears the bits of a block, and returns how much is free from its start on
and around it, as a `uint32_t`. -/
theorem returns_extendFreeLocation_u32 (hzone : st.freeZone = baseSize * zone)
    (hbits : zone ≤ 8 * st.bitmapSize) (hlt : st.bitmapSize < 2 ^ 32) (hlow : u < 2 ^ 34)
    (hu : u ≤ zone) (hle : u + n / baseSize ≤ 8 * st.bitmapSize) :
    ∃ bitmap p s, (extendFreeLocation (baseSize * u) n).Returns st
        { st with bitmap } (u32 (baseSize * (p + s)), u32 (baseSize * s)) ∧
      BitArray.bit bitmap = fill st.bit u (n / baseSize) false ∧
      ClearTo (fill st.bit u (n / baseSize) false) u p ∧
      ClearFrom (fill st.bit u (n / baseSize) false) zone u s := by
  obtain ⟨bitmap, hzero, hbit⟩ := returns_makeZero hle hlt
  let st₁ : NvState := { st with bitmap }
  have hzone₁ : st₁.freeZone = baseSize * zone := hzone
  obtain ⟨s, hforward, hs⟩ := returns_isFreeForward_u32 hzone₁ hbits hlt u
  obtain ⟨p, hbackward, hp⟩ := returns_isFreeBackward_u32 hzone₁ hbits hlow hu
  have hbit₁ : st₁.bit = fill st.bit u (n / baseSize) false := hbit
  rw [hbit₁] at hs hp
  refine ⟨bitmap, p, s, ?_, hbit, hp, hs⟩
  -- the products and the sum are reduced on the way
  have hsize : u32 (u32 s * baseSize) = u32 (baseSize * s) := by
    simp only [u32, baseSize]
    omega
  have htotal : u32 (u32 (u32 s * baseSize) + u32 (u32 p * baseSize)) =
      u32 (baseSize * (p + s)) := by
    simp only [u32, baseSize]
    omega
  refine hzero.bind (hforward.bind (hbackward.bind ?_))
  rw [htotal, hsize]
  exact Prog.returns_pure _ _

/-- In an arena of less than `2 ^ 32` bytes the sizes are exact. -/
theorem returns_extendFreeLocation (hzone : st.freeZone = baseSize * zone)
    (hbits : zone ≤ 8 * st.bitmapSize) (hlt : st.bitmapSize < 2 ^ 23) (hle : u + n ≤ zone) :
    ∃ bitmap p s, (extendFreeLocation (baseSize * u) (baseSize * n)).Returns st
        { st with bitmap } (baseSize * (p + s), baseSize * s) ∧
      BitArray.bit bitmap = fill st.bit u n false ∧
      ClearTo (fill st.bit u n false) u p ∧ ClearFrom (fill st.bit u n false) zone u s := by
  obtain ⟨bitmap, p, s, hret, hbit, hp, hs⟩ := returns_extendFreeLocation_u32 (u := u)
    (n := baseSize * n) hzone hbits (by omega) (by omega) (by omega) (by
      rw [unit_eq]
      omega)
  rw [unit_eq] at hbit hp hs
  refine ⟨bitmap, p, s, ?_, hbit, hp, hs⟩
  have hple := hp.le
  have hsle : u + s ≤ zone := by
    by_cases hs0 : s = 0
    · omega
    · exact hs.add_le (by omega)
  have hsum : baseSize * (p + s) < 2 ^ 32 := by
    simp only [baseSize]
    omega
  rwa [u32_eq hsum, u32_eq ((Nat.mul_le_mul_left _ (Nat.le_add_left _ _)).trans_lt hsum)] at hret

end

end Zalloc
