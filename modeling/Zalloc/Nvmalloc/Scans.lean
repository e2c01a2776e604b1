import Zalloc.Nvmalloc.Bitmap

/-!
# Scans and updates of any bitmap

The helpers on the bitmap, from any state. Their counts and sizes are `uint32_t`, and the number of
a byte is an `int32_t`.

## Main definitions

* `clearState n`: an arena with a bitmap of `n` bytes, all of whose units are free.

## Main results

* `bitmap_scans`: the counts and sizes are those of the bits, modulo `2 ^ 32`.
* `not_bitmap_scans_exact`: they are not the numbers themselves.
-/

set_option autoImplicit false

open BitArray

namespace Zalloc

/-- An arena with a bitmap of `n` bytes, all of whose units are free and below the free zone. -/
def clearState (n : ℕ) : NvState where
  freeZone := baseSize * (8 * n)
  endAddress := baseSize * (8 * n)
  mem := fun _ => 0
  bitmap := fun _ => 0
  bitmapSize := n
  freeLists := fun _ => []
  dontAllocateListHead := nilOffset
  dontAllocateListTail := nilOffset
  dontAllocateWait := 0
  reports := []
  released := []

/-- In every bitmap of less than `2 ^ 32` bytes the scans count the free units, up to the free zone
or down to the first unit, and the updates change the bits of their units only. The scan downwards
starts in a byte with a number below `2 ^ 31`. -/
theorem bitmap_scans {st : NvState} {zone u : ℕ} (hzone : st.freeZone = baseSize * zone)
    (hbits : zone ≤ 8 * st.bitmapSize) (hlt : st.bitmapSize < 2 ^ 32) :
    (∃ n, (isFreeForward (baseSize * u)).Returns st st (u32 n) ∧ ClearFrom st.bit zone u n) ∧
    (u < 2 ^ 34 → u ≤ zone →
      ∃ n, (isFreeBackward (baseSize * u)).Returns st st (u32 n) ∧ ClearTo st.bit u n) ∧
    (∀ size, u + size ≤ 8 * st.bitmapSize →
      (∃ bitmap, (makeOne (baseSize * u) size).Returns st { st with bitmap } () ∧
        BitArray.bit bitmap = fill st.bit u size true) ∧
      ∃ bitmap, (makeZero (baseSize * u) size).Returns st { st with bitmap } () ∧
        BitArray.bit bitmap = fill st.bit u size false) ∧
    ∀ size, u < 2 ^ 34 → u ≤ zone → u + size / baseSize ≤ 8 * st.bitmapSize →
      ∃ bitmap p s, (extendFreeLocation (baseSize * u) size).Returns st { st with bitmap }
          (u32 (baseSize * (p + s)), u32 (baseSize * s)) ∧
        BitArray.bit bitmap = fill st.bit u (size / baseSize) false ∧
        ClearTo (fill st.bit u (size / baseSize) false) u p ∧
        ClearFrom (fill st.bit u (size / baseSize) false) zone u s :=
  ⟨returns_isFreeForward_u32 hzone hbits hlt u,
    fun hlow hu => returns_isFreeBackward_u32 hzone hbits hlow hu,
    fun _ hle => ⟨returns_makeOne hle hlt, returns_makeZero hle hlt⟩,
    fun _ hlow hu hle => returns_extendFreeLocation_u32 hzone hbits hlt hlow hu hle⟩

/-- The units of a byte from the second one on. -/
theorem bitmap_scans_byte :
    ∃ n, (isFreeForward (baseSize * 1)).Returns (clearState 1) (clearState 1) (u32 n) ∧
      ClearFrom (clearState 1).bit 8 1 n :=
  (bitmap_scans (u := 1) (rfl : (clearState 1).freeZone = baseSize * 8) le_rfl (by decide)).1

/-! ## Large arenas -/

variable {n : ℕ}

theorem bit_clearState (n : ℕ) : (clearState n).bit = fun _ => false :=
  funext fun _ => Nat.zero_testBit _

theorem fill_clearState (n a k : ℕ) : fill (clearState n).bit a k false = fun _ => false := by
  ext u
  rw [bit_clearState, fill, ite_self]

/-- All units are free. -/
theorem clearFrom_clear (limit : ℕ) : ClearFrom (fun _ => false) limit 0 limit :=
  ⟨fun u _ hu => ⟨by omega, rfl⟩, .inl (by omega)⟩

theorem clearTo_clear (a : ℕ) : ClearTo (fun _ => false) a a :=
  ⟨le_rfl, fun _ _ _ => rfl, .inl rfl⟩

/-- The whole arena is free, and its size is reduced. -/
theorem returns_extendFreeLocation_clearState (hlt : n < 2 ^ 32) (hn : 0 < n) :
    ∃ st', (extendFreeLocation 0 baseSize).Returns (clearState n) st'
      (u32 (baseSize * (8 * n)), u32 (baseSize * (8 * n))) := by
  obtain ⟨bitmap, p, s, hret, -, hp, hs⟩ := returns_extendFreeLocation_u32
    (u := 0) (n := baseSize) (rfl : (clearState n).freeZone = _) le_rfl hlt (by decide)
    (Nat.zero_le _) (by
      show 0 + 1 ≤ 8 * n
      omega)
  rw [fill_clearState] at hp hs
  rw [hp.unique (clearTo_clear 0), hs.unique (clearFrom_clear _), Nat.zero_add] at hret
  exact ⟨_, hret⟩

/-- The whole arena is free, and the number of its units is reduced. -/
theorem returns_isFreeForward_clearState (hlt : n < 2 ^ 32) :
    (isFreeForward 0).Returns (clearState n) (clearState n) (u32 (8 * n)) := by
  obtain ⟨m, hret, hm⟩ := returns_isFreeForward_u32
    (rfl : (clearState n).freeZone = _) le_rfl hlt 0
  rw [bit_clearState] at hm
  rw [hm.unique (clearFrom_clear _)] at hret
  exact hret

/-- The number of the byte is negative, so no unit is looked at. -/
theorem returns_isFreeBackward_clearState :
    (isFreeBackward (baseSize * (2 ^ 34 + 1))).Returns (clearState (2 ^ 31 + 1))
      (clearState (2 ^ 31 + 1)) 0 := by
  refine (Prog.returns_read _ _).bind ?_
  rw [if_neg (by decide)]
  exact Prog.Returns.loop_exit (Prog.returns_pure _ _)

/-- The scans do not return the numbers themselves, in a bitmap of `2 ^ 23` bytes, of `2 ^ 29` bytes
and of `2 ^ 31 + 1` bytes. -/
theorem not_bitmap_scans_exact :
    ((∃ st', (extendFreeLocation 0 baseSize).Returns (clearState (2 ^ 23)) st' (0, 0)) ∧
      ClearFrom (fill (clearState (2 ^ 23)).bit 0 1 false) (2 ^ 26) 0 (2 ^ 26)) ∧
    ((isFreeForward 0).Returns (clearState (2 ^ 29)) (clearState (2 ^ 29)) 0 ∧
      ClearFrom (clearState (2 ^ 29)).bit (2 ^ 32) 0 (2 ^ 32)) ∧
    (isFreeBackward (baseSize * (2 ^ 34 + 1))).Returns (clearState (2 ^ 31 + 1))
        (clearState (2 ^ 31 + 1)) 0 ∧
      ClearTo (clearState (2 ^ 31 + 1)).bit (2 ^ 34 + 1) (2 ^ 34 + 1) := by
  refine ⟨⟨returns_extendFreeLocation_clearState (by decide) (by decide), ?_⟩,
    ⟨returns_isFreeForward_clearState (by decide), ?_⟩, returns_isFreeBackward_clearState, ?_⟩
  · rw [fill_clearState]
    exact clearFrom_clear _
  · rw [bit_clearState]
    exact clearFrom_clear _
  · rw [bit_clearState]
    exact clearTo_clear _

end Zalloc
