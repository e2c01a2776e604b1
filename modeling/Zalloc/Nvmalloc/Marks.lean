import Zalloc.Nvmalloc.Calls
import Zalloc.Nvmalloc.Writes

/-!
# The units that a call marks

A call that hands out a block marks its units, and no other ones. This can be said of an arena of
any size. In particular, the arena may grow beyond 4 GiB, where the sizes do not fit in 32 bits any
more: a block at the start of the free zone is behind all units in use, so the release of another
block does not get there.

## Main definitions

* `Marked st u`: the unit is marked in the bitmap.
* `NewBlock st st' u k`: the `k` units from `u` on have been marked.
* `NoMark st st'`: no unit has been marked.
* `Larger st st'`: the arena is the same, or a larger one.
* `Behind st st' k`: a block of `k` units has been placed at the start of the free zone.

## Main results

* `NvInv.newBlock`, `NewBlock.tick`: the units of the new block, and what `incrementTime` does.
* `Behind.ticks`, `Behind.hands_out`: the rest of `nvmalloc` for a block behind the other ones.
-/

set_option autoImplicit false

open BitArray

namespace Zalloc

/-- The unit is marked in the bitmap. -/
def Marked (st : NvState) (u : ℕ) : Prop := u < 8 * st.bitmapSize ∧ st.bit u = true

/-- The `k` units from `u` on have been marked, and no other ones. -/
structure NewBlock (st st' : NvState) (u k : ℕ) : Prop where
  /-- They have not been marked before. -/
  fresh : ∀ v, u ≤ v → v < u + k → ¬ Marked st v
  /-- Now they are. -/
  marked : ∀ v, u ≤ v → v < u + k → Marked st' v
  /-- Another unit is not. -/
  only : ∀ v, Marked st' v → Marked st v ∨ u ≤ v ∧ v < u + k

/-- No unit has been marked. -/
def NoMark (st st' : NvState) : Prop := ∀ v, Marked st' v → Marked st v

instance : IsPreorder NvState NoMark where
  refl _ _ hv := hv
  trans _ _ _ h₁ h₂ v hv := h₁ v (h₂ v hv)

section

variable {st st' : NvState} {live : List NvBlock} {waiting rest : List Waiting} {w : Waiting}
  {k n now p s u z : ℕ}

/-! ## Writes -/

theorem noMark_of_searchWrite (h : SearchWrite st st') : NoMark st st' := by
  cases h with
  | lists => exact fun _ hv => hv
  | report => exact fun _ hv => hv
  | header => exact fun _ hv => hv

/-- The units of new memory are free. -/
theorem noMark_grow : NoMark st (st.grow p) := by
  rintro v ⟨hlt, hset⟩
  by_cases hv : v < 8 * st.bitmapSize
  · rw [grow_bit_of_lt hv] at hset
    exact ⟨hv, hset⟩
  · rw [grow_bit_of_le (by omega) hlt] at hset
    cases hset

theorem noMark_of_zoneWrite (h : ZoneWrite st st') : NoMark st st' := by
  cases h with
  | grow newPages => exact noMark_grow
  | zone => exact fun _ hv => hv

theorem noMark_of_tickWrite (h : TickWrite st st') : NoMark st st' := by
  cases h with
  | search h => exact noMark_of_searchWrite h
  | queue => exact fun _ hv => hv
  | released => exact fun _ hv => hv
  | clear index mask => exact fun v hv => ⟨hv.1, bit_of_update_and hv.2⟩
  | zone => exact fun _ hv => hv

/-- `incrementTime` does not mark a unit. -/
theorem noMark_incrementTime (h : (incrementTime now).Returns st st' ()) : NoMark st st' :=
  (grows_incrementTime fun _ _ => noMark_of_tickWrite).returns h

/-! ## A new block -/

/-- The units of a block are marked. -/
theorem Occupied.marked {blocks : List NvBlock} {b : NvBlock} (h : Occupied st blocks)
    (hshape : NvShape st) (hb : b ∈ blocks) (hu : b.Covers u) : Marked st u := by
  have hlt := h.lt_zone hshape hb hu
  have hle := hshape.zone_le
  exact ⟨by omega, h.bit_of_covers hshape hb hu⟩

/-- The units of a block in transit, which comes to be in addition to the other ones. -/
theorem NvInv.newBlock (h : NvInv st [] live waiting)
    (h' : NvInv st' [⟨baseSize * u, baseSize * k⟩] live waiting) : NewBlock st st' u k := by
  have hnew : (⟨baseSize * u, baseSize * k⟩ : NvBlock) ∈
      [⟨baseSize * u, baseSize * k⟩] ++ (live ++ waiting.map Waiting.toNvBlock) :=
    NvInv.mem_transit (List.mem_singleton_self _)
  refine ⟨fun v h₁ h₂ hv => ?_, fun v h₁ h₂ => ?_, fun v hv => ?_⟩
  · -- a unit of another block is not in the new one
    obtain ⟨b, hb, hcov⟩ := (h.occupied.bits v hv.1).1 hv.2
    have hapart := (List.pairwise_cons.1 h'.occupied.apart).1 b hb
    exact hapart.not_covers ((NvBlock.covers_iff rfl rfl).2 ⟨h₁, h₂⟩) hcov
  · exact h'.occupied.marked h'.shape hnew ((NvBlock.covers_iff rfl rfl).2 ⟨h₁, h₂⟩)
  · obtain ⟨b, hb, hcov⟩ := (h'.occupied.bits v hv.1).1 hv.2
    rcases List.mem_cons.1 hb with rfl | hb
    · exact .inr ((NvBlock.covers_iff rfl rfl).1 hcov)
    · exact .inl (h.occupied.marked h.shape hb hcov)

/-- The units of a live block. -/
theorem NvInv.marked (h : NvInv st [] (⟨baseSize * u, baseSize * k⟩ :: live) waiting) {v : ℕ}
    (h₁ : u ≤ v) (h₂ : v < u + k) : Marked st v :=
  h.occupied.marked h.shape (NvInv.mem_live (List.mem_cons_self ..))
    ((NvBlock.covers_iff rfl rfl).2 ⟨h₁, h₂⟩)

/-- Afterwards `incrementTime` may release another block. -/
theorem NewBlock.tick {s : NvState} (h : NewBlock st s u k) (hkeep : NoMark s st')
    (hmarked : ∀ v, u ≤ v → v < u + k → Marked st' v) : NewBlock st st' u k :=
  ⟨h.fresh, hmarked, fun v hv => h.only v (hkeep v hv)⟩

/-! ## A block behind the other ones -/

/-- The arena is the same, or a larger one. -/
structure Larger (st st' : NvState) : Prop where
  /-- The free zone is the same. -/
  freeZone : st'.freeZone = st.freeZone
  /-- There is a bit for every unit of the arena. -/
  endAddress : st'.endAddress = 512 * st'.bitmapSize
  /-- The number of a byte fits in an `int`. -/
  bitmapSize_lt : st'.bitmapSize < 2 ^ 32
  /-- The memory below the free zone is the same. -/
  mem : ∀ x < st.freeZone, st'.mem x = st.mem x
  /-- The head of the don't-allocate list is the same. -/
  head : st'.dontAllocateListHead = st.dontAllocateListHead
  /-- No unit has been marked. -/
  noMark : NoMark st st'

/-- A block of `k` units has been placed at the start of the free zone. -/
structure Behind (st st' : NvState) (k : ℕ) : Prop where
  /-- The free zone starts behind it. -/
  freeZone : st'.freeZone = baseSize * (st.zone + k)
  /-- There is a bit for every unit of the arena. -/
  endAddress : st'.endAddress = 512 * st'.bitmapSize
  /-- The number of a byte fits in an `int`. -/
  bitmapSize_lt : st'.bitmapSize < 2 ^ 32
  /-- The memory in front of it is the same. -/
  mem : ∀ x < st.freeZone, st'.mem x = st.mem x
  /-- The head of the don't-allocate list is the same. -/
  head : st'.dontAllocateListHead = st.dontAllocateListHead
  /-- Its units have been marked. -/
  block : NewBlock st st' st.zone k

theorem NvShape.larger (h : NvShape st) (lists : ℕ → List ℕ) :
    Larger st { st with freeLists := lists } :=
  ⟨rfl, h.endAddress, h.bitmapSize_lt.trans (by decide), fun _ _ => rfl, rfl, fun _ hv => hv⟩

/-- The arena becomes larger, by less than 4 GiB. -/
theorem NvShape.larger_grow (h : NvShape st) (lists : ℕ → List ℕ) (hlt : nvPageSize * p < 2 ^ 32) :
    Larger st (NvState.grow { st with freeLists := lists } p) := by
  let st₁ : NvState := { st with freeLists := lists }
  have hend : (st₁.grow p).endAddress = st₁.endAddress + nvPageSize * p := grow_endAddress hlt
  have hsize : (st₁.grow p).bitmapSize = st₁.bitmapSize + 8 * p := grow_bitmapSize hlt
  have harena : st₁.endAddress = 512 * st₁.bitmapSize := h.endAddress
  have hbitmap : st₁.bitmapSize < 2 ^ 23 := h.bitmapSize_lt
  have hzone : st.freeZone ≤ st₁.endAddress := by
    have hle : st.zone ≤ 8 * st₁.bitmapSize := h.zone_le
    rw [h.freeZone, harena]
    simp only [baseSize]
    omega
  simp only [nvPageSize] at hlt hend
  refine ⟨rfl, ?_, ?_, fun x hx => grow_mem_of_lt (hx.trans_le hzone), rfl, noMark_grow⟩
  · show (st₁.grow p).endAddress = 512 * (st₁.grow p).bitmapSize
    omega
  · show (st₁.grow p).bitmapSize < 2 ^ 32
    omega

/-- No unit from the free zone on is marked. -/
theorem NvInv.not_marked {transit : List NvBlock} (h : NvInv st transit live waiting)
    (hu : st.zone ≤ u) : ¬ Marked st u := by
  rintro ⟨hlt, hset⟩
  obtain ⟨b, hb, hcov⟩ := (h.occupied.bits u hlt).1 hset
  have hlt' := h.occupied.lt_zone h.shape hb hcov
  omega

/-- Room at the start of the free zone is reserved. -/
theorem Larger.reserve (h : Larger st st') (hinv : NvInv st [] live waiting)
    (hle : st.zone + k ≤ 8 * st'.bitmapSize) :
    ∃ s, Behind st s k ∧ (makeOne (baseSize * st.zone) k).Returns
      { st' with freeZone := st'.freeZone + baseSize * k } s () := by
  let st₁ : NvState := { st' with freeZone := st'.freeZone + baseSize * k }
  have hle₁ : st.zone + k ≤ 8 * st₁.bitmapSize := hle
  obtain ⟨bitmap, hmake, hbit⟩ := returns_makeOne hle₁ h.bitmapSize_lt
  refine ⟨{ st₁ with bitmap }, ⟨?_, h.endAddress, h.bitmapSize_lt, h.mem, h.head,
    fun v hv _ => hinv.not_marked hv, fun v h₁ h₂ => ⟨?_, ?_⟩, fun v hv => ?_⟩, hmake⟩
  · show st'.freeZone + baseSize * k = baseSize * (st.zone + k)
    rw [h.freeZone, hinv.shape.freeZone, Nat.mul_add]
  · show v < 8 * st'.bitmapSize
    omega
  · show BitArray.bit bitmap v = true
    rw [hbit]
    exact fill_of_mem h₁ h₂
  · by_cases hin : st.zone ≤ v ∧ v < st.zone + k
    · exact .inr hin
    · have hset : BitArray.bit bitmap v = true := hv.2
      rw [hbit, fill_of_not_mem (by omega)] at hset
      exact .inl (h.noMark v ⟨hv.1, hset⟩)

/-- The block is in the arena. -/
theorem Behind.le (h : Behind st st' k) (hk : 0 < k) : st.zone + k ≤ 8 * st'.bitmapSize := by
  have hlast := (h.block.marked (st.zone + k - 1) (by omega) (by omega)).1
  omega

/-- Its header is written. -/
theorem Behind.returns_setHeaderSize (h : Behind st st' k) (hk : 0 < k) (hshape : NvShape st)
    (v : ℤ) :
    ∃ mem, Behind st { st' with mem } k ∧
      (setHeaderSize (baseSize * st.zone) v).Returns st' { st' with mem } () := by
  have hle := h.le hk
  have hend := h.endAddress
  refine ⟨Function.update st'.mem (baseSize * st.zone) (BitVec.ofInt 64 v),
    ⟨h.freeZone, h.endAddress, h.bitmapSize_lt, fun x hx => ?_, h.head, h.block.fresh,
      h.block.marked, h.block.only⟩, Zalloc.returns_setHeaderSize ?_ v⟩
  · show Function.update st'.mem (baseSize * st.zone) _ x = st.mem x
    rw [Function.update_of_ne (by rw [← hshape.freeZone]; omega)]
    exact h.mem x hx
  · simp only [baseSize]
    omega

/-- The first block of the don't-allocate list can still be read. -/
theorem Behind.headAt (h : Behind st st' k) (hk : 0 < k) (hinv : NvInv st [] live (w :: rest)) :
    HeadAt st' w := by
  have hhead := hinv.headAt
  have hle := h.le hk
  have hend := h.endAddress
  have hw : w.toNvBlock ∈ [] ++ (live ++ (w :: rest).map Waiting.toNvBlock) :=
    NvInv.mem_waiting (List.mem_cons_self ..)
  have hsize := (hinv.bounds hw).1
  have hin := hinv.occupied.inside _ hw
  have hzone := hinv.shape.freeZone
  simp only [baseSize] at hzone
  refine ⟨h.head.trans hhead.head, ?_, by omega, hhead.small⟩
  rw [WaitingHeader, h.mem _ (by omega), h.mem _ (by omega)]
  exact hhead.header

/-- A block in front of a marked unit `z` is released. The units from `z` on stay as they are. -/
theorem returns_release_below (hzone : st.freeZone = baseSize * (z + k)) (hk : 0 < k)
    (hle : z + k ≤ 8 * st.bitmapSize) (hend : st.endAddress = 512 * st.bitmapSize)
    (hlt : st.bitmapSize < 2 ^ 32) (hz : z < 2 ^ 26) (hset : st.bit z = true) (hn : 0 < n)
    (hu : u + n ≤ z) :
    ∃ s s' totalSize size,
      (extendFreeLocation (baseSize * u) (baseSize * n)).Returns st s (totalSize, size) ∧
      (insertFreeLocation (baseSize * u) size totalSize).Returns s s' () ∧
      s'.bitmapSize = st.bitmapSize ∧ ∀ v, z ≤ v → s'.bit v = st.bit v := by
  obtain ⟨bitmap, p, s, hextend, hbit, hto, hfrom⟩ :=
    returns_extendFreeLocation_u32 (u := u) (n := baseSize * n) hzone hle hlt (by omega) (by omega)
      (by rw [unit_eq]; omega)
  rw [unit_eq] at hbit hto hfrom
  have hple := hto.le
  have hns : n ≤ s := hfrom.le_of_clear (by omega) fun v h₁ h₂ => fill_of_mem h₁ h₂
  have hkeep : ∀ v, z ≤ v → BitArray.bit bitmap v = st.bit v := by
    intro v hv
    rw [hbit, fill_of_not_mem (by omega)]
  -- the scan does not get past the marked unit
  have hsz : u + s ≤ z := by
    by_contra hno
    have hclear := (hfrom.clear z (by omega) (by omega)).2
    rw [← hbit, hkeep z le_rfl, hset] at hclear
    cases hclear
  have hsize : u32 (baseSize * s) = baseSize * s := u32_eq (by simp only [baseSize]; omega)
  have htotal : u32 (baseSize * (p + s)) = baseSize * (p + s) :=
    u32_eq (by simp only [baseSize]; omega)
  rw [hsize, htotal] at hextend
  let st₁ : NvState := { st with bitmap }
  have hzone₁ : baseSize * (u + s) < st₁.freeZone := by
    show baseSize * (u + s) < st.freeZone
    rw [hzone]
    simp only [baseSize]
    omega
  have hend₁ : baseSize * u + 8 ≤ st₁.endAddress := by
    show baseSize * u + 8 ≤ st.endAddress
    simp only [baseSize]
    omega
  exact ⟨st₁, _, _, _, hextend,
    returns_insertFreeLocation_gap hple (by omega) hzone₁ (by omega) hend₁, rfl, hkeep⟩

/-- `incrementTime` does not get to the block behind the other ones. -/
theorem Behind.ticks (h : Behind st st' k) (hk : 0 < k) (hinv : NvInv st [] live waiting)
    (now : ℕ) :
    ∃ s, NewBlock st s st.zone k ∧ (incrementTime now).Returns st' s () := by
  have hle := h.le hk
  have hend := h.endAddress
  have hlt := hinv.shape.bitmapSize_lt
  have hzoneLe := hinv.shape.zone_le
  cases waiting with
  | nil => exact ⟨st', h.block, returns_incrementTime_nil (h.head.trans hinv.queue.nil.1)⟩
  | cons w rest =>
    have hhead := h.headAt hk hinv
    by_cases hdue : now ≥ u64 (u64 w.timeAdded + st'.dontAllocateWait)
    · have hw : w.toNvBlock ∈ [] ++ (live ++ (w :: rest).map Waiting.toNvBlock) :=
        NvInv.mem_waiting (List.mem_cons_self ..)
      obtain ⟨u, n, hu, hn, hpos, hin⟩ := hinv.occupied.units hinv.shape hw
      have hinside := hhead.inside
      have hlink : w.location + 16 ≤ st'.endAddress := by omega
      obtain ⟨head, tail, hpop⟩ := returns_popDNAList hlink
      let st₁ : NvState := { st' with
        dontAllocateListHead := head
        dontAllocateListTail := tail
        released := st'.released ++ [⟨w.location, w.size, now⟩] }
      have hfree₁ : st₁.freeZone = baseSize * (st.zone + k) := h.freeZone
      have hle₁ : st.zone + k ≤ 8 * st₁.bitmapSize := hle
      obtain ⟨s, s', totalSize, size, hextend, hinsert, hsize, hkeep⟩ :=
        returns_release_below hfree₁ hk hle₁ h.endAddress h.bitmapSize_lt (by omega)
          (h.block.marked st.zone le_rfl (by omega)).2 hpos hin
      rw [← hu, ← hn] at hextend
      rw [← hu] at hinsert
      have hret := hhead.returns_releases hdue hpop hextend hinsert
      refine ⟨s', h.block.tick (noMark_incrementTime hret) fun v h₁ h₂ => ?_, hret⟩
      obtain ⟨hv, hset⟩ := h.block.marked v h₁ h₂
      refine ⟨?_, (hkeep v h₁).trans hset⟩
      rw [hsize]
      exact hv
    · exact ⟨st', h.block, hhead.returns_waits hdue⟩

/-- The rest of `nvmalloc`, once its location has been found to be the start of the free zone. -/
theorem Behind.hands_out {size : ℕ} {grows : Growth} (h : Behind st st' k) (hk : 0 < k)
    (hinv : NvInv st [] live waiting)
    (hlocate : (getFreeLocation (u32 (size + 8)) grows).Returns st st'
      (some (baseSize * st.zone), baseSize * k)) (now : ℕ) :
    ∃ s, NewBlock st s st.zone k ∧
      (nvmalloc size grows now).Returns st s (some (baseSize * st.zone + 8)) := by
  obtain ⟨mem, hbehind, hwrite⟩ := h.returns_setHeaderSize hk hinv.shape
    (crcCompute (baseSize * st.zone) (baseSize * k))
  obtain ⟨s, hnew, htime⟩ := hbehind.ticks hk hinv now
  exact ⟨s, hnew, hlocate.bind (hwrite.bind (htime.bind (Prog.returns_pure _ _)))⟩

end

end Zalloc
