import Mathlib.Data.List.Basic
import Zalloc.Foundations.LinkedList
import Zalloc.Foundations.Tiling
import Zalloc.Nvmalloc.Header

/-!
# The invariant of `nvmalloc`

The blocks that are live or wait in the don't-allocate list are the units whose bits are set. The
other units below the free zone form gaps, and the headers in a gap lead from its start to its end.

A block that a call is working on is in transit: its bits are set, but it is neither live nor
waiting, and nothing is known about the memory in it.

## Main definitions

* `NvBlock`, `Waiting`: a block, and a block in the don't-allocate list.
* `NvShape st`: the sizes fit together.
* `Occupied st blocks`: the bits are those of the blocks.
* `Queue st waiting`: the don't-allocate list.
* `NvInv st transit live waiting`: the invariant.

## Main results

* `Occupied.reserve`, `Occupied.free`: the blocks after a range has been set or cleared.
* `NvInv.of_mem`, `NvInv.write_transit`: the memory changes elsewhere, or in a block in transit.
* `NvInv.take_live`, `NvInv.put_live`: a live block comes to be in transit, and the other way round.
-/

set_option autoImplicit false

open BitArray

namespace Zalloc

/-! ## Blocks -/

/-- A block: its offset and its size in bytes. -/
structure NvBlock where
  /-- The offset of its header. -/
  location : ℕ
  /-- The size, with the header. -/
  size : ℕ
deriving DecidableEq, Repr

/-- A block in the don't-allocate list. -/
structure Waiting extends NvBlock where
  /-- What the clock read when the block was freed. -/
  timeAdded : ℕ
deriving DecidableEq, Repr

namespace NvBlock

/-- The unit belongs to the block. -/
def Covers (b : NvBlock) (u : ℕ) : Prop :=
  b.location ≤ baseSize * u ∧ baseSize * u < b.location + b.size

/-- The blocks do not overlap. -/
def Apart (b b' : NvBlock) : Prop :=
  b.location + b.size ≤ b'.location ∨ b'.location + b'.size ≤ b.location

instance : Std.Symm Apart := ⟨fun _ _ h => Or.symm h⟩

/-- The units of a block that is made of them. -/
theorem covers_iff {b : NvBlock} {k u v : ℕ} (hu : b.location = baseSize * u)
    (hk : b.size = baseSize * k) : b.Covers v ↔ u ≤ v ∧ v < u + k := by
  simp only [Covers, hu, hk, baseSize]
  omega

/-- Blocks that do not overlap have no unit in common. -/
theorem Apart.not_covers {b b' : NvBlock} {u : ℕ} (h : b.Apart b') (hu : b.Covers u) :
    ¬ b'.Covers u := by
  simp only [Apart, Covers] at *
  omega

end NvBlock

/-- The free zone, in units. -/
def NvState.zone (st : NvState) : ℕ := st.freeZone / baseSize

/-- The sizes fit together. -/
structure NvShape (st : NvState) : Prop where
  /-- The free zone starts with a unit. -/
  freeZone : st.freeZone = baseSize * st.zone
  /-- It starts in the arena. -/
  zone_le : st.zone ≤ 8 * st.bitmapSize
  /-- There is a bit for every unit of the arena. -/
  endAddress : st.endAddress = 512 * st.bitmapSize
  /-- The arena is smaller than 4 GiB. -/
  bitmapSize_lt : st.bitmapSize < 2 ^ 23
  /-- The positions in the lists are those of units. -/
  hints : ∀ i, ∀ p ∈ st.freeLists i, baseSize ∣ p

/-- The bits are those of the blocks. -/
structure Occupied (st : NvState) (blocks : List NvBlock) : Prop where
  /-- The blocks are made of units. -/
  aligned : ∀ b ∈ blocks, baseSize ∣ b.location ∧ baseSize ∣ b.size
  /-- No block is empty. -/
  pos : ∀ b ∈ blocks, 0 < b.size
  /-- The blocks are below the free zone. -/
  inside : ∀ b ∈ blocks, b.location + b.size ≤ st.freeZone
  /-- The blocks do not overlap. -/
  apart : blocks.Pairwise NvBlock.Apart
  /-- The bits that are set are those of the blocks. -/
  bits : ∀ u < 8 * st.bitmapSize, st.bit u = true ↔ ∃ b ∈ blocks, b.Covers u
  /-- The unit below the free zone is not free. -/
  top : st.zone = 0 ∨ st.bit (st.zone - 1) = true

/-! ## Headers -/

/-- There is a free piece of `n` units at unit `u`. -/
def FreeTile (mem : ℕ → BitVec 64) (u n : ℕ) : Prop :=
  (mem (baseSize * u)).toInt = -crcCompute (baseSize * u) (baseSize * n)

/-- The header of a live block. -/
def LiveHeader (mem : ℕ → BitVec 64) (b : NvBlock) : Prop :=
  (mem b.location).toInt = crcCompute b.location b.size

/-- The header of a block in the don't-allocate list. -/
def WaitingHeader (mem : ℕ → BitVec 64) (w : Waiting) : Prop :=
  (mem w.location).toInt = -crcCompute w.location (w.size + 1) ∧
    (mem (w.location + 24)).toNat = u64 w.timeAdded

/-- The field `next` of the header at an offset. -/
def nextOffset (mem : ℕ → BitVec 64) (a : ℕ) : ℕ := (mem (a + 8)).toNat

/-- The don't-allocate list has the nodes `waiting`; the last one does not have a link yet. -/
def Queue (st : NvState) (waiting : List Waiting) : Prop :=
  waiting = [] ∧ st.dontAllocateListHead = nilOffset ∧ st.dontAllocateListTail = nilOffset ∨
    ∃ Q w, waiting = Q ++ [w] ∧ st.dontAllocateListTail = w.location ∧
      Links.Path (nextOffset st.mem) st.dontAllocateListHead (Q.map fun w => w.location) w.location

/-- The invariant. -/
structure NvInv (st : NvState) (transit live : List NvBlock) (waiting : List Waiting) : Prop where
  /-- The sizes fit together. -/
  shape : NvShape st
  /-- The bits are those of the blocks. -/
  occupied : Occupied st (transit ++ (live ++ waiting.map Waiting.toNvBlock))
  /-- The headers in a gap lead from its start to its end. -/
  tiled : ∀ a n, IsGap st.bit st.zone a n → Tiled (FreeTile st.mem) a (a + n)
  /-- The headers of the live blocks. -/
  liveHeader : ∀ b ∈ live, LiveHeader st.mem b
  /-- The headers of the waiting blocks. -/
  waitingHeader : ∀ w ∈ waiting, WaitingHeader st.mem w
  /-- The don't-allocate list. -/
  queue : Queue st waiting

/-! ## Blocks and bits -/

namespace Occupied

variable {st st' : NvState} {b b' : NvBlock} {blocks blocks' : List NvBlock} {k u x : ℕ}

/-- The order of the blocks does not matter. -/
theorem perm (h : Occupied st blocks) (hperm : blocks.Perm blocks') : Occupied st blocks' where
  aligned b hb := h.aligned b (hperm.mem_iff.2 hb)
  pos b hb := h.pos b (hperm.mem_iff.2 hb)
  inside b hb := h.inside b (hperm.mem_iff.2 hb)
  apart := (hperm.pairwise_iff fun h => Or.symm h).1 h.apart
  bits u hu := by
    rw [h.bits u hu]
    exact exists_congr fun b => and_congr_left fun _ => hperm.mem_iff
  top := h.top

/-- A block has a unit at least. -/
theorem baseSize_le (h : Occupied st blocks) (hb : b ∈ blocks) : baseSize ≤ b.size :=
  Nat.le_of_dvd (h.pos b hb) (h.aligned b hb).2

/-- The units that a block is made of. -/
theorem units (h : Occupied st blocks) (hshape : NvShape st) (hb : b ∈ blocks) :
    ∃ u k, b.location = baseSize * u ∧ b.size = baseSize * k ∧ 0 < k ∧ u + k ≤ st.zone := by
  obtain ⟨⟨u, hu⟩, k, hk⟩ := h.aligned b hb
  have hpos := h.pos b hb
  have hin := h.inside b hb
  rw [hu, hk, hshape.freeZone] at hin
  rw [hk] at hpos
  simp only [baseSize] at hin hpos
  exact ⟨u, k, hu, hk, by omega, by omega⟩

/-- The units of a block are below the free zone. -/
theorem lt_zone (h : Occupied st blocks) (hshape : NvShape st) (hb : b ∈ blocks)
    (hu : b.Covers u) : u < st.zone := by
  have hin := h.inside b hb
  have hzone := hshape.freeZone
  obtain ⟨-, hlt⟩ := hu
  rw [hzone] at hin
  simp only [baseSize] at hin hlt
  omega

/-- The bit of a unit of a block is set. -/
theorem bit_of_covers (h : Occupied st blocks) (hshape : NvShape st) (hb : b ∈ blocks)
    (hu : b.Covers u) : st.bit u = true := by
  have hlt := h.lt_zone hshape hb hu
  have hle := hshape.zone_le
  exact (h.bits u (by omega)).2 ⟨b, hb, hu⟩

/-- A block does not overlap units that are free. -/
theorem apart_of_clear (h : Occupied st blocks) (hshape : NvShape st) (hb : b ∈ blocks)
    (hk : 0 < k) (hclear : ∀ v, u ≤ v → v < u + k → st.bit v = false) :
    NvBlock.Apart ⟨baseSize * u, baseSize * k⟩ b := by
  by_contra hno
  obtain ⟨i, j, hi, hj, hpos, -⟩ := h.units hshape hb
  simp only [NvBlock.Apart, not_or, hi, hj, baseSize] at hno
  -- the bit of a common unit would be set
  have hcov : b.Covers (max u i) := (NvBlock.covers_iff hi hj).2 (by omega)
  have hset := h.bit_of_covers hshape hb hcov
  rw [hclear (max u i) (by omega) (by omega)] at hset
  cases hset

/-- Free units are made a block. -/
theorem reserve (h : Occupied st blocks) (hshape : NvShape st) (hshape' : NvShape st')
    (hk : 0 < k) (hclear : ∀ v, u ≤ v → v < u + k → st.bit v = false)
    (hbit : st'.bit = fill st.bit u k true) (hsize : st'.bitmapSize = st.bitmapSize)
    (hzone : st'.zone = max st.zone (u + k)) :
    Occupied st' (⟨baseSize * u, baseSize * k⟩ :: blocks) where
  aligned b hb := by
    rcases List.mem_cons.1 hb with rfl | hb
    · exact ⟨Nat.dvd_mul_right .., Nat.dvd_mul_right ..⟩
    · exact h.aligned b hb
  pos b hb := by
    rcases List.mem_cons.1 hb with rfl | hb
    · exact Nat.mul_pos (by decide) hk
    · exact h.pos b hb
  inside b hb := by
    rw [hshape'.freeZone, hzone]
    rcases List.mem_cons.1 hb with rfl | hb
    · simp only [baseSize]
      omega
    · have hin := h.inside b hb
      rw [hshape.freeZone] at hin
      simp only [baseSize] at hin ⊢
      omega
  apart := List.pairwise_cons.2 ⟨fun b hb => h.apart_of_clear hshape hb hk hclear, h.apart⟩
  bits v hv := by
    rw [hsize] at hv
    rw [hbit]
    by_cases hin : u ≤ v ∧ v < u + k
    · rw [fill_of_mem hin.1 hin.2]
      exact ⟨fun _ => ⟨_, List.mem_cons_self .., (NvBlock.covers_iff rfl rfl).2 hin⟩, fun _ => rfl⟩
    · rw [fill_of_not_mem (by omega), h.bits v hv]
      constructor
      · rintro ⟨b, hb, hcov⟩
        exact ⟨b, List.mem_cons_of_mem _ hb, hcov⟩
      · rintro ⟨b, hb, hcov⟩
        rcases List.mem_cons.1 hb with rfl | hb
        · exact absurd ((NvBlock.covers_iff rfl rfl).1 hcov) hin
        · exact ⟨b, hb, hcov⟩
  top := by
    right
    rw [hbit, hzone]
    by_cases hin : u + k ≤ st.zone
    · rw [max_eq_left hin]
      have htop := h.top.resolve_left (by omega)
      by_cases hlast : u ≤ st.zone - 1 ∧ st.zone - 1 < u + k
      · exact fill_of_mem hlast.1 hlast.2
      · rwa [fill_of_not_mem (by omega)]
    · rw [max_eq_right (by omega)]
      exact fill_of_mem (by omega) (by omega)

/-- A block is made free. -/
theorem free (h : Occupied st (⟨baseSize * u, baseSize * k⟩ :: blocks)) (hshape : NvShape st)
    (hshape' : NvShape st') (hbit : st'.bit = fill st.bit u k false)
    (hsize : st'.bitmapSize = st.bitmapSize)
    (hclear : ∀ v, st'.zone ≤ v → v < st.zone → st'.bit v = false)
    (htop : st'.zone = 0 ∨ st'.bit (st'.zone - 1) = true) : Occupied st' blocks := by
  obtain ⟨hnew, hapart⟩ := List.pairwise_cons.1 h.apart
  have hsub : ∀ b ∈ blocks, b ∈ (⟨baseSize * u, baseSize * k⟩ : NvBlock) :: blocks := fun b hb =>
    List.mem_cons_of_mem _ hb
  -- the units of the other blocks are still in use
  have hkeep : ∀ b ∈ blocks, ∀ v, b.Covers v → st'.bit v = true := by
    intro b hb v hv
    have hset := h.bit_of_covers hshape (hsub b hb) hv
    rw [hbit]
    by_cases hin : u ≤ v ∧ v < u + k
    · exact absurd hv ((hnew b hb).not_covers ((NvBlock.covers_iff rfl rfl).2 hin))
    · rwa [fill_of_not_mem (by omega)]
  refine ⟨fun b hb => h.aligned b (hsub b hb), fun b hb => h.pos b (hsub b hb), fun b hb => ?_,
    hapart, fun v hv => ?_, htop⟩
  · -- the last unit of a block is below the free zone
    obtain ⟨i, j, hi, hj, hpos, hle⟩ := h.units hshape (hsub b hb)
    rw [hshape'.freeZone, hi, hj]
    by_contra hno
    simp only [baseSize] at hno
    have hset := hkeep b hb (i + j - 1) ((NvBlock.covers_iff hi hj).2 (by omega))
    rw [hclear (i + j - 1) (by omega) (by omega)] at hset
    cases hset
  · rw [hsize] at hv
    constructor
    · intro hset
      rw [hbit] at hset
      by_cases hin : u ≤ v ∧ v < u + k
      · rw [fill_of_mem hin.1 hin.2] at hset
        cases hset
      · rw [fill_of_not_mem (by omega), h.bits v hv] at hset
        obtain ⟨b, hb, hbv⟩ := hset
        rcases List.mem_cons.1 hb with rfl | hb
        · exact absurd ((NvBlock.covers_iff rfl rfl).1 hbv) hin
        · exact ⟨b, hb, hbv⟩
    · rintro ⟨b, hb, hbv⟩
      exact hkeep b hb v hbv

end Occupied

/-! ## Memory -/

/-- The empty list has neither a head nor a tail. -/
theorem Queue.nil {st : NvState} (h : Queue st []) :
    st.dontAllocateListHead = nilOffset ∧ st.dontAllocateListTail = nilOffset := by
  rcases h with hnil | ⟨Q, w, hno, -⟩
  · exact hnil.2
  · exact absurd hno.symm (List.append_ne_nil_of_right_ne_nil Q (List.cons_ne_nil w []))

/-- The last node is the tail, and the links lead to it. -/
theorem Queue.concat {st : NvState} {Q : List Waiting} {w : Waiting} (h : Queue st (Q ++ [w])) :
    st.dontAllocateListTail = w.location ∧ Links.Path (nextOffset st.mem) st.dontAllocateListHead
      (Q.map fun w => w.location) w.location := by
  rcases h with ⟨hno, -⟩ | ⟨Q', w', heq, htail, hpath⟩
  · exact absurd hno (List.append_ne_nil_of_right_ne_nil Q (List.cons_ne_nil w []))
  · obtain ⟨rfl, hlast⟩ := List.append_inj' heq rfl
    obtain rfl : w = w' := List.singleton_inj.1 hlast
    exact ⟨htail, hpath⟩

/-- The don't-allocate list depends on the links in its nodes. -/
theorem Queue.congr {st st' : NvState} {waiting : List Waiting} (h : Queue st waiting)
    (hhead : st'.dontAllocateListHead = st.dontAllocateListHead)
    (htail : st'.dontAllocateListTail = st.dontAllocateListTail)
    (hmem : ∀ w ∈ waiting, st'.mem (w.location + 8) = st.mem (w.location + 8)) :
    Queue st' waiting := by
  rw [Queue, hhead, htail]
  refine h.imp id ?_
  rintro ⟨Q, w, rfl, hw, hpath⟩
  refine ⟨Q, w, rfl, hw, hpath.congr fun a ha => ?_⟩
  obtain ⟨w', hw', rfl⟩ := List.mem_map.1 ha
  rw [nextOffset, nextOffset, hmem w' (List.mem_append_left _ hw')]

namespace NvInv

variable {st : NvState} {transit live : List NvBlock} {waiting : List Waiting} {b : NvBlock}
  {w : Waiting} {mem : ℕ → BitVec 64} {x : ℕ} {v : BitVec 64}

theorem mem_transit (hb : b ∈ transit) :
    b ∈ transit ++ (live ++ waiting.map Waiting.toNvBlock) :=
  List.mem_append_left _ hb

theorem mem_live (hb : b ∈ live) : b ∈ transit ++ (live ++ waiting.map Waiting.toNvBlock) :=
  List.mem_append_right _ (List.mem_append_left _ hb)

theorem mem_waiting (hw : w ∈ waiting) :
    w.toNvBlock ∈ transit ++ (live ++ waiting.map Waiting.toNvBlock) :=
  List.mem_append_right _ (List.mem_append_right _ (List.mem_map_of_mem hw))

/-- A block has a unit at least, and is in the arena. -/
theorem bounds (h : NvInv st transit live waiting)
    (hb : b ∈ transit ++ (live ++ waiting.map Waiting.toNvBlock)) :
    64 ≤ b.size ∧ b.location + b.size ≤ st.endAddress ∧ st.endAddress + 512 ≤ 2 ^ 32 := by
  have hsize : 64 ≤ b.size := h.occupied.baseSize_le hb
  have hin := h.occupied.inside b hb
  have hle := h.shape.zone_le
  have harena := h.shape.endAddress
  have hlt := h.shape.bitmapSize_lt
  rw [h.shape.freeZone] at hin
  simp only [baseSize] at hin
  omega

/-- The memory changes where there is no header, and the don't-allocate list is the same. -/
theorem of_headers (h : NvInv st transit live waiting)
    (hfree : ∀ u < st.zone, st.bit u = false → mem (baseSize * u) = st.mem (baseSize * u))
    (hlive : ∀ b ∈ live, mem b.location = st.mem b.location)
    (hwaiting : ∀ w ∈ waiting, mem w.location = st.mem w.location ∧
      mem (w.location + 24) = st.mem (w.location + 24))
    (hqueue : Queue { st with mem } waiting) : NvInv { st with mem } transit live waiting where
  shape := ⟨h.shape.freeZone, h.shape.zone_le, h.shape.endAddress, h.shape.bitmapSize_lt,
    h.shape.hints⟩
  occupied := ⟨h.occupied.aligned, h.occupied.pos, h.occupied.inside, h.occupied.apart,
    h.occupied.bits, h.occupied.top⟩
  tiled a n hgap := by
    refine (h.tiled a n hgap).congr fun u m hu hlt htile => ?_
    show (mem (baseSize * u)).toInt = _
    have hle : a + n ≤ st.zone := hgap.le
    rw [hfree u (by omega) (hgap.clear u hu hlt)]
    exact htile
  liveHeader b hb := by
    show (mem b.location).toInt = _
    rw [hlive b hb]
    exact h.liveHeader b hb
  waitingHeader w hw := by
    show (mem w.location).toInt = _ ∧ (mem (w.location + 24)).toNat = _
    rw [(hwaiting w hw).1, (hwaiting w hw).2]
    exact h.waitingHeader w hw
  queue := hqueue

/-- The memory changes where there is neither a header nor a link. -/
theorem of_mem (h : NvInv st transit live waiting)
    (hfree : ∀ u < st.zone, st.bit u = false → mem (baseSize * u) = st.mem (baseSize * u))
    (hlive : ∀ b ∈ live, mem b.location = st.mem b.location)
    (hwaiting : ∀ w ∈ waiting, mem w.location = st.mem w.location ∧
      mem (w.location + 8) = st.mem (w.location + 8) ∧
      mem (w.location + 24) = st.mem (w.location + 24)) :
    NvInv { st with mem } transit live waiting :=
  h.of_headers hfree hlive (fun w hw => ⟨(hwaiting w hw).1, (hwaiting w hw).2.2⟩)
    (h.queue.congr rfl rfl fun w hw => (hwaiting w hw).2.1)

/-- The memory of a block in transit can be written. -/
theorem write_transit (h : NvInv st transit live waiting) (hb : b ∈ transit)
    (hx : b.location ≤ x ∧ x < b.location + b.size) (v : BitVec 64) :
    NvInv { st with mem := Function.update st.mem x v } transit live waiting := by
  have hdisj := (List.pairwise_append.1 h.occupied.apart).2.2
  -- another block does not contain the word
  have hother : ∀ b' ∈ live ++ waiting.map Waiting.toNvBlock, ∀ r < baseSize,
      b'.location + r ≠ x := by
    intro b' hb' r hr heq
    have hsize := h.occupied.baseSize_le (List.mem_append_right transit hb')
    rcases hdisj b hb b' hb' with hle | hle
    · omega
    · omega
  have hwait : ∀ w ∈ waiting, ∀ r < baseSize, w.location + r ≠ x := fun w hw =>
    hother w.toNvBlock (List.mem_append_right _ (List.mem_map_of_mem hw))
  have hkeep : ∀ y, y ≠ x → Function.update st.mem x v y = st.mem y := fun y hy =>
    Function.update_of_ne hy v st.mem
  refine h.of_mem (fun u hu hbit => hkeep _ ?_)
    (fun b' hb' => hkeep _ (hother b' (List.mem_append_left _ hb') 0 (by decide)))
    fun w hw => ⟨hkeep _ (hwait w hw 0 (by decide)), hkeep _ (hwait w hw 8 (by decide)),
      hkeep _ (hwait w hw 24 (by decide))⟩
  rintro rfl
  rw [h.occupied.bit_of_covers h.shape (mem_transit hb) hx] at hbit
  cases hbit

/-- A call starts to work on a live block. -/
theorem take_live {live' : List NvBlock} (h : NvInv st transit live waiting)
    (hperm : live.Perm (b :: live')) : NvInv st (b :: transit) live' waiting := by
  refine ⟨h.shape, h.occupied.perm ?_, h.tiled,
    fun b' hb' => h.liveHeader b' (hperm.mem_iff.2 (List.mem_cons_of_mem b hb')), h.waitingHeader,
    h.queue⟩
  exact ((hperm.append_right _).append_left _).trans List.perm_middle

/-- A block that a call has been working on is live. -/
theorem put_live {live' : List NvBlock} (h : NvInv st (b :: transit) live waiting)
    (hheader : LiveHeader st.mem b) (hperm : live'.Perm (b :: live)) :
    NvInv st transit live' waiting := by
  refine ⟨h.shape, h.occupied.perm ?_, h.tiled, fun b' hb' => ?_, h.waitingHeader, h.queue⟩
  · exact (((hperm.append_right _).append_left _).trans List.perm_middle).symm
  · rcases List.mem_cons.1 (hperm.mem_iff.1 hb') with rfl | hb'
    · exact hheader
    · exact h.liveHeader b' hb'

end NvInv

/-- The invariant depends on the fields that it mentions. -/
theorem NvInv.congr {st st' : NvState} {transit live : List NvBlock} {waiting : List Waiting}
    (h : NvInv st transit live waiting) (hzone : st'.freeZone = st.freeZone)
    (hend : st'.endAddress = st.endAddress) (hmem : st'.mem = st.mem)
    (hbitmap : st'.bitmap = st.bitmap) (hsize : st'.bitmapSize = st.bitmapSize)
    (hints : ∀ i, ∀ p ∈ st'.freeLists i, baseSize ∣ p)
    (hhead : st'.dontAllocateListHead = st.dontAllocateListHead)
    (htail : st'.dontAllocateListTail = st.dontAllocateListTail) :
    NvInv st' transit live waiting := by
  have hzone' : st'.zone = st.zone := by rw [NvState.zone, hzone, NvState.zone]
  have hbit : st'.bit = st.bit := by rw [NvState.bit, hbitmap, NvState.bit]
  refine ⟨⟨?_, ?_, ?_, ?_, hints⟩,
    ⟨h.occupied.aligned, h.occupied.pos, ?_, h.occupied.apart, ?_, ?_⟩, ?_, ?_, ?_,
    h.queue.congr hhead htail fun w _ => by rw [hmem]⟩
  · rw [hzone, hzone']
    exact h.shape.freeZone
  · rw [hzone', hsize]
    exact h.shape.zone_le
  · rw [hend, hsize]
    exact h.shape.endAddress
  · rw [hsize]
    exact h.shape.bitmapSize_lt
  · rw [hzone]
    exact h.occupied.inside
  · rw [hbit, hsize]
    exact h.occupied.bits
  · rw [hbit, hzone']
    exact h.occupied.top
  · rw [hbit, hzone', hmem]
    exact h.tiled
  · rw [hmem]
    exact h.liveHeader
  · rw [hmem]
    exact h.waitingHeader

end Zalloc
