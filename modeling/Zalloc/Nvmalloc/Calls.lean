import Zalloc.Nvmalloc.Locate
import Zalloc.Nvmalloc.Release

/-!
# `nvmalloc` and `nvfree`

A call has two parts. First a block becomes live, or a live block is appended to the don't-allocate
list; then `incrementTime` may release the first block of that list.

## Main definitions

* `blockUnits size`: the number of units of the block for a request.
* `nvSearch size`: the search for a gap.
* `Placed st st' size location`: where the block for a request has been placed.
* `NvServed`: a block has been placed, and then `incrementTime` has been called.
* `Mallocs`: how `nvmalloc` ends.

## Main results

* `NvInv.mallocs`: `nvmalloc` ends in one of its cases.
* `NvInv.served`, `NvInv.refused`: a call of `nvmalloc` that has returned.
* `NvInv.returns_putInDNAList`, `NvInv.returns_nvfree`: `nvfree` for a live block.
-/

set_option autoImplicit false

open BitArray

namespace Zalloc

section

variable {st : NvState} {live live' : List NvBlock} {waiting : List Waiting} {b : NvBlock}
  {size : ℕ} {grows : Growth}

/-! ## `nvmalloc` -/

/-- The number of units of the block for a request. -/
def blockUnits (size : ℕ) : ℕ := unitsOf (size + 8)

/-- The search of `nvmalloc` for a gap: lines 309 to 398. -/
def nvSearch (size : ℕ) : NvProg (Option ℕ) :=
  Prog.loop (findBody (actualSizeOf (u32 (size + 8)))) (getBestFit (u32 (size + 8)))

/-- Where the block for a request has been placed. -/
inductive Placed (st st' : NvState) (size : ℕ) : ℕ → Prop
  /-- At the front of a gap, which the search has found. -/
  | gap {a n : ℕ} {mem : ℕ → BitVec 64} {lists : ℕ → List ℕ}
      (hhit : Hit st (blockUnits size) (bucketOf (blockUnits size)) a n mem lists)
      (hsearch : (nvSearch size).Returns st { st with mem, freeLists := lists }
        (some (baseSize * a)))
      (hlists : st'.freeLists = lists) (hbit : st'.bit = fill st.bit a (blockUnits size) true)
      (hzone : st'.freeZone = st.freeZone) (hend : st'.endAddress = st.endAddress) :
      Placed st st' size (baseSize * a)
  /-- At the start of the free zone. -/
  | zone {lists : ℕ → List ℕ} (hmiss : Miss st (blockUnits size) (bucketOf (blockUnits size)) lists)
      (hext : Extended st st' lists (blockUnits size)) : Placed st st' size (baseSize * st.zone)

/-- A block at `location` has been placed, with the state `st₁`, and then `incrementTime` has been
called. -/
structure NvServed (st st₁ st' : NvState) (live : List NvBlock) (waiting waiting' : List Waiting)
    (size now location : ℕ) : Prop where
  /-- Where it has been placed. -/
  placed : Placed st st₁ size location
  /-- The don't-allocate list has not been changed by that. -/
  same : SameRecords st st₁
  /-- The invariant with the new block. -/
  inv₁ : NvInv st₁ [] (⟨location, baseSize * blockUnits size⟩ :: live) waiting
  /-- What `incrementTime` has done. -/
  tick : Ticked st₁ now waiting st' waiting'
  /-- The invariant at the end. -/
  inv : NvInv st' [] (⟨location, baseSize * blockUnits size⟩ :: live) waiting'

/-- How `nvmalloc` ends. -/
inductive Mallocs (st : NvState) (live : List NvBlock) (waiting : List Waiting) (size : ℕ)
    (grows : Growth) (now : ℕ) : Prop
  /-- A block is handed out. -/
  | serves {st₁ st' : NvState} {location : ℕ} {waiting' : List Waiting}
      (hserved : NvServed st st₁ st' live waiting waiting' size now location)
      (hret : (nvmalloc size grows now).Returns st st' (some (location + 8)))
  /-- There is no more memory. -/
  | full {lists : ℕ → List ℕ} (hmiss : Miss st (blockUnits size) (bucketOf (blockUnits size)) lists)
      (hinv : NvInv { st with freeLists := lists } [] live waiting)
      (hret : (nvmalloc size grows now).Returns st { st with freeLists := lists } none)
  /-- The number of pages is never found, or there is no memory for the bitmap. -/
  | diverges {lists : ℕ → List ℕ}
      (hmiss : Miss st (blockUnits size) (bucketOf (blockUnits size)) lists)
      (hsearch : (nvSearch size).Returns st { st with freeLists := lists } none)
      (hnever : ∀ st' r, ¬ (orFreeZone (actualSizeOf (u32 (size + 8))) grows none).Returns
        { st with freeLists := lists } st' r)

/-- The size that `nvmalloc` asks `getFreeLocation` for. -/
theorem actualSizeOf_request (hle : size + 8 ≤ 2 ^ 32 - baseSize) :
    actualSizeOf (u32 (size + 8)) = baseSize * blockUnits size := by
  have hsize : u32 (size + 8) = size + 8 := u32_eq (by simp only [baseSize] at hle; omega)
  rw [hsize]
  exact actualSizeOf_eq (by omega) hle

/-- The header of a new block is written. -/
theorem NvInv.write_header {k location : ℕ}
    (h : NvInv st [⟨location, baseSize * k⟩] live waiting) :
    NvInv { st with
      mem := Function.update st.mem location
        (BitVec.ofInt 64 (crcCompute location (baseSize * k))) }
      [] (⟨location, baseSize * k⟩ :: live) waiting ∧
    (setHeaderSize location (crcCompute location (baseSize * k))).Returns st { st with
      mem := Function.update st.mem location
        (BitVec.ofInt 64 (crcCompute location (baseSize * k))) } () := by
  have hmem : (⟨location, baseSize * k⟩ : NvBlock) ∈
      [⟨location, baseSize * k⟩] ++ (live ++ waiting.map Waiting.toNvBlock) :=
    NvInv.mem_transit (List.mem_singleton_self _)
  obtain ⟨hsize, hend, hlt⟩ := h.bounds hmem
  dsimp only at hsize hend
  refine ⟨?_, returns_setHeaderSize (by omega) _⟩
  refine (h.write_transit (List.mem_singleton_self _)
    ⟨le_rfl, by dsimp only; omega⟩ _).put_live ?_ (List.Perm.refl _)
  show (Function.update st.mem location _ location).toInt = crcCompute location (baseSize * k)
  rw [Function.update_self]
  exact toInt_crcCompute (by omega)

/-- The rest of `nvmalloc`, once its location has been found. -/
theorem NvInv.hands_out {st₁ : NvState} {k location : ℕ}
    (h : NvInv st₁ [⟨location, baseSize * k⟩] live waiting)
    (hlocate : (getFreeLocation (u32 (size + 8)) grows).Returns st st₁
      (some location, baseSize * k)) (now : ℕ) :
    ∃ mem st' waiting', NvInv { st₁ with mem } [] (⟨location, baseSize * k⟩ :: live) waiting ∧
      Ticked { st₁ with mem } now waiting st' waiting' ∧
      NvInv st' [] (⟨location, baseSize * k⟩ :: live) waiting' ∧
      (incrementTime now).Returns { st₁ with mem } st' () ∧
      (nvmalloc size grows now).Returns st st' (some (location + 8)) := by
  obtain ⟨hinv, hwrite⟩ := h.write_header
  obtain ⟨st', waiting', htick, hinv', htime⟩ := hinv.ticks now
  refine ⟨_, st', waiting', hinv, htick, hinv', htime, ?_⟩
  exact hlocate.bind (hwrite.bind (htime.bind (Prog.returns_pure _ _)))

/-- `nvmalloc` ends in one of its cases. -/
theorem NvInv.mallocs (h : NvInv st [] live waiting) (hle : size + 8 ≤ 2 ^ 32 - baseSize)
    (hgrow : grows = .granted → st.freeZone + baseSize * blockUnits size > st.endAddress →
      st.endAddress + growth (baseSize * blockUnits size) < 2 ^ 32) (now : ℕ) :
    Mallocs st live waiting size grows now := by
  have hsize : u32 (size + 8) = size + 8 := u32_eq (by simp only [baseSize] at hle; omega)
  have hpos : 0 < size + 8 := by omega
  cases h.locates hpos hle hgrow with
  | @hit a n mem lists bitmap hhit hbit hinv hloop hret =>
    have hsearch : (nvSearch size).Returns st { st with mem, freeLists := lists }
        (some (baseSize * a)) := by
      rw [nvSearch, hsize]
      exact hloop
    obtain ⟨mem', st', waiting', hinv₁, htick, hinv', -, hmalloc⟩ :=
      hinv.hands_out (by rwa [hsize]) now
    let st₁ : NvState := { st with mem := mem', freeLists := lists, bitmap }
    have hplaced : Placed st st₁ size (baseSize * a) := .gap hhit hsearch rfl hbit rfl rfl
    exact .serves ⟨hplaced, ⟨rfl, rfl, rfl, rfl, rfl⟩, hinv₁, htick, hinv'⟩ hmalloc
  | @extended st₁ lists hmiss hext hinv hret =>
    obtain ⟨mem', st', waiting', hinv₁, htick, hinv', -, hmalloc⟩ :=
      hinv.hands_out (by rwa [hsize]) now
    let st₂ : NvState := { st₁ with mem := mem' }
    have hsame : SameRecords st st₂ := ⟨hext.records.head, hext.records.tail, hext.records.wait,
      hext.records.reports, hext.records.released⟩
    have hplaced : Placed st st₂ size (baseSize * st.zone) :=
      .zone hmiss ⟨hext.zone, hext.gaps, hext.lists, hsame⟩
    exact .serves ⟨hplaced, hsame, hinv₁, htick, hinv'⟩ hmalloc
  | @full lists hmiss hinv hret =>
    refine .full hmiss hinv ?_
    unfold Zalloc.nvmalloc
    rw [hsize]
    exact hret.bind (Prog.returns_pure _ _)
  | @diverges lists hmiss hloop hnever =>
    rw [← hsize] at hloop hnever
    exact .diverges hmiss hloop hnever

/-- In this case `getFreeLocation` does not return. -/
theorem not_returns_getFreeLocation {lists : ℕ → List ℕ}
    (hsearch : (nvSearch size).Returns st { st with freeLists := lists } none)
    (hnever : ∀ st' r, ¬ (orFreeZone (actualSizeOf (u32 (size + 8))) grows none).Returns
      { st with freeLists := lists } st' r) {st' : NvState} {r : Option ℕ × ℕ} :
    ¬ (getFreeLocation (u32 (size + 8)) grows).Returns st st' r := by
  intro hlocate
  obtain ⟨s₁, found, hloop, hlocate⟩ := Prog.returns_bind_iff.1 hlocate
  obtain ⟨rfl, rfl⟩ := Prog.returns_unique hsearch hloop
  obtain ⟨s₂, location, hzone, -⟩ := Prog.returns_bind_iff.1 hlocate
  exact hnever s₂ location hzone

/-- Nor does `nvmalloc`. -/
theorem not_returns_nvmalloc {lists : ℕ → List ℕ} {now : ℕ}
    (hsearch : (nvSearch size).Returns st { st with freeLists := lists } none)
    (hnever : ∀ st' r, ¬ (orFreeZone (actualSizeOf (u32 (size + 8))) grows none).Returns
      { st with freeLists := lists } st' r) {st' : NvState} {r : Option ℕ} :
    ¬ (nvmalloc size grows now).Returns st st' r := by
  intro hret
  obtain ⟨s, found, hlocate, -⟩ := Prog.returns_bind_iff.1 hret
  exact not_returns_getFreeLocation hsearch hnever hlocate

/-- A call of `nvmalloc` that has returned a block. -/
theorem NvInv.served (h : NvInv st [] live waiting) (hle : size + 8 ≤ 2 ^ 32 - baseSize)
    (hgrow : grows = .granted → st.freeZone + baseSize * blockUnits size > st.endAddress →
      st.endAddress + growth (baseSize * blockUnits size) < 2 ^ 32) {now location : ℕ}
    {st' : NvState} (hret : (nvmalloc size grows now).Returns st st' (some (location + 8))) :
    ∃ st₁ waiting', NvServed st st₁ st' live waiting waiting' size now location := by
  cases h.mallocs hle hgrow now with
  | serves hserved hret' =>
    obtain ⟨rfl, hloc⟩ := Prog.returns_unique hret hret'
    obtain rfl := Nat.add_right_cancel (Option.some.inj hloc)
    exact ⟨_, _, hserved⟩
  | full hmiss hinv hret' => cases (Prog.returns_unique hret hret').2
  | diverges hmiss hsearch hnever => exact absurd hret (not_returns_nvmalloc hsearch hnever)

/-- A call of `nvmalloc` that has returned `NULL`. -/
theorem NvInv.refused (h : NvInv st [] live waiting) (hle : size + 8 ≤ 2 ^ 32 - baseSize)
    (hgrow : grows = .granted → st.freeZone + baseSize * blockUnits size > st.endAddress →
      st.endAddress + growth (baseSize * blockUnits size) < 2 ^ 32) {now : ℕ} {st' : NvState}
    (hret : (nvmalloc size grows now).Returns st st' none) :
    ∃ lists, st' = { st with freeLists := lists } ∧
      Miss st (blockUnits size) (bucketOf (blockUnits size)) lists ∧ NvInv st' [] live waiting := by
  cases h.mallocs hle hgrow now with
  | serves hserved hret' => cases (Prog.returns_unique hret hret').2
  | @full lists hmiss hinv hret' =>
    obtain ⟨rfl, -⟩ := Prog.returns_unique hret hret'
    exact ⟨lists, rfl, hmiss, hinv⟩
  | diverges hmiss hsearch hnever => exact absurd hret (not_returns_nvmalloc hsearch hnever)

/-! ## `nvfree` -/

/-- A link is written. -/
theorem nextOffset_update {mem : ℕ → BitVec 64} {a x : ℕ} (hx : x < 2 ^ 64) :
    nextOffset (Function.update mem (a + 8) (BitVec.ofNat 64 x)) =
      Function.update (nextOffset mem) a x := by
  ext y
  by_cases hy : y = a
  · subst hy
    rw [nextOffset, Function.update_self, Function.update_self, BitVec.toNat_ofNat,
      Nat.mod_eq_of_lt hx]
  · rw [nextOffset, Function.update_of_ne (by omega), Function.update_of_ne hy, nextOffset]

/-- A block in transit that has the header of a waiting block comes to be waiting. -/
theorem NvInv.put_waiting {added head tail : ℕ} (h : NvInv st [b] live waiting)
    (hheader : WaitingHeader st.mem ⟨b, added⟩)
    (hqueue : Queue { st with dontAllocateListHead := head, dontAllocateListTail := tail }
      (waiting ++ [⟨b, added⟩])) :
    NvInv { st with dontAllocateListHead := head, dontAllocateListTail := tail } [] live
      (waiting ++ [⟨b, added⟩]) := by
  have hocc : Occupied st ([] ++ (live ++ (waiting ++ [(⟨b, added⟩ : Waiting)]).map
      Waiting.toNvBlock)) := by
    have hmap : (waiting ++ [(⟨b, added⟩ : Waiting)]).map Waiting.toNvBlock =
        waiting.map Waiting.toNvBlock ++ [b] := List.map_append
    refine h.occupied.perm ?_
    rw [hmap, ← List.append_assoc live]
    exact List.perm_append_comm
  refine ⟨⟨h.shape.freeZone, h.shape.zone_le, h.shape.endAddress, h.shape.bitmapSize_lt,
    h.shape.hints⟩, ⟨hocc.aligned, hocc.pos, hocc.inside, hocc.apart, hocc.bits, hocc.top⟩, h.tiled,
    h.liveHeader, fun w hw => ?_, hqueue⟩
  rcases List.mem_append.1 hw with hw | hw
  · exact h.waitingHeader w hw
  · rw [List.mem_singleton.1 hw]
    exact hheader

/-- The last block starts at another offset than the blocks in front of it. -/
theorem NvInv.location_not_mem {transit : List NvBlock} {Q : List Waiting} {w : Waiting}
    (h : NvInv st transit live (Q ++ [w])) : w.location ∉ Q.map fun w => w.location := by
  intro hno
  obtain ⟨w', hw', heq⟩ := List.mem_map.1 hno
  have hapart := (List.pairwise_append.1 (List.pairwise_append.1 h.occupied.apart).2.1).2.1
  rw [List.map_append] at hapart
  have hsize := h.occupied.baseSize_le (NvInv.mem_waiting (List.mem_append_left [w] hw'))
  have hsize' := h.occupied.baseSize_le (NvInv.mem_waiting
    (List.mem_append_right Q (List.mem_singleton_self w)))
  simp only [baseSize] at hsize hsize'
  rcases (List.pairwise_append.1 hapart).2.2 _ (List.mem_map_of_mem hw') _
    (List.mem_singleton_self _) with hle | hle
  · omega
  · omega

/-- Different words of two units are at different offsets. -/
theorem add_ne_add_of_dvd {r s x y : ℕ} (hx : baseSize ∣ x) (hy : baseSize ∣ y) (hr : r < baseSize)
    (hs : s < baseSize) (hne : r ≠ s) : x + r ≠ y + s := by
  obtain ⟨i, rfl⟩ := hx
  obtain ⟨j, rfl⟩ := hy
  simp only [baseSize] at *
  omega

/-- The last block does not have a link yet, so this word of it can be written. -/
theorem NvInv.write_link {Q : List Waiting} {w : Waiting}
    (h : NvInv st [b] live (Q ++ [w])) (v : BitVec 64) :
    NvInv { st with mem := Function.update st.mem (w.location + 8) v } [b] live (Q ++ [w]) := by
  obtain ⟨htail, hpath⟩ := h.queue.concat
  have hw : w ∈ Q ++ [w] := List.mem_append_right _ (List.mem_singleton_self w)
  have hdvd := (h.occupied.aligned _ (NvInv.mem_waiting hw)).1
  -- the start of a unit, and the time in a header
  have hkeep : ∀ x r, baseSize ∣ x → r < baseSize → r ≠ 8 →
      Function.update st.mem (w.location + 8) v (x + r) = st.mem (x + r) := fun x r hx hr hne =>
    Function.update_of_ne (add_ne_add_of_dvd hx hdvd hr (by decide) hne) v st.mem
  have hstart : ∀ x, baseSize ∣ x → Function.update st.mem (w.location + 8) v x = st.mem x :=
    fun x hx => hkeep x 0 hx (by decide) (by decide)
  refine h.of_headers (fun u _ _ => hstart _ (Nat.dvd_mul_right ..))
    (fun b' hb' => hstart _ (h.occupied.aligned _ (NvInv.mem_live hb')).1)
    (fun w' hw' => ?_) (.inr ⟨Q, w, rfl, htail, hpath.congr fun a ha => ?_⟩)
  · have hdvd' := (h.occupied.aligned _ (NvInv.mem_waiting hw')).1
    exact ⟨hstart _ hdvd', hkeep _ 24 hdvd' (by decide) (by decide)⟩
  · have hne : a ≠ w.location := fun heq => h.location_not_mem (heq ▸ ha)
    show (Function.update st.mem (w.location + 8) v (a + 8)).toNat = (st.mem (a + 8)).toNat
    rw [Function.update_of_ne (by omega)]

/-- A block in transit with the header of a waiting block is appended to the empty list. -/
theorem NvInv.enqueue_first {added : ℕ} (h : NvInv st [b] live [])
    (hheader : WaitingHeader st.mem ⟨b, added⟩) :
    NvInv { st with dontAllocateListHead := b.location, dontAllocateListTail := b.location } [] live
      [⟨b, added⟩] :=
  h.put_waiting hheader (.inr ⟨[], ⟨b, added⟩, rfl, rfl, rfl⟩)

/-- It is appended to the list behind another block. -/
theorem NvInv.enqueue {added : ℕ} {Q : List Waiting} {w : Waiting}
    (h : NvInv st [b] live (Q ++ [w])) (hheader : WaitingHeader st.mem ⟨b, added⟩) :
    NvInv { st with
      mem := Function.update st.mem (w.location + 8) (BitVec.ofNat 64 b.location)
      dontAllocateListTail := b.location } [] live (Q ++ [w] ++ [⟨b, added⟩]) := by
  obtain ⟨-, hpath⟩ := h.queue.concat
  obtain ⟨-, hend, hlt⟩ := h.bounds (NvInv.mem_transit (List.mem_singleton_self b))
  have hw : w ∈ Q ++ [w] := List.mem_append_right _ (List.mem_singleton_self w)
  have hdvd := (h.occupied.aligned _ (NvInv.mem_waiting hw)).1
  have hdvd' := (h.occupied.aligned _ (NvInv.mem_transit (List.mem_singleton_self b))).1
  -- the link is not in the header of the new block
  have hkeep : ∀ r < baseSize, r ≠ 8 →
      Function.update st.mem (w.location + 8) (BitVec.ofNat 64 b.location) (b.location + r) =
        st.mem (b.location + r) := fun r hr hne =>
    Function.update_of_ne (add_ne_add_of_dvd hdvd' hdvd hr (by decide) hne) _ _
  have hheader' : WaitingHeader
      (Function.update st.mem (w.location + 8) (BitVec.ofNat 64 b.location)) ⟨b, added⟩ := by
    refine ⟨?_, ?_⟩
    · show (Function.update st.mem (w.location + 8) _ (b.location + 0)).toInt = _
      rw [hkeep 0 (by decide) (by decide)]
      exact hheader.1
    · show (Function.update st.mem (w.location + 8) _ (b.location + 24)).toNat = _
      rw [hkeep 24 (by decide) (by decide)]
      exact hheader.2
  have hsnoc := hpath.snoc h.location_not_mem b.location
  rw [← nextOffset_update (by omega)] at hsnoc
  refine (h.write_link _).put_waiting hheader' (.inr ⟨Q ++ [w], ⟨b, added⟩, rfl, rfl, ?_⟩)
  rw [List.map_append]
  exact hsnoc

/-- The header of a waiting block is written. -/
theorem NvInv.write_waiting (h : NvInv st [b] live waiting) (added : ℕ) :
    ∃ st₁ mem, NvInv { st with mem } [b] live waiting ∧ WaitingHeader mem ⟨b, added⟩ ∧
      (setHeaderSize b.location (-crcCompute b.location (u32 (b.size + 1)))).Returns st st₁ () ∧
      (setTimeAdded b.location added).Returns st₁ { st with mem } () := by
  obtain ⟨hsize, hend, hlt⟩ := h.bounds (NvInv.mem_transit (List.mem_singleton_self b))
  have hsucc : u32 (b.size + 1) = b.size + 1 := u32_eq (by omega)
  let v := BitVec.ofInt 64 (-crcCompute b.location (b.size + 1))
  let st₁ : NvState := { st with mem := Function.update st.mem b.location v }
  have hinv₁ : NvInv st₁ [b] live waiting :=
    h.write_transit (List.mem_singleton_self b) ⟨le_rfl, by omega⟩ v
  have hend₁ : b.location + 32 ≤ st₁.endAddress := by
    show b.location + 32 ≤ st.endAddress
    omega
  refine ⟨st₁, Function.update st₁.mem (b.location + 24) (BitVec.ofNat 64 added),
    hinv₁.write_transit (List.mem_singleton_self b) ⟨by omega, by omega⟩ _, ⟨?_, ?_⟩, ?_,
    returns_setTimeAdded hend₁ added⟩
  · -- the time is behind the size
    show (Function.update (Function.update st.mem b.location v) (b.location + 24) _
      b.location).toInt = -crcCompute b.location (b.size + 1)
    rw [Function.update_of_ne (by omega), Function.update_self]
    exact toInt_neg_crcCompute (by omega)
  · show (Function.update (Function.update st.mem b.location v) (b.location + 24) _
      (b.location + 24)).toNat = u64 added
    rw [Function.update_self, BitVec.toNat_ofNat, u64]
  · rw [hsucc]
    exact returns_setHeaderSize (by omega) _

/-- A live block is appended to the don't-allocate list. -/
theorem NvInv.returns_putInDNAList (h : NvInv st [b] live waiting) (hheader : LiveHeader st.mem b)
    (added : ℕ) :
    ∃ mem head tail,
      NvInv { st with mem, dontAllocateListHead := head, dontAllocateListTail := tail } [] live
        (waiting ++ [⟨b, added⟩]) ∧
      (putInDNAList b.location b.size added).Returns st
        { st with mem, dontAllocateListHead := head, dontAllocateListTail := tail } () := by
  obtain ⟨hsize, hend, hlt⟩ := h.bounds (NvInv.mem_transit (List.mem_singleton_self b))
  have hhsize : (getHeaderSize b.location).Returns st st (crcCompute b.location b.size) := by
    rw [← hheader]
    exact returns_getHeaderSize (by omega)
  obtain ⟨st₁, mem, hinv, hwaiting, hwrite, htime⟩ := h.write_waiting added
  let st₂ : NvState := { st with mem }
  rcases List.eq_nil_or_concat' waiting with rfl | ⟨Q, w, rfl⟩
  · -- the list was empty
    refine ⟨mem, b.location, b.location, hinv.enqueue_first hwaiting, ?_⟩
    refine hhsize.bind ((returns_reportIf_of_not fun hno => hno rfl).bind ?_)
    refine hwrite.bind (htime.bind ((Prog.returns_read _ _).bind ?_))
    rw [if_pos hinv.queue.nil.2]
    exact Prog.returns_modify _ _
  · -- the last block gets a link
    have htail := hinv.queue.concat.1
    have hw : w.toNvBlock ∈ [b] ++ (live ++ (Q ++ [w]).map Waiting.toNvBlock) :=
      NvInv.mem_waiting (List.mem_append_right Q (List.mem_singleton_self w))
    obtain ⟨hsize', hend', -⟩ := h.bounds hw
    have hne : ¬ st₂.dontAllocateListTail = nilOffset := by
      rw [htail]
      simp only [nilOffset]
      omega
    have hend₂ : st₂.dontAllocateListTail + 16 ≤ st₂.endAddress := by
      rw [htail]
      show w.location + 16 ≤ st.endAddress
      omega
    refine ⟨_, st.dontAllocateListHead, b.location, hinv.enqueue hwaiting, ?_⟩
    refine hhsize.bind ((returns_reportIf_of_not fun hno => hno rfl).bind ?_)
    refine hwrite.bind (htime.bind ((Prog.returns_read _ _).bind ?_))
    rw [if_neg hne]
    refine (returns_setHeaderNext hend₂ _).bind ?_
    rw [htail]
    exact Prog.returns_modify _ _

/-- `nvfree` of a live block appends it to the don't-allocate list and calls `incrementTime`. -/
theorem NvInv.returns_nvfree (h : NvInv st [] live waiting) (hperm : live.Perm (b :: live'))
    (added now : ℕ) :
    ∃ mem head tail st' waiting',
      Ticked { st with mem, dontAllocateListHead := head, dontAllocateListTail := tail } now
        (waiting ++ [⟨b, added⟩]) st' waiting' ∧
      NvInv st' [] live' waiting' ∧ (nvfree (b.location + 8) added now).Returns st st' 0 := by
  have hb : b ∈ live := hperm.mem_iff.2 (List.mem_cons_self ..)
  have hheader := h.liveHeader b hb
  obtain ⟨hsize, hend, hlt⟩ := h.bounds (NvInv.mem_live hb)
  obtain ⟨mem, head, tail, hinv, hput⟩ := (h.take_live hperm).returns_putInDNAList hheader added
  obtain ⟨st', waiting', htick, hinv', htime⟩ := hinv.ticks now
  refine ⟨mem, head, tail, st', waiting', htick, hinv', ?_⟩
  have hlocation : u64Sub (b.location + 8) 8 = b.location := by
    simp only [u64Sub]
    omega
  have hhsize : (getHeaderSize b.location).Returns st st (crcCompute b.location b.size) := by
    rw [← hheader]
    exact returns_getHeaderSize (by omega)
  have hpos : 0 < crcCompute b.location b.size := crcCompute_pos (by omega) (by omega)
  have hcrc : crcGetSize (crcCompute b.location b.size) = b.size := crcGetSize_crcCompute (by omega)
  unfold Zalloc.nvfree
  rw [hlocation]
  refine hhsize.bind ?_
  rw [if_neg (by omega), hcrc, if_neg fun hno => hno rfl]
  exact hput.bind (htime.bind (Prog.returns_pure _ _))

end

end Zalloc
