import Zalloc.Nvmalloc.Reserve

/-!
# How `getFreeLocation` ends

There are four cases. The location is the front of a gap; or it is the start of the free zone, for
which the arena may have become larger; or the system refuses more memory; or the loop of
`getMoreMemory` never ends, since the number of bytes does not fit in 32 bits.

## Main definitions

* `SameRecords st st'`: the don't-allocate list and the records are the same.
* `Extended st st' lists k`: `k` units have been reserved at the start of the free zone.
* `Room st st' k`: the arena is large enough for them.
* `Locates`: the four cases.

## Main results

* `NvInv.returns_orFreeZone`: room is found, or there is no more memory, or the loop never ends.
* `NvInv.locates`: `getFreeLocation` ends in one of the four cases.
-/

set_option autoImplicit false

open BitArray

namespace Zalloc

/-- The don't-allocate list and the records are the same. -/
structure SameRecords (st st' : NvState) : Prop where
  /-- The head of the list. -/
  head : st'.dontAllocateListHead = st.dontAllocateListHead
  /-- The tail of the list. -/
  tail : st'.dontAllocateListTail = st.dontAllocateListTail
  /-- The time in the list. -/
  wait : st'.dontAllocateWait = st.dontAllocateWait
  /-- What has been printed. -/
  reports : st'.reports = st.reports
  /-- What has been taken from the list. -/
  released : st'.released = st.released

theorem SameRecords.refl (st : NvState) : SameRecords st st := ⟨rfl, rfl, rfl, rfl, rfl⟩

/-- The first `k` units of the free zone have been reserved; the hints are those in `lists`. -/
structure Extended (st st' : NvState) (lists : ℕ → List ℕ) (k : ℕ) : Prop where
  /-- The free zone is behind them. -/
  zone : st'.zone = st.zone + k
  /-- There is no new gap. -/
  gaps : ∀ a n, IsGap st'.bit st'.zone a n → IsGap st.bit st.zone a n
  /-- The hints. -/
  lists : st'.freeLists = lists
  /-- Nothing else has happened. -/
  records : SameRecords st st'

section

variable {st : NvState} {live : List NvBlock} {waiting : List Waiting} {k size : ℕ} {grows : Growth}

/-- `getMoreMemory` does not abort, unless there is no memory for the bitmap. -/
theorem not_aborts_getMoreMemory (hans : grows ≠ .noBitmap) {st' : NvState} :
    ¬ (getMoreMemory size grows).Aborts st st' := by
  intro hab
  rcases Prog.aborts_bind_iff.1 hab with hloop | ⟨s, n, -, hrest⟩
  · refine Prog.not_aborts_loop (fun i s s' hbody => ?_) hloop
    unfold newPagesBody at hbody
    dsimp only at hbody
    split_ifs at hbody
    · exact Prog.not_aborts_pure hbody
    · exact Prog.not_aborts_pure hbody
  · cases grows with
    | refused => exact Prog.not_aborts_pure hrest
    | noBitmap => exact hans rfl
    | granted =>
      obtain ⟨_, _, -, hno⟩ := (Prog.aborts_bind_iff.1 hrest).resolve_left Prog.not_aborts_modify
      exact Prog.not_aborts_pure hno

/-- No part of the free zone is reached by an access that aborts. -/
theorem not_aborts_orFreeZone (hans : grows ≠ .noBitmap) {st' : NvState} {found : Option ℕ} :
    ¬ (orFreeZone size grows found).Aborts st st' := by
  intro hab
  cases found with
  | some location => exact Prog.not_aborts_pure hab
  | none =>
    obtain ⟨s, full, -, hab⟩ := (Prog.aborts_bind_iff.1 hab).resolve_left Prog.not_aborts_read
    rcases Prog.aborts_bind_iff.1 hab with hmore | ⟨s, more, -, hab⟩
    · unfold moreMemoryIf at hmore
      split_ifs at hmore
      · exact not_aborts_getMoreMemory hans hmore
      · exact Prog.not_aborts_pure hmore
    · split_ifs at hab
      · exact Prog.not_aborts_pure hab
      · obtain ⟨_, _, -, hab⟩ := (Prog.aborts_bind_iff.1 hab).resolve_left Prog.not_aborts_read
        obtain ⟨_, _, -, hab⟩ := (Prog.aborts_bind_iff.1 hab).resolve_left Prog.not_aborts_modify
        exact Prog.not_aborts_pure hab

/-- What is asked for is enough. -/
theorem le_growth : size ≤ growth size := by
  simp only [growth, nvPageSize, newAllocPages]
  omega

/-- There is room for `k` units at the start of the free zone, perhaps after the arena has become
larger. -/
structure Room (st st' : NvState) (k : ℕ) : Prop where
  /-- The free zone is the same. -/
  zone : st'.zone = st.zone
  /-- The bits below it are the same. -/
  bits : ∀ u < st.zone, st'.bit u = st.bit u
  /-- There is room. -/
  le : st.zone + k ≤ 8 * st'.bitmapSize
  /-- The hints are the same. -/
  lists : st'.freeLists = st.freeLists
  /-- The records are the same. -/
  records : SameRecords st st'

/-- Behind the start of the free zone there is room already. -/
theorem returns_orFreeZone_room (h : st.freeZone + size ≤ st.endAddress) :
    (orFreeZone size grows none).Returns st { st with freeZone := st.freeZone + size }
      (some st.freeZone) := by
  have hread : (Prog.read fun st : NvState => decide (st.freeZone + size > st.endAddress)).Returns
      st st false := Prog.returns_read_iff.2 ⟨rfl, (decide_eq_false (by omega)).symm⟩
  have hmore : (moreMemoryIf false size grows).Returns st st 0 := by
    unfold moreMemoryIf
    rw [if_neg Bool.false_ne_true]
    exact Prog.returns_pure _ _
  refine hread.bind (hmore.bind ?_)
  rw [if_neg (by omega)]
  exact (Prog.returns_read _ _).bind ((Prog.returns_modify _ _).bind (Prog.returns_pure _ _))

/-- More memory is necessary. -/
theorem returns_full (h : st.endAddress < st.freeZone + size) :
    (Prog.read fun st : NvState => decide (st.freeZone + size > st.endAddress)).Returns st st
      true :=
  Prog.returns_read_iff.2 ⟨rfl, (decide_eq_true h).symm⟩

/-- The arena becomes larger. -/
theorem returns_orFreeZone_grow (h : st.endAddress < st.freeZone + size)
    (hpages : size ≤ 2 ^ 32 - nvPageSize) :
    (orFreeZone size .granted none).Returns st
      { st.grow (growth size / nvPageSize) with freeZone := st.freeZone + size }
      (some st.freeZone) := by
  have hmore : (moreMemoryIf true size .granted).Returns st
      (st.grow (growth size / nvPageSize)) 0 := by
    unfold moreMemoryIf
    rw [if_pos rfl]
    refine (returns_newPages hpages).bind ?_
    exact (Prog.returns_modify _ _).bind (Prog.returns_pure _ _)
  refine (returns_full h).bind (hmore.bind ?_)
  rw [if_neg (by omega)]
  exact (Prog.returns_read _ _).bind ((Prog.returns_modify _ _).bind (Prog.returns_pure _ _))

/-- There is no more memory. -/
theorem returns_orFreeZone_none (h : st.endAddress < st.freeZone + size)
    (hpages : size ≤ 2 ^ 32 - nvPageSize) : (orFreeZone size .refused none).Returns st st none := by
  have hmore : (moreMemoryIf true size .refused).Returns st st (-1) := by
    unfold moreMemoryIf
    rw [if_pos rfl]
    exact (returns_newPages hpages).bind (Prog.returns_pure _ _)
  refine (returns_full h).bind (hmore.bind ?_)
  rw [if_pos (by omega)]
  exact Prog.returns_pure _ _

/-- The number of pages is never found. -/
theorem not_returns_getMoreMemory (hpages : 2 ^ 32 - nvPageSize < size) {st' : NvState} {r : ℤ} :
    ¬ (getMoreMemory size grows).Returns st st' r := by
  intro hmore
  obtain ⟨s, pages, hloop, -⟩ := Prog.returns_bind_iff.1 hmore
  exact not_returns_newPages hpages hloop

/-- There is no memory for the bitmap. -/
theorem not_returns_noBitmap {st' : NvState} {r : ℤ} :
    ¬ (getMoreMemory size .noBitmap).Returns st st' r := by
  intro hmore
  obtain ⟨s, pages, -, habort⟩ := Prog.returns_bind_iff.1 hmore
  exact Prog.not_returns_abort habort

/-- Then nothing is found behind the start of the free zone. -/
theorem not_returns_orFreeZone (h : st.endAddress < st.freeZone + size)
    (hnever : ∀ st' r, ¬ (getMoreMemory size grows).Returns st st' r) {st' : NvState}
    {r : Option ℕ} : ¬ (orFreeZone size grows none).Returns st st' r := by
  intro hret
  obtain ⟨s, full, hread, hret⟩ := Prog.returns_bind_iff.1 hret
  obtain ⟨rfl, rfl⟩ := Prog.returns_unique (returns_full h) hread
  obtain ⟨s, more, hmore, -⟩ := Prog.returns_bind_iff.1 hret
  unfold moreMemoryIf at hmore
  rw [if_pos rfl] at hmore
  exact hnever s more hmore

/-- The larger arena has room. -/
theorem NvInv.room_grow (h : NvInv st [] live waiting)
    (hgrow : st.endAddress + growth (baseSize * k) < 2 ^ 32) :
    Room st (st.grow (growth (baseSize * k) / nvPageSize)) k ∧
      NvInv (st.grow (growth (baseSize * k) / nvPageSize)) [] live waiting := by
  have hbytes : nvPageSize * (growth (baseSize * k) / nvPageSize) = growth (baseSize * k) :=
    Nat.mul_div_cancel' (Nat.dvd_mul_right ..)
  have hinv : NvInv (st.grow (growth (baseSize * k) / nvPageSize)) [] live waiting :=
    h.grow (by omega)
  have hend : (st.grow (growth (baseSize * k) / nvPageSize)).endAddress = _ :=
    grow_endAddress (by omega)
  have harena := h.shape.endAddress
  have harena' := hinv.shape.endAddress
  have hz := h.shape.zone_le
  have hle : baseSize * k ≤ growth (baseSize * k) := le_growth
  refine ⟨⟨rfl, fun u hu => grow_bit_of_lt (by omega), ?_, rfl, ⟨rfl, rfl, rfl, rfl, rfl⟩⟩, hinv⟩
  rw [hend, hbytes] at harena'
  simp only [baseSize] at *
  omega

/-- The start of the free zone is found, unless there is no more memory. -/
theorem NvInv.returns_orFreeZone (h : NvInv st [] live waiting)
    (hgrow : grows = .granted → st.freeZone + baseSize * k > st.endAddress →
      st.endAddress + growth (baseSize * k) < 2 ^ 32) :
    (∃ st', Room st st' k ∧ NvInv st' [] live waiting ∧
      (orFreeZone (baseSize * k) grows none).Returns st
        { st' with freeZone := st'.freeZone + baseSize * k } (some (baseSize * st.zone))) ∨
    (orFreeZone (baseSize * k) grows none).Returns st st none ∨
    ∀ st' r, ¬ (orFreeZone (baseSize * k) grows none).Returns st st' r := by
  have hzone := h.shape.freeZone
  have harena := h.shape.endAddress
  rw [← hzone]
  by_cases hfull : st.endAddress < st.freeZone + baseSize * k
  · by_cases hpages : baseSize * k ≤ 2 ^ 32 - nvPageSize
    · cases hans : grows with
      | refused => exact .inr (.inl (returns_orFreeZone_none hfull hpages))
      | noBitmap =>
        exact .inr (.inr fun _ _ => not_returns_orFreeZone hfull fun _ _ => not_returns_noBitmap)
      | granted =>
        obtain ⟨hroom, hinv⟩ := h.room_grow (hgrow hans hfull)
        exact .inl ⟨_, hroom, hinv, returns_orFreeZone_grow hfull hpages⟩
    · exact .inr (.inr fun _ _ => not_returns_orFreeZone hfull fun _ _ =>
        not_returns_getMoreMemory (by omega))
  · refine .inl ⟨st, ⟨rfl, fun _ _ => rfl, ?_, rfl, .refl st⟩, h,
      returns_orFreeZone_room (by omega)⟩
    rw [hzone, harena] at hfull
    simp only [baseSize] at hfull
    omega

/-- Room at the start of the free zone is reserved. -/
theorem Room.reserve {st₁ : NvState} (hroom : Room st st₁ k) (hinv : NvInv st₁ [] live waiting)
    (hk : 0 < k) :
    ∃ st', Extended st st' st.freeLists k ∧
      NvInv st' [⟨baseSize * st.zone, baseSize * k⟩] live waiting ∧
      (makeOne (baseSize * st.zone) k).Returns
        { st₁ with freeZone := st₁.freeZone + baseSize * k } st' () := by
  have hzone := hroom.zone
  have hle := hroom.le
  rw [← hzone] at hle ⊢
  let st₂ : NvState := { st₁ with freeZone := st₁.freeZone + baseSize * k }
  have hle₂ : st₁.zone + k ≤ 8 * st₂.bitmapSize := hle
  have hlt₂ : st₂.bitmapSize < 2 ^ 32 := hinv.shape.bitmapSize_lt.trans (by decide)
  obtain ⟨bitmap, hmake, hbit⟩ := returns_makeOne hle₂ hlt₂
  have hzone₂ : (st₁.freeZone + baseSize * k) / baseSize = st₁.zone + k :=
    Nat.add_mul_div_left _ _ (by decide)
  refine ⟨{ st₂ with bitmap }, ⟨?_, fun a n hgap => ?_, hroom.lists, ⟨hroom.records.head,
    hroom.records.tail, hroom.records.wait, hroom.records.reports, hroom.records.released⟩⟩,
    hinv.extend hk hle hbit, hmake⟩
  · show (st₁.freeZone + baseSize * k) / baseSize = st.zone + k
    rw [hzone₂, hzone]
  · have hgap' : IsGap (fill st₁.bit st₁.zone k true) (st₁.zone + k) a n := by
      rw [← hzone₂]
      exact hbit ▸ hgap
    have hold := hgap'.of_extend hk
    rw [hzone] at hold
    exact hold.congr fun u hu => (hroom.bits u hu).symm

/-- How `getFreeLocation` ends. -/
inductive Locates (st : NvState) (live : List NvBlock) (waiting : List Waiting) (size : ℕ)
    (grows : Growth) : Prop
  /-- The location is the front of a gap. -/
  | hit {a n : ℕ} {mem : ℕ → BitVec 64} {lists : ℕ → List ℕ} {bitmap : ℕ → ℕ}
      (hhit : Hit st (unitsOf size) (bucketOf (unitsOf size)) a n mem lists)
      (hbit : BitArray.bit bitmap = fill st.bit a (unitsOf size) true)
      (hinv : NvInv { st with mem, freeLists := lists, bitmap }
        [⟨baseSize * a, baseSize * unitsOf size⟩] live waiting)
      (hloop : (Prog.loop (findBody (actualSizeOf size)) (getBestFit size)).Returns st
        { st with mem, freeLists := lists } (some (baseSize * a)))
      (hret : (getFreeLocation size grows).Returns st { st with mem, freeLists := lists, bitmap }
        (some (baseSize * a), baseSize * unitsOf size))
  /-- The location is the start of the free zone. -/
  | extended {st' : NvState} {lists : ℕ → List ℕ}
      (hmiss : Miss st (unitsOf size) (bucketOf (unitsOf size)) lists)
      (hext : Extended st st' lists (unitsOf size))
      (hinv : NvInv st' [⟨baseSize * st.zone, baseSize * unitsOf size⟩] live waiting)
      (hret : (getFreeLocation size grows).Returns st st'
        (some (baseSize * st.zone), baseSize * unitsOf size))
  /-- There is no more memory. -/
  | full {lists : ℕ → List ℕ} (hmiss : Miss st (unitsOf size) (bucketOf (unitsOf size)) lists)
      (hinv : NvInv { st with freeLists := lists } [] live waiting)
      (hret : (getFreeLocation size grows).Returns st { st with freeLists := lists }
        (none, baseSize * unitsOf size))
  /-- The number of pages is never found, or there is no memory for the bitmap. -/
  | diverges {lists : ℕ → List ℕ} (hmiss : Miss st (unitsOf size) (bucketOf (unitsOf size)) lists)
      (hloop : (Prog.loop (findBody (actualSizeOf size)) (getBestFit size)).Returns st
        { st with freeLists := lists } none)
      (hnever : ∀ st' r, ¬ (orFreeZone (actualSizeOf size) grows none).Returns
        { st with freeLists := lists } st' r)

/-! ## `getFreeLocation` -/

/-- The bits of what has been found are set. -/
theorem returns_getFreeLocation {st₁ st₂ st' : NvState} {found : Option ℕ} {location : ℕ}
    (hsearch : (Prog.loop (findBody (actualSizeOf size)) (getBestFit size)).Returns st st₁ found)
    (hzone : (orFreeZone (actualSizeOf size) grows found).Returns st₁ st₂ (some location))
    (hmake : (makeOne location (actualSizeOf size / baseSize)).Returns st₂ st' ()) :
    (getFreeLocation size grows).Returns st st' (some location, actualSizeOf size) :=
  hsearch.bind (hzone.bind (hmake.bind (Prog.returns_pure _ _)))

/-- Nothing has been found. -/
theorem returns_getFreeLocation_none {st₁ st₂ : NvState}
    (hsearch : (Prog.loop (findBody (actualSizeOf size)) (getBestFit size)).Returns st st₁ none)
    (hzone : (orFreeZone (actualSizeOf size) grows none).Returns st₁ st₂ none) :
    (getFreeLocation size grows).Returns st st₂ (none, actualSizeOf size) :=
  hsearch.bind (hzone.bind (Prog.returns_pure _ _))

/-- The search in the lists. -/
theorem NvInv.ends (h : NvInv st [] live waiting) (hpos : 0 < size) :
    Ends st (unitsOf size) (bucketOf (unitsOf size)) (bucketOf (unitsOf size)) st.freeLists :=
  h.shape.search_ends h.tiled (unitsOf_pos hpos) le_rfl (Searched.refl st _ _)
    fun j h₁ h₂ => by omega

/-- It is the loop of `getFreeLocation`. -/
theorem search_eq (hpos : 0 < size) (hle : size ≤ 2 ^ 32 - baseSize) :
    Prog.loop (findBody (actualSizeOf size)) (getBestFit size) =
      Prog.loop (findBody (baseSize * unitsOf size)) (bucketOf (unitsOf size) : ℤ) := by
  rw [actualSizeOf_eq hpos hle, getBestFit_eq hpos]

/-- The front of a gap is reserved. -/
theorem NvInv.returns_getFreeLocation_hit {a n : ℕ} {mem : ℕ → BitVec 64} {lists : ℕ → List ℕ}
    (h : NvInv st [] live waiting) (hpos : 0 < size) (hle : size ≤ 2 ^ 32 - baseSize)
    (hhit : Hit st (unitsOf size) (bucketOf (unitsOf size)) a n mem lists)
    (hsearch : (Prog.loop (findBody (actualSizeOf size)) (getBestFit size)).Returns st
      { st with mem, freeLists := lists } (some (baseSize * a))) :
    ∃ bitmap, BitArray.bit bitmap = fill st.bit a (unitsOf size) true ∧
      NvInv { st with mem, freeLists := lists, bitmap } [⟨baseSize * a, baseSize * unitsOf size⟩]
        live waiting ∧
      ∀ grows, (getFreeLocation size grows).Returns st { st with mem, freeLists := lists, bitmap }
        (some (baseSize * a), baseSize * unitsOf size) := by
  have hk := unitsOf_pos hpos
  have hgap := hhit.isGap hk
  have hend := hgap.le
  have hzone := h.shape.zone_le
  have hkn := hhit.le
  have hactual : actualSizeOf size = baseSize * unitsOf size := actualSizeOf_eq hpos hle
  have hlt : st.bitmapSize < 2 ^ 32 := h.shape.bitmapSize_lt.trans (by decide)
  let st₁ : NvState := { st with mem, freeLists := lists }
  have hle₁ : a + unitsOf size ≤ 8 * st₁.bitmapSize := by
    show a + unitsOf size ≤ 8 * st.bitmapSize
    omega
  obtain ⟨bitmap, hmake, hbit⟩ := returns_makeOne hle₁ hlt
  refine ⟨bitmap, hbit, h.of_hit hk hhit hbit, fun grows => ?_⟩
  have hfound : (orFreeZone (actualSizeOf size) grows (some (baseSize * a))).Returns st₁ st₁
      (some (baseSize * a)) := Prog.returns_pure _ _
  rw [← hactual]
  refine returns_getFreeLocation hsearch hfound ?_
  rw [hactual, unit_eq]
  exact hmake

/-- `getFreeLocation` ends in one of four ways. -/
theorem NvInv.locates (h : NvInv st [] live waiting) (hpos : 0 < size)
    (hle : size ≤ 2 ^ 32 - baseSize)
    (hgrow : grows = .granted → st.freeZone + baseSize * unitsOf size > st.endAddress →
      st.endAddress + growth (baseSize * unitsOf size) < 2 ^ 32) :
    Locates st live waiting size grows := by
  have hk := unitsOf_pos hpos
  have hactual : actualSizeOf size = baseSize * unitsOf size := actualSizeOf_eq hpos hle
  cases h.ends hpos with
  | @miss lists hmiss hloop =>
    -- no gap has been found
    rw [← search_eq hpos hle] at hloop
    have hints : ∀ i, ∀ p ∈ lists i, baseSize ∣ p := fun i p hp =>
      h.shape.hints i p (hmiss.searched.mem hp)
    have hinv : NvInv { st with freeLists := lists } [] live waiting := h.setLists hints
    rcases hinv.returns_orFreeZone hgrow with ⟨st₁, hroom, hinv₁, hzone⟩ | hnone | hnever
    · obtain ⟨st', hext, hinv', hmake⟩ := hroom.reserve hinv₁ hk
      have hsame : SameRecords st st' := ⟨hext.records.head, hext.records.tail, hext.records.wait,
        hext.records.reports, hext.records.released⟩
      refine .extended hmiss ⟨hext.zone, hext.gaps, hext.lists, hsame⟩ hinv' ?_
      rw [← hactual] at hzone ⊢
      refine returns_getFreeLocation hloop hzone ?_
      rw [hactual, unit_eq]
      exact hmake
    · refine .full hmiss hinv ?_
      rw [← hactual] at hnone ⊢
      exact returns_getFreeLocation_none hloop hnone
    · rw [← hactual] at hnever
      exact .diverges hmiss hloop hnever
  | @hit a n mem lists hhit hloop =>
    -- the front of a gap
    rw [← search_eq hpos hle] at hloop
    obtain ⟨bitmap, hbit, hinv, hret⟩ := h.returns_getFreeLocation_hit hpos hle hhit hloop
    exact .hit hhit hbit hinv hloop (hret grows)

end

end Zalloc
