import Zalloc.Nvmalloc.Search

/-!
# `getFreeLocation`

The location is the front of a gap, if the search has found one. Otherwise it is the start of the
free zone, behind which the arena may have to grow. Then the bits of the location are set.

## Main definitions

* `growth size`: how much more memory is asked for.

## Main results

* `NvInv.of_hit`, `NvInv.extend`: the invariant with the new block in transit.
* `NvInv.grow`: the invariant of the larger arena.
* `returns_newPages`, `not_returns_newPages`: whether `getMoreMemory` returns.
-/

set_option autoImplicit false

open BitArray

namespace Zalloc

section Hit

variable {st : NvState} {live : List NvBlock} {waiting : List Waiting} {a first i k n p : ℕ}
  {mem : ℕ → BitVec 64} {bitmap : ℕ → ℕ} {lists : ℕ → List ℕ}

/-- A position is appended to a list. -/
theorem mem_update_append {j q r : ℕ} (hr : r ∈ Function.update lists j (lists j ++ [q]) i) :
    r ∈ lists i ∨ r = q := by
  by_cases hi : i = j
  · subst hi
    rw [Function.update_self] at hr
    exact (List.mem_append.1 hr).imp_right List.mem_singleton.1
  · rw [Function.update_of_ne hi] at hr
    exact .inl hr

theorem mem_update_of_mem {j q r : ℕ} (hr : r ∈ lists i) :
    r ∈ Function.update lists j (lists j ++ [q]) i := by
  by_cases hi : i = j
  · subst hi
    rw [Function.update_self]
    exact List.mem_append_left _ hr
  · rwa [Function.update_of_ne hi]

/-- The hints after the rest of a gap has been given one. -/
theorem mem_withRest (hp : p ∈ withRest lists a n k i) :
    p ∈ lists i ∨ k < n ∧ i = bucketOf (n - k) ∧ p = baseSize * (a + k) := by
  unfold withRest at hp
  split_ifs at hp with hk
  · by_cases hi : i = bucketOf (n - k)
    · subst hi
      rw [Function.update_self] at hp
      rcases List.mem_append.1 hp with hp | hp
      · exact .inl hp
      · exact .inr ⟨hk, rfl, List.mem_singleton.1 hp⟩
    · rw [Function.update_of_ne hi] at hp
      exact .inl hp
  · exact .inl hp

theorem mem_withRest_of_mem (hp : p ∈ lists i) : p ∈ withRest lists a n k i := by
  unfold withRest
  split_ifs
  · exact mem_update_of_mem hp
  · exact hp

/-- The rest of a gap has a hint. -/
theorem rest_mem_withRest (hkn : k < n) :
    baseSize * (a + k) ∈ withRest lists a n k (bucketOf (n - k)) := by
  rw [withRest, if_pos hkn, Function.update_self]
  exact List.mem_append_right _ (List.mem_singleton_self _)

/-- The hints after a successful search are those from before, and the one for the rest. -/
theorem Hit.mem_lists (h : Hit st k first a n mem lists) (hp : p ∈ lists i) :
    p ∈ st.freeLists i ∨ k < n ∧ i = bucketOf (n - k) ∧ p = baseSize * (a + k) := by
  obtain ⟨lists', j, q, l, hs, -, -, hl, -, rfl⟩ := h.found
  rcases mem_withRest hp with hp | hnew
  · left
    by_cases hi : i = j
    · subst hi
      rw [Function.update_self] at hp
      refine hs.mem ?_
      rw [hl]
      exact List.mem_cons_of_mem _ hp
    · rw [Function.update_of_ne hi] at hp
      exact hs.mem hp
  · exact .inr hnew

/-- What has been found is a gap. -/
theorem Hit.isGap (h : Hit st k first a n mem lists) (hk : 0 < k) : IsGap st.bit st.zone a n := by
  obtain ⟨lists', j, q, l, -, -, -, -, hfound, -⟩ := h.found
  have hle := h.le
  exact (hfound.gap (by omega)).1

/-- The header of the rest is not in a block. -/
theorem Hit.ne_word (h : Hit st k first a n mem lists) (hk : 0 < k)
    (hinv : NvInv st [] live waiting) {b : NvBlock}
    (hb : b ∈ [] ++ (live ++ waiting.map Waiting.toNvBlock)) {r : ℕ} (hr : r < baseSize) :
    k = n ∨ b.location + r ≠ baseSize * (a + k) := by
  have hgap := h.isGap hk
  have hle := h.le
  by_cases hkn : k = n
  · exact .inl hkn
  · right
    intro heq
    have hsize := hinv.occupied.baseSize_le hb
    have hcov : b.Covers (a + k) := ⟨by omega, by omega⟩
    have hset := hinv.occupied.bit_of_covers hinv.shape hb hcov
    rw [hgap.clear (a + k) (by omega) (by omega)] at hset
    cases hset

/-- The front of the gap is reserved. -/
theorem NvInv.of_hit (h : NvInv st [] live waiting) (hk : 0 < k)
    (hhit : Hit st k first a n mem lists) (hbit : BitArray.bit bitmap = fill st.bit a k true) :
    NvInv { st with mem, freeLists := lists, bitmap } [⟨baseSize * a, baseSize * k⟩] live
      waiting := by
  have hgap := hhit.isGap hk
  have hkn := hhit.le
  have hle := hgap.le
  have hshape : NvShape { st with mem, freeLists := lists, bitmap } := by
    refine ⟨h.shape.freeZone, h.shape.zone_le, h.shape.endAddress, h.shape.bitmapSize_lt,
      fun i p hp => ?_⟩
    rcases hhit.mem_lists hp with hp | ⟨-, -, rfl⟩
    · exact h.shape.hints i p hp
    · exact Nat.dvd_mul_right ..
  refine ⟨hshape, ?_, fun b m hb => ?_, fun b hb => ?_, fun w hw => ?_,
    h.queue.congr rfl rfl fun w hw => ?_⟩
  · refine h.occupied.reserve h.shape hshape hk (fun v h₁ h₂ => hgap.clear v h₁ (by omega)) hbit rfl
      ?_
    show st.zone = max st.zone (a + k)
    omega
  · -- another gap is not touched, and the rest has its own headers
    have hb' : IsGap (fill st.bit a k true) st.zone b m := by
      rw [← hbit]
      exact hb
    rcases hgap.of_fill hk hkn hb' with ⟨hold, hfar⟩ | ⟨rfl, hrest⟩
    · refine (h.tiled b m hold).congr fun u t hu hlt htile => ?_
      show (mem (baseSize * u)).toInt = _
      rw [hhit.keeps (baseSize * u) (.inr fun heq => ?_)]
      · exact htile
      · simp only [baseSize] at heq
        omega
    · rw [show a + k + m = a + n by omega]
      exact hhit.tiled
  · show (mem b.location).toInt = _
    rw [hhit.keeps b.location (hhit.ne_word hk h (NvInv.mem_live hb) (r := 0) (by decide))]
    exact h.liveHeader b hb
  · have hword : ∀ r < baseSize, mem (w.location + r) = st.mem (w.location + r) := fun r hr =>
      hhit.keeps _ (hhit.ne_word hk h (NvInv.mem_waiting hw) hr)
    show (mem (w.location + 0)).toInt = _ ∧ (mem (w.location + 24)).toNat = _
    rw [hword 0 (by decide), hword 24 (by decide)]
    exact h.waitingHeader w hw
  · exact hhit.keeps _ (hhit.ne_word hk h (NvInv.mem_waiting hw) (r := 8) (by decide))

end Hit

/-! ## The free zone -/

section Zone

variable {st : NvState} {live : List NvBlock} {waiting : List Waiting} {k size newPages : ℕ}
  {bitmap : ℕ → ℕ} {lists : ℕ → List ℕ}

/-- The hints are replaced by other ones. -/
theorem NvInv.setLists {transit : List NvBlock} (h : NvInv st transit live waiting)
    (hints : ∀ i, ∀ p ∈ lists i, baseSize ∣ p) :
    NvInv { st with freeLists := lists } transit live waiting :=
  h.congr rfl rfl rfl rfl rfl hints rfl rfl

/-- The start of the free zone is reserved. -/
theorem NvInv.extend (h : NvInv st [] live waiting) (hk : 0 < k)
    (hroom : st.zone + k ≤ 8 * st.bitmapSize)
    (hbit : BitArray.bit bitmap = fill st.bit st.zone k true) :
    NvInv { st with freeZone := st.freeZone + baseSize * k, bitmap }
      [⟨baseSize * st.zone, baseSize * k⟩] live waiting := by
  have hzone : NvState.zone { st with freeZone := st.freeZone + baseSize * k, bitmap } =
      st.zone + k := by
    show (st.freeZone + baseSize * k) / baseSize = st.zone + k
    rw [Nat.add_mul_div_left _ _ (show 0 < baseSize by decide), NvState.zone]
  have hshape : NvShape { st with freeZone := st.freeZone + baseSize * k, bitmap } := by
    refine ⟨?_, ?_, h.shape.endAddress, h.shape.bitmapSize_lt, h.shape.hints⟩
    · rw [hzone, Nat.mul_add, ← h.shape.freeZone]
    · rw [hzone]
      exact hroom
  -- no unit behind the free zone belongs to a block
  have hclear : ∀ v, st.zone ≤ v → v < st.zone + k → st.bit v = false := by
    intro v h₁ h₂
    by_contra hset
    rw [Bool.not_eq_false, h.occupied.bits v (by omega)] at hset
    obtain ⟨b, hb, hcov⟩ := hset
    have hlt := h.occupied.lt_zone h.shape hb hcov
    omega
  refine ⟨hshape, ?_, fun b m hb => ?_, h.liveHeader, h.waitingHeader, h.queue⟩
  · refine h.occupied.reserve h.shape hshape hk hclear hbit rfl ?_
    rw [hzone]
    omega
  · have hb' : IsGap (fill st.bit st.zone k true) (st.zone + k) b m := by
      rw [← hbit, ← hzone]
      exact hb
    exact h.tiled b m (hb'.of_extend hk)

/-! ## More memory -/

/-- How much more memory is asked for. -/
def growth (size : ℕ) : ℕ := nvPageSize * max newAllocPages ((size + (nvPageSize - 1)) / nvPageSize)

/-- The loop of `getMoreMemory` finds the number of pages, if the size in bytes fits. -/
theorem returns_newPages (h : size ≤ 2 ^ 32 - nvPageSize) :
    (Prog.loop (newPagesBody size) newAllocPages).Returns st st (growth size / nvPageSize) := by
  have hpages : growth size / nvPageSize =
      max newAllocPages ((size + (nvPageSize - 1)) / nvPageSize) :=
    Nat.mul_div_cancel_left _ (by decide)
  -- the induction is on the number of pages that are missing
  have key : ∀ d i, newAllocPages ≤ i → i + d = growth size / nvPageSize →
      (Prog.loop (newPagesBody size) i).Returns st st (growth size / nvPageSize) := by
    intro d
    induction d with
    | zero =>
      intro i hi heq
      refine Prog.Returns.loop_exit ?_
      rw [hpages] at heq ⊢
      unfold newPagesBody
      rw [if_neg]
      · exact Prog.returns_pure_iff.2 ⟨rfl, by rw [← heq, Nat.add_zero]⟩
      · simp only [u32, nvPageSize, newAllocPages] at *
        omega
    | succ d ih =>
      intro i hi heq
      refine Prog.Returns.loop_next ?_ (ih (i + 1) (by omega) (by omega))
      rw [hpages] at heq
      unfold newPagesBody
      rw [if_pos, u32_eq]
      · exact Prog.returns_pure _ _
      · simp only [nvPageSize, newAllocPages] at *
        omega
      · simp only [u32, nvPageSize, newAllocPages] at *
        omega
  refine key (growth size / nvPageSize - newAllocPages) newAllocPages le_rfl ?_
  rw [hpages]
  omega

/-- Otherwise the loop never ends, since the product wraps around. -/
theorem not_returns_newPages (h : 2 ^ 32 - nvPageSize < size) {st' : NvState} {r : ℕ} :
    ¬ (Prog.loop (newPagesBody size) newAllocPages).Returns st st' r := by
  refine Prog.not_returns_loop (fun _ _ => True) (fun s i _ => ⟨s, u32 (i + 1), ?_, trivial⟩)
    trivial
  unfold newPagesBody
  rw [if_pos]
  · exact Prog.returns_pure _ _
  · simp only [u32, nvPageSize] at *
    omega

/-! ## The larger arena -/

theorem grow_endAddress (hlt : nvPageSize * newPages < 2 ^ 32) :
    (st.grow newPages).endAddress = st.endAddress + nvPageSize * newPages := by
  show st.endAddress + u32 (newPages * nvPageSize) = _
  rw [Nat.mul_comm, u32_eq hlt]

theorem grow_bitmapSize (hlt : nvPageSize * newPages < 2 ^ 32) :
    (st.grow newPages).bitmapSize = st.bitmapSize + 8 * newPages := by
  show st.bitmapSize + u32 (newPages * nvPageSize) / baseSize / 8 = _
  rw [Nat.mul_comm, u32_eq hlt]
  simp only [nvPageSize, baseSize]
  omega

/-- The bits of the old units are kept. -/
theorem grow_bit_of_lt {u : ℕ} (hu : u < 8 * st.bitmapSize) :
    (st.grow newPages).bit u = st.bit u := by
  have hbyte : (st.grow newPages).bitmap (u / 8) = st.bitmap (u / 8) := if_neg (by omega)
  show ((st.grow newPages).bitmap (u / 8)).testBit (u % 8) = _
  rw [hbyte]
  rfl

/-- The new units are free. -/
theorem grow_bit_of_le {u : ℕ} (hle : 8 * st.bitmapSize ≤ u)
    (hlt : u < 8 * (st.grow newPages).bitmapSize) : (st.grow newPages).bit u = false := by
  have hnew : u / 8 < (st.grow newPages).bitmapSize := by omega
  have hbyte : (st.grow newPages).bitmap (u / 8) = 0 := if_pos ⟨by omega, hnew⟩
  show ((st.grow newPages).bitmap (u / 8)).testBit (u % 8) = false
  rw [hbyte, Nat.zero_testBit]

/-- The old memory is kept. -/
theorem grow_mem_of_lt {x : ℕ} (hx : x < st.endAddress) :
    (st.grow newPages).mem x = st.mem x :=
  if_neg (by omega)

theorem NvShape.grow (h : NvShape st) (hend : st.endAddress + nvPageSize * newPages < 2 ^ 32) :
    NvShape (st.grow newPages) := by
  have hsize : (st.grow newPages).bitmapSize = _ := grow_bitmapSize (by omega)
  have hzone := h.zone_le
  have harena := h.endAddress
  refine ⟨h.freeZone, ?_, ?_, ?_, h.hints⟩
  · rw [hsize]
    show st.zone ≤ _
    omega
  · rw [hsize, grow_endAddress (by omega), harena]
    simp only [nvPageSize]
    omega
  · rw [harena] at hend
    rw [hsize]
    simp only [nvPageSize] at hend
    omega

/-- The blocks are the same. -/
theorem Occupied.grow {blocks : List NvBlock} (h : Occupied st blocks) (hshape : NvShape st) :
    Occupied (st.grow newPages) blocks := by
  have hzone := hshape.zone_le
  refine ⟨h.aligned, h.pos, h.inside, h.apart, fun u hu => ?_, ?_⟩
  · by_cases hold : u < 8 * st.bitmapSize
    · rw [grow_bit_of_lt hold]
      exact h.bits u hold
    · rw [grow_bit_of_le (by omega) hu]
      refine ⟨fun hno => absurd hno Bool.false_ne_true, ?_⟩
      rintro ⟨b, hb, hcov⟩
      have hlt := h.lt_zone hshape hb hcov
      omega
  · by_cases hz : st.zone = 0
    · exact .inl hz
    · right
      show (st.grow newPages).bit (st.zone - 1) = true
      rw [grow_bit_of_lt (by omega)]
      exact h.top.resolve_left hz

/-- The arena becomes larger. -/
theorem NvInv.grow (h : NvInv st [] live waiting)
    (hend : st.endAddress + nvPageSize * newPages < 2 ^ 32) :
    NvInv (st.grow newPages) [] live waiting := by
  have hzone := h.shape.zone_le
  have harena := h.shape.endAddress
  have hblock : ∀ b ∈ [] ++ (live ++ waiting.map Waiting.toNvBlock), ∀ r < baseSize,
      (st.grow newPages).mem (b.location + r) = st.mem (b.location + r) := by
    intro b hb r hr
    obtain ⟨hsize, hle, -⟩ := h.bounds hb
    simp only [baseSize] at hr
    exact grow_mem_of_lt (by omega)
  have hstart : ∀ b ∈ [] ++ (live ++ waiting.map Waiting.toNvBlock),
      (st.grow newPages).mem b.location = st.mem b.location := fun b hb =>
    hblock b hb 0 (by decide)
  refine ⟨h.shape.grow hend, h.occupied.grow h.shape, fun a n hgap => ?_, fun b hb => ?_,
    fun w hw => ?_, h.queue.congr rfl rfl fun w hw => hblock _ (NvInv.mem_waiting hw) 8 (by decide)⟩
  · have hgap' : IsGap st.bit st.zone a n :=
      hgap.congr fun u (hu : u < st.zone) => (grow_bit_of_lt (by omega)).symm
    refine (h.tiled a n hgap').congr fun u m hu hlt htile => ?_
    have hle := hgap'.le
    have hword : (st.grow newPages).mem (baseSize * u) = st.mem (baseSize * u) := by
      refine grow_mem_of_lt ?_
      rw [harena]
      simp only [baseSize]
      omega
    rw [FreeTile, hword]
    exact htile
  · rw [LiveHeader, hstart b (NvInv.mem_live hb)]
    exact h.liveHeader b hb
  · rw [WaitingHeader, hstart _ (NvInv.mem_waiting hw),
      hblock _ (NvInv.mem_waiting hw) 24 (by decide)]
    exact h.waitingHeader w hw

end Zone

end Zalloc
