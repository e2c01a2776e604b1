import Zalloc.Nvmalloc.Hints
import Zalloc.Nvmalloc.Marks

/-!
# Requests of any size

`nv_malloc` takes a `size_t`, which `nvmalloc` reduces to 32 bits, adds the header to, rounds up to
units, and turns into the number of a list. When the arena has to grow, the number of pages is found
by a loop with a product of 32 bits. A size that does not fit may lead to a block that is too small,
to a block without units, to the list with the number `-1`, or to a loop that never ends.

## Main definitions

* `reducedUnits size`: the number of units for a request, after the reduction.
* `NvMallocCorrect st size grows now`: the call returns `NULL` or a block that is large enough.
* `NvMallocFits st size grows`: none of the steps goes wrong.

## Main results

* `nvMallocCorrect_iff`: in every run a call is correct exactly if none of the steps goes wrong.
* `not_nvMallocCorrect`: sizes for which the call is not correct.
-/

set_option autoImplicit false

open BitArray

namespace Zalloc

/-- The number of units that `nv_malloc` looks for. -/
def reducedUnits (size : ℕ) : ℕ := unitsOf (u32 (size + 8))

/-- The call returns. It returns `NULL`, or a block of units that have not been marked before and
are marked now, with room for the header and the request. -/
def NvMallocCorrect (st : NvState) (size : ℕ) (grows : Growth) (now : ℕ) : Prop :=
  ∃ st' r, (nvMalloc size grows now).Returns st st' r ∧ ∀ addr, r = some addr →
    ∃ u n, addr = baseSize * u + 8 ∧ size + 8 ≤ baseSize * n ∧
      ∀ v, u ≤ v → v < u + n → ¬ Marked st v ∧ Marked st' v

/-- The request is one for which none of the steps goes wrong. -/
structure NvMallocFits (st : NvState) (size : ℕ) (grows : Growth) : Prop where
  /-- The size with the header does not become zero. -/
  pos : 0 < u32 (size + 8)
  /-- It does not become zero when it is rounded up. -/
  le : u32 (size + 8) ≤ 2 ^ 32 - baseSize
  /-- The loop for the number of pages ends, if there is one. -/
  pages : Available st (reducedUnits size) ∨ baseSize * reducedUnits size ≤ 2 ^ 32 - nvPageSize
  /-- There is memory for the bitmap, if the arena has to grow. -/
  bitmap : Available st (reducedUnits size) ∨ grows ≠ .noBitmap
  /-- The size fits in 32 bits, or nothing is handed out. -/
  fits : size + 8 < 2 ^ 32 ∨ ¬ Available st (reducedUnits size) ∧ grows = .refused

/-- The free zone and the end of the arena are the same. -/
def SameZone (st st' : NvState) : Prop :=
  st'.freeZone = st.freeZone ∧ st'.endAddress = st.endAddress

instance : IsPreorder NvState SameZone where
  refl _ := ⟨rfl, rfl⟩
  trans _ _ _ h₁ h₂ := ⟨h₂.1.trans h₁.1, h₂.2.trans h₁.2⟩

section

variable {st st' : NvState} {live : List NvBlock} {waiting : List Waiting} {k n now size u : ℕ}
  {grows : Growth} {lists : ℕ → List ℕ} {nrPages freeWait : ℕ} {c : NvConfig}

theorem sameZone_of_searchWrite (h : SearchWrite st st') : SameZone st st' := by
  cases h with
  | lists => exact ⟨rfl, rfl⟩
  | report => exact ⟨rfl, rfl⟩
  | header => exact ⟨rfl, rfl⟩

/-- The header is added to what has been reduced already. -/
theorem u32_u32_add : u32 (u32 size + 8) = u32 (size + 8) := by
  simp only [u32]
  omega

/-! ## Sizes that become zero -/

/-- There is no list with the number `-1`. -/
theorem not_returns_getFreeLocation_zero {r : Option ℕ × ℕ} :
    ¬ (getFreeLocation 0 grows).Returns st st' r := by
  intro h
  obtain ⟨s, found, hsearch, -⟩ := Prog.returns_bind_iff.1 h
  have hindex : getBestFit 0 = -1 := by decide
  have hbody : ∀ s r, ¬ (findBody (actualSizeOf 0) (-1)).Returns st s r := by
    intro s r hret
    unfold findBody at hret
    rw [if_pos (by decide)] at hret
    obtain ⟨_, l, hlist, -⟩ := Prog.returns_bind_iff.1 hret
    obtain ⟨_, _, hrequire, -⟩ := Prog.returns_bind_iff.1 hlist
    have hno := (Prog.returns_require_iff.1 hrequire).1.1
    omega
  rw [hindex] at hsearch
  rcases Prog.returns_loop_iff.1 hsearch with ⟨s₁, i, hret, -⟩ | hret
  · exact hbody s₁ _ hret
  · exact hbody s _ hret

/-- A size that is too large is rounded up to zero. -/
theorem actualSizeOf_eq_zero (h : 2 ^ 32 - baseSize < size) (hlt : size < 2 ^ 32) :
    actualSizeOf size = 0 := by
  have hround : size &&& (u32Max ^^^ baseSizeMask) = size / 64 * 64 :=
    BitMask.and_not_low (w := 32) (k := 6) hlt (by decide)
  simp only [baseSize] at h
  have hindex : getBestFit size = nrSizes :=
    if_pos (by rw [nrSizes_eq]; simp only [baseSize]; omega)
  unfold actualSizeOf
  dsimp only
  rw [hindex, if_neg (lt_irrefl _), and_baseSizeMask, if_pos (by omega), hround]
  simp only [baseSize, u32]
  omega

/-- Then a location is returned, but no unit is marked. -/
theorem NvShape.location_of_zero (h : NvShape st) (hzero : actualSizeOf size = 0)
    {r : Option ℕ × ℕ} (hret : (getFreeLocation size grows).Returns st st' r) :
    NoMark st st' ∧ ∃ location, r = (some location, 0) := by
  obtain ⟨s₁, found, hsearch, hret⟩ := Prog.returns_bind_iff.1 hret
  obtain ⟨s₂, freeLocation, hzone, hret⟩ := Prog.returns_bind_iff.1 hret
  have hmark₁ : NoMark st s₁ := (grows_find fun _ _ => noMark_of_searchWrite).returns hsearch
  have hmark₂ : NoMark s₁ s₂ := (grows_orFreeZone fun _ _ => noMark_of_zoneWrite).returns hzone
  have hlocation : ∃ location, freeLocation = some location := by
    cases found with
    | some location => exact ⟨location, (Prog.returns_pure_iff.1 hzone).2⟩
    | none =>
      -- for no bytes there is room
      obtain ⟨hfree, hend⟩ : SameZone st s₁ :=
        (grows_find fun _ _ => sameZone_of_searchWrite).returns hsearch
      have hshape := h.freeZone
      have hle := h.zone_le
      have harena := h.endAddress
      have hroom : s₁.freeZone + 0 ≤ s₁.endAddress := by
        rw [hfree, hend, hshape, harena]
        simp only [baseSize]
        omega
      rw [hzero] at hzone
      exact ⟨_, (Prog.returns_unique hzone (returns_orFreeZone_room hroom)).2⟩
  obtain ⟨location, rfl⟩ := hlocation
  dsimp only at hret
  rw [hzero] at hret
  obtain ⟨s₃, ⟨⟩, hmake, hret⟩ := Prog.returns_bind_iff.1 hret
  obtain ⟨rfl, -⟩ := Prog.returns_pure_iff.1 hmake
  obtain ⟨rfl, rfl⟩ := Prog.returns_pure_iff.1 hret
  exact ⟨fun v hv => hmark₁ v (hmark₂ v hv), location, rfl⟩

/-- So the call is not correct. -/
theorem NvShape.not_correct_of_zero (h : NvShape st) (hle : 2 ^ 32 - baseSize < u32 (size + 8)) :
    ¬ NvMallocCorrect st size grows now := by
  rintro ⟨st', r, hret, hcorrect⟩
  have hzero : actualSizeOf (u32 (u32 size + 8)) = 0 := by
    rw [u32_u32_add]
    exact actualSizeOf_eq_zero hle (Nat.mod_lt _ (by decide))
  obtain ⟨s₁, r₁, hlocate, hret⟩ := Prog.returns_bind_iff.1 hret
  obtain ⟨hmark, location, rfl⟩ := h.location_of_zero hzero hlocate
  obtain ⟨s₂, ⟨⟩, hwrite, hret⟩ := Prog.returns_bind_iff.1 hret
  obtain ⟨s₃, ⟨⟩, htime, hret⟩ := Prog.returns_bind_iff.1 hret
  obtain ⟨rfl, rfl⟩ := Prog.returns_pure_iff.1 hret
  have hheader : NoMark s₁ s₂ := (grows_setWord fun st v hv => hv).returns hwrite
  obtain ⟨u, n, -, hsize, hunits⟩ := hcorrect _ rfl
  simp only [baseSize] at hsize
  obtain ⟨hfresh, hmarked⟩ := hunits u le_rfl (by omega)
  exact hfresh (hmark u (hheader u (noMark_incrementTime htime u hmarked)))

/-! ## The cases of a call -/

/-- The call hands out a block of `k` units. -/
def Serves (st : NvState) (size : ℕ) (grows : Growth) (now k : ℕ) : Prop :=
  ∃ st' u, NewBlock st st' u k ∧ (nvMalloc size grows now).Returns st st' (some (baseSize * u + 8))

/-- It is correct if the block is large enough. -/
theorem Serves.correct_iff (h : Serves st size grows now k) :
    NvMallocCorrect st size grows now ↔ size + 8 ≤ baseSize * k := by
  obtain ⟨st', u, hnew, hret⟩ := h
  constructor
  · rintro ⟨s, r, hret', hcorrect⟩
    obtain ⟨rfl, rfl⟩ := Prog.returns_unique hret hret'
    obtain ⟨u', n, haddr, hsize, hunits⟩ := hcorrect _ rfl
    simp only [baseSize] at haddr hsize ⊢
    obtain rfl : u' = u := by omega
    by_contra hlt
    -- the unit behind the block has not been marked
    obtain ⟨hfresh, hmarked⟩ := hunits (u' + k) (by omega) (by omega)
    rcases hnew.only _ hmarked with hold | hin
    · exact hfresh hold
    · omega
  · intro hsize
    refine ⟨st', _, hret, fun addr haddr => ⟨u, k, ?_, hsize, fun v h₁ h₂ => ?_⟩⟩
    · exact (Option.some.inj haddr).symm
    · exact ⟨hnew.fresh v h₁ h₂, hnew.marked v h₁ h₂⟩

/-- The block holds the request if the size has not been reduced. -/
theorem le_reducedUnits_iff (hle : u32 (size + 8) ≤ 2 ^ 32 - baseSize) :
    size + 8 ≤ baseSize * reducedUnits size ↔ size + 8 < 2 ^ 32 := by
  simp only [reducedUnits, unitsOf, baseSizeMask, baseSize, u32] at hle ⊢
  omega

section Cases

variable (h : NvInv st [] live waiting) (hpos : 0 < u32 (size + 8))
  (hle : u32 (size + 8) ≤ 2 ^ 32 - baseSize)
include h hpos hle

/-- A gap is found through a hint. -/
theorem NvInv.serves_of_hint (hint : HasHint st (reducedUnits size)) :
    Serves st size grows now (reducedUnits size) := by
  rw [reducedUnits, ← u32_u32_add] at *
  cases h.ends hpos with
  | miss hmiss _ =>
    obtain ⟨j, p, a, n, hfirst, hj, hp, hleads, hkn⟩ := hint
    have hlt := hmiss.lt_of_leads hfirst hj hp hleads
    omega
  | @hit a n mem lists hhit hloop =>
    rw [← search_eq hpos hle] at hloop
    obtain ⟨bitmap, -, hinv, hlocate⟩ := h.returns_getFreeLocation_hit hpos hle hhit hloop
    obtain ⟨mem', st', waiting', -, -, hinv', htime, hret⟩ := hinv.hands_out (hlocate grows) now
    exact ⟨st', a, (h.newBlock hinv).tick (fun v hv => noMark_incrementTime htime v hv)
      fun v h₁ h₂ => hinv'.marked h₁ h₂, hret⟩

/-- No gap is found. -/
theorem NvInv.returns_search_none (hint : ¬ HasHint st (reducedUnits size)) :
    ∃ lists, (nvSearch (u32 size)).Returns st { st with freeLists := lists } none := by
  rw [reducedUnits, ← u32_u32_add] at *
  rw [nvSearch, search_eq hpos hle]
  cases h.ends hpos with
  | miss _ hloop => exact ⟨_, hloop⟩
  | hit hhit _ =>
    obtain ⟨j, p, hfirst, hj, hp, hleads⟩ := hhit.exists_hint (unitsOf_pos hpos)
    exact absurd ⟨j, p, _, _, hfirst, hj, hp, hleads, hhit.le⟩ hint

/-- The free zone has room for the units, perhaps after the arena has become larger. -/
theorem NvInv.serves_of_larger {t : NvState}
    (hsearch : (nvSearch (u32 size)).Returns st { st with freeLists := lists } none)
    (ht : Larger st t) (hroom : st.zone + reducedUnits size ≤ 8 * t.bitmapSize)
    (hzone : (orFreeZone (baseSize * reducedUnits size) grows none).Returns
      { st with freeLists := lists }
      { t with freeZone := t.freeZone + baseSize * reducedUnits size }
      (some (baseSize * st.zone))) :
    Serves st size grows now (reducedUnits size) := by
  rw [reducedUnits, ← u32_u32_add] at *
  have hactual := actualSizeOf_eq hpos hle
  obtain ⟨s, hbehind, hmake⟩ := ht.reserve h hroom
  have hlocate : (getFreeLocation (u32 (u32 size + 8)) grows).Returns st s
      (some (baseSize * st.zone), baseSize * unitsOf (u32 (u32 size + 8))) := by
    rw [← hactual] at hzone ⊢
    refine returns_getFreeLocation hsearch hzone ?_
    rw [hactual, unit_eq]
    exact hmake
  obtain ⟨st', hnew, hret⟩ := hbehind.hands_out (unitsOf_pos hpos) h hlocate now
  exact ⟨st', st.zone, hnew, hret⟩

/-- The arena has room. -/
theorem NvInv.serves_of_room
    (hsearch : (nvSearch (u32 size)).Returns st { st with freeLists := lists } none)
    (hroom : st.freeZone + baseSize * reducedUnits size ≤ st.endAddress) :
    Serves st size grows now (reducedUnits size) := by
  have harena := h.shape.endAddress
  have hzone := h.shape.freeZone
  let st₁ : NvState := { st with freeLists := lists }
  have hroom₁ : st₁.freeZone + baseSize * reducedUnits size ≤ st₁.endAddress := hroom
  refine h.serves_of_larger hpos hle hsearch (h.shape.larger lists) ?_ ?_
  · show st.zone + reducedUnits size ≤ 8 * st.bitmapSize
    simp only [baseSize] at hroom hzone
    omega
  · rw [← hzone]
    exact returns_orFreeZone_room hroom₁

/-- The arena grows. -/
theorem NvInv.serves_of_grow
    (hsearch : (nvSearch (u32 size)).Returns st { st with freeLists := lists } none)
    (hfull : st.endAddress < st.freeZone + baseSize * reducedUnits size)
    (hpages : baseSize * reducedUnits size ≤ 2 ^ 32 - nvPageSize) :
    Serves st size .granted now (reducedUnits size) := by
  have hzone := h.shape.freeZone
  have hlarge : baseSize * reducedUnits size ≤ growth (baseSize * reducedUnits size) := le_growth
  have hbytes : nvPageSize * (growth (baseSize * reducedUnits size) / nvPageSize) =
      growth (baseSize * reducedUnits size) := Nat.mul_div_cancel' (Nat.dvd_mul_right ..)
  have hlt : nvPageSize * (growth (baseSize * reducedUnits size) / nvPageSize) < 2 ^ 32 := by
    rw [hbytes]
    simp only [growth, nvPageSize, newAllocPages] at hpages ⊢
    omega
  let st₁ : NvState := { st with freeLists := lists }
  have hfull₁ : st₁.endAddress < st₁.freeZone + baseSize * reducedUnits size := hfull
  let t : NvState := st₁.grow (growth (baseSize * reducedUnits size) / nvPageSize)
  have ht : Larger st t := h.shape.larger_grow lists hlt
  have hend : t.endAddress = st.endAddress + growth (baseSize * reducedUnits size) := by
    have hgrow : t.endAddress = st₁.endAddress + _ := grow_endAddress hlt
    rwa [hbytes] at hgrow
  refine h.serves_of_larger hpos hle hsearch ht ?_ ?_
  · -- the arena grows by what is asked for at least
    have hin := h.shape.zone_le
    have harena := h.shape.endAddress
    have hlast : st.freeZone + baseSize * reducedUnits size ≤ t.endAddress := by
      simp only [baseSize] at hzone hlarge hend ⊢
      omega
    rw [hzone, ht.endAddress] at hlast
    simp only [baseSize] at hlast
    omega
  · rw [← hzone]
    exact returns_orFreeZone_grow hfull₁ hpages

end Cases

section Full

variable (hpos : 0 < u32 (size + 8)) (hle : u32 (size + 8) ≤ 2 ^ 32 - baseSize)
include hpos hle

/-- There is no more memory. -/
theorem returns_nvMalloc_null
    (hsearch : (nvSearch (u32 size)).Returns st { st with freeLists := lists } none)
    (hfull : st.endAddress < st.freeZone + baseSize * reducedUnits size)
    (hpages : baseSize * reducedUnits size ≤ 2 ^ 32 - nvPageSize) :
    (nvMalloc size .refused now).Returns st { st with freeLists := lists } none := by
  rw [reducedUnits, ← u32_u32_add] at *
  have hactual := actualSizeOf_eq hpos hle
  rw [← hactual] at hfull hpages
  let st₁ : NvState := { st with freeLists := lists }
  have hfull₁ : st₁.endAddress < st₁.freeZone + actualSizeOf (u32 (u32 size + 8)) := hfull
  have hzone := returns_orFreeZone_none hfull₁ hpages
  exact (returns_getFreeLocation_none hsearch hzone).bind (Prog.returns_pure _ _)

/-- The arena has to grow, and `getMoreMemory` does not return. -/
theorem not_returns_nvMalloc
    (hsearch : (nvSearch (u32 size)).Returns st { st with freeLists := lists } none)
    (hfull : st.endAddress < st.freeZone + baseSize * reducedUnits size)
    (hnever : ∀ s s' r, ¬ (getMoreMemory (baseSize * reducedUnits size) grows).Returns s s' r)
    {r : Option ℕ} : ¬ (nvMalloc size grows now).Returns st st' r := by
  rw [reducedUnits, ← u32_u32_add] at *
  have hactual := actualSizeOf_eq hpos hle
  rw [← hactual] at hfull hnever
  let st₁ : NvState := { st with freeLists := lists }
  have hfull₁ : st₁.endAddress < st₁.freeZone + actualSizeOf (u32 (u32 size + 8)) := hfull
  exact not_returns_nvmalloc hsearch fun _ _ => not_returns_orFreeZone hfull₁ (hnever _)

end Full

/-- When a call is correct. -/
theorem NvInv.correct_iff (h : NvInv st [] live waiting) (size : ℕ) (grows : Growth) (now : ℕ) :
    NvMallocCorrect st size grows now ↔ NvMallocFits st size grows := by
  by_cases hpos : 0 < u32 (size + 8)
  swap
  · -- the list `-1`
    refine ⟨?_, fun hfits => absurd hfits.pos hpos⟩
    rintro ⟨st', r, hret, -⟩
    obtain ⟨s, r₁, hlocate, -⟩ := Prog.returns_bind_iff.1 hret
    rw [u32_u32_add, Nat.eq_zero_of_not_pos hpos] at hlocate
    exact absurd hlocate not_returns_getFreeLocation_zero
  by_cases hle : u32 (size + 8) ≤ 2 ^ 32 - baseSize
  swap
  · -- no units
    exact ⟨fun hcorrect => absurd hcorrect (h.shape.not_correct_of_zero (by omega)),
      fun hfits => absurd hfits.le hle⟩
  have hexact := le_reducedUnits_iff hle
  by_cases havail : Available st (reducedUnits size)
  · -- a block of the reduced size is handed out
    have hserves : Serves st size grows now (reducedUnits size) := by
      by_cases hint : HasHint st (reducedUnits size)
      · exact h.serves_of_hint hpos hle hint
      · obtain ⟨lists, hsearch⟩ := h.returns_search_none hpos hle hint
        exact h.serves_of_room hpos hle hsearch (havail.resolve_left hint)
    rw [hserves.correct_iff, hexact]
    exact ⟨fun hlt => ⟨hpos, hle, .inl havail, .inl havail, .inl hlt⟩,
      fun hfits => hfits.fits.resolve_right fun hno => hno.1 havail⟩
  obtain ⟨hint, hfull⟩ := not_or.1 havail
  obtain ⟨lists, hsearch⟩ := h.returns_search_none hpos hle hint
  by_cases hpages : baseSize * reducedUnits size ≤ 2 ^ 32 - nvPageSize
  swap
  · -- the loop for the number of pages
    refine ⟨?_, fun hfits => absurd (hfits.pages.resolve_left havail) hpages⟩
    rintro ⟨st', r, hret, -⟩
    exact absurd hret (not_returns_nvMalloc hpos hle hsearch (by omega) fun _ _ _ =>
      not_returns_getMoreMemory (by omega))
  cases grows with
  | refused =>
    have hnull : (nvMalloc size .refused now).Returns st { st with freeLists := lists } none :=
      returns_nvMalloc_null hpos hle hsearch (by omega) hpages
    exact ⟨fun _ => ⟨hpos, hle, .inr hpages, .inr nofun, .inr ⟨havail, rfl⟩⟩,
      fun _ => ⟨_, none, hnull, fun _ hno => nomatch hno⟩⟩
  | noBitmap =>
    refine ⟨?_, fun hfits => absurd rfl (hfits.bitmap.resolve_left havail)⟩
    rintro ⟨st', r, hret, -⟩
    exact absurd hret (not_returns_nvMalloc hpos hle hsearch (by omega) fun _ _ _ =>
      not_returns_noBitmap)
  | granted =>
    rw [(h.serves_of_grow hpos hle hsearch (by omega) hpages).correct_iff, hexact]
    exact ⟨fun hlt => ⟨hpos, hle, .inr hpages, .inr nofun, .inl hlt⟩,
      fun hfits => hfits.fits.resolve_right fun hno => nomatch hno.2⟩

/-- A request of less than 4 GiB by a page is always one of these, if the bitmap can grow. -/
theorem nvMallocFits_of_le (hle : size + 8 ≤ 2 ^ 32 - nvPageSize) (hans : grows ≠ .noBitmap) :
    NvMallocFits st size grows := by
  have hsize : u32 (size + 8) = size + 8 := u32_eq (by simp only [nvPageSize] at hle; omega)
  refine ⟨by omega, ?_, .inr ?_, .inr hans, .inl (by simp only [nvPageSize] at hle; omega)⟩
  · rw [hsize]
    exact hle.trans (by decide)
  · rw [reducedUnits, hsize]
    simp only [unitsOf, baseSizeMask, baseSize, nvPageSize] at hle ⊢
    omega

/-- In every state of every run in which the sizes fit and the arena stays below 4 GiB, a call of
`nv_malloc` is correct exactly if none of the steps goes wrong, whatever the system answers. -/
theorem nvMallocCorrect_iff (hpages : nrPages * nvPageSize < 2 ^ 32) {mem : ℕ → BitVec 64}
    (h : Runs.Reach NvStep (fun c op => op.Allowed c) (nvStart nrPages freeWait mem) c) (size : ℕ)
    (grows : Growth) (now : ℕ) :
    NvMallocCorrect c.st size grows now ↔ NvMallocFits c.st size grows :=
  (reach_nvReady hpages h).inv.correct_iff size grows now

end

/-- A request in the middle of a run. -/
theorem nvMallocCorrect_firstReleased : NvMallocCorrect firstReleased.st 1000 .refused 150 :=
  (nvMallocCorrect_iff (by decide) (reach_firstReleased.mono fun _ _ hok => hok.1) 1000 .refused
    150).2 (nvMallocFits_of_le (by decide) (by decide))

/-- The allocator after `__nv_handler_init`. -/
def nvHandlerInit : NvConfig := nvStart (64 * 1024 * 1024 / 4096) 0 fun _ => 0

/-- Requests in this state: one for which the list `-1` is looked up, one that is given a block
without units, one for which the loop never ends, one for 4 GiB that is given a single unit, and one
for which the arena grows and the bitmap does not. -/
theorem not_nvMallocCorrect :
    ¬ NvMallocCorrect nvHandlerInit.st (2 ^ 32 - 8) .granted 0 ∧
    ¬ NvMallocCorrect nvHandlerInit.st (2 ^ 32 - 9) .granted 0 ∧
    ¬ NvMallocCorrect nvHandlerInit.st (2 ^ 32 - 72) .granted 0 ∧
    ¬ NvMallocCorrect nvHandlerInit.st (2 ^ 32) .granted 0 ∧
    ¬ NvMallocCorrect nvHandlerInit.st (2 ^ 27) .noBitmap 0 := by
  have hready : NvReady 0 nvHandlerInit := nvReady_start (by decide) _
  have hinv := hready.inv
  simp only [hinv.correct_iff]
  refine ⟨fun hno => ?_, fun hno => ?_, fun hno => ?_, fun hno => ?_, fun hno => ?_⟩
  · exact absurd hno.pos (by decide)
  · exact absurd hno.le (by decide)
  · -- there is neither a hint nor room
    rcases hno.pages with (⟨j, p, a, n, -, -, hp, -⟩ | hroom) | hpages
    · cases hp
    · exact absurd hroom (by decide)
    · exact absurd hpages (by decide)
  · -- there is room for one unit
    rcases hno.fits with hlt | ⟨hfull, -⟩
    · exact absurd hlt (by decide)
    · exact hfull (.inr (by decide))
  · -- there is neither a hint nor room for `2 ^ 27` bytes
    rcases hno.bitmap with (⟨j, p, a, n, -, -, hp, -⟩ | hroom) | hbitmap
    · cases hp
    · exact absurd hroom (by decide)
    · exact hbitmap rfl

/-- The number `-1` is outside the array of lists, and the 4 GiB are at the start of the arena. -/
example : ((nvMalloc (2 ^ 32 - 8) .granted 0).exec 100 nvHandlerInit.st).isAbort = true ∧
    ((nvMalloc (2 ^ 32) .granted 0).exec 100 nvHandlerInit.st).value? = some (some 8) := by
  decide

end Zalloc
