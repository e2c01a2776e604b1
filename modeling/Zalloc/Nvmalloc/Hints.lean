import Zalloc.Nvmalloc.Run

/-!
# Hints and free space

A gap is found through a hint. The search takes hints out of the lists and drops those that lead to
too few units. In the lists for a fixed size this loses nothing, since the hint of a gap that is in
the list for its size is of use to every request that looks there. The last list holds the hints of
all larger gaps: there a request drops the hint of a gap that is too small for it, and then the gap
may not have another one.

## Main definitions

* `Leads st p a n`: the hint `p` leads to the gap of `n` units at `a`.
* `Available st k`: there are `k` units that the search or the free zone can give.
* `NoSpaceLost c`: a request for which there is a gap is served from a gap.
* `GapsReached st`: a hint leads to each gap, or to a larger one.
* `NvOp.KeepsHints c op`: no gap loses its last hint in the last list.

## Main results

* `NvReady.serves_of_reached`, `NvReady.reached_of_noSpaceLost`: no free space is lost exactly if
  the gaps are reached.
* `NvReady.hinted_step`: every gap has a hint after a step that keeps the hints.
* `noSpaceLost`: no free space is lost in a run whose steps keep the hints.
* `not_noSpaceLost`: a run in which free space is lost.
-/

set_option autoImplicit false

open BitArray

namespace Zalloc

/-- The hint `p` leads to the gap of `n` units at `a`. -/
def Leads (st : NvState) (p a n : ℕ) : Prop :=
  IsGap st.bit st.zone a n ∧ baseSize * a ≤ p ∧ p ≤ baseSize * (a + n)

/-- A request for which there is a gap is served from a gap, which the search has found. -/
def NoSpaceLost (c : NvConfig) : Prop :=
  ∀ size grows now, (NvOp.malloc size grows now).Allowed c →
    (∃ a n, IsGap c.st.bit c.st.zone a n ∧ blockUnits size ≤ n) →
      ∃ a n st₁ st', IsGap c.st.bit c.st.zone a n ∧ blockUnits size ≤ n ∧
        (nvSearch size).Returns c.st st₁ (some (baseSize * a)) ∧
        (nvmalloc size grows now).Returns c.st st' (some (baseSize * a + 8)) ∧
        st'.freeZone ≤ c.st.freeZone ∧ st'.endAddress = c.st.endAddress

/-- A hint from the list for `k` units on leads to a gap of so many. -/
def HasHint (st : NvState) (k : ℕ) : Prop :=
  ∃ j p a n, bucketOf k ≤ j ∧ j ≤ nrSizes ∧ p ∈ st.freeLists j ∧ Leads st p a n ∧ k ≤ n

/-- There are `k` units without more memory. -/
def Available (st : NvState) (k : ℕ) : Prop :=
  HasHint st k ∨ st.freeZone + baseSize * k ≤ st.endAddress

/-- For each gap, a hint in the list for its size or a later one leads to a gap that is not
smaller. -/
def GapsReached (st : NvState) : Prop :=
  ∀ a n, IsGap st.bit st.zone a n → ∃ j p b m, bucketOf n ≤ j ∧ j ≤ nrSizes ∧ p ∈ st.freeLists j ∧
    Leads st p b m ∧ n ≤ m

/-- Each gap has a hint in the list for its size. -/
def Hinted (st : NvState) : Prop :=
  ∀ a n, IsGap st.bit st.zone a n → ∃ p ∈ st.freeLists (bucketOf n), Leads st p a n

/-- If a request for `k` units takes the hints `D` out of the last list and drops them, because none
of them leads to `k` units, then a hint to each gap that belongs in this list is left. -/
def KeepsHints (st : NvState) (k : ℕ) : Prop :=
  nrSizes < k → ∀ D l, st.freeLists nrSizes = D ++ l → (∀ d ∈ D, ∀ a n, Leads st d a n → n < k) →
    ∀ d ∈ D, ∀ a n, Leads st d a n → nrSizes < n → ∃ p ∈ l, Leads st p a n

/-- No gap loses its last hint in the last list. -/
def NvOp.KeepsHints (c : NvConfig) : NvOp → Prop
  | .malloc size _ _ => Zalloc.KeepsHints c.st (blockUnits size)
  | .free _ _ _ => True
  | .store _ _ => True

section

variable {st st' : NvState} {lists : ℕ → List ℕ} {a b first j k m n p : ℕ} {freeWait nrPages : ℕ}
  {c c' : NvConfig} {op : NvOp}

/-! ## What the search drops -/

/-- A hint that leads to a gap finds it. -/
theorem Found.eq_of_leads (h : Found st.bit st.zone p a n) (hleads : Leads st p b m) :
    b = a ∧ m = n :=
  h.unique b m hleads.1 hleads.2.1 hleads.2.2

/-- A hint that has been dropped does not lead to enough units. -/
theorem Searched.lt_of_leads {D : List ℕ}
    (hD : ∀ d ∈ D, first ≤ j ∧ ∃ a n, Found st.bit st.zone d a n ∧ n < k) (hp : p ∈ D)
    (hleads : Leads st p b m) : m < k := by
  obtain ⟨-, a, n, hfound, hlt⟩ := hD p hp
  rw [(hfound.eq_of_leads hleads).2]
  exact hlt

/-- When the search has failed, no hint from the list `first` on leads to enough units. -/
theorem Miss.lt_of_leads (h : Miss st k first lists) (hfirst : first ≤ j) (hj : j ≤ nrSizes)
    (hp : p ∈ st.freeLists j) (hleads : Leads st p b m) : m < k := by
  obtain ⟨D, hl, hD⟩ := h.searched j
  rw [h.empty j hfirst hj, List.append_nil] at hl
  rw [hl] at hp
  exact Searched.lt_of_leads hD hp hleads

/-- A successful search has used a hint that leads to the gap. -/
theorem Hit.exists_hint {mem : ℕ → BitVec 64} (h : Hit st k first a n mem lists) (hk : 0 < k) :
    ∃ j p, first ≤ j ∧ j ≤ nrSizes ∧ p ∈ st.freeLists j ∧ Leads st p a n := by
  obtain ⟨lists', j, p, l, hs, hfirst, hj, hl, hfound, -⟩ := h.found
  have hle := h.le
  refine ⟨j, p, hfirst, hj, hs.mem ?_, hfound.gap (by omega)⟩
  rw [hl]
  exact List.mem_cons_self ..

/-- Two gaps that belong in the same list have the same size, unless it is the last list. -/
theorem nrSizes_lt_of_bucketOf_eq (hm : 0 < m) (hmk : m < k) (heq : bucketOf k = bucketOf m) :
    nrSizes < m := by
  have hlt : ¬ bucketOf m < nrSizes := fun hlt => by
    have h₁ := eq_of_bucketOf hm hlt
    have h₂ := eq_of_bucketOf (show 0 < k by omega) (heq ▸ hlt)
    omega
  by_contra hle
  have hindex : bucketOf m = m - 1 := if_pos (by omega)
  omega

/-- The hints that a search leaves. -/
theorem Searched.hint (h : Searched st k (bucketOf k) lists) (hinted : Hinted st)
    (hkeeps : KeepsHints st k) (hgap : IsGap st.bit st.zone b m) :
    ∃ p ∈ lists (bucketOf m), Leads st p b m := by
  obtain ⟨p, hp, hleads⟩ := hinted b m hgap
  obtain ⟨D, hl, hD⟩ := h (bucketOf m)
  rw [hl] at hp
  rcases List.mem_append.1 hp with hdropped | hleft
  · -- the hint has been dropped, so the gap is too small, and this is the last list
    have hmk := Searched.lt_of_leads hD hdropped hleads
    have heq : bucketOf k = bucketOf m := le_antisymm (hD p hdropped).1 (bucketOf_mono hmk.le)
    have hlarge := nrSizes_lt_of_bucketOf_eq hgap.pos hmk heq
    have hlast : bucketOf m = nrSizes := if_neg (by omega)
    rw [hlast] at hl hD ⊢
    exact hkeeps (by omega) D _ hl (fun d hd a n => Searched.lt_of_leads hD hd) p hdropped b m
      hleads hlarge
  · exact ⟨p, hleft, hleads⟩

/-! ## When a gap is found -/

/-- A request for which a hint leads to enough units is served from a gap. -/
theorem NvReady.serves_of_reached (h : NvReady freeWait c) (hreached : GapsReached c.st) :
    NoSpaceLost c := by
  rintro size grows now hok ⟨a, n, hgap, hle⟩
  have hpos : 0 < blockUnits size := unitsOf_pos (by omega)
  obtain ⟨j, p, b, m, hfirst, hj, hp, hleads, hnm⟩ := hreached a n hgap
  have hbucket := bucketOf_mono hle
  -- so the search does not fail
  have hno : ∀ lists, ¬ Miss c.st (blockUnits size) (bucketOf (blockUnits size)) lists := by
    intro lists hmiss
    have hlt := hmiss.lt_of_leads (by omega) hj hp hleads
    omega
  cases h.inv.mallocs hok.1 hok.2 now with
  | serves hserved hret =>
    cases hserved.placed with
    | gap hhit hsearch hlists hbit hzone hend =>
      exact ⟨_, _, _, _, hhit.isGap hpos, hhit.le, hsearch, hret,
        hserved.tick.freeZone_le.trans hzone.le, hserved.tick.endAddress.trans hend⟩
    | zone hmiss hext => exact absurd hmiss (hno _)
  | full hmiss hinv hret => exact absurd hmiss (hno _)
  | diverges hmiss hsearch hnever => exact absurd hmiss (hno _)

/-- If the requests for the size of a gap are served from a gap, then a hint leads there. -/
theorem NvReady.reached_of_noSpaceLost (h : NvReady freeWait c) (hserves : NoSpaceLost c) :
    GapsReached c.st := by
  intro a n hgap
  have hpos := hgap.pos
  have hle := hgap.le
  have hzone := h.inv.shape.zone_le
  have hlt := h.inv.shape.bitmapSize_lt
  -- a request for exactly so many units
  have hunits : blockUnits (baseSize * n - 8) = n := by
    rw [blockUnits, show baseSize * n - 8 + 8 = baseSize * n by simp only [baseSize]; omega,
      unitsOf_mul]
  have hok : (NvOp.malloc (baseSize * n - 8) .refused 0).Allowed c :=
    allowed_of_le (by simp only [baseSize]; omega)
  obtain ⟨b, m, st₁, st', hgap', -, -, hret, -⟩ := hserves _ _ _ hok ⟨a, n, hgap, hunits.le⟩
  obtain ⟨st₂, waiting', hserved⟩ := h.inv.served hok.1 hok.2 hret
  generalize hloc : baseSize * b = location at hserved
  cases hserved.placed with
  | gap hhit hsearch hlists hbit hzone hend =>
    rw [hunits] at hhit
    obtain ⟨j, p, hfirst, hj, hp, hleads⟩ := hhit.exists_hint hpos
    exact ⟨j, p, _, _, hfirst, hj, hp, hleads, hhit.le⟩
  | zone hmiss hext =>
    -- the start of the free zone is not in a gap
    have hpos' := hgap'.pos
    have hle' := hgap'.le
    simp only [baseSize] at hloc
    omega

/-! ## Steps that keep the hints -/

/-- A gap that has a hint is reached. -/
theorem Hinted.reached (h : Hinted st) : GapsReached st := by
  intro a n hgap
  obtain ⟨p, hp, hleads⟩ := h a n hgap
  exact ⟨bucketOf n, p, a, n, le_rfl, bucketOf_le, hp, hleads, le_rfl⟩

/-- The hints after a gap has been used. -/
theorem Hinted.of_hit {mem : ℕ → BitVec 64} (h : Hinted st) (hk : 0 < k)
    (hkeeps : KeepsHints st k) (hhit : Hit st k (bucketOf k) a n mem lists)
    (hlists : st'.freeLists = lists) (hbit : st'.bit = fill st.bit a k true)
    (hzone : st'.zone = st.zone) : Hinted st' := by
  intro b m hgap
  have hgap' : IsGap (fill st.bit a k true) st.zone b m := by
    rw [← hbit, ← hzone]
    exact hgap
  have hkn := hhit.le
  obtain ⟨lists', j, p, l, hs, -, -, hl, hfound, hrest⟩ := hhit.found
  rcases (hhit.isGap hk).of_fill hk hkn hgap' with ⟨hold, hfar⟩ | ⟨rfl, hsum⟩
  · -- another gap: its hint is not the one that has been used
    obtain ⟨q, hq, hleads⟩ := hs.hint h hkeeps hold
    refine ⟨q, ?_, hgap, hleads.2⟩
    rw [hlists, hrest]
    refine mem_withRest_of_mem ?_
    by_cases hj : bucketOf m = j
    · rw [hj, hl] at hq
      rw [hj, Function.update_self]
      refine (List.mem_cons.1 hq).resolve_left ?_
      rintro rfl
      obtain ⟨rfl, rfl⟩ := hfound.eq_of_leads hleads
      omega
    · rwa [Function.update_of_ne hj]
  · -- the rest of the gap
    have hpos := hgap.pos
    refine ⟨baseSize * (a + k), ?_, hgap, le_rfl, Nat.mul_le_mul_left _ (by omega)⟩
    rw [hlists, hrest, show m = n - k by omega]
    exact rest_mem_withRest (by omega)

/-- The hints after a search has failed. -/
theorem Hinted.of_miss (h : Hinted st) (hkeeps : KeepsHints st k)
    (hmiss : Miss st k (bucketOf k) lists) (hlists : st'.freeLists = lists)
    (hgaps : ∀ a n, IsGap st'.bit st'.zone a n → IsGap st.bit st.zone a n) : Hinted st' := by
  intro b m hgap
  obtain ⟨p, hp, hleads⟩ := hmiss.searched.hint h hkeeps (hgaps b m hgap)
  exact ⟨p, hlists ▸ hp, hgap, hleads.2⟩

/-- `incrementTime` keeps the hints. -/
theorem Ticked.hinted {now : ℕ} {waiting waiting' : List Waiting}
    (h : Ticked st now waiting st' waiting') (hinted : Hinted st) : Hinted st' := by
  cases h with
  | keeps => exact hinted
  | releases hdue hfreed =>
    intro a n hgap
    rcases hfreed.gaps a n hgap with hold | hnew
    · obtain ⟨p, hp, hleads⟩ := hinted a n hold
      exact ⟨p, hfreed.hints _ p hp, hgap, hleads.2⟩
    · exact ⟨_, hnew, hgap, le_rfl, Nat.mul_le_mul_left _ (Nat.le_add_right a n)⟩

/-- A step that keeps the hints. -/
theorem NvReady.hinted_step (h : NvReady freeWait c) (hinted : Hinted c.st) (hok : op.Allowed c)
    (hkeeps : op.KeepsHints c) (hs : NvStep c op c') : Hinted c'.st := by
  cases hs with
  | @served st' size now location grows hret =>
    obtain ⟨st₁, waiting', hserved⟩ := h.inv.served hok.1 hok.2 hret
    refine hserved.tick.hinted ?_
    cases hserved.placed with
    | gap hhit hsearch hlists hbit hzone hend =>
      refine hinted.of_hit (unitsOf_pos (by omega)) hkeeps hhit hlists hbit ?_
      rw [NvState.zone, hzone, NvState.zone]
    | zone hmiss hext => exact hinted.of_miss hkeeps hmiss hext.lists hext.gaps
  | @refused st' size now grows hret =>
    obtain ⟨lists, rfl, hmiss, -⟩ := h.inv.refused hok.1 hok.2 hret
    exact hinted.of_miss hkeeps hmiss rfl fun _ _ hgap => hgap
  | @free st' b added now r hmem hret =>
    obtain ⟨mem, head, tail, st₁, waiting', htick, hinv, hret'⟩ :=
      h.inv.returns_nvfree (List.perm_cons_erase hmem) added now
    obtain ⟨rfl, -⟩ := Prog.returns_unique hret hret'
    exact htick.hinted hinted
  | store hmem hlo hhi => exact hinted

/-- At the start there is no gap. -/
theorem hinted_start (mem : ℕ → BitVec 64) : Hinted (nvStart nrPages freeWait mem).st := by
  intro a n hgap
  have hpos := hgap.pos
  have hle : a + n ≤ 0 := hgap.le.trans (Nat.zero_div _).le
  omega

/-- In a run whose steps keep the hints no free space is lost. In any run, none is lost exactly if
the gaps are reached. -/
theorem noSpaceLost (hpages : nrPages * nvPageSize < 2 ^ 32) (mem : ℕ → BitVec 64) :
    (∀ c, Runs.Reach NvStep (fun c op => op.Allowed c ∧ op.KeepsHints c)
      (nvStart nrPages freeWait mem) c → NoSpaceLost c) ∧
    ∀ c, Runs.Reach NvStep (fun c op => op.Allowed c) (nvStart nrPages freeWait mem) c →
      (NoSpaceLost c ↔ GapsReached c.st) := by
  refine ⟨fun c hreach => ?_, fun c hreach => ?_⟩
  · obtain ⟨hready, hinted⟩ := hreach.invariant (I := fun c => NvReady freeWait c ∧ Hinted c.st)
      ⟨nvReady_start hpages mem, hinted_start mem⟩ fun _ _ _ hinv hok hs =>
        ⟨hinv.1.step hok.1 hs, hinv.1.hinted_step hinv.2 hok.1 hok.2 hs⟩
    exact hready.serves_of_reached hinted.reached
  · have hready := reach_nvReady hpages hreach
    exact ⟨hready.reached_of_noSpaceLost, hready.serves_of_reached⟩

end

/-- A gap of 65 units, and its hint, in front of a block. -/
def gapLeft : NvConfig :=
  ((((nvStart 4 0 fun _ => 0).afterMalloc 4152 0 0).afterMalloc 8 0 4160).afterFree ⟨0, 4160⟩ 0 0)

/-- A request for 66 units has dropped the hint. -/
def hintDropped : NvConfig := gapLeft.afterMalloc 4216 0 4224

theorem keepsHints_of_nil {st : NvState} {k : ℕ} (h : st.freeLists nrSizes = []) :
    KeepsHints st k := by
  intro hk D l hl hD d hd
  rw [h] at hl
  rw [(List.append_eq_nil_iff.1 hl.symm).1] at hd
  cases hd

theorem reach_gapLeft :
    Runs.Reach NvStep (fun c op => op.Allowed c ∧ op.KeepsHints c) (nvStart 4 0 fun _ => 0)
      gapLeft := by
  refine reach_afterFree (reach_afterMalloc (reach_afterMalloc .start
    ⟨allowed_of_le ?_, keepsHints_of_nil ?_⟩ ?_) ⟨allowed_of_le ?_, keepsHints_of_nil ?_⟩ ?_)
    ⟨trivial, trivial⟩ ?_ ?_
  all_goals decide +kernel

/-- As long as the gap has its hint, a request for 65 units is served from it. -/
theorem noSpaceLost_gapLeft : NoSpaceLost gapLeft :=
  (noSpaceLost (by decide) _).1 gapLeft reach_gapLeft

/-- When the hint has been dropped, a request for 65 units is served from the free zone. -/
theorem not_noSpaceLost :
    Runs.Reach NvStep (fun c op => op.Allowed c) (nvStart 4 0 fun _ => 0) hintDropped ∧
      ¬ NoSpaceLost hintDropped := by
  constructor
  · refine reach_afterMalloc (reach_gapLeft.mono fun _ _ hok => hok.1)
      (allowed_of_le (by decide)) ?_
    decide +kernel
  · intro hserves
    have hgap : IsGap hintDropped.st.bit hintDropped.st.zone 0 65 := by
      refine ⟨by decide, by decide +kernel, fun u _ hu => ?_, .inl rfl, .inr (by decide +kernel)⟩
      have hall : ∀ u < 65, hintDropped.st.bit u = false := by decide +kernel
      exact hall u (by omega)
    obtain ⟨a, n, st₁, st', hgap', -, -, hret, -⟩ :=
      hserves 4152 .refused 0 (allowed_of_le (by decide)) ⟨0, 65, hgap, by decide⟩
    have hvalue : ((nvmalloc 4152 .refused 0).exec 100 hintDropped.st).value? =
        some (some (baseSize * 132 + 8)) := by decide +kernel
    have hloc := Option.some.inj (Prog.returns_unique hret (Prog.returns_of_value? hvalue)).2
    -- the start of the free zone is not in a gap
    have hzone : hintDropped.st.zone = 132 := by decide +kernel
    have hpos := hgap'.pos
    have hle := hgap'.le
    simp only [baseSize] at hloc
    omega

end Zalloc
