import Zalloc.Slab.Lifetime
import Zalloc.Slab.Stats

/-!
# How many regions are mapped

`slab_alloc` asks for a new region only when every slot is in use, and `slab_free` gives a region
back with its last item. So a chain never has more regions than are necessary for the items that
have been live at the same time, and it has none without a live item.

## Main definitions

* `slotsPerRegion z`: the number of items that a region has room for.
* `SlabOp.Within P c op`: at most `P` items are live at the same time.
* `FewRegions P c`: the regions are no more than `P` items need, and none of them is idle.

## Main results

* `SlabReady.live_of_full`: without a partial and an empty slab, the live items fill all regions.
* `slabChain_fewRegions`: in every run the chain has few regions.
-/

set_option autoImplicit false

namespace Zalloc

/-- The number of items that a region has room for. -/
def slotsPerRegion (z : SlabSizes) : ℕ := z.itemcount * (z.pagesPerAlloc / z.slabsize)

/-- At most `P` items are live at the same time. -/
def SlabOp.Within (P : ℕ) (c : SlabConfig) : SlabOp → Prop
  | .alloc _ => c.live.length < P
  | .free _ => True

/-- The regions of a chain. -/
structure FewRegions (P : ℕ) (c : SlabConfig) : Prop where
  /-- They are no more than `P` items need. -/
  peak : c.st.regions.length ≤ (P + slotsPerRegion c.st.sch.toSlabSizes - 1) /
    slotsPerRegion c.st.sch.toSlabSizes
  /-- Each of them has a live item. -/
  live : ∀ base ∈ c.st.regions, ∃ x ∈ c.live, ItemOf c.st base x
  /-- A new one is mapped only if the live items fill all others. -/
  grows : ∀ answer st' r, FreshRegion c.st answer → (slabAlloc answer).Returns c.st st' r →
    st'.regions ≠ c.st.regions →
      c.live.length = c.st.regions.length * slotsPerRegion c.st.sch.toSlabSizes

section

variable {st st' : SlabState} {L L' : SlabList → List ℕ} {itemsize a base P r : ℕ}
  {c c' : SlabConfig} {op : SlabOp} {answer : Option SlabRegion}

theorem SlabInv.slotsPerRegion_pos (h : SlabInv st L) :
    0 < slotsPerRegion st.sch.toSlabSizes := by
  have hcount := h.sized.two_le
  have hle := Nat.le_of_dvd h.sized.pagesPerAlloc_pos h.sized.slabsize_dvd
  exact Nat.mul_pos (by omega) (Nat.div_pos hle h.sized.slabsize_pos)

/-! ## Full and idle regions -/

/-- Without a partial and an empty slab, the live items fill all regions. -/
theorem SlabReady.live_of_full (h : SlabReady itemsize c L) (hpart : L .partly = [])
    (hempty : L .empty = []) :
    c.live.length = c.st.regions.length * slotsPerRegion c.st.sch.toSlabSizes := by
  have hlive := h.usedCount_live
  have hslabs := h.inv.perm_allSlabs.length_eq
  have hsum := h.inv.usedCount_add_freeCount (l := L .full) fun x hx => ⟨.full, hx⟩
  have hfull := (h.inv.counts_list (w := .full) fun x hx => hx).2.1 rfl
  rw [hpart, hempty, List.nil_append, List.nil_append, length_allSlabs] at hslabs
  rw [hpart] at hlive
  calc c.live.length = usedCount c.st (L .full) := by rw [← hlive]; exact Nat.zero_add _
    _ = c.st.sch.itemcount * (L .full).length := by rw [← hsum, hfull, Nat.add_zero]
    _ = c.st.regions.length * slotsPerRegion c.st.sch.toSlabSizes := by
      rw [hslabs, slotsPerRegion, Nat.mul_left_comm]

/-- A region has a slab that is not empty, and so a live item. -/
theorem SlabReady.exists_itemOf (h : SlabReady itemsize c L) (hb : base ∈ c.st.regions) :
    ∃ x ∈ c.live, ItemOf c.st base x := by
  obtain ⟨hcount, hpos⟩ := h.inv.first base hb
  rw [hcount] at hpos
  obtain ⟨a, ha⟩ := Finset.card_pos.1 hpos
  obtain ⟨hin, hne⟩ := Finset.mem_filter.1 ha
  rw [SlabSizes.mem_slabs] at hin
  obtain ⟨w, hw⟩ := h.inv.cover a ⟨base, hb, hin⟩
  -- a slab that is partial or full has a slot that is in use
  have hused : ∃ i < c.st.sch.itemcount, (c.st.hdr a).slots.testBit i = false := by
    have hholds := h.inv.slots w a hw
    cases w with
    | partly => exact ((holds_partly_iff h.inv.sized).1 hholds).2.2
    | empty => exact absurd hw hne
    | full =>
      have hcount := h.inv.sized.two_le
      exact ⟨0, by omega, ((holds_full_iff h.inv.sized).1 hholds).2 0 (by omega)⟩
  obtain ⟨i, hi, hbit⟩ := hused
  exact ⟨_, (h.live _).2 ⟨a, i, ⟨⟨base, hb, hin⟩, hi, hbit⟩, rfl⟩, a, i, hin, hi, rfl⟩

/-! ## Steps -/

/-- The regions after a call of `slab_alloc`: they are the same, unless the live items fill all of
them. -/
theorem SlabReady.regions_alloc (h : SlabReady itemsize c L) (hfresh : FreshRegion c.st answer)
    (hret : (slabAlloc answer).Returns c.st st' r) : st'.sch.toSlabSizes = c.st.sch.toSlabSizes ∧
      (st'.regions = c.st.regions ∨ st'.regions.length = c.st.regions.length + 1 ∧
        c.live.length = c.st.regions.length * slotsPerRegion c.st.sch.toSlabSizes) := by
  cases hpart : L .partly with
  | cons a l =>
    obtain ⟨st₁, L', i, hret', -, halloc, hregions⟩ := h.inv.slabAlloc_partly hpart answer
    obtain ⟨rfl, -⟩ := Prog.returns_unique hret hret'
    exact ⟨halloc.sizes, .inl hregions⟩
  | nil =>
    cases hempty : L .empty with
    | cons a l =>
      obtain ⟨st₁, L', i, hret', -, halloc, hregions⟩ := h.inv.slabAlloc_empty hpart hempty answer
      obtain ⟨rfl, -⟩ := Prog.returns_unique hret hret'
      exact ⟨halloc.sizes, .inl hregions⟩
    | nil =>
      cases answer with
      | none =>
        obtain ⟨rfl, -⟩ := Prog.returns_unique hret (h.inv.slabAlloc_none hpart hempty)
        exact ⟨rfl, .inl rfl⟩
      | some region =>
        obtain ⟨st₁, L', hret', -, halloc, hregions⟩ := h.inv.slabAlloc_region hpart hempty hfresh
        obtain ⟨rfl, -⟩ := Prog.returns_unique hret hret'
        refine ⟨halloc.sizes, .inr ⟨?_, h.live_of_full hpart hempty⟩⟩
        rw [hregions, List.length_cons]

/-- A call of `slab_free` does not map a region. -/
theorem SlabReady.regions_free (h : SlabReady itemsize c L) {addr : ℕ} (hmem : addr ∈ c.live)
    (hret : (slabFree addr).Returns c.st st' ()) :
    st'.sch.toSlabSizes = c.st.sch.toSlabSizes ∧ st'.regions.length ≤ c.st.regions.length := by
  obtain ⟨a, i, hused, rfl⟩ := (h.live addr).1 hmem
  obtain ⟨base, hb, hin⟩ := id hused.1
  obtain ⟨st₁, L', hret', -, hfreed, hlast, hother⟩ := h.inv.slabFree_regions hused hb hin
  obtain ⟨rfl, -⟩ := Prog.returns_unique hret hret'
  refine ⟨hfreed.sizes, ?_⟩
  by_cases hslot : LastSlot c.st base a i
  · rw [(hlast hslot).1]
    exact List.length_erase_le
  · rw [hother hslot]

/-- The regions but one have fewer slots than there are items at most. -/
theorem SlabReady.regions_step (h : SlabReady itemsize c L) (hok : op.Fresh c)
    (hwithin : op.Within P c) (hs : SlabStep c op c')
    (hle : c.st.regions.length * slotsPerRegion c.st.sch.toSlabSizes <
      P + slotsPerRegion c.st.sch.toSlabSizes) :
    c'.st.regions.length * slotsPerRegion c'.st.sch.toSlabSizes <
      P + slotsPerRegion c'.st.sch.toSlabSizes := by
  cases hs with
  | alloc hret =>
    obtain ⟨hsizes, hregions⟩ := h.regions_alloc hok hret
    rw [hsizes]
    rcases hregions with hsame | ⟨hmore, hfull⟩
    · rw [hsame]
      exact hle
    · have hless : c.live.length < P := hwithin
      rw [hmore, Nat.succ_mul]
      omega
  | free hmem hret =>
    obtain ⟨hsizes, hregions⟩ := h.regions_free hmem hret
    rw [hsizes]
    exact (Nat.mul_le_mul_right _ hregions).trans_lt hle

/-- The regions of a configuration. -/
theorem SlabReady.fewRegions (h : SlabReady itemsize c L)
    (hlt : c.st.regions.length * slotsPerRegion c.st.sch.toSlabSizes <
      P + slotsPerRegion c.st.sch.toSlabSizes) : FewRegions P c where
  peak := (Nat.le_div_iff_mul_le h.inv.slotsPerRegion_pos).2 (by omega)
  live base hb := h.exists_itemOf hb
  grows answer st' r hfresh hret hne :=
    ((h.regions_alloc hfresh hret).2.resolve_left hne).2

end

/-- In every run whose new regions are fresh and in which at most `P` items are live at the same
time, the chain has no more regions than `P` items need, and none without a live item. -/
theorem slabChain_fewRegions (ceilLog2 : CeilLog2) {itemsize : ℕ} (hlo : 1 ≤ itemsize)
    (hhi : itemsize ≤ 2 ^ 56) :
    ∃ sch, slabInit ceilLog2 itemsize = some sch ∧ ∀ hdr P c,
      Runs.Reach SlabStep (fun c op => op.Fresh c ∧ op.Within P c) (slabStart sch hdr) c →
        FewRegions P c := by
  obtain ⟨sch, hinit, hsized, hitemsize, hhead⟩ := sized_slabInit ceilLog2 hlo hhi
  refine ⟨sch, hinit, fun hdr P c hreach => ?_⟩
  have hstart : SlabReady itemsize (slabStart sch hdr) fun _ => [] :=
    slabReady_start hsized hitemsize hhead
  have hpos : 0 < slotsPerRegion (slabStart sch hdr).st.sch.toSlabSizes :=
    hstart.inv.slotsPerRegion_pos
  obtain ⟨⟨L, h⟩, hlt⟩ := hreach.invariant
    (I := fun c => (∃ L, SlabReady itemsize c L) ∧
      c.st.regions.length * slotsPerRegion c.st.sch.toSlabSizes <
        P + slotsPerRegion c.st.sch.toSlabSizes)
    ⟨⟨_, hstart⟩, (Nat.zero_mul _).trans_lt (Nat.add_pos_right P hpos)⟩
    fun c op c' hc hop hs => by
      obtain ⟨⟨L, h⟩, hlt⟩ := hc
      exact ⟨h.step hop.1 hs, h.regions_step hop.1 hop.2 hs hlt⟩
  exact h.fewRegions hlt

/-- One item needs one region. -/
theorem slabChain_fewRegions_oneItem :
    FewRegions 1 ⟨oneItem, [2 ^ 20 + 40]⟩ ∧ oneItem.regions.length = 1 := by
  obtain ⟨sch, hinit, h⟩ :=
    slabChain_fewRegions exactCeilLog2 (show 1 ≤ 8192 by decide) (by decide)
  obtain rfl : pairs = sch := Option.some.inj (slabInit_pairs.symm.trans hinit)
  have hfresh : SlabOp.Fresh pairsStart (.alloc (some oneRegion)) :=
    ⟨by decide, by decide, by decide, List.forall_mem_nil _⟩
  have hstep : SlabStep pairsStart (.alloc (some oneRegion)) _ := .alloc returns_oneItem
  rw [if_neg (by decide)] at hstep
  exact ⟨h _ _ _ (.step .start ⟨hfresh, Nat.zero_lt_one⟩ hstep), by decide⟩

end Zalloc
