import Zalloc.Slab.Inv

/-!
# `slab_free`

There are four cases: the slab was full, it keeps another used slot, it becomes empty, or it was the
last one in use of its region, which is then given back to the system. Here are the first three.

## Main definitions

* `Freed st st' a i`: between the two states slot `i` of slab `a` has been given back.

## Main results

* `SlabInv.slabFree_full`, `SlabInv.slabFree_more`, `SlabInv.slabFree_last`: `slab_free` returns,
  keeps the invariant, and gives back the slot.
-/

set_option autoImplicit false

namespace Zalloc

/-- Between the two states slot `i` of slab `a` has been given back. -/
structure Freed (st st' : SlabState) (a i : ℕ) : Prop where
  /-- The sizes are the same. -/
  sizes : st'.sch.toSlabSizes = st.sch.toSlabSizes
  /-- The slot is not in use any more, and the other ones are as before. -/
  used : ∀ x j, UsedSlot st' x j ↔ UsedSlot st x j ∧ ¬ (x = a ∧ j = i)

section

variable {st st' : SlabState} {a i : ℕ}

/-- One slot of one slab has been given back. -/
theorem freed_of_slots (hsizes : st'.sch.toSlabSizes = st.sch.toSlabSizes)
    (hregions : st'.regions = st.regions)
    (hslots : ∀ x ≠ a, (st'.hdr x).slots = (st.hdr x).slots)
    (hslot : ∀ j < st.sch.itemcount,
      (st'.hdr a).slots.testBit j = ((st.hdr a).slots.testBit j || decide (j = i))) :
    Freed st st' a i := by
  have hcount : st'.sch.itemcount = st.sch.itemcount := congrArg SlabSizes.itemcount hsizes
  refine ⟨hsizes, fun x j => ?_⟩
  rw [UsedSlot, UsedSlot, isSlab_congr hsizes hregions, hcount]
  by_cases hx : x = a
  · rw [hx]
    constructor
    · rintro ⟨ha, hj, hused⟩
      rw [hslot j hj, Bool.or_eq_false_iff, decide_eq_false_iff_not] at hused
      exact ⟨⟨ha, hj, hused.1⟩, fun hboth => hused.2 hboth.2⟩
    · rintro ⟨⟨ha, hj, hused⟩, hne⟩
      refine ⟨ha, hj, ?_⟩
      rw [hslot j hj, hused, Bool.false_or, decide_eq_false_iff_not]
      exact fun hji => hne ⟨rfl, hji⟩
  · rw [hslots x hx]
    simp [hx]

end

namespace SlabInv

variable {st st' : SlabState} {L : SlabList → List ℕ} {a i base : ℕ}

/-- `slab_free` finds the slab and the slot, and reads the slots. -/
theorem returns_slabFree (h : SlabInv st L) (hused : UsedSlot st a i)
    (hret : (if (st.hdr a).slots = 0 then do
        setSlots a (1 <<< i)
        detach .full a
        pushFront .partly a
      else if oneUsedSlot (st.hdr a).slots st.sch.emptySlotmask then do
        let page ← pageOf a
        let refcount ← getField SlabHeader.refcount page
        if refcount = 1 then do
          takeOut .partly a
          let page ← pageOf a
          let foundHead ← Prog.loop (releaseBody st.sch.toSlabSizes a
            (page + st.sch.pagesPerAlloc)) (page, false)
          popEmptyIf foundHead
          releaseRegion page
        else do
          setSlots a st.sch.emptySlotmask
          detach .partly a
          pushFront .empty a
          let page ← pageOf a
          let refcount ← getField SlabHeader.refcount page
          setRefcount page (refcount - 1)
      else setSlots a ((st.hdr a).slots ||| 1 <<< i) : SlabProg Unit).Returns st st' ()) :
    (slabFree (st.sch.item a i)).Returns st st' () := by
  obtain ⟨ha, hi, -⟩ := hused
  have hle := h.slab_le ha
  have hpos : st.sch.item a i ≠ 0 := by
    rw [SlabSizes.item, dataOffset]
    omega
  -- the mask leads back to the header, and the division to the slot
  have hslab := h.sized.and_alignmentMask (h.dvd ha) hi hle
  have hslot := h.sized.slot_eq hi hle
  refine (Prog.returns_read _ _).bind ?_
  refine Prog.Returns.bind (Prog.returns_require hpos) ?_
  dsimp only
  rw [hslab, hslot]
  exact (returns_getField _ ha).bind hret

/-! ## A full slab -/

/-- The slab was full. -/
theorem slabFree_full (h : SlabInv st L) (hused : UsedSlot st a i) (hmem : a ∈ L .full) :
    ∃ st' L', (slabFree (st.sch.item a i)).Returns st st' () ∧ SlabInv st' L' ∧
      Freed st st' a i ∧ st'.regions = st.regions := by
  obtain ⟨hslab, hi, -⟩ := id hused
  obtain ⟨base, hb, hin⟩ := id hslab
  have hzero : (st.hdr a).slots = 0 := h.slots .full a hmem
  -- the slots, then the links; the count does not change
  obtain ⟨st₁, hret₁, hlinks₁, hslots₁, hrefcount₁, hpage₁⟩ := returns_setSlots hslab (1 <<< i)
  have hchained₁ := h.chained.of_sameLinks hlinks₁
  obtain ⟨st₂, hret₂, hchained₂, hsame₂, hprev₂⟩ := hchained₁.detach hmem
  have hslab₂ : st₂.IsSlab a := hsame₂.isSlab_iff.2 (hlinks₁.isSlab_iff.2 hslab)
  obtain ⟨st₃, hret₃, hchained₃, hsame₃⟩ := hchained₂.pushFront_moved
    (h.chained.not_mem_erase hmem) hslab₂ (h.chained.ne_zero hmem) hprev₂ .partly
  have hsame := hsame₂.trans hsame₃
  have hsizes : st₃.sch.toSlabSizes = st.sch.toSlabSizes := by rw [hsame.sizes, hlinks₁.sch]
  have hregions : st₃.regions = st.regions := by rw [hsame.regions, hlinks₁.regions]
  have hslot : (st₃.hdr a).slots = 1 <<< i := by rw [hsame.slots, hslots₁, if_pos rfl]
  have hother : ∀ x ≠ a, (st₃.hdr x).slots = (st.hdr x).slots := fun x hx => by
    rw [hsame.slots, hslots₁, if_neg hx]
  refine ⟨st₃, moved L .full .partly a, h.returns_slabFree hused ?_, ?_, ?_, hregions⟩
  · rw [if_pos hzero]
    exact hret₁.bind (hret₂.bind hret₃)
  · refine h.move hb hin hchained₃ hsizes hregions (fun _ _ hx => mem_moved hx) self_mem_moved ?_
      hother ?_ (fun x _ => ?_) fun x => ?_
    · rw [hslot]
      exact holds_put_full h.sized hi
    · rw [hsame.refcount, hrefcount₁, moved_of_ne (by decide) (by decide)]
      exact h.first base hb
    · rw [hsame.refcount, hrefcount₁]
    · rw [hsame.page, hpage₁]
  · refine freed_of_slots hsizes hregions hother fun j _ => ?_
    -- no bit of a full slab is set
    rw [hslot, hzero, Nat.zero_testBit, Bool.false_or, Nat.one_shiftLeft, Nat.testBit_two_pow]
    exact decide_eq_decide.2 eq_comm

/-! ## A partial slab -/

/-- The slab keeps another used slot. -/
theorem slabFree_more (h : SlabInv st L) (hused : UsedSlot st a i) (hmem : a ∈ L .partly)
    (hmore : ¬ oneUsedSlot (st.hdr a).slots st.sch.emptySlotmask = true) :
    ∃ st' L', (slabFree (st.sch.item a i)).Returns st st' () ∧ SlabInv st' L' ∧
      Freed st st' a i ∧ st'.regions = st.regions := by
  obtain ⟨hslab, hi, -⟩ := id hused
  obtain ⟨base, hb, hin⟩ := id hslab
  have hpartly := h.slots .partly a hmem
  obtain ⟨st₁, hret₁, hlinks₁, hslots₁, hrefcount₁, hpage₁⟩ :=
    returns_setSlots hslab ((st.hdr a).slots ||| 1 <<< i)
  have hsizes : st₁.sch.toSlabSizes = st.sch.toSlabSizes := by rw [hlinks₁.sch]
  have hslot : (st₁.hdr a).slots = (st.hdr a).slots ||| 1 <<< i := by rw [hslots₁, if_pos rfl]
  have hother : ∀ x ≠ a, (st₁.hdr x).slots = (st.hdr x).slots := fun x hx => by
    rw [hslots₁, if_neg hx]
  refine ⟨st₁, L, h.returns_slabFree hused ?_, ?_, ?_, hlinks₁.regions⟩
  · rw [if_neg hpartly.2.1, if_neg hmore]
    exact hret₁
  · refine h.move hb hin (h.chained.of_sameLinks hlinks₁) hsizes hlinks₁.regions
      (fun _ _ _ => Iff.rfl) hmem ?_ hother ?_ (fun x _ => hrefcount₁ x) hpage₁
    · rw [hslot]
      exact hpartly.put h.sized hi hmore
    · rw [hrefcount₁]
      exact h.first base hb
  · refine freed_of_slots hsizes hlinks₁.regions hother fun j _ => ?_
    rw [hslot, testBit_put]

/-- The slot that is given back is the only one in use. -/
theorem testBit_eq_of_oneUsedSlot (h : SlabInv st L) (hused : UsedSlot st a i)
    (hone : oneUsedSlot (st.hdr a).slots st.sch.emptySlotmask = true) {j : ℕ}
    (hj : j < st.sch.itemcount) : (st.hdr a).slots.testBit j = !decide (j = i) := by
  obtain ⟨-, hi, hbit⟩ := hused
  by_cases hji : j = i
  · rw [hji, hbit, decide_eq_true rfl]
    rfl
  · rw [decide_eq_false hji, Bool.not_false, ← Bool.not_eq_false]
    exact fun hno => hji ((oneUsedSlot_iff h.sized).1 hone j hj i hi hno hbit)

/-- The slab becomes empty, and another one of its region is in use. -/
theorem slabFree_last (h : SlabInv st L) (hused : UsedSlot st a i) (hmem : a ∈ L .partly)
    (hone : oneUsedSlot (st.hdr a).slots st.sch.emptySlotmask = true) (hb : base ∈ st.regions)
    (hin : st.sch.InRegion base a) (hrefcount : (st.hdr base).refcount ≠ 1) :
    ∃ st' L', (slabFree (st.sch.item a i)).Returns st st' () ∧ SlabInv st' L' ∧
      Freed st st' a i ∧ st'.regions = st.regions := by
  obtain ⟨hslab, hi, -⟩ := id hused
  have hpartly := h.slots .partly a hmem
  have hbase := h.isSlab_base hb
  -- the slots, then the links, then the count of the region
  obtain ⟨st₁, hret₁, hlinks₁, hslots₁, hrefcount₁, hpage₁⟩ :=
    returns_setSlots hslab st.sch.emptySlotmask
  have hchained₁ := h.chained.of_sameLinks hlinks₁
  obtain ⟨st₂, hret₂, hchained₂, hsame₂, hprev₂⟩ := hchained₁.detach hmem
  have hslab₂ : st₂.IsSlab a := hsame₂.isSlab_iff.2 (hlinks₁.isSlab_iff.2 hslab)
  obtain ⟨st₃, hret₃, hchained₃, hsame₃⟩ := hchained₂.pushFront_moved
    (h.chained.not_mem_erase hmem) hslab₂ (h.chained.ne_zero hmem) hprev₂ .empty
  have hsame := hsame₂.trans hsame₃
  have hbase₃ : st₃.IsSlab base := hsame.isSlab_iff.2 (hlinks₁.isSlab_iff.2 hbase)
  have hslab₃ : st₃.IsSlab a := hsame₃.isSlab_iff.2 hslab₂
  have hrefcount₃ : ∀ x, (st₃.hdr x).refcount = (st.hdr x).refcount := fun x => by
    rw [hsame.refcount, hrefcount₁]
  have hpage₃ : ∀ x, (st₃.hdr x).page = (st.hdr x).page := fun x => by rw [hsame.page, hpage₁]
  obtain ⟨st₄, hret₄, hlinks₄, hslots₄, hrefcount₄, hpage₄⟩ :=
    returns_setRefcount hbase₃ ((st₃.hdr base).refcount - 1)
  have hsizes : st₄.sch.toSlabSizes = st.sch.toSlabSizes := by
    rw [hlinks₄.sch, hsame.sizes, hlinks₁.sch]
  have hregions : st₄.regions = st.regions := by
    rw [hlinks₄.regions, hsame.regions, hlinks₁.regions]
  have hslot : (st₄.hdr a).slots = st.sch.emptySlotmask := by
    rw [hslots₄, hsame.slots, hslots₁, if_pos rfl]
  have hother : ∀ x ≠ a, (st₄.hdr x).slots = (st.hdr x).slots := fun x hx => by
    rw [hslots₄, hsame.slots, hslots₁, if_neg hx]
  refine ⟨st₄, moved L .partly .empty a, h.returns_slabFree hused ?_, ?_, ?_, hregions⟩
  · rw [if_neg hpartly.2.1, if_pos hone]
    refine (h.returns_pageOf hb hin hslab rfl rfl).bind ?_
    refine (returns_getField _ hbase).bind ?_
    rw [if_neg hrefcount]
    refine hret₁.bind (hret₂.bind ?_)
    refine hret₃.bind ?_
    refine (h.returns_pageOf hb hin hslab₃ (hrefcount₃ a) (hpage₃ a)).bind ?_
    exact (returns_getField _ hbase₃).bind hret₄
  · refine h.move hb hin (hchained₃.of_sameLinks hlinks₄) hsizes hregions
      (fun _ _ hx => mem_moved hx) self_mem_moved hslot hother ?_ (fun x hx => ?_) fun x => ?_
    · -- one slab less of the region is in use
      have hnot : a ∉ L .empty := h.not_mem_empty hused
      have hcount := SlabSizes.inUse_cons hin hnot
      obtain ⟨hfirst, hpos⟩ := h.first base hb
      rw [hrefcount₄, if_pos rfl, hrefcount₃, moved_target (by decide)]
      omega
    · rw [hrefcount₄, if_neg hx, hrefcount₃]
    · rw [hpage₄, hpage₃]
  · refine freed_of_slots hsizes hregions hother fun j hj => ?_
    have hempty : SlabList.Holds .empty st.sch.toSlabSizes st.sch.emptySlotmask := rfl
    rw [hslot, ((holds_empty_iff h.sized).1 hempty).2 j hj,
      h.testBit_eq_of_oneUsedSlot hused hone hj, Bool.not_or_self]

end SlabInv

end Zalloc
