import Zalloc.Slab.Inv

/-!
# `slab_alloc`

There are three cases: a partial slab, an empty one, and a new region. Each of them takes a slot
that was free. Here are the first two.

## Main definitions

* `Allocated st st' a i`: between the two states slot `i` of slab `a` has been taken.
* `FreshRegion st answer`: what the system promises of a new region.

## Main results

* `SlabInv.slabAlloc_partly`, `SlabInv.slabAlloc_empty`: `slab_alloc` returns, keeps the invariant,
  and takes a slot.
-/

set_option autoImplicit false

namespace Zalloc

/-- Between the two states slot `i` of slab `a` has been taken. -/
structure Allocated (st st' : SlabState) (a i : ℕ) : Prop where
  /-- The sizes are the same. -/
  sizes : st'.sch.toSlabSizes = st.sch.toSlabSizes
  /-- The slot was not in use. -/
  free : ¬ UsedSlot st a i
  /-- It is now, and the other ones are as before. -/
  used : ∀ x j, UsedSlot st' x j ↔ UsedSlot st x j ∨ x = a ∧ j = i

/-- A new region is aligned to the slab size, lies in the address space and does not overlap the
mapped ones. -/
def FreshRegion (st : SlabState) : Option SlabRegion → Prop
  | none => True
  | some region => st.sch.slabsize ∣ region.base ∧ 0 < region.base ∧
      region.base + st.sch.pagesPerAlloc ≤ 2 ^ 64 ∧
      ∀ base ∈ st.regions, base + st.sch.pagesPerAlloc ≤ region.base ∨
        region.base + st.sch.pagesPerAlloc ≤ base

section

variable {st st' : SlabState} {a i : ℕ}

/-- One slot of one slab has been taken. -/
theorem allocated_of_slots (hsizes : st'.sch.toSlabSizes = st.sch.toSlabSizes)
    (hregions : st'.regions = st.regions) (ha : st.IsSlab a) (hi : i < st.sch.itemcount)
    (hbit : (st.hdr a).slots.testBit i = true)
    (hslots : ∀ x ≠ a, (st'.hdr x).slots = (st.hdr x).slots)
    (hslot : ∀ j < st.sch.itemcount,
      (st'.hdr a).slots.testBit j = ((st.hdr a).slots.testBit j && decide (j ≠ i))) :
    Allocated st st' a i := by
  have hcount : st'.sch.itemcount = st.sch.itemcount := congrArg SlabSizes.itemcount hsizes
  refine ⟨hsizes, fun hused => ?_, fun x j => ?_⟩
  · have hno := hused.2.2
    rw [hbit] at hno
    cases hno
  · rw [UsedSlot, UsedSlot, isSlab_congr hsizes hregions, hcount]
    by_cases hx : x = a
    · rw [hx]
      constructor
      · rintro ⟨-, hj, hfree⟩
        rw [hslot j hj] at hfree
        -- the slot that was taken, or another one of the slab
        by_cases hji : j = i
        · exact .inr ⟨rfl, hji⟩
        · rw [decide_eq_true hji, Bool.and_true] at hfree
          exact .inl ⟨ha, hj, hfree⟩
      · rintro (⟨-, hj, hfree⟩ | ⟨-, rfl⟩)
        · exact ⟨ha, hj, by rw [hslot j hj, hfree, Bool.false_and]⟩
        · exact ⟨ha, hi, by rw [hslot j hi, decide_eq_false fun hne => hne rfl, Bool.and_false]⟩
    · rw [hslots x hx]
      simp [hx]

end

namespace SlabInv

variable {st st' : SlabState} {L : SlabList → List ℕ} {a i base : ℕ} {l : List ℕ}

/-! ## A partial slab -/

/-- `slab_alloc` marks the lowest free slot of the first partial slab, and reads the slots again. -/
theorem returns_slabAlloc {answer : Option SlabRegion} {st₁ : SlabState} {r : ℕ}
    (hhead : st.sch.head .partly = a) (hne : a ≠ 0) (hslab : st.IsSlab a)
    (hmark : (setSlots a ((st.hdr a).slots ^^^ 1 <<< firstFreeSlot (st.hdr a).slots)).Returns
      st st₁ ()) (hslab₁ : st₁.IsSlab a)
    (hret : (if (st₁.hdr a).slots = 0 then do
        popFront .partly
        pushFront .full a
        pure (st.sch.item a (firstFreeSlot (st.hdr a).slots))
      else pure (st.sch.item a (firstFreeSlot (st.hdr a).slots)) : SlabProg ℕ).Returns st₁ st' r) :
    (slabAlloc answer).Returns st st' r := by
  refine (Prog.returns_read _ _).bind ?_
  refine (returns_getHead hhead).bind ?_
  rw [if_pos hne]
  refine (returns_getField _ hslab).bind ?_
  refine hmark.bind ?_
  exact (returns_getField _ hslab₁).bind hret

/-- The lowest free slot of the first partial slab is taken. -/
theorem slabAlloc_partly (h : SlabInv st L) (hL : L .partly = a :: l)
    (answer : Option SlabRegion) :
    ∃ st' L' i, (slabAlloc answer).Returns st st' (st.sch.item a i) ∧ SlabInv st' L' ∧
      Allocated st st' a i ∧ st'.regions = st.regions := by
  have hmem : a ∈ L .partly := by
    rw [hL]
    exact List.mem_cons_self ..
  have hslab := h.chained.isSlab .partly a hmem
  have hne := h.chained.ne_zero hmem
  have hlinked := h.chained.linked .partly
  rw [hL] at hlinked
  have hhead : st.sch.head .partly = a := hlinked.eq_headD
  have hpartly := h.slots .partly a hmem
  obtain ⟨hi, hbit⟩ := hpartly.firstFreeSlot h.sized
  obtain ⟨base, hb, hin⟩ := id hslab
  -- the slot is marked
  obtain ⟨st₁, hret₁, hsame₁, hslots₁, hrefcount₁, hpage₁⟩ := returns_setSlots hslab
    ((st.hdr a).slots ^^^ 1 <<< firstFreeSlot (st.hdr a).slots)
  have hslab₁ : st₁.IsSlab a := hsame₁.isSlab_iff.2 hslab
  have hslot₁ : (st₁.hdr a).slots = (st.hdr a).slots ^^^ 1 <<< firstFreeSlot (st.hdr a).slots := by
    rw [hslots₁ a, if_pos rfl]
  have hother₁ : ∀ x ≠ a, (st₁.hdr x).slots = (st.hdr x).slots := fun x hx => by
    rw [hslots₁ x, if_neg hx]
  have hbits : ∀ j < st.sch.itemcount, (st₁.hdr a).slots.testBit j =
      ((st.hdr a).slots.testBit j && decide (j ≠ firstFreeSlot (st.hdr a).slots)) := by
    intro j _
    rw [hslot₁]
    exact testBit_take hbit
  have hsch₁ : st₁.sch.toSlabSizes = st.sch.toSlabSizes := congrArg SlabChain.toSlabSizes hsame₁.sch
  -- whether a slab is partial or full does not matter to the count
  have hfirst : ∀ E : List ℕ, (∀ x, x ∈ E ↔ x ∈ L .empty) →
      (st₁.hdr base).refcount = st.sch.inUse E base ∧ 0 < (st₁.hdr base).refcount := by
    intro E hE
    rw [hrefcount₁, SlabSizes.inUse_congr fun x _ => hE x]
    exact h.first base hb
  have hchained₁ := h.chained.of_sameLinks hsame₁
  by_cases hzero : (st₁.hdr a).slots = 0
  · -- the slab has become full
    have hhead₁ : a = st₁.sch.head .partly := by rw [hsame₁.sch, hhead]
    obtain ⟨st₂, hret₂, hchained₂, hsame₂, hprev₂⟩ := hchained₁.popFront_of_eq hmem hhead₁
    obtain ⟨st₃, hret₃, hchained₃, hsame₃⟩ := hchained₂.pushFront_moved
      (h.chained.not_mem_erase hmem) (hsame₂.isSlab_iff.2 hslab₁) hne hprev₂ .full
    have hsame := hsame₂.trans hsame₃
    have hother : ∀ x ≠ a, (st₃.hdr x).slots = (st.hdr x).slots := fun x hx => by
      rw [hsame.slots, hother₁ x hx]
    refine ⟨st₃, moved L .partly .full a, firstFreeSlot (st.hdr a).slots,
      returns_slabAlloc hhead hne hslab hret₁ hslab₁ ?_, ?_, ?_, ?_⟩
    · rw [if_pos hzero]
      exact hret₂.bind (hret₃.bind (Prog.returns_pure _ _))
    · refine h.move hb hin hchained₃ (hsame.sizes.trans hsch₁) (hsame.regions.trans hsame₁.regions)
        (fun _ _ hx => mem_moved hx) self_mem_moved ?_ hother ?_ (fun x _ => ?_) fun x => ?_
      · rw [hsame.slots]
        exact hzero
      · rw [hsame.refcount]
        exact hfirst _ fun x => by rw [moved_of_ne (by decide) (by decide)]
      · rw [hsame.refcount, hrefcount₁]
      · rw [hsame.page, hpage₁]
    · refine allocated_of_slots (hsame.sizes.trans hsch₁) (hsame.regions.trans hsame₁.regions) hslab
        hi hbit hother fun j hj => ?_
      rw [hsame.slots]
      exact hbits j hj
    · exact hsame.regions.trans hsame₁.regions
  · -- the slab is still partial
    have hpartly₁ : SlabList.Holds .partly st.sch.toSlabSizes (st₁.hdr a).slots := by
      rw [hslot₁] at hzero ⊢
      exact hpartly.take h.sized hzero
    refine ⟨st₁, L, firstFreeSlot (st.hdr a).slots,
      returns_slabAlloc hhead hne hslab hret₁ hslab₁ ?_, ?_, ?_, hsame₁.regions⟩
    · rw [if_neg hzero]
      exact Prog.returns_pure _ _
    · exact h.move hb hin hchained₁ hsch₁ hsame₁.regions (fun _ _ _ => Iff.rfl) hmem hpartly₁
        hother₁ (hfirst _ fun _ => Iff.rfl) (fun x _ => hrefcount₁ x) hpage₁
    · exact allocated_of_slots hsch₁ hsame₁.regions hslab hi hbit hother₁ hbits

/-! ## An empty slab -/

/-- The first slot of the first empty slab is taken. -/
theorem slabAlloc_empty (h : SlabInv st L) (hpart : L .partly = []) (hL : L .empty = a :: l)
    (answer : Option SlabRegion) :
    ∃ st' L' i, (slabAlloc answer).Returns st st' (st.sch.item a i) ∧ SlabInv st' L' ∧
      Allocated st st' a i ∧ st'.regions = st.regions := by
  have hmem : a ∈ L .empty := by
    rw [hL]
    exact List.mem_cons_self ..
  have hslab := h.chained.isSlab .empty a hmem
  have hne := h.chained.ne_zero hmem
  have htwo := h.sized.two_le
  obtain ⟨base, hb, hin⟩ := id hslab
  have hhead : st.sch.head .empty = a := by
    have hlinked := h.chained.linked .empty
    rw [hL] at hlinked
    exact hlinked.eq_headD
  have hnone : st.sch.head .partly = 0 := ((h.chained.linked .partly).eq_null_iff).2 hpart
  obtain ⟨-, hall⟩ := (holds_empty_iff h.sized).1 (h.slots .empty a hmem)
  -- the links, then the count of the region, then the slots
  obtain ⟨st₂, st₃, hret₂, hret₃, hsame, hchained₃⟩ := h.chained.takeEmpty hpart hL
  have hbase₃ : st₃.IsSlab base := hsame.isSlab_iff.2 (h.isSlab_base hb)
  obtain ⟨st₄, hret₄, hlinks₄, hslots₄, hrefcount₄, hpage₄⟩ :=
    returns_setRefcount hbase₃ ((st₃.hdr base).refcount + 1)
  have hslab₄ : st₄.IsSlab a := hlinks₄.isSlab_iff.2 (hsame.isSlab_iff.2 hslab)
  obtain ⟨st₅, hret₅, hlinks₅, hslots₅, hrefcount₅, hpage₅⟩ :=
    returns_setSlots hslab₄ st.sch.initialSlotmask
  have hsizes : st₅.sch.toSlabSizes = st.sch.toSlabSizes := by
    rw [hlinks₅.sch, hlinks₄.sch, hsame.sizes]
  have hregions : st₅.regions = st.regions := by
    rw [hlinks₅.regions, hlinks₄.regions, hsame.regions]
  have hslot : (st₅.hdr a).slots = st.sch.initialSlotmask := by rw [hslots₅, if_pos rfl]
  have hother : ∀ x ≠ a, (st₅.hdr x).slots = (st.hdr x).slots := fun x hx => by
    rw [hslots₅, if_neg hx, hslots₄, hsame.slots]
  refine ⟨st₅, moved L .empty .partly a, 0, ?_, ?_, ?_, hregions⟩
  · refine (Prog.returns_read _ _).bind ?_
    refine (returns_getHead hnone).bind ?_
    rw [if_neg (by simp)]
    refine (returns_getHead hhead).bind ?_
    refine (returns_setHead st .partly a).1.bind ?_
    rw [if_pos hne]
    refine hret₂.bind (hret₃.bind ?_)
    refine (h.returns_pageOf hb hin
      (hsame.isSlab_iff.2 hslab) (hsame.refcount a) (hsame.page a)).bind ?_
    refine (returns_getField _ hbase₃).bind ?_
    exact hret₄.bind (hret₅.bind (Prog.returns_pure _ _))
  · refine h.move hb hin ((hchained₃.of_sameLinks hlinks₄).of_sameLinks hlinks₅) hsizes hregions
      (fun _ _ hx => mem_moved hx) self_mem_moved ?_ hother ?_ (fun x hx => ?_) fun x => ?_
    · rw [hslot]
      exact holds_initialSlotmask h.sized
    · -- one slab more of the region is in use
      have hcount : st.sch.inUse (moved L .empty .partly a .empty) base =
          st.sch.inUse (L .empty) base + 1 := by
        have hnodup := h.chained.nodup .empty
        rw [hL] at hnodup
        rw [moved_source (by decide), hL, List.erase_cons_head]
        exact SlabSizes.inUse_cons hin (List.nodup_cons.1 hnodup).1
      rw [hrefcount₅, hrefcount₄, if_pos rfl, hsame.refcount, hcount, (h.first base hb).1]
      exact ⟨rfl, Nat.succ_pos _⟩
    · rw [hrefcount₅, hrefcount₄, if_neg hx, hsame.refcount]
    · rw [hpage₅, hpage₄, hsame.page]
  · refine allocated_of_slots hsizes hregions hslab (by omega) (hall 0 (by omega)) hother
      fun j hj => ?_
    rw [hslot, testBit_initialSlotmask h.sized hj, hall j hj, Bool.true_and]

end SlabInv

end Zalloc
