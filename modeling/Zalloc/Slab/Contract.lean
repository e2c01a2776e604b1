import Mathlib.Data.Set.Insert
import Zalloc.Slab.Run

/-!
# The contract of a chain

What holds of a chain in every run of `slab_alloc` and `slab_free` after `slab_init`, as long as
every new region is aligned to the slab size and apart from the mapped ones.

## Main definitions

* `ChainOk st L`: the lists have the nodes `L`, and every slab is in the list it belongs to.
* `codedItems st`: the set of items that the slot masks stand for.
* `RefinesItems itemsize c`: the chain is a set of live items.

## Main results

* `slabChain_ok`: the lists, the slots and the counts are right, and every call returns.
* `slabChain_refines`: the calls are those on a set of items.
-/

set_option autoImplicit false

namespace Zalloc

/-! ## The representation -/

/-- The lists of a chain have the nodes `L`, and every slab is in the list it belongs to. -/
structure ChainOk (st : SlabState) (L : SlabList → List ℕ) : Prop where
  /-- The lists are doubly linked and end with `NULL`, and their heads have no predecessor. -/
  linked : ∀ w, Links.Linked 0 st.nextOf st.prevOf (st.sch.head w) (L w)
  /-- No list has a slab twice. -/
  nodup : ∀ w, (L w).Nodup
  /-- The slabs of the mapped regions are in one list each. -/
  cover : ∀ a, st.IsSlab a → ∃! w, a ∈ L w
  /-- There is nothing else in the lists. -/
  isSlab : ∀ w, ∀ a ∈ L w, st.IsSlab a
  /-- The list of a slab is that of its slots. -/
  slots : ∀ w, ∀ a ∈ L w, w.Holds st.sch.toSlabSizes (st.hdr a).slots
  /-- The first slab of a region is the one with a reference count. -/
  marker : ∀ base ∈ st.regions, ∀ a, st.sch.InRegion base a →
    ((st.hdr a).refcount ≠ 0 ↔ a = base)
  /-- The reference count is the number of slabs of the region that are not empty. -/
  count : ∀ base ∈ st.regions, (st.hdr base).refcount = st.sch.inUse (L .empty) base

/-- The invariant implies that the chain is as it should be. -/
theorem SlabInv.chainOk {st : SlabState} {L : SlabList → List ℕ} (h : SlabInv st L) :
    ChainOk st L where
  linked := h.chained.linked
  nodup := h.chained.nodup
  cover a ha := by
    obtain ⟨w, hw⟩ := h.cover a ha
    exact ⟨w, hw, fun w' hw' => h.chained.unique w' w a hw' hw⟩
  isSlab := h.chained.isSlab
  slots := h.slots
  marker base hb a ha := by
    constructor
    · intro hne
      by_contra hother
      exact hne (h.rest base hb a ha hother).1
    · rintro rfl
      exact Nat.ne_of_gt (h.first a hb).2
  count base hb := (h.first base hb).1

/-- In every run the chain is as it should be, and every call returns: no pointer is followed that
is not the address of a slab of a mapped region. -/
theorem slabChain_ok (ceilLog2 : CeilLog2) {itemsize : ℕ} (hlo : 1 ≤ itemsize)
    (hhi : itemsize ≤ 2 ^ 56) :
    ∃ sch, slabInit ceilLog2 itemsize = some sch ∧ ∀ hdr c,
      Runs.Reach SlabStep (fun c op => op.Fresh c) (slabStart sch hdr) c →
        (∃ L, ChainOk c.st L) ∧
        (∀ answer, FreshRegion c.st answer →
          (∃ st' r, (slabAlloc answer).Returns c.st st' r) ∧
          ∀ st', ¬ (slabAlloc answer).Aborts c.st st') ∧
        ∀ addr ∈ c.live,
          (∃ st', (slabFree addr).Returns c.st st' ()) ∧
          ∀ st', ¬ (slabFree addr).Aborts c.st st' := by
  obtain ⟨sch, hinit, hsized, hitemsize, hhead⟩ := sized_slabInit ceilLog2 hlo hhi
  refine ⟨sch, hinit, fun hdr c hreach => ?_⟩
  obtain ⟨L, h⟩ := reach_slabReady hsized hitemsize hhead hreach
  refine ⟨⟨L, h.inv.chainOk⟩, fun answer hfresh => ?_, fun addr hmem => ?_⟩
  · rcases h.inv.slabAlloc hfresh with ⟨st', L', a, i, hret, -⟩ | ⟨-, -, -, hret⟩
    · exact ⟨⟨st', _, hret⟩, fun _ => Prog.not_aborts_of_returns hret⟩
    · exact ⟨⟨_, _, hret⟩, fun _ => Prog.not_aborts_of_returns hret⟩
  · obtain ⟨a, i, hused, rfl⟩ := (h.live addr).1 hmem
    obtain ⟨st', L', hret, -⟩ := h.inv.slabFree hused
    exact ⟨⟨st', hret⟩, fun _ => Prog.not_aborts_of_returns hret⟩

/-- The chain after the first allocation is as it should be, and the item can be given back. -/
theorem slabChain_ok_oneItem :
    (∃ L, ChainOk oneItem L) ∧ ∃ st', (slabFree (2 ^ 20 + 40)).Returns oneItem st' () := by
  obtain ⟨sch, hinit, h⟩ := slabChain_ok exactCeilLog2 (show 1 ≤ 8192 by decide) (by decide)
  obtain rfl : pairs = sch := Option.some.inj (slabInit_pairs.symm.trans hinit)
  obtain ⟨hL, -, hfree⟩ := h _ _ reach_oneItem
  exact ⟨hL, (hfree _ (List.mem_singleton_self _)).1⟩

/-! ## The set of items -/

/-- The addresses of the slots whose bit is `0`, in the slabs that are not empty. -/
def codedItems (st : SlabState) : Set ℕ :=
  {x | ∃ a, st.IsSlab a ∧ (st.hdr a).slots ≠ st.sch.emptySlotmask ∧
    ∃ i < st.sch.itemcount, (st.hdr a).slots.testBit i = false ∧ x = st.sch.item a i}

/-- A slab with a used slot is not empty. -/
theorem mem_codedItems {st : SlabState} (hz : Sized st.sch.toSlabSizes) {x : ℕ} :
    x ∈ codedItems st ↔ UsedItem st x := by
  constructor
  · rintro ⟨a, ha, -, i, hi, hbit, rfl⟩
    exact ⟨a, i, ⟨ha, hi, hbit⟩, rfl⟩
  · rintro ⟨a, i, ⟨ha, hi, hbit⟩, rfl⟩
    refine ⟨a, ha, fun hempty => ?_, i, hi, hbit, rfl⟩
    have hfree := ((holds_empty_iff hz).1 hempty).2 i hi
    rw [hbit] at hfree
    cases hfree

/-- An item at `r` lies in the data area of a slab, apart from the headers and the live items. -/
structure PlacedItem (itemsize : ℕ) (st : SlabState) (live : List ℕ) (r : ℕ) : Prop where
  /-- It lies in the data area of a slab. -/
  inSlab : ∃ a, st.IsSlab a ∧ a + dataOffset ≤ r ∧ r + itemsize ≤ a + st.sch.slabsize
  /-- It does not overlap a live item. -/
  items : ∀ x ∈ live, r + itemsize ≤ x ∨ x + itemsize ≤ r
  /-- It does not overlap a header. -/
  headers : ∀ a, st.IsSlab a → r + itemsize ≤ a ∨ a + dataOffset ≤ r

/-- The chain is a set of items, and the calls are those on a set. -/
structure RefinesItems (itemsize : ℕ) (c : SlabConfig) : Prop where
  /-- The items are the live ones. -/
  coded : codedItems c.st = {x | x ∈ c.live}
  /-- `slab_alloc` adds an item, or it returns `NULL`. Then all slots are live, there is no new
  region, and nothing has changed. -/
  alloc : ∀ answer, FreshRegion c.st answer → ∃ st' r, (slabAlloc answer).Returns c.st st' r ∧
    (r ≠ 0 → PlacedItem itemsize st' c.live r ∧ codedItems st' = insert r (codedItems c.st)) ∧
    (r = 0 → answer = none ∧ st' = c.st ∧
      ∀ a i, c.st.IsSlab a → i < c.st.sch.itemcount → c.st.sch.item a i ∈ c.live)
  /-- `slab_free` removes an item. -/
  free : ∀ addr ∈ c.live, ∃ st', (slabFree addr).Returns c.st st' () ∧
    codedItems st' = codedItems c.st \ {addr}

section Refines

variable {st st' : SlabState} {L L' : SlabList → List ℕ} {itemsize a i : ℕ} {c : SlabConfig}

/-- A new item is where it should be. -/
theorem SlabReady.placedItem (h : SlabReady itemsize c L) (hinv : SlabInv st' L')
    (halloc : Allocated c.st st' a i) :
    PlacedItem itemsize st' c.live (c.st.sch.item a i) := by
  have hnew : UsedSlot st' a i := (halloc.used a i).2 (.inr ⟨rfl, rfl⟩)
  have hitemsize : st'.sch.itemsize = itemsize :=
    (congrArg SlabSizes.itemsize halloc.sizes).trans h.itemsize
  have hfresh := halloc.not_usedItem hinv
  rw [← halloc.sizes] at hfresh ⊢
  rw [← hitemsize]
  refine ⟨⟨a, hnew.1, Sized.le_item, hinv.sized.item_le hnew.2.1⟩, fun x hx => ?_, fun b hb =>
    hinv.sized.item_disjoint_header (hinv.dvd hnew.1) (hinv.dvd hb) hnew.2.1⟩
  have hold := (h.live x).1 hx
  have hne : st'.sch.item a i ≠ x := by
    rintro rfl
    exact hfresh hold
  -- both items are in use afterwards
  obtain ⟨b, j, hused, rfl⟩ := halloc.usedItem_iff.2 (.inl hold)
  exact hinv.sized.item_disjoint (hinv.dvd hnew.1) (hinv.dvd hused.1) hnew.2.1 hused.2.1 hne

/-- When there is neither a partial nor an empty slab, every slot is in use. -/
theorem SlabInv.usedSlot_of_full (h : SlabInv st L) (hpart : L .partly = [])
    (hempty : L .empty = []) (ha : st.IsSlab a) (hi : i < st.sch.itemcount) : UsedSlot st a i := by
  obtain ⟨w, hw⟩ := h.cover a ha
  -- the slab can only be in the list of full ones
  cases w with
  | partly =>
    rw [hpart] at hw
    cases hw
  | empty =>
    rw [hempty] at hw
    cases hw
  | full => exact ⟨ha, hi, ((holds_full_iff h.sized).1 (h.slots .full a hw)).2 i hi⟩

/-- The invariant implies that the chain is a set of items. -/
theorem SlabReady.refinesItems (h : SlabReady itemsize c L) : RefinesItems itemsize c where
  coded := by
    ext x
    rw [mem_codedItems h.inv.sized, Set.mem_ofPred_eq, h.live x]
  alloc answer hfresh := by
    rcases h.inv.slabAlloc hfresh with ⟨st', L', a, i, hret, hinv, halloc⟩ | hnull
    · have hused : UsedItem st' (c.st.sch.item a i) := halloc.usedItem_iff.2 (.inr rfl)
      refine ⟨st', _, hret, fun _ => ⟨h.placedItem hinv halloc, ?_⟩,
        fun hzero => absurd hzero hused.ne_zero⟩
      ext x
      rw [mem_codedItems hinv.sized, Set.mem_insert_iff, mem_codedItems h.inv.sized,
        halloc.usedItem_iff, or_comm]
    · obtain ⟨rfl, hpart, hempty, hret⟩ := hnull
      refine ⟨c.st, 0, hret, fun hne => absurd rfl hne, fun _ => ⟨rfl, rfl, fun a i ha hi => ?_⟩⟩
      exact (h.live _).2 (h.inv.usedSlot_of_full hpart hempty ha hi).usedItem
  free addr hmem := by
    obtain ⟨a, i, hused, rfl⟩ := (h.live addr).1 hmem
    obtain ⟨st', L', hret, hinv, hfreed⟩ := h.inv.slabFree hused
    refine ⟨st', hret, ?_⟩
    ext x
    rw [mem_codedItems hinv.sized, Set.mem_sdiff, Set.mem_singleton_iff, mem_codedItems h.inv.sized,
      hfreed.usedItem_iff h.inv hused]

end Refines

/-- In every run the chain is the set of its live items. -/
theorem slabChain_refines (ceilLog2 : CeilLog2) {itemsize : ℕ} (hlo : 1 ≤ itemsize)
    (hhi : itemsize ≤ 2 ^ 56) :
    ∃ sch, slabInit ceilLog2 itemsize = some sch ∧ ∀ hdr c,
      Runs.Reach SlabStep (fun c op => op.Fresh c) (slabStart sch hdr) c →
        RefinesItems itemsize c := by
  obtain ⟨sch, hinit, hsized, hitemsize, hhead⟩ := sized_slabInit ceilLog2 hlo hhi
  refine ⟨sch, hinit, fun hdr c hreach => ?_⟩
  obtain ⟨L, h⟩ := reach_slabReady hsized hitemsize hhead hreach
  exact h.refinesItems

/-- After the first allocation the chain is the set of one item. -/
theorem slabChain_refines_oneItem :
    codedItems oneItem = {2 ^ 20 + 40} ∧ RefinesItems 8192 ⟨oneItem, [2 ^ 20 + 40]⟩ := by
  obtain ⟨sch, hinit, h⟩ := slabChain_refines exactCeilLog2 (show 1 ≤ 8192 by decide) (by decide)
  obtain rfl : pairs = sch := Option.some.inj (slabInit_pairs.symm.trans hinit)
  have hrefines := h _ _ reach_oneItem
  refine ⟨hrefines.coded.trans ?_, hrefines⟩
  ext x
  rw [Set.mem_ofPred_eq, List.mem_singleton, Set.mem_singleton_iff]

end Zalloc
