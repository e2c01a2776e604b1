import Zalloc.Foundations.Runs
import Zalloc.Slab.Carve
import Zalloc.Slab.Release

/-!
# Runs of a chain

A configuration is a chain together with the addresses of the items that have been handed out and
not been given back, which the source does not keep. The steps are the calls of `slab_alloc` and the
calls of `slab_free` for an item that is live.

## Main definitions

* `SlabStep c op c'`: a call that returns.
* `SlabOp.Fresh c op`: a new region, if there is one, is aligned and apart from the mapped ones.
* `SlabReady itemsize c L`: the invariant of a configuration whose lists have the nodes `L`.

## Main results

* `SlabReady.step`, `reach_slabReady`: the invariant holds in every run.
-/

set_option autoImplicit false

namespace Zalloc

/-! ## Configurations -/

/-- A chain and the live items. -/
structure SlabConfig where
  /-- The chain, the headers and the regions. -/
  st : SlabState
  /-- The addresses handed out and not given back. -/
  live : List ℕ

/-- The calls. -/
inductive SlabOp where
  /-- `slab_alloc`; `answer` is what the system answers if a region is needed. -/
  | alloc (answer : Option SlabRegion)
  /-- `slab_free`. -/
  | free (addr : ℕ)

/-- A call that returns. -/
inductive SlabStep : SlabConfig → SlabOp → SlabConfig → Prop
  /-- An allocation hands out an item unless it returns `NULL`. -/
  | alloc {c : SlabConfig} {st' : SlabState} {answer : Option SlabRegion} {r : ℕ}
      (h : (slabAlloc answer).Returns c.st st' r) :
      SlabStep c (.alloc answer) ⟨st', if r = 0 then c.live else r :: c.live⟩
  /-- A release is of a live item. -/
  | free {c : SlabConfig} {st' : SlabState} {addr : ℕ} (hmem : addr ∈ c.live)
      (h : (slabFree addr).Returns c.st st' ()) :
      SlabStep c (.free addr) ⟨st', c.live.filter fun x => x ≠ addr⟩

/-- A new region, if there is one, is aligned and apart from the mapped ones. -/
def SlabOp.Fresh (c : SlabConfig) : SlabOp → Prop
  | .alloc answer => FreshRegion c.st answer
  | .free _ => True

/-- A chain after `slab_init`. Nothing is known about the memory. -/
def slabStart (sch : SlabChain) (hdr : ℕ → SlabHeader) : SlabConfig := ⟨⟨sch, hdr, []⟩, []⟩

/-- The item at the address is in use. -/
def UsedItem (st : SlabState) (x : ℕ) : Prop := ∃ a i, UsedSlot st a i ∧ x = st.sch.item a i

/-! ## Items -/

section Items

variable {st st' : SlabState} {L : SlabList → List ℕ} {a a' i i' x : ℕ}

theorem UsedSlot.usedItem (h : UsedSlot st a i) : UsedItem st (st.sch.item a i) := ⟨a, i, h, rfl⟩

theorem UsedItem.ne_zero (h : UsedItem st x) : x ≠ 0 := by
  obtain ⟨a, i, -, rfl⟩ := h
  rw [SlabSizes.item, dataOffset]
  omega

/-- An item in use has one slab and one slot. -/
theorem SlabInv.item_inj (h : SlabInv st L) (hused : UsedSlot st a i) (hused' : UsedSlot st a' i')
    (heq : st.sch.item a i = st.sch.item a' i') : a = a' ∧ i = i' :=
  h.sized.item_inj (h.dvd hused.1) (h.dvd hused'.1) hused.2.1 hused'.2.1 heq

/-- The items after an allocation. -/
theorem Allocated.usedItem_iff (h : Allocated st st' a i) :
    UsedItem st' x ↔ UsedItem st x ∨ x = st.sch.item a i := by
  simp only [UsedItem, h.used, h.sizes]
  constructor
  · rintro ⟨b, j, hused | ⟨rfl, rfl⟩, rfl⟩
    · exact .inl ⟨b, j, hused, rfl⟩
    · exact .inr rfl
  · rintro (⟨b, j, hused, rfl⟩ | rfl)
    · exact ⟨b, j, .inl hused, rfl⟩
    · exact ⟨a, i, .inr ⟨rfl, rfl⟩, rfl⟩

/-- The item of an allocation was not in use. -/
theorem Allocated.not_usedItem (h : Allocated st st' a i) (hinv : SlabInv st' L) :
    ¬ UsedItem st (st.sch.item a i) := by
  rintro ⟨b, j, hused, heq⟩
  rw [← h.sizes] at heq
  -- both items are in use afterwards
  have hnew : UsedSlot st' a i := (h.used a i).2 (.inr ⟨rfl, rfl⟩)
  have hold : UsedSlot st' b j := (h.used b j).2 (.inl hused)
  obtain ⟨rfl, rfl⟩ := hinv.item_inj hnew hold heq
  exact h.free hused

/-- The items after a release. -/
theorem Freed.usedItem_iff (h : Freed st st' a i) (hinv : SlabInv st L) (hused : UsedSlot st a i) :
    UsedItem st' x ↔ UsedItem st x ∧ x ≠ st.sch.item a i := by
  simp only [UsedItem, h.used, h.sizes]
  constructor
  · rintro ⟨b, j, ⟨hb, hne⟩, rfl⟩
    exact ⟨⟨b, j, hb, rfl⟩, fun heq => hne (hinv.item_inj hb hused heq)⟩
  · rintro ⟨⟨b, j, hb, rfl⟩, hne⟩
    refine ⟨b, j, ⟨hb, ?_⟩, rfl⟩
    rintro ⟨rfl, rfl⟩
    exact hne rfl

end Items

/-! ## The invariant -/

/-- The invariant of a configuration whose lists have the nodes `L`. -/
structure SlabReady (itemsize : ℕ) (c : SlabConfig) (L : SlabList → List ℕ) : Prop where
  /-- The invariant of the chain. -/
  inv : SlabInv c.st L
  /-- The size of an item is that of `slab_init`. -/
  itemsize : c.st.sch.itemsize = itemsize
  /-- The live items are those in use. -/
  live : ∀ x, x ∈ c.live ↔ UsedItem c.st x
  /-- No item is handed out twice. -/
  nodup : c.live.Nodup

section

variable {itemsize : ℕ} {sch : SlabChain} {hdr : ℕ → SlabHeader} {c c' : SlabConfig}
  {L : SlabList → List ℕ} {op : SlabOp}

/-- A chain after `slab_init` has no slabs. -/
theorem slabReady_start (hsized : Sized sch.toSlabSizes) (hitemsize : sch.itemsize = itemsize)
    (hhead : ∀ w, sch.head w = 0) :
    SlabReady itemsize (slabStart sch hdr) fun _ => [] where
  inv :=
    { sized := hsized
      regions := ⟨List.nodup_nil, List.forall_mem_nil _, List.forall_mem_nil _,
        List.forall_mem_nil _, List.forall_mem_nil _⟩
      chained := {
        linked := fun w => by
          show Links.Linked 0 _ _ (sch.head w) []
          rw [hhead w]
          exact Links.Linked.nil 0 _ _
        nodup := fun _ => List.nodup_nil
        unique := fun _ _ _ hx => nomatch hx
        isSlab := fun _ => List.forall_mem_nil _ }
      cover := fun _ ⟨_, hb, _⟩ => nomatch hb
      slots := fun _ => List.forall_mem_nil _
      first := List.forall_mem_nil _
      rest := List.forall_mem_nil _ }
  itemsize := hitemsize
  live x := by
    constructor
    · exact fun hx => nomatch hx
    · rintro ⟨a, i, ⟨⟨base, hb, -⟩, -⟩, -⟩
      cases hb
  nodup := List.nodup_nil

/-- Every step keeps the invariant. -/
theorem SlabReady.step (h : SlabReady itemsize c L) (hok : op.Fresh c) (hs : SlabStep c op c') :
    ∃ L', SlabReady itemsize c' L' := by
  cases hs with
  | alloc hret =>
    rcases h.inv.slabAlloc hok with ⟨st', L', a, i, hret', hinv, halloc⟩ | ⟨rfl, -, -, hret'⟩
    · obtain ⟨rfl, rfl⟩ := Prog.returns_unique hret hret'
      -- the item that is handed out is in use now
      have hused : UsedItem _ _ := halloc.usedItem_iff.2 (.inr rfl)
      rw [if_neg hused.ne_zero]
      refine ⟨L', hinv, ?_, fun x => ?_, List.nodup_cons.2 ⟨fun hmem => ?_, h.nodup⟩⟩
      · exact (congrArg SlabSizes.itemsize halloc.sizes).trans h.itemsize
      · rw [List.mem_cons, h.live x, halloc.usedItem_iff, or_comm]
      · exact halloc.not_usedItem hinv ((h.live _).1 hmem)
    · -- no region, and nothing has changed
      obtain ⟨rfl, rfl⟩ := Prog.returns_unique hret hret'
      exact ⟨L, h⟩
  | free hmem hret =>
    obtain ⟨a, i, hused, rfl⟩ := (h.live _).1 hmem
    obtain ⟨st', L', hret', hinv, hfreed⟩ := h.inv.slabFree hused
    obtain ⟨rfl, -⟩ := Prog.returns_unique hret hret'
    refine ⟨L', hinv, ?_, fun x => ?_, h.nodup.filter _⟩
    · exact (congrArg SlabSizes.itemsize hfreed.sizes).trans h.itemsize
    · rw [List.mem_filter, h.live x, hfreed.usedItem_iff h.inv hused, decide_eq_true_iff]

/-- The invariant holds in every run. -/
theorem reach_slabReady (hsized : Sized sch.toSlabSizes) (hitemsize : sch.itemsize = itemsize)
    (hhead : ∀ w, sch.head w = 0)
    (hreach : Runs.Reach SlabStep (fun c op => op.Fresh c) (slabStart sch hdr) c) :
    ∃ L, SlabReady itemsize c L := by
  refine hreach.invariant (I := fun c => ∃ L, SlabReady itemsize c L)
    ⟨_, slabReady_start hsized hitemsize hhead⟩ ?_
  rintro c op c' ⟨L, h⟩ hok hs
  exact h.step hok hs

end

/-! ## A region of two slabs

A chain whose regions have two slabs, after the first allocation. -/

/-- The exact value of the logarithm. -/
def exactCeilLog2 : CeilLog2 where
  val := Nat.clog 2
  le_clog _ _ := le_rfl
  le_two_pow n _ := (Nat.le_pow_clog (by decide) n).trans (Nat.le_add_right _ _)

/-- A chain of items of `8192` bytes. -/
def pairs : SlabChain where
  itemsize := 8192
  itemcount := 63
  slabsize := 2 ^ 19
  pagesPerAlloc := 2 ^ 20
  initialSlotmask := 2 ^ 63 - 2
  emptySlotmask := 2 ^ 63 - 1
  alignmentMask := 2 ^ 64 - 2 ^ 19
  head := fun _ => 0

/-- Its start. -/
def pairsStart : SlabConfig := slabStart pairs fun _ => ⟨0, 0, 0, 0, 0⟩

/-- The region that the system maps. -/
def oneRegion : SlabRegion := ⟨2 ^ 20, fun _ => ⟨0, 0, 0, 0, 0⟩⟩

/-- The chain after the first allocation. -/
def oneItem : SlabState := ((slabAlloc (some oneRegion)).exec 8 pairsStart.st).state

theorem slabInit_pairs : slabInit exactCeilLog2 8192 = some pairs := by
  have hval : exactCeilLog2.val (u64 (dataOffset + u64 (64 * 8192))) = 20 := by decide
  unfold slabInit
  rw [if_neg (by decide)]
  dsimp only
  rw [hval, if_neg (by decide)]
  rfl

theorem returns_oneItem :
    (slabAlloc (some oneRegion)).Returns pairsStart.st oneItem (2 ^ 20 + 40) :=
  Prog.returns_of_value? (by decide)

theorem reach_oneItem :
    Runs.Reach SlabStep (fun c op => op.Fresh c) pairsStart ⟨oneItem, [2 ^ 20 + 40]⟩ := by
  have hok : SlabOp.Fresh pairsStart (.alloc (some oneRegion)) :=
    ⟨by decide, by decide, by decide, List.forall_mem_nil _⟩
  have hstep : SlabStep pairsStart (.alloc (some oneRegion)) _ := .alloc returns_oneItem
  rw [if_neg (by decide)] at hstep
  exact .step .start hok hstep

end Zalloc
