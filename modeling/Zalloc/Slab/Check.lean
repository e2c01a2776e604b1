import Zalloc.Slab.Recover

/-!
# `slab_is_valid`

The assertions of `slab_is_valid` are compiled out, because `NDEBUG` is defined with the value `0`.
Here they are taken as they stand, as if it were not defined. The function goes through the three
lists, with the slab before in `prev`.

Where a slab is smaller than `slab_pagesize`, the assertions want every region at a multiple of
`slab_pagesize`. The program does not need that, and `mmap` does not promise it.

## Main definitions

* `chainValid`, `prevValid`, `slotsValid`, `addressValid`: the assertions about the sizes, about the
  link backwards and the slots of a slab, and about the addresses.
* `slabIsValid`: the function.
* `PagesAligned st`: the regions are where the assertions want them.

## Main results

* `slabIsValid_iff`: in every run, the function returns `1` exactly if the regions are aligned to
  `slab_pagesize`, and otherwise one of its assertions about addresses fails.
-/

set_option autoImplicit false

namespace Zalloc

/-! ## The assertions -/

/-- `POWEROF2`. -/
def powerOf2 (x : ℕ) : Bool := x ≠ 0 ∧ x &&& (x - 1) = 0

/-- `FREE_SLOTS`. -/
def freeSlots (slots : ℕ) : ℕ := BitMask.count 64 slots

/-- The assertions about the sizes: lines 49 to 63. -/
def chainValid (z : SlabSizes) : Bool :=
  powerOf2 slabPagesize && powerOf2 z.slabsize && powerOf2 z.pagesPerAlloc &&
    decide (z.itemcount ≥ 2 ∧ z.itemcount ≤ 64) && decide (z.itemsize ≥ 1 ∧ z.itemsize ≤ u64Max) &&
    decide (z.pagesPerAlloc ≥ slabPagesize) && decide (z.pagesPerAlloc ≥ z.slabsize) &&
    decide (u64 (dataOffset + u64 (z.itemsize * z.itemcount)) ≤ z.slabsize) &&
    decide (z.emptySlotmask = u64Max >>> (64 - z.itemcount)) &&
    decide (z.initialSlotmask = z.emptySlotmask ^^^ 1) &&
    decide (z.alignmentMask = u64Max ^^^ (z.slabsize - 1))

/-- The assertion about the link backwards: lines 71 to 74. -/
def prevValid (prev slabPrev : ℕ) : Bool :=
  if prev = 0 then slabPrev = 0 else slabPrev = prev

/-- The assertions about the slots of a slab: lines 76 to 90. -/
def slotsValid (z : SlabSizes) (head : SlabList) (slots : ℕ) : Bool :=
  match head with
  | .full => slots = 0
  | .empty => slots = z.emptySlotmask
  | .partly =>
    slots &&& (u64Max ^^^ z.emptySlotmask) = 0 ∧ freeSlots slots ≥ 1 ∧
      freeSlots slots < z.itemcount

/-- The assertions about the addresses of a slab and of its region: lines 92 to 105. -/
def addressValid (z : SlabSizes) (slab : ℕ) (h : SlabHeader) : Bool :=
  if h.refcount = 0 then
    slab % z.slabsize = 0 ∧
      if z.slabsize ≥ slabPagesize then h.page % z.slabsize = 0 else h.page % slabPagesize = 0
  else if z.slabsize ≥ slabPagesize then slab % z.slabsize = 0
  else slab % slabPagesize = 0

/-- `assert`. -/
def assert (e : Bool) : SlabProg Unit := Prog.require fun _ => e

/-- One iteration of the inner loop, over `slab` and `prev`. -/
def validBody (z : SlabSizes) (head : SlabList) : ℕ × ℕ → SlabProg ((ℕ × ℕ) ⊕ Unit)
  | (slab, prev) =>
    if slab ≠ 0 then do
      let slabPrev ← getField SlabHeader.prev slab
      assert (prevValid prev slabPrev)
      let slots ← getField SlabHeader.slots slab
      assert (slotsValid z head slots)
      let h ← getField id slab
      assert (addressValid z slab h)
      let next ← getField SlabHeader.next slab
      pure (.inl (next, slab))
    else pure (.inr ())

/-- The assertions about the slabs of a list. -/
def validList (z : SlabSizes) (head : SlabList) : SlabProg Unit := do
  let slab ← getHead head
  Prog.loop (validBody z head) (slab, 0)

/-- `slab_is_valid`, with its assertions. -/
def slabIsValid : SlabProg ℕ := do
  let z ← Prog.read fun st => st.sch.toSlabSizes
  assert (chainValid z)
  validList z .full
  validList z .empty
  validList z .partly
  pure 1

/-- The regions are where the assertions want them. -/
def PagesAligned (st : SlabState) : Prop :=
  st.sch.slabsize < slabPagesize → ∀ base ∈ st.regions, slabPagesize ∣ base

/-! ## The sizes -/

section Sizes

variable {z : SlabSizes} {slots : ℕ} {w : SlabList}

theorem powerOf2_two_pow (k : ℕ) : powerOf2 (2 ^ k) = true := by
  have hne : 2 ^ k ≠ 0 := (Nat.two_pow_pos k).ne'
  exact decide_eq_true ⟨hne, (Nat.and_sub_one_eq_zero_iff_isPowerOfTwo hne).2 ⟨k, rfl⟩⟩

/-- What `slab_init` computes passes. -/
theorem Sized.chainValid (h : Sized z)
    (hpages : z.pagesPerAlloc = if z.slabsize > slabPagesize then z.slabsize else slabPagesize) :
    Zalloc.chainValid z = true := by
  obtain ⟨k, hk, hsize⟩ := h.slabsize
  have hpow : 2 ^ k ≤ 2 ^ 62 := Nat.pow_le_pow_right Nat.two_pos hk
  have hfits := h.fits
  have hpos := h.itemsize_pos
  have htwo := h.two_le
  have hcount := h.itemcount_le
  have hitems : z.itemsize ≤ z.itemcount * z.itemsize := Nat.le_mul_of_pos_left _ (by omega)
  have hpage : powerOf2 z.pagesPerAlloc = true := by
    rw [hpages, hsize]
    split_ifs
    · exact powerOf2_two_pow k
    · exact powerOf2_two_pow 20
  -- the items fit, so nothing wraps
  have hsum : u64 (dataOffset + u64 (z.itemsize * z.itemcount)) ≤ z.slabsize := by
    rw [Nat.mul_comm, u64, u64, Nat.mod_eq_of_lt (b := 2 ^ 64) (by omega),
      Nat.mod_eq_of_lt (by omega)]
    exact hfits
  have hle : slabPagesize ≤ z.pagesPerAlloc ∧ z.slabsize ≤ z.pagesPerAlloc := by
    rw [hpages]
    split_ifs <;> omega
  have hmax : z.itemsize ≤ u64Max := by
    rw [u64Max]
    omega
  have hpagesize : powerOf2 slabPagesize = true := powerOf2_two_pow 20
  have hslabsize : powerOf2 z.slabsize = true := hsize ▸ powerOf2_two_pow k
  have hempty : z.emptySlotmask = u64Max >>> (64 - z.itemcount) := by
    rw [h.emptySlotmask, u64Max_shiftRight hcount]
  simp only [Zalloc.chainValid, hpagesize, hslabsize, hpage, Bool.true_and, Bool.and_eq_true,
    decide_eq_true_iff]
  exact ⟨⟨⟨⟨⟨⟨⟨⟨htwo, hcount⟩, hpos, hmax⟩, hle.1⟩, hle.2⟩, hsum⟩, hempty⟩,
    h.initialSlotmask⟩, h.alignmentMask⟩

/-- The slots of a list pass. -/
theorem SlabList.Holds.slotsValid (hw : w.Holds z slots) (h : Sized z) :
    Zalloc.slotsValid z w slots = true := by
  cases w with
  | full => exact decide_eq_true hw
  | empty => exact decide_eq_true hw
  | partly =>
    obtain ⟨hlt, hfree, hused⟩ := (holds_partly_iff h).1 hw
    have hcount : freeSlots slots = BitMask.count z.itemcount slots :=
      BitMask.count_eq_of_lt hlt h.itemcount_le
    refine decide_eq_true ⟨?_, ?_, ?_⟩
    · -- a mask of the slots has no bit above them
      apply Nat.eq_of_testBit_eq
      intro i
      rw [h.emptySlotmask, u64Max, Nat.zero_testBit, Nat.testBit_and, Nat.testBit_xor,
        Nat.testBit_two_pow_sub_one, Nat.testBit_two_pow_sub_one]
      by_cases hi : i < z.itemcount
      · have hi' : i < 64 := hi.trans_le h.itemcount_le
        simp [hi, hi']
      · have hbig : slots < 2 ^ i := hlt.trans_le (Nat.pow_le_pow_right Nat.two_pos (by omega))
        rw [Nat.testBit_lt_two_pow hbig, Bool.false_and]
    · rw [hcount]
      exact BitMask.count_pos_iff.2 hfree
    · rw [hcount]
      exact BitMask.count_lt_iff.2 hused

end Sizes

/-! ## The lists -/

section Lists

variable {st : SlabState} {w : SlabList} {z : SlabSizes} {slab prev : ℕ} {l : List ℕ} {e : Bool}

theorem returns_assert (he : e = true) : (assert e).Returns st st () :=
  Prog.returns_require_iff.2 ⟨he, rfl⟩

theorem aborts_assert (he : e = false) : (assert e).Aborts st st :=
  Prog.aborts_require_iff.2 ⟨by rw [he]; exact Bool.false_ne_true, rfl⟩

/-- The assertions about a slab, up to those about its address. -/
theorem validBody_iff (hslab : st.IsSlab slab) (hne : slab ≠ 0) (hprev : st.prevOf slab = prev)
    (hslots : slotsValid z w (st.hdr slab).slots = true) :
    (addressValid z slab (st.hdr slab) = true →
        (validBody z w (slab, prev)).Returns st st (.inl (st.nextOf slab, slab))) ∧
      (addressValid z slab (st.hdr slab) = false → (validBody z w (slab, prev)).Aborts st st) := by
  have hfront : (assert (prevValid prev (st.hdr slab).prev)).Returns st st () := by
    have hprev : (st.hdr slab).prev = prev := hprev
    refine returns_assert ?_
    rw [prevValid, hprev]
    split_ifs with hzero
    · exact decide_eq_true hzero
    · exact decide_eq_true rfl
  unfold validBody
  dsimp only
  rw [if_pos hne]
  constructor
  · intro haddr
    refine (returns_getField _ hslab).bind (hfront.bind ?_)
    refine (returns_getField _ hslab).bind ((returns_assert hslots).bind ?_)
    refine (returns_getField _ hslab).bind ((returns_assert haddr).bind ?_)
    exact (returns_getField _ hslab).bind (Prog.returns_pure _ _)
  · intro haddr
    refine Prog.aborts_bind_iff.2 (.inr ⟨_, _, returns_getField _ hslab, ?_⟩)
    refine Prog.aborts_bind_iff.2 (.inr ⟨_, _, hfront, ?_⟩)
    refine Prog.aborts_bind_iff.2 (.inr ⟨_, _, returns_getField _ hslab, ?_⟩)
    refine Prog.aborts_bind_iff.2 (.inr ⟨_, _, returns_assert hslots, ?_⟩)
    refine Prog.aborts_bind_iff.2 (.inr ⟨_, _, returns_getField _ hslab, ?_⟩)
    exact Prog.aborts_bind_iff.2 (.inl (aborts_assert haddr))

/-- A list whose links and slots are right passes unless it has a slab whose address does not. -/
theorem valid_loop_iff {q : ℕ} (hseg : Links.Segment 0 st.nextOf st.prevOf prev slab l q 0)
    (hslab : ∀ x ∈ l, st.IsSlab x) (hslots : ∀ x ∈ l, slotsValid z w (st.hdr x).slots = true) :
    ((∀ x ∈ l, addressValid z x (st.hdr x) = true) →
        (Prog.loop (validBody z w) (slab, prev)).Returns st st ()) ∧
      ((∃ x ∈ l, addressValid z x (st.hdr x) = false) →
        (Prog.loop (validBody z w) (slab, prev)).Aborts st st) := by
  induction l generalizing slab prev with
  | nil =>
    obtain ⟨-, rfl⟩ := hseg
    refine ⟨fun _ => .loop_exit (Prog.returns_pure _ _), fun hex => ?_⟩
    simp at hex
  | cons a l ih =>
    obtain ⟨rfl, hne, hprev, hrest⟩ := hseg
    have hmem : slab ∈ slab :: l := List.mem_cons_self ..
    obtain ⟨hpass, hfail⟩ := validBody_iff (hslab slab hmem) hne hprev (hslots slab hmem)
    obtain ⟨hpasses, hfails⟩ := ih hrest (fun x hx => hslab x (List.mem_cons_of_mem _ hx))
      fun x hx => hslots x (List.mem_cons_of_mem _ hx)
    constructor
    · intro hall
      exact (hpass (hall slab hmem)).loop_next
        (hpasses fun x hx => hall x (List.mem_cons_of_mem _ hx))
    · rintro ⟨x, hx, haddr⟩
      -- the first slab that does not pass ends the walk
      cases hfirst : addressValid z slab (st.hdr slab) with
      | false => exact Prog.aborts_loop_iff.2 (.inr (hfail hfirst))
      | true =>
        refine Prog.aborts_loop_iff.2 (.inl ⟨_, _, hpass hfirst, hfails ?_⟩)
        rcases List.mem_cons.1 hx with rfl | hx
        · rw [hfirst] at haddr
          cases haddr
        · exact ⟨x, hx, haddr⟩

end Lists

namespace SlabInv

variable {st : SlabState} {L : SlabList → List ℕ} {a base : ℕ} {w : SlabList}

/-- The address of a slab passes if that of its region does. -/
theorem addressValid_iff (h : SlabInv st L) (hb : base ∈ st.regions)
    (ha : st.sch.InRegion base a) :
    addressValid st.sch.toSlabSizes a (st.hdr a) = true ↔
      (st.sch.slabsize < slabPagesize → slabPagesize ∣ base) := by
  have hbase := h.regions.aligned base hb
  have hdvd : a % st.sch.slabsize = 0 :=
    Nat.mod_eq_zero_of_dvd (Sized.dvd_of_inRegion hbase ha)
  have hbase' : base % st.sch.slabsize = 0 := Nat.mod_eq_zero_of_dvd hbase
  rw [Nat.dvd_iff_mod_eq_zero]
  by_cases heq : a = base
  · have hpos := (h.first base hb).2
    rw [addressValid, heq, if_neg (by omega)]
    split_ifs with hlarge
    · simp only [hbase', decide_true, true_iff]
      omega
    · simp only [decide_eq_true_iff]
      exact ⟨fun hmod _ => hmod, fun hmod => hmod (by omega)⟩
  · obtain ⟨hzero, hpage⟩ := h.rest base hb a ha heq
    rw [addressValid, if_pos hzero, hpage]
    simp only [hdvd, true_and]
    split_ifs with hlarge
    · simp only [hbase', decide_true, true_iff]
      omega
    · simp only [decide_eq_true_iff]
      exact ⟨fun hmod _ => hmod, fun hmod => hmod (by omega)⟩

/-- The assertions about a list. -/
theorem validList_iff (h : SlabInv st L) (w : SlabList) :
    ((∀ x ∈ L w, addressValid st.sch.toSlabSizes x (st.hdr x) = true) →
        (validList st.sch.toSlabSizes w).Returns st st ()) ∧
      ((∃ x ∈ L w, addressValid st.sch.toSlabSizes x (st.hdr x) = false) →
        (validList st.sch.toSlabSizes w).Aborts st st) := by
  obtain ⟨q, hseg⟩ := h.chained.linked w
  obtain ⟨hpass, hfail⟩ := valid_loop_iff hseg (h.chained.isSlab w)
    fun x hx => (h.slots w x hx).slotsValid h.sized
  constructor
  · exact fun hall => (returns_getHead rfl).bind (hpass hall)
  · exact fun hex => Prog.aborts_bind_iff.2 (.inr ⟨_, _, returns_getHead rfl, hfail hex⟩)

/-- A list passes, or the function ends with it. -/
theorem validList_or (h : SlabInv st L) (w : SlabList) :
    (validList st.sch.toSlabSizes w).Returns st st () ∨
      (validList st.sch.toSlabSizes w).Aborts st st := by
  obtain ⟨hpass, hfail⟩ := h.validList_iff w
  by_cases hall : ∀ x ∈ L w, addressValid st.sch.toSlabSizes x (st.hdr x) = true
  · exact .inl (hpass hall)
  · push Not at hall
    obtain ⟨x, hx, haddr⟩ := hall
    exact .inr (hfail ⟨x, hx, Bool.eq_false_iff.2 haddr⟩)

/-- The function returns exactly if the regions are aligned. -/
theorem returns_slabIsValid (h : SlabInv st L)
    (hchain : chainValid st.sch.toSlabSizes = true) :
    (PagesAligned st → slabIsValid.Returns st st 1) ∧
      (¬ PagesAligned st → slabIsValid.Aborts st st) := by
  have hstart : (assert (chainValid st.sch.toSlabSizes)).Returns st st () := returns_assert hchain
  constructor
  · intro haligned
    have hlist : ∀ w, (validList st.sch.toSlabSizes w).Returns st st () := by
      refine fun w => (h.validList_iff w).1 fun x hx => ?_
      obtain ⟨base, hb, hin⟩ := h.chained.isSlab w x hx
      exact (h.addressValid_iff hb hin).2 fun hlt => haligned hlt base hb
    refine (Prog.returns_read _ _).bind (hstart.bind ?_)
    exact (hlist .full).bind ((hlist .empty).bind ((hlist .partly).bind (Prog.returns_pure _ _)))
  · intro hnot
    simp only [PagesAligned, Classical.not_imp, not_forall] at hnot
    obtain ⟨hlt, base, hb, hbase⟩ := hnot
    -- the first slab of the region is in a list, which does not pass
    obtain ⟨w, hw⟩ := h.cover base (h.isSlab_base hb)
    have hbad : (validList st.sch.toSlabSizes w).Aborts st st := by
      refine (h.validList_iff w).2 ⟨base, hw, Bool.eq_false_iff.2 fun haddr => hbase ?_⟩
      exact (h.addressValid_iff hb (h.sized.inRegion_base base)).1 haddr hlt
    refine Prog.aborts_bind_iff.2 (.inr ⟨_, _, Prog.returns_read _ _, ?_⟩)
    refine Prog.aborts_bind_iff.2 (.inr ⟨_, _, hstart, ?_⟩)
    rcases h.validList_or .full with hfull | hfull
    · refine Prog.aborts_bind_iff.2 (.inr ⟨_, _, hfull, ?_⟩)
      rcases h.validList_or .empty with hempty | hempty
      · refine Prog.aborts_bind_iff.2 (.inr ⟨_, _, hempty, ?_⟩)
        refine Prog.aborts_bind_iff.2 (.inl ?_)
        cases w with
        | full => exact absurd hbad (Prog.not_aborts_of_returns hfull)
        | empty => exact absurd hbad (Prog.not_aborts_of_returns hempty)
        | partly => exact hbad
      · exact Prog.aborts_bind_iff.2 (.inl hempty)
    · exact Prog.aborts_bind_iff.2 (.inl hfull)

end SlabInv

/-! ## Runs -/

section Run

variable {itemsize : ℕ} {c c' : SlabConfig} {L : SlabList → List ℕ} {op : SlabOp}

/-- The sizes of a chain never change. -/
theorem SlabReady.step_sizes (h : SlabReady itemsize c L) (hok : op.Fresh c)
    (hs : SlabStep c op c') : c'.st.sch.toSlabSizes = c.st.sch.toSlabSizes := by
  cases hs with
  | alloc hret =>
    rcases h.inv.slabAlloc hok with ⟨st', L', a, i, hret', -, halloc⟩ | ⟨rfl, -, -, hret'⟩
    · obtain ⟨rfl, -⟩ := Prog.returns_unique hret hret'
      exact halloc.sizes
    · obtain ⟨rfl, -⟩ := Prog.returns_unique hret hret'
      rfl
  | free hmem hret =>
    obtain ⟨a, i, hused, rfl⟩ := (h.live _).1 hmem
    obtain ⟨st', L', hret', -, hfreed⟩ := h.inv.slabFree hused
    obtain ⟨rfl, -⟩ := Prog.returns_unique hret hret'
    exact hfreed.sizes

/-- In every run the invariant holds, and the sizes are those of the start. -/
theorem reach_sizes {sch : SlabChain} {hdr : ℕ → SlabHeader} (hsized : Sized sch.toSlabSizes)
    (hitemsize : sch.itemsize = itemsize) (hhead : ∀ w, sch.head w = 0)
    (hreach : Runs.Reach SlabStep (fun c op => op.Fresh c) (slabStart sch hdr) c) :
    (∃ L, SlabReady itemsize c L) ∧ c.st.sch.toSlabSizes = sch.toSlabSizes := by
  refine hreach.invariant
    (I := fun c => (∃ L, SlabReady itemsize c L) ∧ c.st.sch.toSlabSizes = sch.toSlabSizes)
    ⟨⟨_, slabReady_start hsized hitemsize hhead⟩, rfl⟩ ?_
  rintro c op c' ⟨⟨L, h⟩, hsizes⟩ hok hs
  exact ⟨h.step hok hs, (h.step_sizes hok hs).trans hsizes⟩

end Run

/-- In every run whose new regions are fresh, `slab_is_valid` would return `1` and leave everything
as it is if the slabs are not smaller than `slab_pagesize` or all regions are aligned to it.
Otherwise it would stop the program, in a state that is as good as any. -/
theorem slabIsValid_iff (ceilLog2 : CeilLog2) {itemsize : ℕ} (hlo : 1 ≤ itemsize)
    (hhi : itemsize ≤ 2 ^ 56) :
    ∃ sch, slabInit ceilLog2 itemsize = some sch ∧ ∀ hdr c,
      Runs.Reach SlabStep (fun c op => op.Fresh c) (slabStart sch hdr) c →
        (PagesAligned c.st → slabIsValid.Returns c.st c.st 1) ∧
          (¬ PagesAligned c.st → slabIsValid.Aborts c.st c.st) := by
  obtain ⟨sch, hinit, hsized, hitemsize, hhead⟩ := sized_slabInit ceilLog2 hlo hhi
  refine ⟨sch, hinit, fun hdr c hreach => ?_⟩
  obtain ⟨⟨L, h⟩, hsizes⟩ := reach_sizes hsized hitemsize hhead hreach
  refine h.inv.returns_slabIsValid (h.inv.sized.chainValid ?_)
  obtain ⟨-, n, k, -, rfl⟩ := exists_eq_slabChainOf hinit
  rw [hsizes]
  rfl

/-- The region of the chain is at `2 ^ 20`, so the function would return. -/
theorem slabIsValid_iff_oneItem : slabIsValid.Returns oneItem oneItem 1 := by
  obtain ⟨sch, hinit, h⟩ := slabIsValid_iff exactCeilLog2 (show 1 ≤ 8192 by decide) (by decide)
  obtain rfl : pairs = sch := Option.some.inj (slabInit_pairs.symm.trans hinit)
  refine (h _ _ reach_oneItem).1 fun _ base hb => ?_
  have hregions : oneItem.regions = [2 ^ 20] := by decide
  rw [hregions, List.mem_singleton] at hb
  rw [hb]
  decide

end Zalloc
