import Mathlib.Algebra.Order.Group.Nat
import Mathlib.Data.Nat.Log
import Zalloc.Foundations.BitMask
import Zalloc.Foundations.Program
import Zalloc.Foundations.Word

/-!
# The slab chain

The functions `slab_init`, `slab_alloc`, `slab_free`, `slab_traverse` and `slab_destroy` of
`slab.c`. A pointer to a slab is the address of its header, and `NULL` is `0`.

The store of the programs is the chain, the header at each address, and the regions that are mapped.
Every access to a header goes through a pointer that is the address of a slab of a mapped region;
any other access is `Prog.abort`. What `mmap` and `posix_memalign` answer is an argument of
`slabAlloc`; `munmap` and `free` take the region away.

`slab_is_valid` returns `1` and nothing else, since `NDEBUG` is defined where it is compiled, so the
assertions `assert(slab_is_valid(sch))` are left out.
-/

set_option autoImplicit false

namespace Zalloc

/-! ## Data -/

/-- `struct slab_header`, up to the flexible array `data`. -/
structure SlabHeader where
  /-- `prev`. -/
  prev : ℕ
  /-- `next`. -/
  next : ℕ
  /-- `slots`: a bit is set when the slot is free. -/
  slots : ℕ
  /-- `refcount`. -/
  refcount : ℕ
  /-- `page`. -/
  page : ℕ
deriving DecidableEq, Repr

/-- The fields of `struct slab_chain` that `slab_init` sets once and for all. -/
structure SlabSizes where
  /-- `itemsize`. -/
  itemsize : ℕ
  /-- `itemcount`. -/
  itemcount : ℕ
  /-- `slabsize`. -/
  slabsize : ℕ
  /-- `pages_per_alloc`. -/
  pagesPerAlloc : ℕ
  /-- `initial_slotmask`. -/
  initialSlotmask : ℕ
  /-- `empty_slotmask`. -/
  emptySlotmask : ℕ
  /-- `alignment_mask`. -/
  alignmentMask : ℕ
deriving DecidableEq, Repr

/-- The three lists of a chain. -/
inductive SlabList where
  /-- `partial`. -/
  | partly
  /-- `empty`. -/
  | empty
  /-- `full`. -/
  | full
deriving DecidableEq, Repr

/-- `struct slab_chain`; the heads of the three lists are `head`. -/
structure SlabChain extends SlabSizes where
  /-- `partial`, `empty` and `full`. -/
  head : SlabList → ℕ

/-- A region that `mmap` or `posix_memalign` has returned. Nothing is known about its contents. -/
structure SlabRegion where
  /-- The address. -/
  base : ℕ
  /-- The headers that are found in it. -/
  contents : ℕ → SlabHeader

/-- The chain, the headers, and the addresses of the mapped regions. -/
structure SlabState where
  /-- `*sch`. -/
  sch : SlabChain
  /-- The header at each address. -/
  hdr : ℕ → SlabHeader
  /-- The mapped regions. -/
  regions : List ℕ

/-- `offsetof(struct slab_header, data)`. -/
def dataOffset : ℕ := 40

/-- `slab_pagesize`. -/
def slabPagesize : ℕ := 1024 * 1024

/-! ## `slab_init` -/

/-- `ceil(log2(n))` for a `uint64_t`. The argument becomes a `double`, and `log2` is correct up to
one unit in the last place. So the value is never above the exact one, and it is below it only when
`n` exceeds a power of two by a tiny part of that power. -/
structure CeilLog2 where
  /-- The value. -/
  val : ℕ → ℕ
  /-- It is never above the exact one. -/
  le_clog : ∀ n < 2 ^ 64, val n ≤ Nat.clog 2 n
  /-- It is hardly ever below. -/
  le_two_pow : ∀ n < 2 ^ 64, n ≤ 2 ^ val n + 2 ^ val n / 2 ^ 40

/-- `slab_init`; `none` is a failed assertion, or a shift by the width of its operand or more. -/
def slabInit (ceilLog2 : CeilLog2) (itemsize : ℕ) : Option SlabChain :=
  if ¬ (1 ≤ itemsize ∧ itemsize ≤ u64Max) then none
  else
    let leastSlabsize := u64 (dataOffset + u64 (64 * itemsize))
    if 64 ≤ ceilLog2.val leastSlabsize then none
    else
      let slabsize := 1 <<< ceilLog2.val leastSlabsize
      let shrinkedSlabsize := slabsize >>> 1
      let shrinks : Bool := u64Sub slabsize leastSlabsize ≠ 0 ∧ dataOffset < shrinkedSlabsize ∧
        shrinkedSlabsize - dataOffset ≥ u64 (2 * itemsize)
      let itemcount := if shrinks then (shrinkedSlabsize - dataOffset) / itemsize else 64
      let slabsize := if shrinks then shrinkedSlabsize else slabsize
      if ¬ (1 ≤ itemcount ∧ itemcount ≤ 64) then none
      else
        let emptySlotmask := u64Max >>> (64 - itemcount)
        some {
          itemsize
          itemcount
          slabsize
          pagesPerAlloc := if slabsize > slabPagesize then slabsize else slabPagesize
          initialSlotmask := emptySlotmask ^^^ 1
          emptySlotmask
          alignmentMask := u64Max ^^^ (slabsize - 1)
          head := fun _ => 0 }

/-! ## Slabs and items -/

namespace SlabSizes

/-- `a` is the address of a slab of the region at `base`. -/
def InRegion (z : SlabSizes) (base a : ℕ) : Prop :=
  base ≤ a ∧ a < base + z.pagesPerAlloc ∧ z.slabsize ∣ a - base

instance (z : SlabSizes) (base a : ℕ) : Decidable (z.InRegion base a) :=
  inferInstanceAs (Decidable (_ ∧ _ ∧ _))

/-- `slab->data + slot * itemsize`. -/
def item (z : SlabSizes) (slab slot : ℕ) : ℕ := slab + dataOffset + slot * z.itemsize

end SlabSizes

namespace SlabState

/-- A pointer to a slab of a mapped region. -/
def IsSlab (st : SlabState) (a : ℕ) : Prop := ∃ base ∈ st.regions, st.sch.InRegion base a

instance (st : SlabState) (a : ℕ) : Decidable (st.IsSlab a) :=
  inferInstanceAs (Decidable (∃ base ∈ st.regions, st.sch.InRegion base a))

/-- Write a header. -/
def setHdr (st : SlabState) (a : ℕ) (h : SlabHeader) : SlabState :=
  { st with hdr := Function.update st.hdr a h }

/-- Write the head of a list. -/
def setHead (st : SlabState) (w : SlabList) (a : ℕ) : SlabState :=
  { st with sch := { st.sch with head := Function.update st.sch.head w a } }

/-- A region has been mapped. -/
def mapRegion (st : SlabState) (region : SlabRegion) : SlabState :=
  { st with
    hdr := fun a => if st.sch.InRegion region.base a then region.contents a else st.hdr a
    regions := region.base :: st.regions }

end SlabState

/-- A program over a slab chain. -/
abbrev SlabProg (α : Type) := Prog SlabState α

/-! ## Accesses -/

/-- Read a field of a header. -/
def getField {α : Type} (f : SlabHeader → α) (slab : ℕ) : SlabProg α := do
  Prog.require fun st => st.IsSlab slab
  Prog.read fun st => f (st.hdr slab)

/-- Write a field of a header. -/
def setField (f : SlabHeader → SlabHeader) (slab : ℕ) : SlabProg Unit := do
  Prog.require fun st => st.IsSlab slab
  Prog.modify fun st => st.setHdr slab (f (st.hdr slab))

/-- `slab->prev = v`. -/
def setPrev (slab v : ℕ) : SlabProg Unit := setField (fun h => { h with prev := v }) slab

/-- `slab->next = v`. -/
def setNext (slab v : ℕ) : SlabProg Unit := setField (fun h => { h with next := v }) slab

/-- `slab->slots = v`. -/
def setSlots (slab v : ℕ) : SlabProg Unit := setField (fun h => { h with slots := v }) slab

/-- `slab->refcount = v`. -/
def setRefcount (slab v : ℕ) : SlabProg Unit := setField (fun h => { h with refcount := v }) slab

/-- `slab->page = v`. -/
def setPage (slab v : ℕ) : SlabProg Unit := setField (fun h => { h with page := v }) slab

/-- The head of a list. -/
def getHead (w : SlabList) : SlabProg ℕ := Prog.read fun st => st.sch.head w

/-- Write the head of a list. -/
def setHead (w : SlabList) (a : ℕ) : SlabProg Unit := Prog.modify fun st => st.setHead w a

/-! ## List surgery -/

/-- `if (n != NULL) n->prev = v;` -/
def setPrevIf (n v : ℕ) : SlabProg Unit := if n ≠ 0 then setPrev n v else pure ()

/-- `if ((head = head->next) != NULL) head->prev = NULL;` -/
def popFront (w : SlabList) : SlabProg Unit := do
  let head ← getHead w
  let next ← getField SlabHeader.next head
  setHead w next
  setPrevIf next 0

/-- `if ((slab->next = head) != NULL) head->prev = slab; head = slab;` -/
def pushFront (w : SlabList) (slab : ℕ) : SlabProg Unit := do
  let head ← getHead w
  setNext slab head
  setPrevIf head slab
  setHead w slab

/-- `if ((slab->prev->next = slab->next) != NULL) slab->next->prev = slab->prev;` -/
def unlink (slab : ℕ) : SlabProg Unit := do
  let prev ← getField SlabHeader.prev slab
  let next ← getField SlabHeader.next slab
  setNext prev next
  if next ≠ 0 then do
    let next ← getField SlabHeader.next slab
    let prev ← getField SlabHeader.prev slab
    setPrev next prev
  else pure ()

/-- A slab is taken out of its list, by `unlink` unless it is the head. -/
def takeOut (w : SlabList) (slab : ℕ) : SlabProg Unit := do
  let head ← getHead w
  if slab ≠ head then unlink slab else popFront w

/-- The same, but after `unlink` there is `slab->prev = NULL;`. -/
def detach (w : SlabList) (slab : ℕ) : SlabProg Unit := do
  let head ← getHead w
  if slab ≠ head then do
    unlink slab
    setPrev slab 0
  else popFront w

/-- The region that a slab belongs to: itself, if it has a reference count, and `slab->page`
otherwise. -/
def pageOf (slab : ℕ) : SlabProg ℕ := do
  let refcount ← getField SlabHeader.refcount slab
  if refcount ≠ 0 then pure slab else getField SlabHeader.page slab

/-! ## `slab_alloc` -/

/-- `FIRST_FREE_SLOT`. -/
def firstFreeSlot (slots : ℕ) : ℕ := BitMask.lowest 64 slots

/-- What is written to a new slab behind the first one, apart from the link forwards: lines 232 to
235, and 240 to 243. -/
def initEmpty (z : SlabSizes) (base curr prev : ℕ) : SlabProg Unit := do
  setPrev curr prev
  setRefcount curr 0
  setPage curr base
  setSlots curr z.emptySlotmask

/-- One iteration of the loop of lines 238 to 245, over `prev` and `curr`. -/
def carveBody (z : SlabSizes) (base pageEnd : ℕ) : ℕ × ℕ → SlabProg ((ℕ × ℕ) ⊕ ℕ)
  | (prev, curr) => do
    let curr := curr + z.slabsize
    if curr ≠ pageEnd then do
      setNext prev curr
      initEmpty z base curr prev
      pure (.inl (curr, curr))
    else pure (.inr prev)

/-- What is written to the first slab of a new region: lines 227 to 229. -/
def initFirst (z : SlabSizes) (base : ℕ) : SlabProg Unit := do
  setNext base 0
  setPrev base 0
  setRefcount base 1
  setSlots base z.initialSlotmask

/-- The slabs of a new region behind the first one: lines 231 to 248. -/
def carveRest (z : SlabSizes) (base : ℕ) : SlabProg Unit :=
  let pageEnd := base + z.pagesPerAlloc
  let curr := base + z.slabsize
  if curr ≠ pageEnd then do
    initEmpty z base curr 0
    setHead .empty curr
    let prev ← Prog.loop (carveBody z base pageEnd) (curr, curr)
    setNext prev 0
  else pure ()

/-- A new region is cut into slabs: lines 215 to 250. -/
def carve (z : SlabSizes) (base : ℕ) : SlabProg ℕ := do
  initFirst z base
  carveRest z base
  pure (z.item base 0)

/-- `slab_alloc`. If a new region is needed, the answer to the request is `answer`. -/
def slabAlloc (answer : Option SlabRegion) : SlabProg ℕ := do
  let z ← Prog.read fun st => st.sch.toSlabSizes
  let part ← getHead .partly
  if part ≠ 0 then do
    -- found a partial slab, locate the first free slot
    let slots ← getField SlabHeader.slots part
    let slot := firstFreeSlot slots
    setSlots part (slots ^^^ 1 <<< slot)
    let slots ← getField SlabHeader.slots part
    if slots = 0 then do
      -- slab has become full, change state from partial to full
      popFront .partly
      pushFront .full part
      pure (z.item part slot)
    else pure (z.item part slot)
  else do
    let empty ← getHead .empty
    setHead .partly empty
    if empty ≠ 0 then do
      -- found an empty slab, change state from empty to partial
      popFront .empty
      setNext empty 0
      let page ← pageOf empty
      let refcount ← getField SlabHeader.refcount page
      setRefcount page (refcount + 1)
      setSlots empty z.initialSlotmask
      pure (z.item empty 0)
    else
      -- no empty or partial slabs available, create a new one; `mmap` and `posix_memalign` differ
      -- in nothing but the promise of an alignment
      match answer with
      | none => do
        setHead .partly 0
        pure 0
      | some region => do
        Prog.modify fun st => st.mapRegion region
        setHead .partly region.base
        carve z region.base

/-! ## `slab_free` -/

/-- `ONE_USED_SLOT`. -/
def oneUsedSlot (slots emptySlotmask : ℕ) : Bool :=
  let used := (u64Max ^^^ slots) &&& emptySlotmask
  used &&& u64Sub used 1 == 0

/-- One iteration of the loop of lines 309 to 316, over `s` and `found_head`. -/
def releaseBody (z : SlabSizes) (slab pageEnd : ℕ) : ℕ × Bool → SlabProg ((ℕ × Bool) ⊕ Bool)
  | (s, foundHead) =>
    if s ≠ pageEnd then do
      let empty ← getHead .empty
      if s = empty then pure (.inl (s + z.slabsize, true))
      else if s = slab then pure (.inl (s + z.slabsize, foundHead))
      else do
        unlink s
        pure (.inl (s + z.slabsize, foundHead))
    else pure (.inr foundHead)

/-- `if (found_head && (sch->empty = sch->empty->next) != NULL) sch->empty->prev = NULL;` -/
def popEmptyIf (foundHead : Bool) : SlabProg Unit := if foundHead then popFront .empty else pure ()

/-- A region is given back to the system. -/
def releaseRegion (page : ℕ) : SlabProg Unit := do
  Prog.require fun st => page ∈ st.regions
  Prog.modify fun st => { st with regions := st.regions.erase page }

/-- `slab_free`. -/
def slabFree (addr : ℕ) : SlabProg Unit := do
  let z ← Prog.read fun st => st.sch.toSlabSizes
  Prog.require fun _ => addr ≠ 0
  let slab := addr &&& z.alignmentMask
  let slot := u64Sub (u64Sub addr slab) dataOffset / z.itemsize
  let slots ← getField SlabHeader.slots slab
  if slots = 0 then do
    -- target slab is full, change state to partial
    setSlots slab (1 <<< slot)
    detach .full slab
    pushFront .partly slab
  else if oneUsedSlot slots z.emptySlotmask then do
    -- target slab is partial and has only one filled slot; the two tests of `refcount == 1`, for
    -- the first slab of a region and for the others, are one on the region's first slab
    let page ← pageOf slab
    let refcount ← getField SlabHeader.refcount page
    if refcount = 1 then do
      -- unmap the whole page if this slab is the only partial one
      takeOut .partly slab
      let page ← pageOf slab
      let foundHead ← Prog.loop (releaseBody z slab (page + z.pagesPerAlloc)) (page, false)
      popEmptyIf foundHead
      releaseRegion page
    else do
      setSlots slab z.emptySlotmask
      detach .partly slab
      pushFront .empty slab
      let page ← pageOf slab
      let refcount ← getField SlabHeader.refcount page
      setRefcount page (refcount - 1)
  else
    -- target slab is partial, no need to change state
    setSlots slab (slots ||| 1 <<< slot)

/-! ## `slab_traverse` -/

/-- One iteration of the loop of lines 370 to 375, over `item`, `mask` and the calls of `func` so
far. -/
def partialItemBody (z : SlabSizes) (slab itemEnd : ℕ) :
    ℕ × ℕ × List ℕ → SlabProg ((ℕ × ℕ × List ℕ) ⊕ List ℕ)
  | (item, mask, calls) => do
    let slots ← getField SlabHeader.slots slab
    let calls := if slots &&& mask = 0 then calls ++ [item] else calls
    let mask := u64 (mask <<< 1)
    let item := item + z.itemsize
    if item ≠ itemEnd then pure (.inl (item, mask, calls)) else pure (.inr calls)

/-- The items of a partial slab: lines 366 to 375. -/
def traversePartial (z : SlabSizes) (slab : ℕ) (calls : List ℕ) : SlabProg (List ℕ) :=
  let item := slab + dataOffset
  let itemEnd := item + u64 (z.itemcount * z.itemsize)
  Prog.loop (partialItemBody z slab itemEnd) (item, 1, calls)

/-- One iteration of the loop of line 382, over `item` and the calls of `func` so far. -/
def fullItemBody (z : SlabSizes) (itemEnd : ℕ) :
    ℕ × List ℕ → SlabProg ((ℕ × List ℕ) ⊕ List ℕ)
  | (item, calls) =>
    let calls := calls ++ [item]
    let item := item + z.itemsize
    if item ≠ itemEnd then pure (.inl (item, calls)) else pure (.inr calls)

/-- The items of a full slab: lines 379 to 382. -/
def traverseFull (z : SlabSizes) (slab : ℕ) (calls : List ℕ) : SlabProg (List ℕ) :=
  let item := slab + dataOffset
  let itemEnd := item + u64 (z.itemcount * z.itemsize)
  Prog.loop (fullItemBody z itemEnd) (item, calls)

/-- One iteration of the loops of lines 365 and 378, over `slab` and the calls of `func` so far;
`items` is what is done with a slab. -/
def traverseBody (items : ℕ → List ℕ → SlabProg (List ℕ)) :
    ℕ × List ℕ → SlabProg ((ℕ × List ℕ) ⊕ List ℕ)
  | (slab, calls) =>
    if slab ≠ 0 then do
      let calls ← items slab calls
      let slab ← getField SlabHeader.next slab
      pure (.inl (slab, calls))
    else pure (.inr calls)

/-- `slab_traverse`. It returns nothing in the source; here, the arguments of the calls of `func`,
which is one that leaves the chain and the headers alone. -/
def slabTraverse : SlabProg (List ℕ) := do
  let z ← Prog.read fun st => st.sch.toSlabSizes
  let part ← getHead .partly
  let calls ← Prog.loop (traverseBody (traversePartial z)) (part, [])
  let full ← getHead .full
  Prog.loop (traverseBody (traverseFull z)) (full, calls)

/-! ## `slab_destroy` -/

/-- One iteration of the loop of lines 397 to 411, over `slab`, `pages_head` and `pages_tail`. -/
def collectBody : ℕ × ℕ × ℕ → SlabProg ((ℕ × ℕ × ℕ) ⊕ (ℕ × ℕ))
  | (slab, pagesHead, pagesTail) =>
    if slab ≠ 0 then do
      let refcount ← getField SlabHeader.refcount slab
      if refcount ≠ 0 then do
        let page := slab
        let slab ← getField SlabHeader.next slab
        if pagesHead = 0 then pure (.inl (slab, page, page))
        else do
          setNext pagesTail page
          pure (.inl (slab, pagesHead, page))
      else do
        let slab ← getField SlabHeader.next slab
        pure (.inl (slab, pagesHead, pagesTail))
    else pure (.inr (pagesHead, pagesTail))

/-- The first slabs of the regions are linked, list by list: lines 394 to 412, over `pages_head` and
`pages_tail`. -/
def collect : List ℕ → ℕ × ℕ → SlabProg (ℕ × ℕ)
  | [], pages => pure pages
  | head :: heads, pages => do
    let pages ← Prog.loop collectBody (head, pages)
    collect heads pages

/-- One iteration of the loops of lines 419 to 431, over `page`. The regions that have been given
back are recorded, which the source does not do. -/
def destroyBody : ℕ × List ℕ → SlabProg ((ℕ × List ℕ) ⊕ List ℕ)
  | (page, released) => do
    let target := page
    let page ← getField SlabHeader.next page
    releaseRegion target
    let released := released ++ [target]
    if page ≠ 0 then pure (.inl (page, released)) else pure (.inr released)

/-- `slab_destroy`. It returns nothing in the source; here, the regions that it has given back. As
long as `pages_head` is `NULL`, there is nothing in `pages_tail`. -/
def slabDestroy : SlabProg (List ℕ) := do
  let part ← getHead .partly
  let empty ← getHead .empty
  let full ← getHead .full
  let (pagesHead, pagesTail) ← collect [part, empty, full] (0, 0)
  if pagesHead ≠ 0 then do
    setNext pagesTail 0
    -- `munmap` and `free` differ in nothing but the size of a slab
    Prog.loop destroyBody (pagesHead, [])
  else pure []

end Zalloc
