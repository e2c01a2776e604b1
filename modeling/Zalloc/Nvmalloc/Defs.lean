import Mathlib.Logic.Function.Iterate
import Zalloc.Foundations.Program
import Zalloc.Foundations.Word

/-!
# `nvmalloc`

The allocator of `nvmalloc.c`, as it is compiled: with `D_CRC`, and without `_GNU_SOURCE`.

A pointer into the arena is its offset from `start_address`; `NULL` is `none`. The memory of the
arena is the 64-bit word at each offset that is a multiple of eight. The list nodes on the heap,
which `free_lists` and `free_list_ends` point to, are lists of positions, and `malloc` is taken to
succeed for them. What `mmap` and `realloc` answer to a request for more memory and what `rdtsc_`
reads are arguments of the operations. An access outside the arena, the bitmap or the array of lists
is `Prog.abort`, and so is `exit(-1)`.

Two records are kept that the source does not keep: the messages about corruption that have been
printed, and the blocks that have been taken from the don't-allocate list.
-/

set_option autoImplicit false

namespace Zalloc

/-! ## Data -/

/-- `PAGE_SIZE`. -/
def nvPageSize : ℕ := 0x1000

/-- `NEW_ALLOC_PAGES`. -/
def newAllocPages : ℕ := 1024

/-- `NIL`. -/
def nilOffset : ℕ := 0xFFFFFFFFFFFFFFFF

/-- `BASE_SIZE`. -/
def baseSize : ℕ := 64

/-- `BASE_SIZE_MASK`. -/
def baseSizeMask : ℕ := baseSize - 1

/-- `NR_SIZES`. -/
def nrSizes : ℕ := 4 * 1024 / baseSize

/-- What is printed about corruption. -/
inductive Report where
  /-- `"Bitmap corruption detected\n"`. -/
  | bitmap
  /-- `"Header corruption detected!\n"`. -/
  | header
  /-- `"Allocated region header corruption detected!\n"`. -/
  | allocatedHeader
  /-- `"NVMalloc checksum error!\n"`. -/
  | checksum
deriving DecidableEq, Repr

/-- A block that has been taken from the don't-allocate list. -/
structure Release where
  /-- Its offset. -/
  location : ℕ
  /-- Its size, as it is found in its header. -/
  size : ℕ
  /-- The clock at that time. -/
  time : ℕ
deriving DecidableEq, Repr

/-- What the system answers to a request for more memory. -/
inductive Growth where
  /-- `mmap` fails. -/
  | refused
  /-- `mmap` succeeds, but `realloc` has no memory for the bitmap. -/
  | noBitmap
  /-- Both succeed. -/
  | granted
deriving DecidableEq, Repr

/-- The variables of the allocator, the memory of the arena and the records. -/
structure NvState where
  /-- `free_zone`. -/
  freeZone : ℕ
  /-- `end_address`. -/
  endAddress : ℕ
  /-- The memory of the arena. -/
  mem : ℕ → BitVec 64
  /-- `bitmap`. -/
  bitmap : ℕ → ℕ
  /-- `bitmap_size`. -/
  bitmapSize : ℕ
  /-- `free_lists` and `free_list_ends`: the positions in each list. -/
  freeLists : ℕ → List ℕ
  /-- `dont_allocate_list_head`. -/
  dontAllocateListHead : ℕ
  /-- `dont_allocate_list_tail`. -/
  dontAllocateListTail : ℕ
  /-- `dont_allocate_wait`. -/
  dontAllocateWait : ℕ
  /-- What has been printed. -/
  reports : List Report
  /-- What has been taken from the don't-allocate list. -/
  released : List Release

/-- A program over the allocator. -/
abbrev NvProg (α : Type) := Prog NvState α

/-! ## Accesses -/

/-- Read a word of the arena. -/
def getWord (offset : ℕ) : NvProg (BitVec 64) := do
  Prog.require fun st => offset + 8 ≤ st.endAddress
  Prog.read fun st => st.mem offset

/-- Write a word of the arena. -/
def setWord (offset : ℕ) (v : BitVec 64) : NvProg Unit := do
  Prog.require fun st => offset + 8 ≤ st.endAddress
  Prog.modify fun st => { st with mem := Function.update st.mem offset v }

/-- `((header*) location)->size`. -/
def getHeaderSize (location : ℕ) : NvProg ℤ := do
  let w ← getWord location
  pure w.toInt

/-- `((header*) location)->size = v`. -/
def setHeaderSize (location : ℕ) (v : ℤ) : NvProg Unit := setWord location (BitVec.ofInt 64 v)

/-- `((header_dna*) location)->header.next`. -/
def getHeaderNext (location : ℕ) : NvProg ℕ := do
  let w ← getWord (location + 8)
  pure w.toNat

/-- `((header_dna*) location)->header.next = v`. -/
def setHeaderNext (location v : ℕ) : NvProg Unit := setWord (location + 8) (BitVec.ofNat 64 v)

/-- `((header_dna*) location)->time_added`. -/
def getTimeAdded (location : ℕ) : NvProg ℕ := do
  let w ← getWord (location + 24)
  pure w.toNat

/-- `((header_dna*) location)->time_added = v`. -/
def setTimeAdded (location v : ℕ) : NvProg Unit := setWord (location + 24) (BitVec.ofNat 64 v)

/-- `bitmap[index]`. -/
def getByte (index : ℕ) : NvProg ℕ := do
  Prog.require fun st => index < st.bitmapSize
  Prog.read fun st => st.bitmap index

/-- `bitmap[index] = v`. -/
def setByte (index v : ℕ) : NvProg Unit := do
  Prog.require fun st => index < st.bitmapSize
  Prog.modify fun st => { st with bitmap := Function.update st.bitmap index v }

/-- The list with the number `index`. -/
def getFreeList (index : ℤ) : NvProg (List ℕ) := do
  Prog.require fun _ => 0 ≤ index ∧ index ≤ nrSizes
  Prog.read fun st => st.freeLists index.toNat

/-- Take the first node out of a list. -/
def popFreeList (index : ℤ) : NvProg ℕ := do
  let l ← getFreeList index
  match l with
  | [] => Prog.abort
  | position :: l => do
    Prog.modify fun st => { st with freeLists := Function.update st.freeLists index.toNat l }
    pure position

/-- Append a node to a list. -/
def appendFreeList (index : ℤ) (position : ℕ) : NvProg Unit := do
  let l ← getFreeList index
  Prog.modify fun st =>
    { st with freeLists := Function.update st.freeLists index.toNat (l ++ [position]) }

/-- Print a message. -/
def report (r : Report) : NvProg Unit :=
  Prog.modify fun st => { st with reports := st.reports ++ [r] }

/-- Print a message if something is wrong. -/
def reportIf (wrong : Prop) [Decidable wrong] (r : Report) : NvProg Unit :=
  if wrong then report r else pure ()

/-! ## Headers -/

/-- A step of the division by the polynomial of CRC-32C, with the lowest bit first. -/
def crcStep (crc : ℕ) : ℕ := if crc % 2 = 1 then (crc >>> 1) ^^^ 0x82F63B78 else crc >>> 1

/-- `_mm_crc32_u32`. -/
def mmCrc32U32 (crc v : ℕ) : ℕ := crcStep^[32] (crc ^^^ v)

/-- `crcCompute`. -/
def crcCompute (location size : ℕ) : ℤ :=
  let offset := u32 location
  let chk := mmCrc32U32 offset size
  let chk := u64 (chk <<< 32)
  ((size ||| (chk &&& 0x00FF000000000000) : ℕ) : ℤ)

/-- `crcGetSize`. -/
def crcGetSize (hsize : ℤ) : ℕ := u32 ((BitVec.ofInt 64 hsize).toNat &&& 0xFF00FFFFFFFFFFFF)

/-- `getBestFit`. -/
def getBestFit (size : ℕ) : ℤ :=
  if size > nrSizes * baseSize then nrSizes
  else
    -- `0 - 1` wraps around in `unsigned`, and is `-1` in `int`
    let index : ℤ := ((size / baseSize : ℕ) : ℤ) - 1
    if size &&& baseSizeMask ≠ 0 then index + 1 else index

/-! ## The bitmap -/

/-- The step of `index` and `mask` to the next bit. -/
def nextBit : ℕ × ℕ → ℕ × ℕ
  | (index, mask) => if mask = 128 then (u32 (index + 1), 1) else (index, mask <<< 1)

/-- The step of `index` and `mask` to the bit before, unless there is none. -/
def prevBit : ℤ × ℕ → Option (ℤ × ℕ)
  | (index, mask) =>
    if mask = 1 then
      if index = 0 then none else some (index - 1, 128)
    else some (index, mask >>> 1)

/-- One iteration of the loop of lines 154 to 163, over `n`, `location`, `index` and `mask`. -/
def forwardBody (stop : ℕ) : ℕ × ℕ × ℕ × ℕ → NvProg ((ℕ × ℕ × ℕ × ℕ) ⊕ ℕ)
  | (n, location, index, mask) =>
    if location < stop then do
      let byte ← getByte index
      if byte &&& mask = 0 then
        pure (.inl (u32 (n + 1), location + baseSize, nextBit (index, mask)))
      else pure (.inr n)
    else pure (.inr n)

/-- `isFreeForward`. -/
def isFreeForward (location : ℕ) : NvProg ℕ := do
  let index := u32 ((location / baseSize) >>> 3)
  let stop ← Prog.read fun st => st.freeZone
  let mask := 1 <<< (location / baseSize &&& 0x00000007)
  Prog.loop (forwardBody stop) (0, location, index, mask)

/-- One iteration of the loop of lines 187 to 198, over `n`, `index` and `mask`. -/
def backwardBody : ℕ × ℤ × ℕ → NvProg ((ℕ × ℤ × ℕ) ⊕ ℕ)
  | (n, index, mask) =>
    if index ≥ 0 then do
      let byte ← getByte index.toNat
      if byte &&& mask = 0 then
        let n := u32 (n + 1)
        match prevBit (index, mask) with
        | none => pure (.inr n)
        | some bit => pure (.inl (n, bit))
      else pure (.inr n)
    else pure (.inr n)

/-- `isFreeBackward`. -/
def isFreeBackward (location : ℕ) : NvProg ℕ := do
  let index := toInt ((location / baseSize) >>> 3)
  let mask := 1 <<< (location / baseSize &&& 0x00000007)
  let freeZone ← Prog.read fun st => st.freeZone
  if location > freeZone then pure 0
  else
    match prevBit (index, mask) with
    | none => pure 0
    | some bit => Prog.loop backwardBody (0, bit)

/-- The loops of `makeOne` and `makeZero`: so many bits are changed by `f`. -/
def changeBits (f : ℕ → ℕ → ℕ) : ℕ → ℕ × ℕ → NvProg Unit
  | 0, _ => pure ()
  | size + 1, (index, mask) => do
    let byte ← getByte index
    setByte index (f byte mask)
    changeBits f size (nextBit (index, mask))

/-- `makeOne`. -/
def makeOne (location size : ℕ) : NvProg Unit :=
  changeBits (fun byte mask => byte ||| mask) size
    (u32 ((location / baseSize) >>> 3), 1 <<< (location / baseSize &&& 0x00000007))

/-- `makeZero`. -/
def makeZero (location size : ℕ) : NvProg Unit :=
  changeBits (fun byte mask => byte &&& (u32Max ^^^ mask)) size
    (u32 ((location / baseSize) >>> 3), 1 <<< (location / baseSize &&& 0x00000007))

/-! ## `getMoreMemory` -/

/-- One iteration of the loop of lines 243 to 245. -/
def newPagesBody (size : ℕ) : ℕ → NvProg (ℕ ⊕ ℕ)
  | newPages =>
    if size > u32 (newPages * nvPageSize) then pure (.inl (u32 (newPages + 1)))
    else pure (.inr newPages)

/-- The arena after so many pages have been mapped behind it: lines 269 to 282. -/
def NvState.grow (st : NvState) (newPages : ℕ) : NvState :=
  let newBitmapSize := st.bitmapSize + u32 (newPages * nvPageSize) / baseSize / 8
  let newEnd := st.endAddress + u32 (newPages * nvPageSize)
  { st with
    endAddress := newEnd
    mem := fun offset => if st.endAddress ≤ offset ∧ offset < newEnd then 0 else st.mem offset
    bitmap := fun i => if st.bitmapSize ≤ i ∧ i < newBitmapSize then 0 else st.bitmap i
    bitmapSize := newBitmapSize }

/-- `getMoreMemory`; `grows` is the answer of the system. -/
def getMoreMemory (size : ℕ) (grows : Growth) : NvProg ℤ := do
  let newPages ← Prog.loop (newPagesBody size) newAllocPages
  match grows with
  | .refused => pure (-1)
  -- `realloc` stops the process itself, or line 279 writes through the `NULL` it has returned
  | .noBitmap => Prog.abort
  | .granted => do
    Prog.modify fun st => st.grow newPages
    pure 0

/-! ## `getFreeLocation` -/

/-- One iteration of the loop of lines 319 to 331, which returns `location` and `free_space`. -/
def hintBody (index : ℤ) (actualSize : ℕ) : Unit → NvProg (Unit ⊕ ℕ × ℕ)
  | () => do
    let location ← popFreeList index
    let forward ← isFreeForward location
    let freeSpace := u32 (forward * baseSize)
    let backSpace ← isFreeBackward location
    let freeSpace := u32 (freeSpace + u32 (backSpace * baseSize))
    let location := u64Sub location (u32 (backSpace * baseSize))
    let l ← getFreeList index
    if freeSpace < actualSize ∧ l ≠ [] then pure (.inl ()) else pure (.inr (location, freeSpace))

/-- One iteration of the loop of lines 337 to 367, over `n`, `ptr` and `exactFit`. -/
def headerBody (freeSpace actualSize : ℕ) : ℕ × ℕ × Bool → NvProg ((ℕ × ℕ × Bool) ⊕ Bool)
  | (n, ptr, exactFit) =>
    if n > 0 then do
      let size ← getHeaderSize ptr
      -- test that the bitmap is correct
      reportIf (size ≥ 0) .bitmap
      let crtSize := crcGetSize (-size)
      if crcCompute ptr crtSize ≠ -size then do
        report .header
        Prog.abort
      else
        let n := u32Sub n crtSize
        pure (.inl (n, ptr + crtSize, exactFit || decide (u32Sub freeSpace n = actualSize)))
    else pure (.inr exactFit)

/-- The header of the rest of a free location, unless there is one: lines 371 to 383. -/
def writeRest (location freeSpace actualSize : ℕ) (exactFit : Bool) : NvProg Unit :=
  if ¬ exactFit then
    setHeaderSize (location + actualSize)
      (-crcCompute (location + actualSize) (freeSpace - actualSize))
  else pure ()

/-- The rest of a free location that is larger than it has to be: lines 368 to 394. -/
def splitRest (location freeSpace actualSize : ℕ) (exactFit : Bool) : NvProg Unit :=
  if freeSpace > actualSize then do
    writeRest location freeSpace actualSize exactFit
    appendFreeList (getBestFit (freeSpace - actualSize)) (location + actualSize)
  else pure ()

/-- One iteration of the loop of lines 309 to 398, over `index`. -/
def findBody (actualSize : ℕ) : ℤ → NvProg (ℤ ⊕ Option ℕ)
  | index =>
    if index ≤ nrSizes then do
      let l ← getFreeList index
      if l = [] then pure (.inl (index + 1))
      else do
        let (location, freeSpace) ← Prog.loop (hintBody index actualSize) ()
        if freeSpace ≥ actualSize then do
          let exactFit ← Prog.loop (headerBody freeSpace actualSize) (freeSpace, location, false)
          splitRest location freeSpace actualSize exactFit
          pure (.inr (some location))
        else pure (.inl index)
    else pure (.inr none)

/-- The size that `getFreeLocation` reserves: lines 297 to 306. -/
def actualSizeOf (size : ℕ) : ℕ :=
  let index := getBestFit size
  if index < nrSizes then u32 ((index + 1) * baseSize).toNat
  else if size &&& baseSizeMask ≠ 0 then u32 ((size &&& (u32Max ^^^ baseSizeMask)) + baseSize)
  else size

/-- `getMoreMemory`, if it is necessary. -/
def moreMemoryIf (full : Bool) (size : ℕ) (grows : Growth) : NvProg ℤ :=
  if full then getMoreMemory size grows else pure 0

/-- If nothing has been found, the location is the start of the free zone: lines 401 to 409. -/
def orFreeZone (actualSize : ℕ) (grows : Growth) : Option ℕ → NvProg (Option ℕ)
  | some location => pure (some location)
  | none => do
    let full ← Prog.read fun st => decide (st.freeZone + actualSize > st.endAddress)
    let more ← moreMemoryIf full actualSize grows
    if more < 0 then pure none
    else do
      let location ← Prog.read fun st => st.freeZone
      Prog.modify fun st => { st with freeZone := st.freeZone + actualSize }
      pure (some location)

/-- `getFreeLocation`, which returns the location and the actual size. -/
def getFreeLocation (size : ℕ) (grows : Growth) : NvProg (Option ℕ × ℕ) := do
  let actualSize := actualSizeOf size
  let found ← Prog.loop (findBody actualSize) (getBestFit size)
  let freeLocation ← orFreeZone actualSize grows found
  match freeLocation with
  | none => pure (none, actualSize)
  | some location => do
    makeOne location (actualSize / baseSize)
    pure (some location, actualSize)

/-! ## The release of a block -/

/-- `insertFreeLocation`. -/
def insertFreeLocation (location sizeForward totalSize : ℕ) : NvProg Unit := do
  let freeZone ← Prog.read fun st => st.freeZone
  if location + sizeForward ≥ freeZone ∧ location < freeZone then do
    -- merge with the free zone
    Prog.modify fun st => { st with freeZone := u64Sub (location + sizeForward) totalSize }
    setHeaderSize location 0
  else do
    setHeaderSize location (-crcCompute location sizeForward)
    -- put hint in free lists
    appendFreeList (getBestFit totalSize) (u64Sub (location + sizeForward) totalSize)
    if sizeForward ≠ totalSize then appendFreeList (getBestFit sizeForward) location
    else pure ()

/-- `extendFreeLocation`, which returns the total size and the new value of `*size`. -/
def extendFreeLocation (location size : ℕ) : NvProg (ℕ × ℕ) := do
  makeZero location (size / baseSize)
  let n ← isFreeForward location
  let size := u32 (n * baseSize)
  let n ← isFreeBackward location
  pure (u32 (size + u32 (n * baseSize)), size)

/-- `putInDNAList`; `now` is what the clock reads. -/
def putInDNAList (location size now : ℕ) : NvProg Unit := do
  let hsize ← getHeaderSize location
  reportIf (hsize ≠ crcCompute location size) .allocatedHeader
  setHeaderSize location (-crcCompute location (u32 (size + 1)))
  setTimeAdded location now
  let tail ← Prog.read fun st => st.dontAllocateListTail
  if tail = nilOffset then
    Prog.modify fun st =>
      { st with dontAllocateListHead := location, dontAllocateListTail := location }
  else do
    setHeaderNext tail location
    Prog.modify fun st => { st with dontAllocateListTail := location }

/-- The first node is taken out of the don't-allocate list: lines 551 to 555. -/
def popDNAList (location : ℕ) : NvProg Unit := do
  let tail ← Prog.read fun st => st.dontAllocateListTail
  if location = tail then
    Prog.modify fun st =>
      { st with dontAllocateListHead := nilOffset, dontAllocateListTail := nilOffset }
  else do
    let next ← getHeaderNext location
    Prog.modify fun st => { st with dontAllocateListHead := next }

/-- `incrementTime`; `now` is what the clock reads. -/
def incrementTime (now : ℕ) : NvProg Unit := do
  let location ← Prog.read fun st => st.dontAllocateListHead
  if location = nilOffset then pure ()
  else do
    let timeAdded ← getTimeAdded location
    let wait ← Prog.read fun st => st.dontAllocateWait
    if now ≥ u64 (timeAdded + wait) then do
      -- remove from don't allocate list and put in free list
      popDNAList location
      let hsize ← getHeaderSize location
      let size := crcGetSize (-hsize)
      reportIf (hsize ≠ -crcCompute location size) .checksum
      let size := u32Sub size 1
      Prog.modify fun st => { st with released := st.released ++ [⟨location, size, now⟩] }
      let (totalSize, size) ← extendFreeLocation location size
      insertFreeLocation location size totalSize
    else pure ()

/-! ## The interface -/

/-- `nvmalloc_init`, when the arena has been mapped. Nothing has to be known about its contents. -/
def nvmallocInit (nrPages freeWait : ℕ) (mem : ℕ → BitVec 64) : NvState where
  freeZone := 0
  endAddress := u32 (nrPages * nvPageSize)
  mem := mem
  bitmap := fun _ => 0
  bitmapSize := u32 (nrPages * nvPageSize) / baseSize / 8
  freeLists := fun _ => []
  dontAllocateListHead := nilOffset
  dontAllocateListTail := nilOffset
  dontAllocateWait := freeWait
  reports := []
  released := []

/-- `nvmalloc`; `grows` and `now` are what the system answers and what the clock reads. -/
def nvmalloc (size : ℕ) (grows : Growth) (now : ℕ) : NvProg (Option ℕ) := do
  let (location, actualSize) ← getFreeLocation (u32 (size + 8)) grows
  match location with
  | none => pure none
  | some location => do
    setHeaderSize location (crcCompute location actualSize)
    incrementTime now
    pure (some (location + 8))

/-- `nv_malloc`: the size is converted from `size_t` to `uint32_t`. -/
def nvMalloc (size : ℕ) (grows : Growth) (now : ℕ) : NvProg (Option ℕ) :=
  nvmalloc (u32 size) grows now

/-- `nvfree`; `added` and `now` are what the clock reads, in this order. -/
def nvfree (addr added now : ℕ) : NvProg ℤ := do
  let location := u64Sub addr 8
  let hsize ← getHeaderSize location
  if hsize ≤ 0 then do
    report .header
    Prog.abort
  else
    let size := crcGetSize hsize
    if crcCompute location size ≠ hsize then do
      report .header
      Prog.abort
    else do
      putInDNAList location size added
      incrementTime now
      pure 0

end Zalloc
