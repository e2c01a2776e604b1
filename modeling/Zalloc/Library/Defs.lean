import Zalloc.Buddy.Defs
import Zalloc.Foundations.Memory

/-!
# The allocation interface

The functions of `buddy_alloc.c`, and those of `zalloc.c` over them, for the library build. Pointers
are numbers, `NULL` is `0`, and pointer arithmetic is arithmetic of `uint64_t`. A failed assertion
and an access to memory that is not mapped are `Prog.abort`.

Every entry point calls `init_` first. What the system answers to `open`, `fstat` and `mmap` in that
call is an `Outcome`, which the entry point takes as an argument; `realloc` makes three such calls.
-/

set_option autoImplicit false

namespace Zalloc

/-! ## Data -/

/-- A mapping that the system has established: its address, which is a positive multiple of the
page size and leaves the mapping in the address space, and its contents. -/
structure Mapping where
  /-- The address. -/
  base : ℕ
  /-- The bytes of the mapped file. -/
  contents : ℕ → UInt8
  /-- The address is not `NULL`. -/
  base_pos : 0 < base
  /-- The address is that of a page. -/
  aligned : pageSize ∣ base
  /-- The mapping does not wrap around. -/
  le : base + 2 ^ 31 ≤ 2 ^ 64

/-- What the system answers while `init_` runs. -/
structure Outcome where
  /-- The result of `open`: a descriptor, or `-1`. -/
  fd : ℤ
  /-- The file size that `fstat` stores, if it succeeds. -/
  stSize : Option ℤ
  /-- The mapping, if `mmap` succeeds. -/
  mapping : Option Mapping
  /-- What the memory of the tree holds behind its last element. -/
  memory : ℕ → Node

/-- The global variables, and the memory of the process. -/
structure Lib where
  /-- `memblock`. -/
  memblock : ℕ
  /-- `fd`. -/
  fd : ℤ
  /-- `sb.st_size`. -/
  stSize : ℤ
  /-- `buddy`, with the tree it points to. -/
  buddy : Option Buddy
  /-- `isInit`. -/
  isInit : Bool
  /-- The memory. -/
  mem : Memory

/-- Before the first call. -/
def Lib.start (mem : Memory) : Lib := ⟨0, 0, 0, none, false, mem⟩

/-- `buddy_level`. -/
def buddyLevel : ℕ := 31

/-- `MAP_FAILED`. -/
def mapFailed : ℕ := u64Max

/-- `map_size`. -/
def mapSize : ℕ := 2 ^ buddyLevel

/-! ## Initialisation -/

/-- The body of `init_`, after the test of `isInit`. -/
def initBody (o : Outcome) (st : Lib) : Lib :=
  let st := { st with buddy := buddyNew true o.memory buddyLevel }
  -- `1 << 31` in an `int`
  let size := toInt (1 <<< buddyLevel)
  let st := { st with fd := o.fd }
  if o.fd = 0 then st
  else
    let st := { st with stSize := o.stSize.getD st.stSize }
    if size > st.stSize then st
    -- the comparison is one of `uint64_t`
    else if (st.stSize % 2 ^ 64).toNat < mapSize then st
    else
      match o.mapping with
      | none => { st with memblock := mapFailed }
      | some m =>
        { st with
          memblock := m.base
          mem := st.mem.map m.base mapSize m.contents
          isInit := true }

/-- `init_`. -/
def init_ (o : Outcome) (st : Lib) : Lib := if st.isInit then st else initBody o st

/-! ## The entry points of `buddy_alloc.c` -/

/-- Run an operation of the tree that `buddy` points to. -/
def onBuddy {α : Type} (b : Buddy) (p : TreeProg α) : Prog Lib α :=
  p.zoom (fun st => ⟨st.buddy.getD b, []⟩) (fun m st => { st with buddy := some m.self })

/-- `buddy_xmalloc`. -/
def buddyXmalloc (o : Outcome) (size : ℕ) : Prog Lib ℕ := do
  Prog.modify (init_ o)
  let buddy ← Prog.read Lib.buddy
  match buddy with
  | none => pure 0
  | some b => do
    let pos ← onBuddy b (buddyAlloc size)
    if pos < 0 then pure 0
    else
      let memblock ← Prog.read Lib.memblock
      pure (u64 (memblock + pos))

/-- `buddy_xfree`. -/
def buddyXfree (o : Outcome) (ptr : ℕ) : Prog Lib Unit := do
  Prog.modify (init_ o)
  let buddy ← Prog.read Lib.buddy
  match buddy with
  | none => pure ()
  | some b => do
    Prog.require fun st => ptr ≥ st.memblock
    let memblock ← Prog.read Lib.memblock
    onBuddy b (buddyFree levelByte (u64Sub ptr memblock))

/-- `buddy_get_size`. -/
def buddyGetSize (o : Outcome) (ptr : ℕ) : Prog Lib ℕ := do
  Prog.modify (init_ o)
  let buddy ← Prog.read Lib.buddy
  match buddy with
  | none => pure 0
  | some b => do
    let memblock ← Prog.read Lib.memblock
    onBuddy b (buddyUsedSize (u64Sub ptr memblock))

/-- `buddy_get_page_size`. -/
def buddyGetPageSize (o : Outcome) (ptr : ℕ) : Prog Lib ℕ := do
  Prog.modify (init_ o)
  let buddy ← Prog.read Lib.buddy
  match buddy with
  | none => pure 0
  | some b => do
    let memblock ← Prog.read Lib.memblock
    onBuddy b (buddyPageSize (u64Sub ptr memblock))

/-! ## The interface of `zalloc.c` -/

/-- `memcpy`. -/
def memcpy (dst src n : ℕ) : Prog Lib Unit := do
  Prog.require fun st => st.mem.Mapped src n ∧ st.mem.Mapped dst n
  Prog.modify fun st => { st with mem := st.mem.copy dst src n }

/-- `memset`. -/
def memset (dst : ℕ) (value : UInt8) (n : ℕ) : Prog Lib Unit := do
  Prog.require fun st => st.mem.Mapped dst n
  Prog.modify fun st => { st with mem := st.mem.fill dst n value }

/-- `realloc`. -/
def realloc (o₁ o₂ o₃ : Outcome) (ptr size : ℕ) : Prog Lib ℕ := do
  let newPtr ← buddyXmalloc o₁ size
  if newPtr ≠ 0 then
    if ptr ≠ 0 then do
      let oldSize ← buddyGetSize o₂ ptr
      memcpy newPtr ptr (min size oldSize)
      buddyXfree o₃ ptr
      pure newPtr
    else pure newPtr
  else pure newPtr

/-- `malloc`. -/
def malloc (o : Outcome) (size : ℕ) : Prog Lib ℕ := buddyXmalloc o size

/-- `free`. -/
def free (o : Outcome) (ptr : ℕ) : Prog Lib Unit :=
  if ptr = 0 then pure () else buddyXfree o ptr

/-- `calloc`. -/
def calloc (o : Outcome) (num size : ℕ) : Prog Lib ℕ := do
  let ptr ← buddyXmalloc o (u64 (num * size))
  memset ptr 0 (u64 (num * size))
  pure ptr

/-- `posix_memalign`: the returned code, and what is stored in `*res`. -/
def posixMemalign (o : Outcome) (_align len : ℕ) : Prog Lib (ℕ × Option ℕ) := do
  let ptr ← malloc o len
  if ptr = 0 then pure (1, none) else pure (0, some ptr)

/-- `memalign`; `errno` is left out. -/
def memalign (o : Outcome) (align len : ℕ) : Prog Lib ℕ := do
  let (ret, mem) ← posixMemalign o align len
  match ret, mem with
  | 0, some mem => pure mem
  | _, _ => pure 0

end Zalloc
