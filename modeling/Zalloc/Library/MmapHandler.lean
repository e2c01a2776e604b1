import Zalloc.Foundations.ObjectStore
import Zalloc.Foundations.Program
import Zalloc.Library.Defs

/-!
# The handler `mmap`

`mmap_alloc.c` hands out the bytes of a mapped file, one block behind the other, and never takes one
back. At the end of the file its constructor leaves a record, which the last blocks overlap.

The functions are translated as they stand. The registration of the handler is that of `handler.c`.

## Main definitions

* `mmapHandlerInit`, `mmapMalloc`, `mmapFree`: the functions of `mmap_alloc.c`.
* `MmapStep c op c'`: a call that returns, or a write of the program.
* `MmapInv base n c`: the invariant, for a file of `n` bytes that is mapped at `base`.
* `MmapObjects base n c`: what holds of the blocks.

## Main results

* `mmap_refines`: in every run the blocks are objects that stay for ever, and a request is refused
  exactly if it and the blocks that have been handed out are more than the file holds.
-/

set_option autoImplicit false

namespace Zalloc

/-! ## The functions of `mmap_alloc.c` -/

/-- The variables of `mmap_alloc.c`, and the memory of the process. -/
structure MmapLib where
  /-- `memblock`. -/
  memblock : ℕ
  /-- `sb.st_size`. -/
  stSize : ℤ
  /-- `pos_`. -/
  pos : ℕ
  /-- `remain_`. -/
  remain : ℕ
  /-- The memory. -/
  mem : Memory

/-- `mmap_malloc`. -/
def mmapMalloc (size : ℕ) : Prog MmapLib ℕ := do
  let remain ← Prog.read MmapLib.remain
  if size > remain then pure 0
  else do
    let res ← Prog.read fun st => u64 (st.memblock + st.pos)
    Prog.modify fun st => { st with pos := u64 (st.pos + size) }
    Prog.modify fun st => { st with remain := u64Sub st.remain size }
    pure res

/-- `mmap_free`. -/
def mmapFree (_ptr : ℕ) : Prog MmapLib Unit := pure ()

/-- What `sprintf` stores for `"last_pos: %d\n"` and `4`, with the zero at the end. -/
def lastRecord : List UInt8 := [108, 97, 115, 116, 95, 112, 111, 115, 58, 32, 52, 10, 0]

/-- A number of bytes, as a `uint64_t`. -/
def sizeOf64 (n : ℤ) : ℕ := (n % 2 ^ 64).toNat

/-- `__mmap_handler_init`, without the registration. The arguments are the size that `fstat` stores
and the mapping, if the calls succeed. -/
def mmapHandlerInit (stSize : Option ℤ) (mapping : Option (ℕ × (ℕ → UInt8))) :
    Prog MmapLib Unit := do
  Prog.modify fun st => { st with stSize := stSize.getD st.stSize }
  Prog.modify fun st =>
    match mapping with
    | none => { st with memblock := mapFailed }
    | some (base, contents) =>
      { st with memblock := base, mem := st.mem.map base (sizeOf64 st.stSize) contents }
  Prog.modify fun st => { st with pos := 0, remain := sizeOf64 st.stSize }
  let lastRc ← Prog.read fun st => u64Sub (u64 (st.memblock + sizeOf64 st.stSize)) 20
  Prog.require fun st => st.mem.Mapped lastRc lastRecord.length
  Prog.modify fun st => { st with mem := st.mem.store lastRc lastRecord }

/-! ## Runs -/

/-- A block that has been handed out. -/
structure MmapBlock where
  /-- Its address. -/
  addr : ℕ
  /-- Its size. -/
  size : ℕ
deriving DecidableEq, Repr

/-- The handler, and the blocks that have been handed out, the last one first. Those without a byte
are left out. -/
structure MmapConfig where
  /-- The handler. -/
  st : MmapLib
  /-- The blocks. -/
  blocks : List MmapBlock

/-- The calls, and the writes of the program. -/
inductive MmapOp where
  /-- `mmap_malloc`. -/
  | malloc (size : ℕ)
  /-- `mmap_free`. -/
  | free (ptr : ℕ)
  /-- The program writes a byte. -/
  | write (x : ℕ) (v : UInt8)

/-- A call that returns, or a write. -/
inductive MmapStep : MmapConfig → MmapOp → MmapConfig → Prop
  /-- A block is handed out. -/
  | served {c : MmapConfig} {st' : MmapLib} {size r : ℕ}
      (h : (mmapMalloc size).Returns c.st st' r) (hr : r ≠ 0) (hpos : 0 < size) :
      MmapStep c (.malloc size) ⟨st', ⟨r, size⟩ :: c.blocks⟩
  /-- Nothing has been asked for. -/
  | empty {c : MmapConfig} {st' : MmapLib} {r : ℕ} (h : (mmapMalloc 0).Returns c.st st' r) :
      MmapStep c (.malloc 0) ⟨st', c.blocks⟩
  /-- The request is refused. -/
  | refused {c : MmapConfig} {st' : MmapLib} {size : ℕ}
      (h : (mmapMalloc size).Returns c.st st' 0) : MmapStep c (.malloc size) ⟨st', c.blocks⟩
  /-- A pointer is given back. -/
  | free {c : MmapConfig} {st' : MmapLib} {ptr : ℕ} (h : (mmapFree ptr).Returns c.st st' ()) :
      MmapStep c (.free ptr) ⟨st', c.blocks⟩
  /-- A byte of a block is written, even if the block has been given back. -/
  | write {c : MmapConfig} {b : MmapBlock} {x : ℕ} {v : UInt8} (hb : b ∈ c.blocks)
      (hlo : b.addr ≤ x) (hhi : x < b.addr + b.size) :
      MmapStep c (.write x v)
        ⟨{ c.st with mem := Function.update c.st.mem x (some v) }, c.blocks⟩

/-- The bytes of a block. -/
def mmapBytes (mem : Memory) (b : MmapBlock) : List UInt8 :=
  ObjectStore.cells (fun i => (mem (b.addr + i)).getD 0) b.size

/-- The bytes that belong to each block. -/
def mmapObjects (c : MmapConfig) : ObjectStore UInt8 :=
  ObjectStore.ofBlocks MmapBlock.addr (mmapBytes c.st.mem) c.blocks

/-- What an action means to the program; `c'` is the configuration afterwards. -/
def mmapEvent (c c' : MmapConfig) : MmapOp → ObjectStore.Event UInt8
  | .malloc size =>
    if c'.blocks = c.blocks then .idle
    else .new ((c'.blocks.head?.map MmapBlock.addr).getD 0) size
  | .free _ => .idle
  | .write x v => .write x v

/-! ## The blocks -/

/-- The blocks lie one behind the other, from `base` to `stop`. -/
def Stacked (base : ℕ) : List MmapBlock → ℕ → Prop
  | [], stop => stop = base
  | b :: blocks, stop => stop = b.addr + b.size ∧ 0 < b.size ∧ Stacked base blocks b.addr

/-- The number of bytes in the blocks. -/
def total : List MmapBlock → ℕ
  | [] => 0
  | b :: blocks => b.size + total blocks

section Stacked

variable {base stop : ℕ} {blocks : List MmapBlock} {b : MmapBlock}

theorem Stacked.eq (h : Stacked base blocks stop) : stop = base + total blocks := by
  induction blocks generalizing stop with
  | nil => exact h
  | cons b blocks ih =>
    obtain ⟨rfl, -, hrest⟩ := h
    have heq := ih hrest
    rw [total]
    omega

/-- A block is between the ends. -/
theorem Stacked.le (h : Stacked base blocks stop) (hb : b ∈ blocks) :
    base ≤ b.addr ∧ b.addr + b.size ≤ stop := by
  induction blocks generalizing stop with
  | nil => cases hb
  | cons b' blocks ih =>
    obtain ⟨rfl, -, hrest⟩ := h
    rcases List.mem_cons.1 hb with rfl | hb
    · have heq := hrest.eq
      omega
    · have hle := ih hrest hb
      omega

/-- A block lies in front of those that have been handed out later. -/
theorem Stacked.pairwise (h : Stacked base blocks stop) :
    blocks.Pairwise fun b b' => b'.addr + b'.size ≤ b.addr := by
  induction blocks generalizing stop with
  | nil => exact .nil
  | cons b blocks ih =>
    obtain ⟨rfl, -, hrest⟩ := h
    exact .cons (fun b' hb' => (hrest.le hb').2) (ih hrest)

theorem Stacked.pos (h : Stacked base blocks stop) (hb : b ∈ blocks) : 0 < b.size := by
  induction blocks generalizing stop with
  | nil => cases hb
  | cons b' blocks ih =>
    obtain ⟨rfl, hpos, hrest⟩ := h
    rcases List.mem_cons.1 hb with rfl | hb
    · exact hpos
    · exact ih hrest hb

/-- The blocks have different addresses. -/
theorem Stacked.nodup (h : Stacked base blocks stop) : (blocks.map MmapBlock.addr).Nodup := by
  refine List.pairwise_map.2 (h.pairwise.imp_of_mem ?_)
  intro b b' _ hb' hle heq
  have hpos := h.pos hb'
  omega

/-- Two blocks with different addresses are apart. -/
theorem Stacked.apart (h : Stacked base blocks stop) {b' : MmapBlock} (hb : b ∈ blocks)
    (hb' : b' ∈ blocks) (hne : b.addr ≠ b'.addr) :
    b.addr + b.size ≤ b'.addr ∨ b'.addr + b'.size ≤ b.addr := by
  induction blocks generalizing stop with
  | nil => cases hb
  | cons c blocks ih =>
    obtain ⟨rfl, -, hrest⟩ := h
    rcases List.mem_cons.1 hb with rfl | hin
    · rcases List.mem_cons.1 hb' with rfl | hin'
      · exact absurd rfl hne
      · exact .inr (hrest.le hin').2
    · rcases List.mem_cons.1 hb' with rfl | hin'
      · exact .inl (hrest.le hin).2
      · exact ih hrest hin hin'

end Stacked

/-! ## The invariant -/

/-- The invariant, for a file of `n` bytes that is mapped at `base`. -/
structure MmapInv (base n : ℕ) (c : MmapConfig) : Prop where
  /-- The file is not mapped at `NULL`. -/
  base_pos : 0 < base
  /-- It does not wrap around. -/
  fits : base + n < 2 ^ 64
  /-- The variable is the address of the mapping. -/
  memblock : c.st.memblock = base
  /-- What is not in front of the position remains. -/
  remain : c.st.pos + c.st.remain = n
  /-- The blocks lie one behind the other up to the position. -/
  stacked : Stacked base c.blocks (base + c.st.pos)
  /-- The file is mapped. -/
  mapped : c.st.mem.Mapped base n
  /-- The record is in its place until a block reaches it. -/
  record : c.st.pos + 20 ≤ n → ∀ i (hi : i < lastRecord.length),
    c.st.mem (base + n - 20 + i) = some lastRecord[i]

section

variable {base n size r : ℕ} {st st' : MmapLib} {c c' : MmapConfig} {op : MmapOp} {b : MmapBlock}

/-- What `mmap_malloc` does. -/
theorem returns_mmapMalloc_iff : (mmapMalloc size).Returns st st' r ↔
    st.remain < size ∧ st' = st ∧ r = 0 ∨
    size ≤ st.remain ∧ r = u64 (st.memblock + st.pos) ∧
      st' = { st with pos := u64 (st.pos + size), remain := u64Sub st.remain size } := by
  unfold mmapMalloc
  by_cases hlt : st.remain < size
  · simp [hlt]
  · have hle : size ≤ st.remain := by omega
    simp [hlt, hle, and_comm, eq_comm]

namespace MmapInv

/-- A request is refused exactly if there is not enough left. -/
theorem returns_malloc (h : MmapInv base n c) (hret : (mmapMalloc size).Returns c.st st' r) :
    (r = 0 ∧ n < c.st.pos + size ∧ st' = c.st) ∨
    (r = base + c.st.pos ∧ c.st.pos + size ≤ n ∧
      st' = { c.st with pos := c.st.pos + size, remain := c.st.remain - size }) := by
  have hremain := h.remain
  have hfits := h.fits
  rcases returns_mmapMalloc_iff.1 hret with ⟨hlt, rfl, rfl⟩ | ⟨hle, rfl, rfl⟩
  · exact .inl ⟨rfl, by omega, rfl⟩
  · have hpos : u64 (c.st.pos + size) = c.st.pos + size := Nat.mod_eq_of_lt (by omega)
    have haddr : u64 (c.st.memblock + c.st.pos) = base + c.st.pos := by
      rw [h.memblock]
      exact Nat.mod_eq_of_lt (by omega)
    have hsub : u64Sub c.st.remain size = c.st.remain - size := by
      simp only [u64Sub]
      omega
    rw [hpos, haddr, hsub]
    exact .inr ⟨rfl, by omega, rfl⟩

/-- A byte of a block is in the file, and not in the record if no block reaches it. -/
theorem mem_block (h : MmapInv base n c) (hb : b ∈ c.blocks) {x : ℕ} (hlo : b.addr ≤ x)
    (hhi : x < b.addr + b.size) : base ≤ x ∧ x < base + c.st.pos := by
  have hle := h.stacked.le hb
  omega

/-- A step keeps the invariant. -/
theorem step (h : MmapInv base n c) (hs : MmapStep c op c') : MmapInv base n c' := by
  have hremain := h.remain
  cases hs with
  | @served st' size r hret hr hpos =>
    rcases h.returns_malloc hret with ⟨rfl, -⟩ | ⟨rfl, hle, rfl⟩
    · exact absurd rfl hr
    · refine ⟨h.base_pos, h.fits, h.memblock, ?_, ⟨?_, hpos, h.stacked⟩, h.mapped,
        fun hroom => h.record ?_⟩
      · dsimp only
        omega
      · dsimp only
        omega
      · dsimp only at hroom
        omega
  | @empty st' r hret =>
    rcases h.returns_malloc hret with ⟨rfl, hlt, -⟩ | ⟨rfl, hle, rfl⟩
    · omega
    · exact ⟨h.base_pos, h.fits, h.memblock, h.remain, h.stacked, h.mapped, h.record⟩
  | @refused st' size hret =>
    rcases h.returns_malloc hret with ⟨-, -, rfl⟩ | ⟨hno, -⟩
    · exact ⟨h.base_pos, h.fits, h.memblock, h.remain, h.stacked, h.mapped, h.record⟩
    · have hbase := h.base_pos
      omega
  | free hret =>
    obtain ⟨rfl, -⟩ := Prog.returns_pure_iff.1 hret
    exact ⟨h.base_pos, h.fits, h.memblock, h.remain, h.stacked, h.mapped, h.record⟩
  | @write b x v hb hlo hhi =>
    have hx := h.mem_block hb hlo hhi
    refine ⟨h.base_pos, h.fits, h.memblock, h.remain, h.stacked, h.mapped.update x v,
      fun hroom i hi => ?_⟩
    -- the record is behind the blocks
    have hroom' : c.st.pos + 20 ≤ n := hroom
    show Function.update c.st.mem x (some v) (base + n - 20 + i) = _
    rw [Function.update_of_ne (by omega)]
    exact h.record hroom i hi

/-! ## The objects -/

/-- An action is its event on the store of objects. -/
theorem step_objects (h : MmapInv base n c) (hs : MmapStep c op c') :
    ObjectStore.Step (mmapObjects c) (mmapEvent c c' op) (mmapObjects c') := by
  have hinv := h.step hs
  cases hs with
  | @served st' size r hret hr hpos =>
    have hnew := hinv.stacked.nodup
    rw [List.map_cons, List.nodup_cons] at hnew
    rcases h.returns_malloc hret with ⟨rfl, -⟩ | ⟨rfl, hle, rfl⟩
    · exact absurd rfl hr
    · rw [mmapEvent, if_neg (List.cons_ne_self _ _), mmapObjects, mmapObjects,
        ObjectStore.ofBlocks_cons]
      refine .new (ObjectStore.ofBlocks_eq_none fun b hb heq => hnew.1 ?_)
        (ObjectStore.length_cells _ _)
      exact List.mem_map.2 ⟨b, hb, heq⟩
  | @empty st' r hret =>
    rcases h.returns_malloc hret with ⟨-, -, rfl⟩ | ⟨-, -, rfl⟩
    · rw [mmapEvent, if_pos rfl]
      exact .idle
    · rw [mmapEvent, if_pos rfl]
      exact .idle
  | @refused st' size hret =>
    rcases h.returns_malloc hret with ⟨-, -, rfl⟩ | ⟨hno, -⟩
    · rw [mmapEvent, if_pos rfl]
      exact .idle
    · have hbase := h.base_pos
      omega
  | free hret =>
    obtain ⟨rfl, -⟩ := Prog.returns_pure_iff.1 hret
    exact .idle
  | @write b x v hb hlo hhi =>
    refine ObjectStore.step_write_ofBlocks h.stacked.nodup hb hlo
      (by rw [mmapBytes, ObjectStore.length_cells]; exact hhi)
      (ObjectStore.cells_update (f := (Option.getD · 0)) hlo) fun b' hb' hne => ?_
    -- the bytes of the other blocks are elsewhere
    have hapart := h.stacked.apart hb' hb hne
    refine ObjectStore.cells_congr fun i hi => congrArg (Option.getD · 0) ?_
    exact Function.update_of_ne (by omega) _ _

end MmapInv

/-! ## The constructor -/

/-- The variables after a constructor that has mapped a file with room for the record. -/
theorem mmapHandlerInit_eq {contents : ℕ → UInt8} (hn : 20 ≤ n) (hfits : base + n < 2 ^ 64)
    (hret : (mmapHandlerInit (some n) (some (base, contents))).Returns st st' ()) :
    st' = ⟨base, n, 0, n, (st.mem.map base n contents).store (base + n - 20) lastRecord⟩ := by
  have hsize : sizeOf64 n = n := by
    simp only [sizeOf64]
    omega
  have hlast : u64Sub (u64 (base + n)) 20 = base + n - 20 := by
    simp only [u64Sub, u64]
    omega
  obtain ⟨s₁, _, h₁, hret⟩ := Prog.returns_bind_iff.1 hret
  obtain ⟨s₂, _, h₂, hret⟩ := Prog.returns_bind_iff.1 hret
  obtain ⟨s₃, _, h₃, hret⟩ := Prog.returns_bind_iff.1 hret
  obtain ⟨s₄, lastRc, h₄, hret⟩ := Prog.returns_bind_iff.1 hret
  obtain ⟨s₅, _, h₅, h₆⟩ := Prog.returns_bind_iff.1 hret
  obtain ⟨-, hs₅⟩ := Prog.returns_require_iff.1 h₅
  obtain ⟨hs₄, hrc⟩ := Prog.returns_read_iff.1 h₄
  have hs₁ := Prog.returns_modify_iff.1 h₁
  have hs₂ := Prog.returns_modify_iff.1 h₂
  have hs₃ := Prog.returns_modify_iff.1 h₃
  rw [Prog.returns_modify_iff.1 h₆, hs₅, hs₄, hrc, hs₃, hs₂, hs₁]
  simp only [Option.getD_some, hsize, hlast]

/-- Then there are no blocks yet. -/
theorem mmapInv_init {contents : ℕ → UInt8} (hn : 20 ≤ n) (hbase : 0 < base)
    (hfits : base + n < 2 ^ 64)
    (hret : (mmapHandlerInit (some n) (some (base, contents))).Returns st st' ()) :
    MmapInv base n ⟨st', []⟩ := by
  obtain rfl := mmapHandlerInit_eq hn hfits hret
  have hmapped : (st.mem.map base n contents).Mapped base n := Memory.mapped_map contents
  exact ⟨hbase, hfits, rfl, Nat.zero_add n, rfl, hmapped.store _ _,
    fun _ i hi => Memory.store_add hi⟩

/-! ## Every run -/

/-- The blocks are objects that stay for ever, and take up as much of the file as has been handed
out. -/
structure MmapObjects (base n : ℕ) (c : MmapConfig) : Prop where
  /-- The blocks lie one behind the other from the start of the file on. -/
  stacked : Stacked base c.blocks (base + total c.blocks)
  /-- They are in the file. -/
  inside : total c.blocks ≤ n
  /-- A request is refused exactly if there is not enough left, and gets what follows otherwise. -/
  malloc : ∀ size, ∃ st', (mmapMalloc size).Returns c.st st'
    (if n < total c.blocks + size then 0 else base + total c.blocks)
  /-- An action is an event; a pointer that is given back changes nothing. -/
  step : ∀ op c', MmapStep c op c' →
    ObjectStore.Step (mmapObjects c) (mmapEvent c c' op) (mmapObjects c')
  /-- The record is in its place until a block reaches it. -/
  record : total c.blocks + 20 ≤ n → ∀ i (hi : i < lastRecord.length),
    c.st.mem (base + n - 20 + i) = some lastRecord[i]

theorem MmapInv.objects (h : MmapInv base n c) : MmapObjects base n c := by
  have htotal : c.st.pos = total c.blocks := Nat.add_left_cancel h.stacked.eq
  have hremain := h.remain
  refine ⟨htotal ▸ h.stacked, by omega, fun size => ?_, fun op c' hs => h.step_objects hs,
    htotal ▸ h.record⟩
  by_cases hlt : n < total c.blocks + size
  · rw [if_pos hlt]
    exact ⟨_, returns_mmapMalloc_iff.2 (.inl ⟨by omega, rfl, rfl⟩)⟩
  · rw [if_neg hlt]
    have hfits := h.fits
    refine ⟨_, returns_mmapMalloc_iff.2 (.inr ⟨by omega, ?_, rfl⟩)⟩
    rw [h.memblock, htotal]
    exact (Nat.mod_eq_of_lt (by omega)).symm

/-- After a constructor that has mapped a file with room for the record, in every run the blocks are
objects that stay for ever, whatever is given back, and a request is refused exactly if it is for
more than has not been handed out yet. -/
theorem mmap_refines {contents : ℕ → UInt8} (hn : 20 ≤ n) (hbase : 0 < base)
    (hfits : base + n < 2 ^ 64)
    (hret : (mmapHandlerInit (some n) (some (base, contents))).Returns st st' ())
    (h : Runs.Reach MmapStep (fun _ _ => True) ⟨st', []⟩ c) : MmapObjects base n c :=
  (h.invariant (mmapInv_init hn hbase hfits hret) fun _ _ _ hc _ hs => hc.step hs).objects

end

/-- A file of 64 bytes has been mapped at the address 4096. -/
def sixtyFourBytes : MmapLib :=
  ((mmapHandlerInit (some (64 : ℕ)) (some (4096, fun _ => 0))).exec 1
    ⟨0, 0, 0, 0, fun _ => none⟩).state

/-- Forty of them have been handed out. -/
def fortyBytes : MmapConfig := ⟨((mmapMalloc 40).exec 1 sixtyFourBytes).state, [⟨4096, 40⟩]⟩

theorem mmap_refines_fortyBytes : MmapObjects 4096 64 fortyBytes := by
  have hinit : (mmapHandlerInit (some (64 : ℕ)) (some (4096, fun _ => 0))).Returns
      ⟨0, 0, 0, 0, fun _ => none⟩ sixtyFourBytes () :=
    Prog.returns_of_value? (n := 1) (by decide)
  have hmalloc : (mmapMalloc 40).Returns sixtyFourBytes fortyBytes.st 4096 :=
    Prog.returns_of_value? (n := 1) (by decide)
  have hstep : MmapStep ⟨sixtyFourBytes, []⟩ (.malloc 40) fortyBytes :=
    .served hmalloc (by decide) (by decide)
  exact mmap_refines (by decide) (by decide) (by decide) hinit (.step .start trivial hstep)

end Zalloc
