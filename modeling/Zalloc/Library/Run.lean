import Mathlib.Data.List.Nodup
import Zalloc.Library.Defs
import Zalloc.Buddy.Run

/-!
# Runs of the allocation interface

A configuration of the library is the state of its variables and of the memory, with the pointers
that have been handed out and not been given back. Between two calls the program may write to the
bytes it has asked for.

## Main definitions

* `LStep c call c'`: a call that returns, or a write of the program.
* `Ready base c blocks t`: initialisation has succeeded with a mapping at `base`, and the tree
  represents the partition `t` of the mapping, whose blocks are the live ones.

## Main results

* `returns_buddyXmalloc_iff` and its companions: an entry point is `init_` and an operation of the
  tree.
* `Ready.malloc`, `Ready.free`, `Ready.getSize`: the entry points when initialisation has succeeded.
-/

set_option autoImplicit false

namespace Zalloc

/-! ## Configurations -/

/-- The number of levels of the tree. -/
def pageLevel : ℕ := 19

/-- A pointer that has been handed out. -/
structure Handed where
  /-- The address. -/
  addr : ℕ
  /-- The number of pages of the block. -/
  pages : ℕ
  /-- The number of bytes requested. -/
  used : ℕ
deriving DecidableEq, Repr

/-- The state of the library, and the live pointers. -/
structure LConfig where
  /-- The state. -/
  lib : Lib
  /-- The pointers handed out and not given back. -/
  live : List Handed

/-- The calls, with what the system answers in each of them, and the writes of the program. -/
inductive Call where
  /-- `init_` alone, as in the constructor. -/
  | init (o : Outcome)
  /-- `buddy_xmalloc`, and `malloc`. -/
  | malloc (o : Outcome) (size : ℕ)
  /-- `calloc`. -/
  | calloc (o : Outcome) (num size : ℕ)
  /-- `buddy_xfree`, and `free` of a pointer that is not `NULL`. -/
  | free (o : Outcome) (ptr : ℕ)
  /-- `buddy_get_size`. -/
  | getSize (o : Outcome) (ptr : ℕ)
  /-- `realloc`. -/
  | realloc (o₁ o₂ o₃ : Outcome) (ptr size : ℕ)
  /-- A write to a byte of a live block. -/
  | write (addr : ℕ) (value : UInt8)

/-- The live pointers after a request for `s` bytes has been answered with `r`. -/
def handOut (r s : ℕ) (live : List Handed) : List Handed :=
  if r = 0 then live else ⟨r, allocSize s, s⟩ :: live

/-- The live pointers after `ptr` has been given back. -/
def giveBack (ptr : ℕ) (live : List Handed) : List Handed := live.filter fun p => p.addr ≠ ptr

/-- A call that returns, or a write. -/
inductive LStep : LConfig → Call → LConfig → Prop
  /-- An attempt to initialise. -/
  | init {c : LConfig} {o : Outcome} : LStep c (.init o) ⟨init_ o c.lib, c.live⟩
  /-- A request. -/
  | malloc {c : LConfig} {l : Lib} {o : Outcome} {s r : ℕ}
      (h : (buddyXmalloc o s).Returns c.lib l r) :
      LStep c (.malloc o s) ⟨l, handOut r s c.live⟩
  /-- A request for an array. -/
  | calloc {c : LConfig} {l : Lib} {o : Outcome} {num s r : ℕ}
      (h : (calloc o num s).Returns c.lib l r) :
      LStep c (.calloc o num s) ⟨l, handOut r (u64 (num * s)) c.live⟩
  /-- A live pointer is given back. -/
  | free {c : LConfig} {l : Lib} {o : Outcome} {p : Handed} (hp : p ∈ c.live)
      (h : (buddyXfree o p.addr).Returns c.lib l ()) :
      LStep c (.free o p.addr) ⟨l, giveBack p.addr c.live⟩
  /-- The size of a block is asked for. -/
  | getSize {c : LConfig} {l : Lib} {o : Outcome} {ptr n : ℕ}
      (h : (buddyGetSize o ptr).Returns c.lib l n) : LStep c (.getSize o ptr) ⟨l, c.live⟩
  /-- `NULL` or a live pointer is reallocated. -/
  | realloc {c : LConfig} {l : Lib} {o₁ o₂ o₃ : Outcome} {ptr s r : ℕ}
      (hp : ptr = 0 ∨ ∃ p ∈ c.live, p.addr = ptr)
      (h : (realloc o₁ o₂ o₃ ptr s).Returns c.lib l r) :
      LStep c (.realloc o₁ o₂ o₃ ptr s)
        ⟨l, if r = 0 then c.live else ⟨r, allocSize s, s⟩ :: giveBack ptr c.live⟩
  /-- The program writes to a byte of a live block. -/
  | write {c : LConfig} {p : Handed} {addr : ℕ} {value : UInt8} (hp : p ∈ c.live)
      (hlo : p.addr ≤ addr) (hhi : addr < p.addr + p.used) (hmapped : (c.lib.mem addr).isSome) :
      LStep c (.write addr value)
        ⟨{ c.lib with mem := Function.update c.lib.mem addr (some value) }, c.live⟩

/-- The live pointers as blocks of the mapping. -/
def blocksOf (c : LConfig) : List Block :=
  c.live.map fun p => ⟨p.addr - c.lib.memblock, p.pages, p.used⟩

/-- A request finds room, or nothing at all is free, in which case the search never ends. -/
def Served (c : LConfig) (s : ℕ) : Prop :=
  HasRoom pageLevel (blocksOf c) (allocSize s) ∨
    IsFull pageLevel (blocksOf c) ∧ allocSize s ≤ 2 ^ pageLevel

/-! ## Entry points -/

section Entry

variable {o : Outcome} {st st' : Lib} {b : Buddy} {s r n ptr : ℕ}

/-- After a successful initialisation `init_` does nothing. -/
theorem init_of_isInit (h : st.isInit = true) (o : Outcome) : init_ o st = st := by
  rw [init_, if_pos h]

@[simp] theorem returns_onBuddy_iff {α : Type} {p : TreeProg α} {a : α}
    (hb : st.buddy = some b) :
    (onBuddy b p).Returns st st' a ↔
      ∃ m, p.Returns ⟨b, []⟩ m a ∧ st' = { st with buddy := some m.self } := by
  simp [onBuddy, hb]

theorem returns_buddyXmalloc_iff (hb : (init_ o st).buddy = some b) :
    (buddyXmalloc o s).Returns st st' r ↔
      ∃ m pos, (buddyAlloc s).Returns ⟨b, []⟩ m pos ∧
        st' = { init_ o st with buddy := some m.self } ∧
        r = u64 ((init_ o st).memblock + pos) := by
  simp only [buddyXmalloc, Prog.returns_bind_iff, Prog.returns_modify_iff, Prog.returns_read_iff]
  constructor
  · rintro ⟨_, _, rfl, _, _, ⟨rfl, rfl⟩, h⟩
    rw [hb] at h
    obtain ⟨_, pos, hpos, hret⟩ := Prog.returns_bind_iff.1 h
    obtain ⟨m, hm, rfl⟩ := (returns_onBuddy_iff hb).1 hpos
    -- the test `pos < 0` of a `uint64_t` never holds
    rw [if_neg (Nat.not_lt_zero pos)] at hret
    obtain ⟨rfl, rfl⟩ : st' = _ ∧ r = _ := by simpa using hret
    exact ⟨m, pos, hm, rfl, rfl⟩
  · rintro ⟨m, pos, hm, rfl, rfl⟩
    refine ⟨_, (), rfl, _, _, ⟨rfl, rfl⟩, ?_⟩
    rw [hb]
    refine ((returns_onBuddy_iff hb).2 ⟨m, hm, rfl⟩).bind ?_
    rw [if_neg (Nat.not_lt_zero pos)]
    simp

theorem returns_buddyXfree_iff (hb : (init_ o st).buddy = some b) :
    (buddyXfree o ptr).Returns st st' () ↔
      (init_ o st).memblock ≤ ptr ∧
        ∃ m, (buddyFree levelByte (u64Sub ptr (init_ o st).memblock)).Returns ⟨b, []⟩ m () ∧
          st' = { init_ o st with buddy := some m.self } := by
  simp only [buddyXfree, Prog.returns_bind_iff, Prog.returns_modify_iff, Prog.returns_read_iff]
  constructor
  · rintro ⟨_, _, rfl, _, _, ⟨rfl, rfl⟩, h⟩
    rw [hb] at h
    simpa [hb] using h
  · rintro ⟨hle, m, hm, rfl⟩
    refine ⟨_, (), rfl, _, _, ⟨rfl, rfl⟩, ?_⟩
    rw [hb]
    simpa [hb, hle] using ⟨m, hm, rfl⟩

theorem returns_buddyGetSize_iff (hb : (init_ o st).buddy = some b) :
    (buddyGetSize o ptr).Returns st st' n ↔
      ∃ m, (buddyUsedSize (u64Sub ptr (init_ o st).memblock)).Returns ⟨b, []⟩ m n ∧
        st' = { init_ o st with buddy := some m.self } := by
  simp only [buddyGetSize, Prog.returns_bind_iff, Prog.returns_modify_iff, Prog.returns_read_iff]
  constructor
  · rintro ⟨_, _, rfl, _, _, ⟨rfl, rfl⟩, h⟩
    rw [hb] at h
    simpa [hb] using h
  · rintro ⟨m, hm, rfl⟩
    refine ⟨_, (), rfl, _, _, ⟨rfl, rfl⟩, ?_⟩
    rw [hb]
    simpa [hb] using ⟨m, hm, rfl⟩

theorem returns_buddyGetPageSize_iff (hb : (init_ o st).buddy = some b) :
    (buddyGetPageSize o ptr).Returns st st' n ↔
      ∃ m, (buddyPageSize (u64Sub ptr (init_ o st).memblock)).Returns ⟨b, []⟩ m n ∧
        st' = { init_ o st with buddy := some m.self } := by
  simp only [buddyGetPageSize, Prog.returns_bind_iff, Prog.returns_modify_iff,
    Prog.returns_read_iff]
  constructor
  · rintro ⟨_, _, rfl, _, _, ⟨rfl, rfl⟩, h⟩
    rw [hb] at h
    simpa [hb] using h
  · rintro ⟨m, hm, rfl⟩
    refine ⟨_, (), rfl, _, _, ⟨rfl, rfl⟩, ?_⟩
    rw [hb]
    simpa [hb] using ⟨m, hm, rfl⟩

theorem returns_memcpy_iff {dst src : ℕ} :
    (memcpy dst src n).Returns st st' () ↔
      (st.mem.Mapped src n ∧ st.mem.Mapped dst n) ∧
        st' = { st with mem := st.mem.copy dst src n } := by
  simp [memcpy, Prog.returns_bind_iff]

theorem returns_memset_iff {dst : ℕ} {value : UInt8} :
    (memset dst value n).Returns st st' () ↔
      st.mem.Mapped dst n ∧ st' = { st with mem := st.mem.fill dst n value } := by
  simp [memset, Prog.returns_bind_iff]

/-- `calloc` is a request, the bytes of which are then set. -/
theorem returns_calloc_iff {num : ℕ} :
    (calloc o num s).Returns st st' r ↔
      ∃ l, (buddyXmalloc o (u64 (num * s))).Returns st l r ∧ l.mem.Mapped r (u64 (num * s)) ∧
        st' = { l with mem := l.mem.fill r (u64 (num * s)) 0 } := by
  simp only [calloc, Prog.returns_bind_iff, Prog.returns_pure_iff]
  constructor
  · rintro ⟨l, _, hret, _, _, hset, rfl, rfl⟩
    exact ⟨l, hret, returns_memset_iff.1 hset⟩
  · rintro ⟨l, hret, hset⟩
    exact ⟨l, r, hret, _, (), returns_memset_iff.2 hset, rfl, rfl⟩

/-- `realloc` takes a new block and, if there are an old and a new one, copies and gives the old one
back. -/
theorem returns_realloc_iff {o₁ o₂ o₃ : Outcome} :
    (realloc o₁ o₂ o₃ ptr s).Returns st st' r ↔
      ∃ l₁, (buddyXmalloc o₁ s).Returns st l₁ r ∧
        if r ≠ 0 ∧ ptr ≠ 0 then
          ∃ l₂ n, (buddyGetSize o₂ ptr).Returns l₁ l₂ n ∧
            (l₂.mem.Mapped ptr (min s n) ∧ l₂.mem.Mapped r (min s n)) ∧
            (buddyXfree o₃ ptr).Returns { l₂ with mem := l₂.mem.copy r ptr (min s n) } st' ()
        else st' = l₁ := by
  rw [realloc, Prog.returns_bind_iff]
  constructor
  · rintro ⟨l₁, new, hret, hrest⟩
    split_ifs at hrest with hnew hptr
    · -- an old and a new block: look up, copy, give back
      obtain ⟨l₂, n, hsize, hrest⟩ := Prog.returns_bind_iff.1 hrest
      obtain ⟨_, _, hcpy, hrest⟩ := Prog.returns_bind_iff.1 hrest
      obtain ⟨_, _, hfree, hpure⟩ := Prog.returns_bind_iff.1 hrest
      obtain ⟨rfl, rfl⟩ := Prog.returns_pure_iff.1 hpure
      obtain ⟨hmapped, rfl⟩ := returns_memcpy_iff.1 hcpy
      refine ⟨l₁, hret, ?_⟩
      rw [if_pos ⟨hnew, hptr⟩]
      exact ⟨l₂, n, hsize, hmapped, hfree⟩
    · obtain ⟨rfl, rfl⟩ := Prog.returns_pure_iff.1 hrest
      exact ⟨_, hret, by rw [if_neg fun h => hptr h.2]⟩
    · obtain ⟨rfl, rfl⟩ := Prog.returns_pure_iff.1 hrest
      exact ⟨_, hret, by rw [if_neg fun h => hnew h.1]⟩
  · rintro ⟨l₁, hret, hrest⟩
    refine ⟨l₁, r, hret, ?_⟩
    split_ifs with hnew hptr
    · rw [if_pos ⟨hnew, hptr⟩] at hrest
      obtain ⟨l₂, n, hsize, hmapped, hfree⟩ := hrest
      have hcpy := returns_memcpy_iff.2 ⟨hmapped, rfl⟩
      exact hsize.bind (hcpy.bind (hfree.bind (Prog.returns_pure _ _)))
    · rw [if_neg fun h => hptr h.2] at hrest
      exact Prog.returns_pure_iff.2 ⟨hrest, rfl⟩
    · rw [if_neg fun h => hnew h.1] at hrest
      exact Prog.returns_pure_iff.2 ⟨hrest, rfl⟩

end Entry

/-! ## After a successful initialisation -/

/-- The pointer to a block of the mapping at `base`. -/
def handed (base : ℕ) (b : Block) : Handed := ⟨base + b.offset, b.pages, b.used⟩

/-- Initialisation has succeeded with a mapping at `base`, and the live pointers are those to the
blocks, which are represented by the tree. -/
structure Ready (base : ℕ) (b : Buddy) (c : LConfig) (blocks : List Block) (t : PTree ℕ) :
    Prop where
  /-- `isInit` is set. -/
  isInit : c.lib.isInit = true
  /-- `memblock` is the mapping. -/
  memblock : c.lib.memblock = base
  /-- The mapping is not at `NULL`. -/
  base_pos : 0 < base
  /-- The mapping does not wrap around. -/
  base_le : base + 2 ^ 31 ≤ 2 ^ 64
  /-- The mapping is there. -/
  mapped : c.lib.mem.Mapped base (2 ^ 31)
  /-- `buddy` points to the tree. -/
  buddy : c.lib.buddy = some b
  /-- The tree represents the blocks. -/
  inv : Inv pageLevel ⟨b, blocks⟩ t
  /-- The live pointers are those to the blocks. -/
  live : c.live = blocks.map (handed base)

namespace Ready

variable {base s ptr : ℕ} {b : Buddy} {c : LConfig} {blocks : List Block} {t : PTree ℕ}

theorem buddy_init (h : Ready base b c blocks t) (o : Outcome) :
    (init_ o c.lib).buddy = some b := by
  rw [init_of_isInit h.isInit, h.buddy]

/-- The blocks lie in the mapping. -/
theorem stop_le (h : Ready base b c blocks t) {x : Block} (hx : x ∈ blocks) : x.stop ≤ 2 ^ 31 :=
  h.inv.stop_le hx

/-- The offset of a pointer to a block. -/
theorem u64Sub_addr (h : Ready base b c blocks t) {x : Block} (hx : x ∈ blocks) :
    u64Sub (handed base x).addr base = x.offset := by
  have hstop := h.stop_le hx
  have hle := h.base_le
  rw [Block.stop] at hstop
  -- the mapping does not wrap around, so the difference is exact
  simp only [u64Sub, handed]
  omega

/-- The pointer to a block at an offset in the mapping. -/
theorem u64_addr (h : Ready base b c blocks t) {off : ℕ} (hoff : off < 2 ^ 31) :
    u64 (base + off) = base + off := by
  have hle := h.base_le
  exact Nat.mod_eq_of_lt (by omega)

/-- Two live pointers are different. -/
theorem nodup (h : Ready base b c blocks t) : (c.live.map Handed.addr).Nodup := by
  have hmap : c.live.map Handed.addr = (blocks.map Block.offset).map (base + ·) := by
    rw [h.live, List.map_map, List.map_map]
    rfl
  rw [hmap]
  exact List.Nodup.map (fun _ _ heq => Nat.add_left_cancel heq) h.inv.nodup

theorem blocksOf_eq (h : Ready base b c blocks t) : blocksOf c = blocks := by
  rw [blocksOf, h.live, List.map_map, h.memblock]
  conv_rhs => rw [← List.map_id blocks]
  refine List.map_congr_left fun x _ => ?_
  simp [handed]

/-- A request that is served and returns has found room. -/
theorem hasRoom_of_served (h : Ready base b c blocks t) {o : Outcome} {l : Lib} {r : ℕ}
    (hok : Served c s) (hret : (buddyXmalloc o s).Returns c.lib l r) :
    HasRoom pageLevel blocks (allocSize s) := by
  rw [Served, h.blocksOf_eq] at hok
  rcases hok with hroom | ⟨hfull, hle⟩
  · exact hroom
  · -- when nothing is free there is no answer
    obtain ⟨m, pos, hm, -, -⟩ := (returns_buddyXmalloc_iff (h.buddy_init o)).1 hret
    rw [← h.inv.level] at hle
    exact absurd hm (buddyAlloc_of_full (m := ⟨b, []⟩) h.inv.rep (h.inv.isFull_iff.1 hfull) hle)

/-- A request for which there is room. -/
theorem malloc (h : Ready base b c blocks t) (o : Outcome)
    (hroom : HasRoom pageLevel blocks (allocSize s)) :
    ∃ l b' off t', (buddyXmalloc o s).Returns c.lib l (base + off) ∧
      Ready base b' ⟨l, handOut (base + off) s c.live⟩ (⟨off, allocSize s, s⟩ :: blocks) t' ∧
      l.mem = c.lib.mem := by
  obtain ⟨m, j, pos, t', hj, hsize, hins, hret, hinv⟩ := h.inv.alloc (by decide) hroom
  have hstop := hinv.stop_le (List.mem_cons_self ..)
  have hpos := allocSize_pos s
  -- the block lies in the mapping, so its address does not wrap
  have hoff : pageSize * (pos * 2 ^ j) < 2 ^ 31 := by
    simp only [Block.stop, pageSize, pageLevel] at hstop ⊢
    omega
  have hbase := h.base_pos
  have hne : ¬ base + pageSize * (pos * 2 ^ j) = 0 := by omega
  have hinit := init_of_isInit h.isInit o
  refine ⟨{ c.lib with buddy := some m.self }, m.self, pageSize * (pos * 2 ^ j), t', ?_, ?_, rfl⟩
  · refine (returns_buddyXmalloc_iff (h.buddy_init o)).2 ⟨m, _, hret, by rw [hinit], ?_⟩
    rw [hinit, h.memblock, h.u64_addr hoff]
  · rw [handOut, if_neg hne]
    exact ⟨h.isInit, h.memblock, h.base_pos, h.base_le, h.mapped, rfl, hinv, by
      rw [List.map_cons, h.live, handed]⟩

/-- A live pointer is given back. -/
theorem free (h : Ready base b c blocks t) (o : Outcome) {p : Handed} (hp : p ∈ c.live) :
    ∃ l b' t', (buddyXfree o p.addr).Returns c.lib l () ∧
      Ready base b' ⟨l, giveBack p.addr c.live⟩
        (blocks.filter fun x => base + x.offset ≠ p.addr) t' ∧
      l.mem = c.lib.mem := by
  rw [h.live] at hp
  obtain ⟨x, hx, rfl⟩ := List.mem_map.1 hp
  -- the level of the library is not the byte of a full node
  have hbefore : ∀ self : Buddy, self.level = pageLevel →
      levelByte self ≠ NodeState.full.toByte := by
    intro self hlevel
    rw [levelByte, hlevel]
    decide
  obtain ⟨m, hret, hinv⟩ := h.inv.free (by decide) hbefore hx
  have hinit := init_of_isInit h.isInit o
  refine ⟨{ c.lib with buddy := some m.self }, m.self, t.remove pageLevel 0 (x.offset / pageSize),
    ?_, ⟨h.isInit, h.memblock, h.base_pos, h.base_le, h.mapped, rfl, ?_, ?_⟩, rfl⟩
  · refine (returns_buddyXfree_iff (h.buddy_init o)).2 ⟨?_, m, ?_, by rw [hinit]⟩
    · rw [hinit, h.memblock]
      exact Nat.le_add_right base _
    · rw [hinit, h.memblock, h.u64Sub_addr hx]
      exact hret
  · simpa [handed] using hinv
  · rw [giveBack, h.live, List.filter_map]
    rfl

/-- Asking for a size changes nothing. -/
theorem getSize_eq (h : Ready base b c blocks t) {o : Outcome} {l : Lib} {n : ℕ}
    (hret : (buddyGetSize o ptr).Returns c.lib l n) : l = c.lib := by
  obtain ⟨m, hm, rfl⟩ := (returns_buddyGetSize_iff (h.buddy_init o)).1 hret
  rw [buddyUsedSize_self hm, init_of_isInit h.isInit, ← h.buddy]

/-- The size of a live block is the size that was requested. -/
theorem getSize (h : Ready base b c blocks t) (o : Outcome) {p : Handed} (hp : p ∈ c.live) :
    (buddyGetSize o p.addr).Returns c.lib c.lib p.used := by
  have hp' := hp
  rw [h.live] at hp'
  obtain ⟨x, hx, rfl⟩ := List.mem_map.1 hp'
  obtain ⟨e, rfl, hfind, hstart⟩ := h.inv.find_of_live hx
  obtain ⟨m, hret, hself⟩ := buddyUsedSize_of_find (m := ⟨b, []⟩) (by decide) h.inv.level h.inv.rep
    hfind hstart
  have hinit := init_of_isInit h.isInit o
  refine (returns_buddyGetSize_iff (h.buddy_init o)).2 ⟨m, ?_, ?_⟩
  · rw [hinit, h.memblock, h.u64Sub_addr hx]
    exact hret
  · rw [hself, hinit, ← h.buddy]

end Ready

end Zalloc
