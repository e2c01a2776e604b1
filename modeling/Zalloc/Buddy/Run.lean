import Zalloc.Buddy.AllocSpec
import Zalloc.Buddy.FreeSpec
import Zalloc.Foundations.Runs

/-!
# Runs of the buddy allocator

A configuration is a tree together with the blocks that have been handed out and not been given
back, which the source does not keep. The steps are the calls of `buddy_alloc` and the calls of
`buddy_free` for an offset that is live.

## Main definitions

* `Step before c op c'`: a call that returns.
* `HasRoom L live p`, `IsFull L live`: what the live blocks leave free.
* `Inv L c t`: the tree represents the partition `t` of the arena, whose blocks are the live ones.

## Main results

* `Inv.alloc`: an allocation for which there is room.
* `Inv.free`, `Inv.free_within`: a release.
-/

set_option autoImplicit false

namespace Zalloc

/-! ## Configurations -/

/-- A block that has been handed out. -/
structure Block where
  /-- The offset of the block in the arena, in bytes. -/
  offset : ℕ
  /-- The number of its pages. -/
  pages : ℕ
  /-- The number of bytes requested. -/
  used : ℕ
deriving DecidableEq, Repr

namespace Block

/-- The end of the block. -/
def stop (b : Block) : ℕ := b.offset + pageSize * b.pages

/-- The block has a byte in pages `lo` to `hi`. -/
def Meets (b : Block) (lo hi : ℕ) : Prop := b.offset < pageSize * hi ∧ pageSize * lo < b.stop

instance (b : Block) (lo hi : ℕ) : Decidable (b.Meets lo hi) :=
  inferInstanceAs (Decidable (_ ∧ _))

end Block

/-- A tree and the live blocks. -/
structure Config where
  /-- The tree. -/
  self : Buddy
  /-- The blocks handed out and not given back. -/
  live : List Block

/-- The calls. -/
inductive Op where
  /-- `buddy_alloc`. -/
  | alloc (s : ℕ)
  /-- `buddy_free`. -/
  | free (o : ℕ)
deriving DecidableEq, Repr

/-- A call with its result; `buddy_free` has none, which is written `0`. -/
def Op.run (before : Buddy → ℕ) : Op → TreeProg ℕ
  | .alloc s => buddyAlloc s
  | .free o => do
    buddyFree before o
    pure 0

/-- A call that returns. -/
inductive Step (before : Buddy → ℕ) : Config → Op → Config → Prop
  /-- An allocation hands out a block unless it returns `(uint64_t) -1`. -/
  | alloc {c : Config} {m : Traced} {s o : ℕ} (h : (buddyAlloc s).Returns ⟨c.self, []⟩ m o) :
      Step before c (.alloc s)
        ⟨m.self, if o = u64Max then c.live else ⟨o, allocSize s, s⟩ :: c.live⟩
  /-- A release is of a live offset. -/
  | free {c : Config} {m : Traced} {b : Block} (hb : b ∈ c.live)
      (h : (buddyFree before b.offset).Returns ⟨c.self, []⟩ m ()) :
      Step before c (.free b.offset) ⟨m.self, c.live.filter fun b' => b'.offset ≠ b.offset⟩

/-- There is a naturally aligned range of `p` pages without a live block. -/
def HasRoom (L : ℕ) (live : List Block) (p : ℕ) : Prop :=
  ∃ i, (i + 1) * p ≤ 2 ^ L ∧ ∀ b ∈ live, ¬ b.Meets (i * p) ((i + 1) * p)

/-- Every page belongs to a live block. -/
def IsFull (L : ℕ) (live : List Block) : Prop :=
  ∀ x < 2 ^ L, ∃ b ∈ live, b.Meets x (x + 1)

/-- The steps that find room: every request has a naturally aligned free range of its size. -/
def Fits (L : ℕ) (c : Config) : Op → Prop
  | .alloc s => HasRoom L c.live (allocSize s)
  | .free _ => True

/-- A page count for which there is room is a power of two, at most the size of the arena. -/
theorem HasRoom.exists_eq_two_pow {L s : ℕ} {live : List Block}
    (h : HasRoom L live (allocSize s)) (hL : L ≤ 29) : ∃ j ≤ L, allocSize s = 2 ^ j := by
  obtain ⟨i, hi, -⟩ := h
  -- a range of the arena is not longer than the arena
  have hle : allocSize s ≤ 2 ^ L := (Nat.le_mul_of_pos_left _ (Nat.succ_pos i)).trans hi
  have hlt : 2 ^ L < 2 ^ 32 := Nat.pow_lt_pow_right (by decide) (by omega)
  obtain ⟨j, hj⟩ := exists_allocSize_eq_two_pow (hle.trans_lt hlt)
  exact ⟨j, (Nat.pow_le_pow_iff_right (by decide)).1 (hj ▸ hle), hj⟩

/-! ## Offsets -/

section Offset

variable {L j m pos : ℕ}

/-- No offset is `(uint64_t) -1`. -/
theorem indexOffset_ne (index : ℕ) (level maxLevel : ℤ) :
    indexOffset index level maxLevel ≠ u64Max := by
  intro h
  -- an offset is a multiple of the page size, and `(uint64_t) -1` is odd
  have hdvd : pageSize ∣ indexOffset index level maxLevel :=
    (Nat.dvd_mod_iff (by decide)).2 (Nat.dvd_mul_right pageSize _)
  rw [h] at hdvd
  exact absurd hdvd (by decide)

/-- The offset of the node at position `pos` of a level is that of its first page. -/
theorem indexOffset_eq (hL : j + m ≤ 29) (hpos : pos < 2 ^ m) :
    indexOffset (2 ^ m + pos - 1) (m : ℕ) (j + m : ℕ) = pageSize * (pos * 2 ^ j) := by
  have hone := Nat.two_pow_pos m
  have hm : 2 ^ m ≤ 2 ^ 29 := Nat.pow_le_pow_right Nat.two_pos (by omega)
  have hlt : pos * 2 ^ j < 2 ^ 29 := by
    calc pos * 2 ^ j < 2 ^ m * 2 ^ j := Nat.mul_lt_mul_of_pos_right hpos (Nat.two_pow_pos j)
      _ = 2 ^ (j + m) := by rw [← pow_add, Nat.add_comm]
      _ ≤ 2 ^ 29 := Nat.pow_le_pow_right Nat.two_pos hL
  -- none of the operations of `_index_offset` wraps
  have hindex : u64 (2 ^ m + pos - 1 + 1) = 2 ^ m + pos := by
    rw [Nat.sub_add_cancel (by omega), u64, Nat.mod_eq_of_lt (by omega)]
  have hsub : u64Sub (2 ^ m + pos) (2 ^ m) = pos := by
    rw [u64Sub, show 2 ^ m + pos + 2 ^ 64 - 2 ^ m = pos + 2 ^ 64 by omega, Nat.add_mod_right,
      Nat.mod_eq_of_lt (by omega)]
  have hshift : ((j + m : ℕ) - (m : ℕ) : ℤ).toNat = j := by omega
  have hinner : u64 (pos * 2 ^ j) = pos * 2 ^ j := Nat.mod_eq_of_lt (by omega)
  have houter : u64 (pageSize * (pos * 2 ^ j)) = pageSize * (pos * 2 ^ j) :=
    Nat.mod_eq_of_lt (by unfold pageSize; omega)
  rw [indexOffset, hindex, Int.toNat_natCast, Nat.one_shiftLeft, hsub, hshift, Nat.shiftLeft_eq,
    hinner, houter]

end Offset

/-! ## The invariant -/

/-- The block of a partition that an extent of pages stands for. -/
def blockOf (e : Extent ℕ) : Block := ⟨pageSize * e.start, 2 ^ e.order, e.tag⟩

theorem blockOf_stop (e : Extent ℕ) : (blockOf e).stop = pageSize * e.stop := by
  rw [Block.stop, blockOf, Extent.stop, Nat.mul_add]

theorem blockOf_meets {e : Extent ℕ} {lo hi : ℕ} : (blockOf e).Meets lo hi ↔ e.Meets lo hi := by
  rw [Block.Meets, blockOf_stop, Extent.Meets, blockOf]
  simp [pageSize]

theorem blockOf_offset_div (e : Extent ℕ) : (blockOf e).offset / pageSize = e.start :=
  Nat.mul_div_cancel_left _ (by decide)

/-- The tree of `2 ^ L` pages represents the partition `t`, and the live blocks are its blocks. -/
structure Inv (L : ℕ) (c : Config) (t : PTree ℕ) : Prop where
  /-- The level is that of the arena. -/
  level : c.self.level = L
  /-- The tree represents the partition. -/
  rep : Represents c.self.tree L 0 t
  /-- Free siblings have been merged. -/
  normal : t.Normal
  /-- Every block has the size that was computed from its request. -/
  sized : ∀ e ∈ t.blocks L 0, allocSize e.tag = 2 ^ e.order
  /-- The live blocks are the blocks of the partition. -/
  live : ∀ b, b ∈ c.live ↔ ∃ e ∈ t.blocks L 0, blockOf e = b
  /-- No offset has been handed out twice. -/
  nodup : (c.live.map Block.offset).Nodup

/-- A new arena is one free block. -/
theorem buddyNew_inv {lib : Bool} {memory : ℕ → Node} {L : ℕ} {self : Buddy}
    (h : buddyNew lib memory (L + 12) = some self) : Inv L ⟨self, []⟩ .free := by
  unfold buddyNew at h
  dsimp only at h
  split_ifs at h
  all_goals
    obtain rfl := Option.some.inj h
    -- the root is among the nodes that are cleared
    have hpos : 0 < 1 <<< (L + 1) - 1 := by
      rw [Nat.one_shiftLeft, pow_succ]
      have := Nat.two_pow_pos L
      omega
    refine ⟨rfl, ?_, trivial, by simp, by simp, List.nodup_nil⟩
    simp [hpos]

namespace Inv

variable {L j s : ℕ} {c : Config} {t : PTree ℕ}

theorem heightLE (h : Inv L c t) : t.HeightLE L := h.rep.heightLE

/-- Every page belongs to a live block exactly when the partition is full. -/
theorem isFull_iff (h : Inv L c t) : IsFull L c.live ↔ t.full = true := by
  rw [PTree.full_iff_covered 0 h.heightLE]
  constructor
  · intro hfull x _ hx
    obtain ⟨b, hb, hm⟩ := hfull x (by omega)
    obtain ⟨e, he, rfl⟩ := (h.live b).1 hb
    exact ⟨e, he, blockOf_meets.1 hm⟩
  · intro hcov x hx
    obtain ⟨e, he, hm⟩ := hcov x (Nat.zero_le x) (by omega)
    exact ⟨blockOf e, (h.live _).2 ⟨e, he, rfl⟩, blockOf_meets.2 hm⟩

/-- A range without a live block is not occupied in the partition. -/
theorem not_occupied_iff (h : Inv L c t) {i : ℕ} :
    (∀ b ∈ c.live, ¬ b.Meets (i * 2 ^ j) ((i + 1) * 2 ^ j)) ↔ ¬ PTree.Occupied j L 0 i t := by
  simp only [PTree.Occupied, Nat.zero_add, not_exists, not_and]
  constructor
  · intro hfree e he hm
    exact hfree _ ((h.live _).2 ⟨e, he, rfl⟩) (blockOf_meets.2 hm)
  · intro hocc b hb hm
    obtain ⟨e, he, rfl⟩ := (h.live b).1 hb
    exact hocc e he (blockOf_meets.1 hm)

/-- A live block lies in the arena. -/
theorem stop_le (h : Inv L c t) {b : Block} (hb : b ∈ c.live) : b.stop ≤ pageSize * 2 ^ L := by
  obtain ⟨e, he, rfl⟩ := (h.live b).1 hb
  rw [blockOf_stop]
  have hle := (PTree.blocks_bounds he).2
  exact Nat.mul_le_mul_left _ (by omega)

/-- Two live blocks are the same or disjoint. -/
theorem disjoint (h : Inv L c t) {b b' : Block} (hb : b ∈ c.live) (hb' : b' ∈ c.live)
    (hne : b.offset ≠ b'.offset) : b.stop ≤ b'.offset ∨ b'.stop ≤ b.offset := by
  obtain ⟨e, he, rfl⟩ := (h.live b).1 hb
  obtain ⟨e', he', rfl⟩ := (h.live b').1 hb'
  by_contra hno
  rw [blockOf_stop, blockOf_stop] at hno
  simp only [blockOf, pageSize] at hno hne
  have hmeets : e.Meets e'.start e'.stop := ⟨by omega, by omega⟩
  exact hne (by rw [PTree.eq_of_meets he he' hmeets])

/-- Where there is room, insertion at the depth of the requested size finds it. -/
theorem exists_insert (h : Inv L c t) (hj : j ≤ L) (hroom : HasRoom L c.live (2 ^ j)) :
    ∃ pos t', t.insert s (L - j) = some (pos, t') := by
  obtain ⟨m, rfl⟩ := Nat.exists_eq_add_of_le hj
  rw [Nat.add_sub_cancel_left]
  cases hins : t.insert s m with
  | some x => exact ⟨x.1, x.2, rfl⟩
  | none =>
    -- an insertion that fails has found every range of the depth occupied
    exfalso
    obtain ⟨i, hi, hfree⟩ := hroom
    rw [pow_add, Nat.mul_comm] at hi
    have hlt : i < 2 ^ m := Nat.le_of_mul_le_mul_left hi (Nat.two_pow_pos j)
    exact h.not_occupied_iff.1 hfree (PTree.insert_eq_none h.normal h.heightLE hins i hlt)

/-- An allocation that finds its place at the depth of the requested size. -/
theorem alloc_of_insert {pos : ℕ} {t' : PTree ℕ} (h : Inv L c t) (hL : L ≤ 29)
    (hsize : allocSize s = 2 ^ j) (hj : j ≤ L) (hins : t.insert s (L - j) = some (pos, t')) :
    ∃ m, (buddyAlloc s).Returns ⟨c.self, []⟩ m (pageSize * (pos * 2 ^ j)) ∧
      Inv L ⟨m.self, ⟨pageSize * (pos * 2 ^ j), allocSize s, s⟩ :: c.live⟩ t' ∧
      Effect (2 ^ (L + 1)) 0 ⟨c.self, []⟩ m := by
  obtain ⟨d, rfl⟩ := Nat.exists_eq_add_of_le hj
  rw [Nat.add_sub_cancel_left] at hins
  have hins₀ : t.insert s (j + d - j + 0) = some (pos, t') := by rwa [Nat.add_sub_cancel_left]
  have hpos := PTree.insert_pos_lt hins
  -- the search starts at the root, so no round of it lies behind
  obtain ⟨m, hret, hrep, he⟩ := buddyAlloc_of_insert (m := ⟨c.self, []⟩) hL h.level hsize
    (Nat.zero_le j) hj h.rep (by simp) hins₀
  rw [Nat.add_zero, Nat.add_sub_cancel_left, indexOffset_eq hL hpos] at hret
  have hblocks := PTree.mem_blocks_insert (a := 0) h.heightLE hins
  rw [Nat.zero_add] at hblocks
  refine ⟨m, hret, ⟨he.level.trans h.level, hrep, h.normal.insert hins, ?_, ?_, ?_⟩, he⟩
  · -- the new block has the size of its request
    intro e hmem
    rcases (hblocks e).1 hmem with rfl | hmem
    · exact hsize
    · exact h.sized e hmem
  · -- the live blocks are those of the new partition
    intro b
    rw [List.mem_cons, h.live b]
    constructor
    · rintro (rfl | ⟨e, hmem, rfl⟩)
      · exact ⟨⟨pos * 2 ^ j, j, s⟩, (hblocks _).2 (.inl rfl), by rw [blockOf, hsize]⟩
      · exact ⟨e, (hblocks e).2 (.inr hmem), rfl⟩
    · rintro ⟨e, hmem, rfl⟩
      rcases (hblocks e).1 hmem with rfl | hmem
      · exact .inl (by rw [blockOf, hsize])
      · exact .inr ⟨e, hmem, rfl⟩
  · rw [List.map_cons, List.nodup_cons]
    refine ⟨fun hmem => ?_, h.nodup⟩
    -- a block with the offset of the new one would occupy its range
    obtain ⟨b, hb, hoff⟩ := List.mem_map.1 hmem
    have hfree := (PTree.insert_first_fit (a := 0) h.normal h.heightLE hins).1
    apply h.not_occupied_iff.2 hfree b hb
    obtain ⟨e, -, rfl⟩ := (h.live b).1 hb
    have hstart : e.start = pos * 2 ^ j := by
      rw [← blockOf_offset_div e, hoff]
      exact Nat.mul_div_cancel_left _ (by decide)
    rw [blockOf_meets, Nat.succ_mul, ← hstart]
    exact ⟨Nat.lt_add_of_pos_right (Nat.two_pow_pos j), e.start_lt_stop⟩

/-- An allocation for which there is room. -/
theorem alloc (h : Inv L c t) (hL : L ≤ 29) (hroom : HasRoom L c.live (allocSize s)) :
    ∃ m j pos t', j ≤ L ∧ allocSize s = 2 ^ j ∧ t.insert s (L - j) = some (pos, t') ∧
      (buddyAlloc s).Returns ⟨c.self, []⟩ m (pageSize * (pos * 2 ^ j)) ∧
      Inv L ⟨m.self, ⟨pageSize * (pos * 2 ^ j), allocSize s, s⟩ :: c.live⟩ t' := by
  obtain ⟨j, hj, hsize⟩ := hroom.exists_eq_two_pow hL
  obtain ⟨pos, t', hins⟩ := h.exists_insert (s := s) hj (hsize ▸ hroom)
  obtain ⟨m, hret, hinv, -⟩ := h.alloc_of_insert hL hsize hj hins
  exact ⟨m, j, pos, t', hj, hsize, hins, hret, hinv⟩

/-- In an empty arena every request that does not exceed it is answered with the first page. -/
theorem alloc_fresh (h : Inv L c .free) (hL : L ≤ 29) (hle : allocSize s ≤ 2 ^ L) :
    ∃ m t', (buddyAlloc s).Returns ⟨c.self, []⟩ m 0 ∧
      Inv L ⟨m.self, ⟨0, allocSize s, s⟩ :: c.live⟩ t' := by
  have hlt : 2 ^ L < 2 ^ 32 := Nat.pow_lt_pow_right (by decide) (by omega)
  obtain ⟨j, hsize⟩ := exists_allocSize_eq_two_pow (hle.trans_lt hlt)
  have hj : j ≤ L := (Nat.pow_le_pow_iff_right (by decide)).1 (hsize ▸ hle)
  obtain ⟨t', hins⟩ := PTree.exists_insert_free s (L - j)
  obtain ⟨m, hret, hinv, -⟩ := h.alloc_of_insert hL hsize hj hins
  rw [Nat.zero_mul, Nat.mul_zero] at hret hinv
  exact ⟨m, t', hret, hinv⟩

/-- A live block starts at a page at which the partition has a block. -/
theorem find_of_live (h : Inv L c t) {b : Block} (hb : b ∈ c.live) :
    ∃ e, blockOf e = b ∧ t.find L 0 (b.offset / pageSize) = some e ∧
      e.start = b.offset / pageSize := by
  obtain ⟨e, he, rfl⟩ := (h.live b).1 hb
  rw [blockOf_offset_div]
  exact ⟨e, rfl, PTree.find_of_mem he, rfl⟩

/-- What is left of the invariant when a block has been removed. -/
theorem remove (h : Inv L c t) {b : Block} (hb : b ∈ c.live) {self : Buddy}
    (hlevel : self.level = L)
    (hrep : Represents self.tree L 0 (t.remove L 0 (b.offset / pageSize))) :
    Inv L ⟨self, c.live.filter fun b' => b'.offset ≠ b.offset⟩
      (t.remove L 0 (b.offset / pageSize)) := by
  obtain ⟨e₀, rfl, hfind, -⟩ := h.find_of_live hb
  have hblocks := PTree.mem_blocks_remove hfind
  refine ⟨hlevel, hrep, h.normal.remove, fun e he => h.sized e ((hblocks e).1 he).1, ?_,
    h.nodup.sublist (List.filter_sublist.map _)⟩
  -- the block of that offset is the only one that has gone
  intro b
  simp only [List.mem_filter, decide_eq_true_eq, h.live b]
  constructor
  · rintro ⟨⟨e, he, rfl⟩, hne⟩
    exact ⟨e, (hblocks e).2 ⟨he, fun heq => hne (by rw [heq])⟩, rfl⟩
  · rintro ⟨e, he, rfl⟩
    obtain ⟨he, hne⟩ := (hblocks e).1 he
    refine ⟨⟨e, he, rfl⟩, fun hoff => hne ?_⟩
    have hstart : e.start = e₀.start := by
      rw [← blockOf_offset_div e, hoff, blockOf_offset_div]
    exact PTree.eq_of_start_eq he (PTree.mem_of_find hfind) hstart

/-- A release, unless the element before the tree looks full. -/
theorem free (h : Inv L c t) (hL : L ≤ 29) {before : Buddy → ℕ}
    (hbefore : ∀ self : Buddy, self.level = L → before self ≠ NodeState.full.toByte)
    {b : Block} (hb : b ∈ c.live) :
    ∃ m, (buddyFree before b.offset).Returns ⟨c.self, []⟩ m () ∧
      Inv L ⟨m.self, c.live.filter fun b' => b'.offset ≠ b.offset⟩
        (t.remove L 0 (b.offset / pageSize)) := by
  obtain ⟨e, -, hfind, hstart⟩ := h.find_of_live hb
  obtain ⟨m, hret, hlevel, hrep⟩ := buddyFree_of_find (m := ⟨c.self, []⟩) hL h.level h.rep hfind
    hstart hbefore
  exact ⟨m, hret, h.remove hb hlevel hrep⟩

/-- A release that leaves a block, in an arena that is not full. -/
theorem free_within (h : Inv L c t) (hL : L ≤ 29) {before : Buddy → ℕ} {b : Block}
    (hb : b ∈ c.live) (hfull : ¬ IsFull L c.live) (hlast : ∃ b' ∈ c.live, b'.offset ≠ b.offset) :
    ∃ m, (buddyFree before b.offset).Returns ⟨c.self, []⟩ m () ∧
      Inv L ⟨m.self, c.live.filter fun b' => b'.offset ≠ b.offset⟩
        (t.remove L 0 (b.offset / pageSize)) ∧
      Effect (2 ^ (L + 1)) 0 ⟨c.self, []⟩ m := by
  obtain ⟨e₀, he₀, hfind, hstart⟩ := h.find_of_live hb
  -- the other block is still there, so the arena is not empty
  have hne : t.remove L 0 (b.offset / pageSize) ≠ .free := by
    intro hfree
    obtain ⟨b', hb', hoff⟩ := hlast
    obtain ⟨e, he, rfl⟩ := (h.live b').1 hb'
    have hmem := (PTree.mem_blocks_remove hfind e).2
      ⟨he, fun heq => hoff (by rw [heq, he₀])⟩
    rw [hfree] at hmem
    simp at hmem
  have hnf : t.full = false := by simpa using mt h.isFull_iff.2 hfull
  obtain ⟨m, hret, hrep, he⟩ := buddyFree_within (m := ⟨c.self, []⟩) hL h.level h.rep hfind
    hstart hnf hne
  exact ⟨m, hret, h.remove hb (he.level.trans h.level) hrep, he⟩

end Inv

/-! ## Runs in which there is room -/

section Fits

variable {L j pos : ℕ} {before : Buddy → ℕ} {c c' : Config} {t : PTree ℕ}

/-- An offset of a page is not `(uint64_t) -1`. -/
theorem pageSize_mul_ne (x : ℕ) : pageSize * x ≠ u64Max := by
  intro heq
  have hmod := congrArg (· % pageSize) heq
  simp [pageSize, u64Max] at hmod

/-- A step that finds room keeps the invariant. -/
theorem Inv.step_of_fits (h : Inv L c t) (hL : L ≤ 29)
    (hbefore : ∀ self : Buddy, self.level = L → before self ≠ NodeState.full.toByte) {op : Op}
    (hok : Fits L c op) (hs : Step before c op c') : ∃ t', Inv L c' t' := by
  cases hs with
  | alloc hret =>
    obtain ⟨m, j, pos, t', -, -, -, hret', hinv⟩ := h.alloc hL hok
    -- the call has one result only, and it is an offset
    obtain ⟨rfl, rfl⟩ := Prog.returns_unique hret hret'
    exact ⟨t', by rwa [if_neg (pageSize_mul_ne _)]⟩
  | free hb hret =>
    obtain ⟨m, hret', hinv⟩ := h.free hL hbefore hb
    obtain ⟨rfl, -⟩ := Prog.returns_unique hret hret'
    exact ⟨_, hinv⟩

/-- Every run in which there is room for every request keeps the invariant. -/
theorem reach_inv_of_fits {lib : Bool} {memory : ℕ → Node} {self : Buddy} (hL : L ≤ 29)
    (hbefore : ∀ self : Buddy, self.level = L → before self ≠ NodeState.full.toByte)
    (hnew : buddyNew lib memory (L + 12) = some self)
    (hreach : Runs.Reach (Step before) (Fits L) ⟨self, []⟩ c) : ∃ t, Inv L c t := by
  refine hreach.invariant (I := fun c => ∃ t, Inv L c t) ⟨.free, buddyNew_inv hnew⟩ ?_
  rintro c op c' ⟨t, h⟩ hok hs
  exact h.step_of_fits hL hbefore hok hs

end Fits

/-! ## Two pages

An arena of two pages of which the first is taken, and then the second. -/

/-- An arena of two pages. -/
def twoPages : Buddy := ⟨1, fun _ => ⟨0, 0, .unused⟩⟩

/-- The arena after a request for one page. -/
def onePageTaken : Traced := ((buddyAlloc 4096).exec 8 ⟨twoPages, []⟩).state

/-- Its tree and its only block. -/
def oneBlock : Config := ⟨onePageTaken.self, [⟨0, 1, 4096⟩]⟩

theorem returns_onePageTaken : (buddyAlloc 4096).Returns ⟨twoPages, []⟩ onePageTaken 0 :=
  Prog.returns_of_value? (by decide +kernel)

theorem buddyNew_twoPages :
    buddyNew false (fun _ => ⟨0, 0, .unused⟩) (1 + 12) = some twoPages := by
  simp [buddyNew, twoPages, pageSize]

theorem allocSize_page : allocSize 4096 = 1 := by decide

theorem hasRoom_first_page : HasRoom 1 [] (allocSize 4096) :=
  ⟨0, by rw [allocSize_page]; decide, by simp⟩

theorem hasRoom_second_page : HasRoom 1 oneBlock.live (allocSize 4096) := by
  rw [allocSize_page]
  exact ⟨1, by decide, by decide⟩

theorem reach_oneBlock {before : Buddy → ℕ} {ok : Config → Op → Prop}
    (hok : ok ⟨twoPages, []⟩ (.alloc 4096)) :
    Runs.Reach (Step before) ok ⟨twoPages, []⟩ oneBlock := by
  have hstep : Step before ⟨twoPages, []⟩ (.alloc 4096) _ := .alloc returns_onePageTaken
  rw [if_neg (by decide), allocSize_page] at hstep
  exact .step .start hok hstep

/-- The arena after two requests for one page. -/
def bothTaken : Config :=
  ⟨((buddyAlloc 4096).exec 8 ⟨oneBlock.self, []⟩).state.self, ⟨4096, 1, 4096⟩ :: oneBlock.live⟩

theorem reach_bothTaken {before : Buddy → ℕ} {ok : Config → Op → Prop}
    (hfirst : ok ⟨twoPages, []⟩ (.alloc 4096)) (hsecond : ok oneBlock (.alloc 4096)) :
    Runs.Reach (Step before) ok ⟨twoPages, []⟩ bothTaken := by
  have hret : (buddyAlloc 4096).Returns ⟨oneBlock.self, []⟩ _ 4096 :=
    Prog.returns_of_value? (n := 8) (by decide +kernel)
  have hstep : Step before oneBlock (.alloc 4096) _ := .alloc hret
  rw [if_neg (by decide), allocSize_page] at hstep
  exact .step (reach_oneBlock hfirst) hsecond hstep

end Zalloc
