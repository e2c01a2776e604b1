import Zalloc.Buddy.Run

/-!
# The contract of allocation

An allocation hands out an aligned range of free pages of the arena, as long as every request so
far has met one of three conditions: it exceeds the arena, there is room for it, or nothing at all
is free. A request that meets none of them is answered with an offset of another size's level.
With eight pages, the arena must also never be emptied or be full when a block is released, because
then line 187 takes the level for a full node.

## Main definitions

* `Allowed L`: the condition on a step.
* `Refuses L c s`: a request for which there is no room is refused.

## Main results

* `buddyAlloc_disjoint`: results are aligned, lie in the arena and are disjoint from live blocks.
* `refuses_iff`: the requests that are refused are those that exceed the arena.
-/

set_option autoImplicit false

namespace Zalloc

/-! ## Placement -/

/-- The steps that do not reach the defects of the search and of line 187. -/
def Allowed (L : ℕ) (c : Config) : Op → Prop
  | .alloc s => 2 ^ L < allocSize s ∨ HasRoom L c.live (allocSize s) ∨ IsFull L c.live
  | .free o => L = 3 → ¬ IsFull L c.live ∧ ∃ b ∈ c.live, b.offset ≠ o

section Placement

variable {L s o : ℕ} {c : Config} {t : PTree ℕ} {m : Traced}

/-- What an allowed allocation can return. -/
theorem Inv.alloc_cases (h : Inv L c t) (hL : L ≤ 29) (hok : Allowed L c (.alloc s))
    (hret : (buddyAlloc s).Returns ⟨c.self, []⟩ m o) :
    (o = u64Max ∧ m.self = c.self) ∨
      ∃ j pos t', j ≤ L ∧ allocSize s = 2 ^ j ∧ t.insert s (L - j) = some (pos, t') ∧
        o = pageSize * (pos * 2 ^ j) ∧
        Inv L ⟨m.self, ⟨o, allocSize s, s⟩ :: c.live⟩ t' := by
  rcases hok with hlarge | hroom | hfull
  · have hrefuse : (buddyAlloc s).Returns ⟨c.self, []⟩ ⟨c.self, []⟩ u64Max :=
      buddyAlloc_of_lt (by rwa [h.level])
    obtain ⟨rfl, rfl⟩ := Prog.returns_unique hret hrefuse
    exact .inl ⟨rfl, rfl⟩
  · obtain ⟨m', j, pos, t', hj, hsize, hins, hret', hinv⟩ := h.alloc hL hroom
    obtain ⟨rfl, rfl⟩ := Prog.returns_unique hret hret'
    exact .inr ⟨j, pos, t', hj, hsize, hins, rfl, hinv⟩
  · by_cases hlarge : 2 ^ L < allocSize s
    · have hrefuse : (buddyAlloc s).Returns ⟨c.self, []⟩ ⟨c.self, []⟩ u64Max :=
        buddyAlloc_of_lt (by rwa [h.level])
      obtain ⟨rfl, rfl⟩ := Prog.returns_unique hret hrefuse
      exact .inl ⟨rfl, rfl⟩
    · -- the search of a full arena never ends
      have hle : allocSize s ≤ 2 ^ c.self.level := by rw [h.level]; omega
      exact absurd hret (buddyAlloc_of_full (m := ⟨c.self, []⟩) h.rep (h.isFull_iff.1 hfull) hle)

/-- The element before the tree looks full only in an arena of eight pages. -/
theorem levelByte_ne_full (hL : L ≠ 3) (self : Buddy) (h : self.level = L) :
    levelByte self ≠ NodeState.full.toByte := by
  rw [levelByte, h]
  exact hL

/-- An allowed step keeps the invariant. -/
theorem Inv.step {c' : Config} {op : Op} (h : Inv L c t) (hL : L ≤ 29) (hok : Allowed L c op)
    (hs : Step levelByte c op c') : ∃ t', Inv L c' t' := by
  cases hs with
  | alloc hret =>
    rcases h.alloc_cases hL hok hret with ⟨rfl, hself⟩ | ⟨j, pos, t', -, -, -, rfl, hinv⟩
    · exact ⟨t, by simpa [hself] using h⟩
    · exact ⟨t', by rwa [if_neg (pageSize_mul_ne _)]⟩
  | @free m b hb hret =>
    by_cases hL3 : L = 3
    · obtain ⟨hfull, hlast⟩ := hok hL3
      obtain ⟨m', hret', hinv, -⟩ := h.free_within hL hb hfull hlast
      obtain ⟨rfl, -⟩ := Prog.returns_unique hret hret'
      exact ⟨_, hinv⟩
    · obtain ⟨m', hret', hinv⟩ := h.free hL (levelByte_ne_full hL3) hb
      obtain ⟨rfl, -⟩ := Prog.returns_unique hret hret'
      exact ⟨_, hinv⟩

/-- Every run of allowed steps keeps the invariant. -/
theorem reach_inv {lib : Bool} {memory : ℕ → Node} {self : Buddy} (hL : L ≤ 29)
    (hnew : buddyNew lib memory (L + 12) = some self)
    (hreach : Runs.Reach (Step levelByte) (Allowed L) ⟨self, []⟩ c) : ∃ t, Inv L c t := by
  refine hreach.invariant (I := fun c => ∃ t, Inv L c t) ⟨.free, buddyNew_inv hnew⟩ ?_
  rintro c op c' ⟨t, h⟩ hok hs
  exact h.step hL hok hs

/-- In a run of allowed steps every result of `buddy_alloc` other than `(uint64_t) -1` is a
multiple of the size of the block; the block lies in the arena and is disjoint from every other
live block. -/
theorem buddyAlloc_disjoint {lib : Bool} {memory : ℕ → Node} {self : Buddy} (hL : L ≤ 29)
    (hnew : buddyNew lib memory (L + 12) = some self)
    (hreach : Runs.Reach (Step levelByte) (Allowed L) ⟨self, []⟩ c)
    (hok : Allowed L c (.alloc s)) (hret : (buddyAlloc s).Returns ⟨c.self, []⟩ m o)
    (ho : o ≠ u64Max) :
    (∃ j, allocSize s = 2 ^ j) ∧ pageSize * allocSize s ∣ o ∧
      o + pageSize * allocSize s ≤ pageSize * 2 ^ L ∧
      ∀ b ∈ c.live, o + pageSize * allocSize s ≤ b.offset ∨ b.stop ≤ o := by
  obtain ⟨t, h⟩ := reach_inv hL hnew hreach
  rcases h.alloc_cases hL hok hret with ⟨rfl, -⟩ | ⟨j, pos, t', hj, hsize, hins, rfl, -⟩
  · exact absurd rfl ho
  obtain ⟨d, rfl⟩ := Nat.exists_eq_add_of_le hj
  rw [Nat.add_sub_cancel_left] at hins
  have hpos := PTree.insert_pos_lt hins
  have hfree := (PTree.insert_first_fit (a := 0) h.normal h.heightLE hins).1
  rw [hsize]
  have hend : pageSize * (pos * 2 ^ j) + pageSize * 2 ^ j = pageSize * ((pos + 1) * 2 ^ j) := by
    ring
  refine ⟨⟨j, rfl⟩, ⟨pos, by ring⟩, ?_, ?_⟩
  · rw [hend, pow_add, Nat.mul_comm (2 ^ j)]
    exact Nat.mul_le_mul_left _ (Nat.mul_le_mul_right _ hpos)
  · intro b hb
    have hmeets := h.not_occupied_iff.2 hfree b hb
    rw [Block.Meets] at hmeets
    omega

end Placement

/-- The second of two pages can be taken, and it is disjoint from the first. -/
theorem buddyAlloc_disjoint_second_page :
    (∃ j, allocSize 4096 = 2 ^ j) ∧ pageSize * allocSize 4096 ∣ 4096 ∧
      4096 + pageSize * allocSize 4096 ≤ pageSize * 2 ^ 1 ∧
      ∀ b ∈ oneBlock.live, 4096 + pageSize * allocSize 4096 ≤ b.offset ∨ b.stop ≤ 4096 := by
  have hret : (buddyAlloc 4096).Returns ⟨oneBlock.self, []⟩ _ 4096 :=
    Prog.returns_of_value? (n := 8) (by decide +kernel)
  exact buddyAlloc_disjoint (L := 1) (by decide) buddyNew_twoPages
    (reach_oneBlock (.inr (.inl hasRoom_first_page))) (.inr (.inl hasRoom_second_page)) hret
    (by decide)

/-- A request that does not fit is answered with an offset behind the arena. -/
theorem buddyAlloc_past_end :
    buddyNew false (fun _ => ⟨0, 0, .unused⟩) (1 + 12) = some twoPages ∧
    ∃ c : Config, Runs.Reach (Step levelByte) (fun _ _ => True) ⟨twoPages, []⟩ c ∧
      ∃ m o, (buddyAlloc 8192).Returns ⟨c.self, []⟩ m o ∧ o ≠ u64Max ∧
        ¬ o + pageSize * allocSize 8192 ≤ pageSize * 2 ^ 1 := by
  refine ⟨buddyNew_twoPages, _, reach_oneBlock trivial, ?_⟩
  refine ⟨_, 16384, Prog.returns_of_value? (n := 16) (by decide +kernel), by decide, ?_⟩
  decide

/-! ## Missed exits -/

section Past

variable {L s o : ℕ} {c : Config} {t : PTree ℕ} {m : Traced}

/-- The offset of a node `r` levels below the one it is computed for. None of the operations of
`_index_offset` wraps. -/
theorem indexOffset_round {j d r pos : ℕ} (hL : j + d ≤ 25) (hr : r ≤ j) (hpos : pos < 2 ^ (d + r)) :
    indexOffset (2 ^ (d + r) + pos - 1) (d : ℕ) (j + d : ℕ) =
      pageSize * ((2 ^ (d + r) + pos - 2 ^ d) * 2 ^ j) ∧
    (2 ^ (d + r) + pos - 2 ^ d) * 2 ^ j < 2 ^ 51 := by
  have hone := Nat.two_pow_pos (d + r)
  have hdr : 2 ^ (d + r) ≤ 2 ^ 25 := Nat.pow_le_pow_right Nat.two_pos (by omega)
  have hd : 1 * 2 ^ d ≤ 2 ^ (d + r) := by
    rw [Nat.one_mul]
    exact Nat.pow_le_pow_right Nat.two_pos (by omega)
  have hj : 2 ^ j ≤ 2 ^ 25 := Nat.pow_le_pow_right Nat.two_pos (by omega)
  have hindex : u64 (2 ^ (d + r) + pos - 1 + 1) = 2 ^ (d + r) + pos := by
    rw [Nat.sub_add_cancel (by omega), u64, Nat.mod_eq_of_lt (by omega)]
  have hsub : u64Sub (2 ^ (d + r) + pos) (2 ^ d) = 2 ^ (d + r) + pos - 2 ^ d := by
    simp only [u64Sub]
    omega
  have hshift : ((j + d : ℕ) - (d : ℕ) : ℤ).toNat = j := by omega
  have hlt : (2 ^ (d + r) + pos - 2 ^ d) * 2 ^ j < 2 ^ 51 := by
    calc (2 ^ (d + r) + pos - 2 ^ d) * 2 ^ j < 2 ^ 26 * 2 ^ j :=
          Nat.mul_lt_mul_of_pos_right (by omega) (Nat.two_pow_pos j)
      _ ≤ 2 ^ 26 * 2 ^ 25 := Nat.mul_le_mul_left _ hj
  have hinner : u64 ((2 ^ (d + r) + pos - 2 ^ d) * 2 ^ j) = (2 ^ (d + r) + pos - 2 ^ d) * 2 ^ j :=
    Nat.mod_eq_of_lt (by omega)
  refine ⟨?_, hlt⟩
  rw [indexOffset, hindex, Int.toNat_natCast, Nat.one_shiftLeft, hsub, hshift, Nat.shiftLeft_eq,
    hinner]
  simp only [u64, pageSize]
  omega

/-- After a missed exit the offset is computed for another level, and lies behind the arena. -/
theorem le_indexOffset {j d r pos : ℕ} (hL : j + d ≤ 25) (hr : r ≤ j) (hr₀ : r ≠ 0)
    (hpos : pos < 2 ^ (d + r)) :
    pageSize * 2 ^ (j + d) ≤ indexOffset (2 ^ (d + r) + pos - 1) (d : ℕ) (j + d : ℕ) ∧
      indexOffset (2 ^ (d + r) + pos - 1) (d : ℕ) (j + d : ℕ) < 2 ^ 64 := by
  obtain ⟨hoffset, hlt⟩ := indexOffset_round hL hr hpos
  have hd : 2 * 2 ^ d ≤ 2 ^ (d + r) := by
    rw [← pow_succ']
    exact Nat.pow_le_pow_right Nat.two_pos (by omega)
  have hle : 2 ^ (j + d) ≤ (2 ^ (d + r) + pos - 2 ^ d) * 2 ^ j := by
    rw [Nat.add_comm j d, pow_add]
    exact Nat.mul_le_mul_right _ (by omega)
  rw [hoffset]
  simp only [pageSize]
  omega

/-- A request that does not exceed the arena, and does not find room, is answered with an offset
behind the arena, and the tree has changed. -/
theorem Inv.alloc_past (h : Inv L c t) (hL : L ≤ 25) (hno : ¬ HasRoom L c.live (allocSize s))
    (hle : allocSize s ≤ 2 ^ L) (hret : (buddyAlloc s).Returns ⟨c.self, []⟩ m o) :
    pageSize * 2 ^ L ≤ o ∧ o < 2 ^ 64 ∧ m.self ≠ c.self := by
  -- in a full arena the search never ends, and this one has
  have hfull : t.full = false := by
    by_contra hfull
    refine buddyAlloc_of_full (m := ⟨c.self, []⟩) h.rep (by simpa using hfull) ?_ hret
    rwa [h.level]
  have hlt : 2 ^ L < 2 ^ 32 := Nat.pow_lt_pow_right (by decide) (by omega)
  obtain ⟨j, hsize⟩ := exists_allocSize_eq_two_pow (hle.trans_lt hlt)
  have hj : j ≤ L := (Nat.pow_le_pow_iff_right (by decide)).1 (hsize ▸ hle)
  obtain ⟨r, hr, hnone, pos, t', hins⟩ := exists_round s h.heightLE hj hfull
  obtain ⟨m', hret', hrep, he⟩ := buddyAlloc_of_insert (m := ⟨c.self, []⟩) (by omega) h.level hsize
    hr hj h.rep hnone hins
  obtain ⟨rfl, rfl⟩ := Prog.returns_unique hret hret'
  obtain ⟨d, rfl⟩ := Nat.exists_eq_add_of_le hj
  rw [Nat.add_sub_cancel_left] at hins ⊢
  -- the first round has failed, since there is no room
  have hr₀ : r ≠ 0 := by
    rintro rfl
    rw [Nat.add_zero] at hins
    obtain ⟨hfree, -⟩ := PTree.insert_first_fit (a := 0) h.normal h.heightLE hins
    refine hno ⟨pos, ?_, ?_⟩
    · rw [hsize, pow_add, Nat.mul_comm]
      exact Nat.mul_le_mul_left _ (PTree.insert_pos_lt hins)
    · rw [hsize]
      exact h.not_occupied_iff.2 hfree
  obtain ⟨hlo, hhi⟩ := le_indexOffset hL hr hr₀ (PTree.insert_pos_lt hins)
  refine ⟨hlo, hhi, fun hsame => ?_⟩
  -- the new partition has a block more
  have hrep' : Represents c.self.tree (j + d) 0 t' := by rwa [← hsame]
  exact PTree.insert_ne hins (h.rep.unique hrep').symm

end Past

/-! ## Refusal -/

/-- If there is no room for a request, `buddy_alloc` returns `(uint64_t) -1` and changes no node. -/
def Refuses (L : ℕ) (c : Config) (s : ℕ) : Prop :=
  ¬ HasRoom L c.live (allocSize s) →
    ∃ m, (buddyAlloc s).Returns ⟨c.self, []⟩ m u64Max ∧ m.self = c.self

/-- A request that does not exceed the arena is not refused. -/
theorem buddyAlloc_ne_u64Max {s o : ℕ} {m m' : Traced} (h : allocSize s ≤ 2 ^ m.self.level)
    (hret : (buddyAlloc s).Returns m m' o) : o ≠ u64Max := by
  simp only [buddyAlloc, Prog.returns_bind_iff, returns_pageTotal_iff] at hret
  obtain ⟨m₁, length, ⟨rfl, rfl⟩, hret⟩ := hret
  rw [if_neg (Nat.not_lt.2 h)] at hret
  simp only [Prog.returns_bind_iff, Prog.returns_pure_iff] at hret
  obtain ⟨_, _, -, _, _, -, _, _, -, _, _, -, -, rfl⟩ := hret
  exact indexOffset_ne _ _ _

/-- In any configuration, a request for which there is no room is refused exactly when it exceeds
the arena. -/
theorem refuses_iff (L : ℕ) (c : Config) (s : ℕ) :
    Refuses L c s ↔ HasRoom L c.live (allocSize s) ∨ 2 ^ c.self.level < allocSize s := by
  constructor
  · intro h
    by_cases hroom : HasRoom L c.live (allocSize s)
    · exact .inl hroom
    · obtain ⟨m, hret, -⟩ := h hroom
      by_contra hno
      have hle : allocSize s ≤ 2 ^ c.self.level := by omega
      exact buddyAlloc_ne_u64Max (m := ⟨c.self, []⟩) hle hret rfl
  · rintro (hroom | hlarge) hno
    · exact absurd hroom hno
    · exact ⟨⟨c.self, []⟩, buddyAlloc_of_lt hlarge, rfl⟩

/-- With one of two pages taken, a request for two pages is not refused. -/
theorem not_refuses_two_pages :
    buddyNew false (fun _ => ⟨0, 0, .unused⟩) (1 + 12) = some twoPages ∧
      Runs.Reach (Step levelByte) (fun _ _ => True) ⟨twoPages, []⟩ oneBlock ∧
      ¬ Refuses 1 oneBlock 8192 := by
  refine ⟨buddyNew_twoPages, reach_oneBlock trivial, fun h => ?_⟩
  have hsize : allocSize 8192 = 2 := by decide
  have hlevel : oneBlock.self.level = 1 := by decide +kernel
  have hroom : ¬ HasRoom 1 oneBlock.live (allocSize 8192) := by
    rintro ⟨i, hi, hfree⟩
    rw [hsize] at hi hfree
    obtain rfl : i = 0 := by omega
    exact hfree _ (List.mem_singleton.2 rfl) (by decide)
  obtain ⟨m, hret, -⟩ := h hroom
  refine buddyAlloc_ne_u64Max ?_ hret rfl
  rw [hsize, hlevel]
  decide

end Zalloc
