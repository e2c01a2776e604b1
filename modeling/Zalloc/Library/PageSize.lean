import Zalloc.Buddy.Capacity
import Zalloc.Library.Run

/-!
# The three lookups

`buddy_get_size`, `buddy_xfree` and `buddy_get_page_size` are given the same pointer, and each of
them walks to a leaf. `buddy_page_size` takes the difference of the pointers as a page number, the
other two divide it by the page size first. So it reaches the leaf of the block only if the block is
at the start of the mapping.

## Main definitions

* `LookupsAgree o st self b`: the lookups reach the same leaf, and the page count is right.

## Main results

* `lookupsAgree_iff`: the blocks for which they do.
-/

set_option autoImplicit false

namespace Zalloc

/-- On the pointer to the block `b`, the walk of `buddy_page_size` ends at the same leaf as those of
`buddy_used_size` and `buddy_free`, `buddy_get_page_size` returns the number of pages of the block,
and so many pages hold what `buddy_get_size` returns. -/
def LookupsAgree (o : Outcome) (st : Lib) (self : Buddy) (b : Block) : Prop :=
  (∃ m₁ m₂ w, (walk b.offset).Returns ⟨self, []⟩ m₁ w ∧
    (walk (b.offset / pageSize)).Returns ⟨self, []⟩ m₂ w) ∧
  ∃ l₁ l₂ n, (buddyGetPageSize o (st.memblock + b.offset)).Returns st l₁ b.pages ∧
    (buddyGetSize o (st.memblock + b.offset)).Returns st l₂ n ∧ n ≤ pageSize * b.pages

section

variable {L x : ℕ} {c : Config} {t : PTree ℕ} {b : Block}

/-- A block is not empty. -/
theorem Inv.offset_lt_stop (h : Inv L c t) (hb : b ∈ c.live) : b.offset < b.stop := by
  obtain ⟨e, -, rfl⟩ := (h.live b).1 hb
  rw [blockOf_stop, blockOf]
  exact Nat.mul_lt_mul_of_pos_left e.start_lt_stop (by decide)

/-- A block holds its request unless the conversion to `float` rounds that down. -/
theorem Inv.used_le_iff (h : Inv L c t) (hL : L ≤ 29) (hb : b ∈ c.live) :
    b.used ≤ pageSize * b.pages ↔ ¬ RoundsDown b.used := by
  obtain ⟨e, he, rfl⟩ := (h.live b).1 hb
  have hsize : (blockOf e).pages = allocSize (blockOf e).used := (h.sized e he).symm
  have horder := PTree.order_le he
  rw [hsize]
  refine le_mul_allocSize_iff ?_
  rw [← hsize, blockOf]
  exact Nat.pow_lt_pow_right (by decide) (by omega)

/-- The walk to the first page of a live block ends at a node that covers it. -/
theorem Inv.returns_walk (h : Inv L c t) (hL : L ≤ 29) (hb : b ∈ c.live) :
    ∃ m w, (walk (b.offset / pageSize)).Returns ⟨c.self, []⟩ m w ∧
      w.left = b.offset / pageSize ∧ w.length = b.pages := by
  obtain ⟨e, rfl, hfind, hstart⟩ := h.find_of_live hb
  obtain ⟨m, -, -, hret⟩ := returns_walk_of_find (m := ⟨c.self, []⟩) hL h.level h.rep hfind hstart
  exact ⟨m, _, hret, rfl, rfl⟩

/-- A walk that returns has reached a block that starts at the page. -/
theorem Inv.walk_left (h : Inv L c t) (hL : L ≤ 29) {m : Traced} {w : Walk}
    (hret : (walk x).Returns ⟨c.self, []⟩ m w) : w.left = x := by
  by_cases hstart : ∀ e ∈ t.blocks L 0, e.start ≠ x
  · obtain ⟨m', -, -, hab⟩ := walk_aborts_of_not_start (m := ⟨c.self, []⟩) hL h.level h.rep hstart
    exact absurd hab (Prog.not_aborts_of_returns hret)
  · push Not at hstart
    obtain ⟨e, he, rfl⟩ := hstart
    obtain ⟨m', -, -, hret'⟩ := returns_walk_of_find (m := ⟨c.self, []⟩) hL h.level h.rep
      (PTree.find_of_mem he) rfl
    rw [(Prog.returns_unique hret hret').2]

end

/-- In a run of allowed steps, let `buddy` point to the tree of the arena, which is mapped at
`memblock`. The lookups agree on a live block exactly if it is the one at the start of the mapping
and the conversion of its request to `float` has not been rounded down to a power of two. -/
theorem lookupsAgree_iff {L : ℕ} {lib : Bool} {memory : ℕ → Node} {self : Buddy} {c : Config}
    {b : Block} {st : Lib} (hL : L ≤ 29) (hnew : buddyNew lib memory (L + 12) = some self)
    (hreach : Runs.Reach (Step levelByte) (Allowed L) ⟨self, []⟩ c) (hb : b ∈ c.live)
    (hinit : st.isInit = true) (hbuddy : st.buddy = some c.self)
    (hmapped : st.memblock + pageSize * 2 ^ L ≤ 2 ^ 64) (o : Outcome) :
    LookupsAgree o st c.self b ↔ b.offset = 0 ∧ ¬ RoundsDown b.used := by
  obtain ⟨t, h⟩ := reach_inv hL hnew hreach
  have hbuddy' : (init_ o st).buddy = some c.self := by rw [init_of_isInit hinit, hbuddy]
  have hlarge := h.used_le_iff hL hb
  have hsub : u64Sub (st.memblock + b.offset) (init_ o st).memblock = b.offset := by
    have hstop := h.stop_le hb
    have hlt := h.offset_lt_stop hb
    rw [init_of_isInit hinit]
    simp only [u64Sub]
    omega
  -- `buddy_get_size` returns the request
  obtain ⟨l, hsize⟩ : ∃ l, (buddyGetSize o (st.memblock + b.offset)).Returns st l b.used := by
    obtain ⟨e, rfl, hfind, hstart⟩ := h.find_of_live hb
    obtain ⟨m, hret, -⟩ := buddyUsedSize_of_find (m := ⟨c.self, []⟩) hL h.level h.rep hfind hstart
    exact ⟨_, (returns_buddyGetSize_iff hbuddy').2 ⟨m, by rwa [hsub], rfl⟩⟩
  constructor
  · rintro ⟨⟨m₁, m₂, w, hw₁, hw₂⟩, l₁, l₂, n, -, hn, hle⟩
    obtain ⟨rfl, rfl⟩ := Prog.returns_unique hsize hn
    -- the leaf starts at the page that is the offset, and at that page divided by the page size
    have hoff := (h.walk_left hL hw₁).symm.trans (h.walk_left hL hw₂)
    rw [pageSize] at hoff
    exact ⟨by omega, hlarge.1 hle⟩
  · rintro ⟨hzero, hround⟩
    obtain ⟨m, w, hw, -, hpages⟩ := h.returns_walk hL hb
    have hw' : (walk b.offset).Returns ⟨c.self, []⟩ m w := by rwa [hzero] at hw ⊢
    have hpage : (buddyPageSize b.offset).Returns ⟨c.self, []⟩ m b.pages :=
      hw'.bind (Prog.returns_pure_iff.2 ⟨rfl, hpages.symm⟩)
    rw [← hsub] at hpage
    exact ⟨⟨m, m, w, hw', hw⟩, _, l, b.used,
      (returns_buddyGetPageSize_iff hbuddy').2 ⟨m, hpage, rfl⟩, hsize, hlarge.2 hround⟩

/-! ## Two pages, both taken -/

theorem reach_allowed_bothTaken :
    Runs.Reach (Step levelByte) (Allowed 1) ⟨twoPages, []⟩ bothTaken :=
  reach_bothTaken (.inr (.inl hasRoom_first_page)) (.inr (.inl hasRoom_second_page))

/-- The library with that tree, mapped at the second page of the address space. -/
def bothTakenLib : Lib := ⟨4096, 3, 2 ^ 31, some bothTaken.self, true, fun _ => none⟩

/-- What the system answers does not matter any more. -/
def noAnswer : Outcome := ⟨-1, none, none, fun _ => ⟨0, 0, .unused⟩⟩

/-- The lookups agree on the first of the two blocks. -/
theorem lookupsAgree_iff_first_page :
    LookupsAgree noAnswer bothTakenLib bothTaken.self ⟨0, 1, 4096⟩ ↔
      (0 : ℕ) = 0 ∧ ¬ RoundsDown 4096 :=
  have hfirst : (⟨0, 1, 4096⟩ : Block) ∈ bothTaken.live :=
    List.mem_cons_of_mem _ (List.mem_cons_self ..)
  lookupsAgree_iff (L := 1) (by decide) buddyNew_twoPages reach_allowed_bothTaken hfirst rfl rfl
    (by decide) noAnswer

/-- On the second block `buddy_get_page_size` fails an assertion. -/
theorem not_lookupsAgree_second_page :
    Runs.Reach (Step levelByte) (Allowed 1) ⟨twoPages, []⟩ bothTaken ∧
      (⟨4096, 1, 4096⟩ : Block) ∈ bothTaken.live ∧
      (∃ l, (buddyGetPageSize noAnswer (4096 + 4096)).Aborts bothTakenLib l) ∧
      ¬ LookupsAgree noAnswer bothTakenLib bothTaken.self ⟨4096, 1, 4096⟩ := by
  refine ⟨reach_allowed_bothTaken, List.mem_cons_self .., ?_, ?_⟩
  · exact ⟨_, Prog.aborts_of_isAbort (n := 8) (by decide +kernel)⟩
  · rintro ⟨⟨m₁, m₂, w, hw, -⟩, -⟩
    have hlevel : bothTaken.self.level = 1 := by decide +kernel
    have hlt := (returns_walk_iff.1 hw).1
    simp only [hlevel] at hlt
    exact absurd hlt (by decide)

end Zalloc
