import Zalloc.Buddy.Visible

/-!
# First fit

An allocation for which there is room takes the first aligned range of free pages. The used leaves
of the tree are afterwards those from before and the one for the new block.

## Main definitions

* `UsedLeaf L self b`: the tree has a used leaf for the block `b`.

## Main results

* `Inv.usedLeaf_iff`: the used leaves are the live blocks.
* `buddyAlloc_first_fit`: the offset returned is the smallest one of an aligned free range.
-/

set_option autoImplicit false

namespace Zalloc

/-- The tree has a used leaf for the block. -/
def UsedLeaf (L : ℕ) (self : Buddy) (b : Block) : Prop :=
  ∃ n, Visible self.tree n ∧ self.tree n = ⟨b.pages, b.used, .used⟩ ∧
    b.offset = pageSize * firstPage L n ∧ b.pages = pageCount L n

/-- No live block has a byte in the `i`-th aligned range of `p` pages of the arena. -/
def FreeRange (L : ℕ) (live : List Block) (p i : ℕ) : Prop :=
  (i + 1) * p ≤ 2 ^ L ∧ ∀ b ∈ live, ¬ b.Meets (i * p) ((i + 1) * p)

section FirstFit

variable {L s : ℕ} {before : Buddy → ℕ} {c : Config} {t : PTree ℕ}

/-- The used leaves are the live blocks. -/
theorem Inv.usedLeaf_iff (h : Inv L c t) {b : Block} : UsedLeaf L c.self b ↔ b ∈ c.live :=
  (h.wellFormed.live_iff b).symm

/-- The range that insertion takes is the first free one. -/
theorem Inv.freeRange_of_insert {j pos : ℕ} {t' : PTree ℕ} (h : Inv L c t) (hj : j ≤ L)
    (hins : t.insert s (L - j) = some (pos, t')) :
    FreeRange L c.live (2 ^ j) pos ∧ ∀ i, FreeRange L c.live (2 ^ j) i → pos ≤ i := by
  obtain ⟨d, rfl⟩ := Nat.exists_eq_add_of_le hj
  rw [Nat.add_sub_cancel_left] at hins
  obtain ⟨hfree, hfirst⟩ := PTree.insert_first_fit (a := 0) h.normal h.heightLE hins
  refine ⟨⟨?_, h.not_occupied_iff.2 hfree⟩, fun i hi => ?_⟩
  · rw [pow_add, Nat.mul_comm]
    exact Nat.mul_le_mul_left _ (PTree.insert_pos_lt hins)
  · -- an earlier range is occupied in the partition
    by_contra hlt
    exact h.not_occupied_iff.1 hi.2 (hfirst i (by omega))

/-- In a run in which there is room for every request, let there be room for `s` bytes. Then
`buddy_alloc` returns the smallest offset of an aligned free range of the computed size. The used
leaves are afterwards those from before and one for the new block. -/
theorem buddyAlloc_first_fit {lib : Bool} {memory : ℕ → Node} {self : Buddy} (hL : L ≤ 29)
    (hbefore : ∀ self : Buddy, self.level = L → before self ≠ NodeState.full.toByte)
    (hnew : buddyNew lib memory (L + 12) = some self)
    (hreach : Runs.Reach (Step before) (Fits L) ⟨self, []⟩ c)
    (hroom : HasRoom L c.live (allocSize s)) :
    (∀ b, UsedLeaf L c.self b ↔ b ∈ c.live) ∧
    ∃ m i, (buddyAlloc s).Returns ⟨c.self, []⟩ m (pageSize * (i * allocSize s)) ∧
      FreeRange L c.live (allocSize s) i ∧
      (∀ i', FreeRange L c.live (allocSize s) i' →
        pageSize * (i * allocSize s) ≤ pageSize * (i' * allocSize s)) ∧
      ∀ b, UsedLeaf L m.self b ↔
        b = ⟨pageSize * (i * allocSize s), allocSize s, s⟩ ∨ UsedLeaf L c.self b := by
  obtain ⟨t, h⟩ := reach_inv_of_fits hL hbefore hnew hreach
  obtain ⟨m, j, pos, t', hj, hsize, hins, hret, hinv⟩ := h.alloc hL hroom
  obtain ⟨hfree, hfirst⟩ := h.freeRange_of_insert hj hins
  rw [← hsize] at hret hfree hfirst hinv
  refine ⟨fun b => h.usedLeaf_iff, m, pos, hret, hfree, fun i' hi' => ?_, fun b => ?_⟩
  · exact Nat.mul_le_mul_left _ (Nat.mul_le_mul_right _ (hfirst i' hi'))
  · have hleaf : UsedLeaf L m.self b ↔ _ := hinv.usedLeaf_iff
    rw [hleaf, h.usedLeaf_iff, List.mem_cons]

/-- The second of two pages is the first free one. -/
theorem buddyAlloc_first_fit_second_page :
    (∀ b, UsedLeaf 1 oneBlock.self b ↔ b ∈ oneBlock.live) ∧
    ∃ m i, (buddyAlloc 4096).Returns ⟨oneBlock.self, []⟩ m (pageSize * (i * allocSize 4096)) ∧
      FreeRange 1 oneBlock.live (allocSize 4096) i ∧
      (∀ i', FreeRange 1 oneBlock.live (allocSize 4096) i' →
        pageSize * (i * allocSize 4096) ≤ pageSize * (i' * allocSize 4096)) ∧
      ∀ b, UsedLeaf 1 m.self b ↔
        b = ⟨pageSize * (i * allocSize 4096), allocSize 4096, 4096⟩ ∨ UsedLeaf 1 oneBlock.self b :=
  have hreach : Runs.Reach (Step fun _ => 0) (Fits 1) ⟨twoPages, []⟩ oneBlock :=
    reach_oneBlock hasRoom_first_page
  buddyAlloc_first_fit (by decide) (fun _ _ => by decide) buddyNew_twoPages hreach
    hasRoom_second_page

end FirstFit

end Zalloc
