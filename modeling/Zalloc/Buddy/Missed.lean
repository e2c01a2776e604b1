import Zalloc.Buddy.Contract
import Zalloc.Buddy.FirstFit

/-!
# Requests without room

The search of `buddy_alloc` does not stop at the level of the requested size. When there is no room
at that level it takes the first free node of a lower one, and the offset is computed as if the node
were at the level of the request.

## Main definitions

* `LargestFit L live p k i`: what is free at the first level, from that of `p` pages downwards, at
  which anything is free.
* `fitOffset L p k i`: the offset that is computed for it.

## Main results

* `Inv.alloc_fit`: the answer of `buddy_alloc`, whether there is room or not.
-/

set_option autoImplicit false

namespace Zalloc

/-- The largest size up to `p` pages for which a range is free is `2 ^ k` pages, and the first such
range is the `i`-th one. -/
structure LargestFit (L : ℕ) (live : List Block) (p k i : ℕ) : Prop where
  /-- The size is at most the one that is asked for. -/
  le : 2 ^ k ≤ p
  /-- There is no larger one. -/
  largest : ∀ k', k < k' → 2 ^ k' ≤ p → ¬ HasRoom L live (2 ^ k')
  /-- The range is free. -/
  free : FreeRange L live (2 ^ k) i
  /-- It is the first one. -/
  first : ∀ i', FreeRange L live (2 ^ k) i' → i ≤ i'

/-- The offset that is computed for the `i`-th range of `2 ^ k` pages, as if it were one of `p`
pages. -/
def fitOffset (L p k i : ℕ) : ℕ := pageSize * (p * (2 ^ (L - k) + i) - 2 ^ L)

section

variable {L i i' k k' p s : ℕ} {c : Config} {live : List Block} {t : PTree ℕ}

theorem LargestFit.unique (h : LargestFit L live p k i) (h' : LargestFit L live p k' i') :
    k = k' ∧ i = i' := by
  have hk : k = k' := by
    apply le_antisymm
    · by_contra hlt
      exact h'.largest k (by omega) h.le ⟨i, h.free⟩
    · by_contra hlt
      exact h.largest k' (by omega) h'.le ⟨i', h'.free⟩
  subst hk
  exact ⟨rfl, le_antisymm (h.first i' h'.free) (h'.first i h.free)⟩

/-- The range lies in the arena. -/
theorem LargestFit.le_level (h : LargestFit L live p k i) : k ≤ L := by
  have hle : 2 ^ k ≤ (i + 1) * 2 ^ k := Nat.le_mul_of_pos_left _ (Nat.succ_pos i)
  exact (Nat.pow_le_pow_iff_right (by decide)).1 (hle.trans h.free.1)

/-- A range of the requested size has its own offset. -/
theorem fitOffset_self (hk : k ≤ L) : fitOffset L (2 ^ k) k i = pageSize * (i * 2 ^ k) := by
  rw [fitOffset, Nat.mul_add, ← pow_add, Nat.add_sub_cancel' hk, Nat.add_sub_cancel_left,
    Nat.mul_comm (2 ^ k)]

/-- The answer of `buddy_alloc` to a request that does not exceed the arena, if anything is free. -/
theorem Inv.alloc_fit (h : Inv L c t) (hL : L ≤ 25) (hle : allocSize s ≤ 2 ^ L)
    (hfull : ¬ IsFull L c.live) :
    ∃ m k i t', LargestFit L c.live (allocSize s) k i ∧
      (buddyAlloc s).Returns ⟨c.self, []⟩ m (fitOffset L (allocSize s) k i) ∧
      Represents m.self.tree L 0 t' ∧ t'.Normal := by
  have hlt : 2 ^ L < 2 ^ 32 := Nat.pow_lt_pow_right (by decide) (by omega)
  obtain ⟨j, hsize⟩ := exists_allocSize_eq_two_pow (hle.trans_lt hlt)
  have hj : j ≤ L := (Nat.pow_le_pow_iff_right (by decide)).1 (hsize ▸ hle)
  have hpart : t.full = false := by simpa using fun hno => hfull (h.isFull_iff.2 hno)
  obtain ⟨r, hr, hnone, i, t', hins⟩ := exists_round s h.heightLE hj hpart
  obtain ⟨m, hret, hrep, -⟩ := buddyAlloc_of_insert (m := ⟨c.self, []⟩) (by omega) h.level hsize
    hr hj h.rep hnone hins
  have hdepth : L - j + r = L - (j - r) := by omega
  have hins' := hins
  rw [hdepth] at hins'
  obtain ⟨hfree, hfirst⟩ := h.freeRange_of_insert (by omega) hins'
  refine ⟨m, j - r, i, t', ⟨?_, fun k' hk hk' hroom => ?_, hfree, hfirst⟩, ?_, hrep,
    h.normal.insert hins⟩
  · rw [hsize]
    exact Nat.pow_le_pow_right Nat.two_pos (Nat.sub_le j r)
  · -- an earlier round would have found it
    rw [hsize] at hk'
    have hk'j : k' ≤ j := (Nat.pow_le_pow_iff_right (by decide)).1 hk'
    obtain ⟨pos, t'', hearlier⟩ := h.exists_insert (s := s) (hk'j.trans hj) hroom
    have hno := hnone (j - k') (by omega)
    rw [show L - j + (j - k') = L - k' by omega, hearlier] at hno
    cases hno
  · -- the offset is computed for the level of the request
    obtain ⟨d, rfl⟩ := Nat.exists_eq_add_of_le hj
    rw [Nat.add_sub_cancel_left] at hret hins
    have hoffset := (indexOffset_round hL hr (PTree.insert_pos_lt hins)).1
    have hdepth' : j + d - (j - r) = d + r := by omega
    rw [hoffset] at hret
    rw [fitOffset, hsize, hdepth', pow_add 2 j d, ← Nat.mul_sub, Nat.mul_comm (2 ^ j)]
    exact hret

end

end Zalloc
