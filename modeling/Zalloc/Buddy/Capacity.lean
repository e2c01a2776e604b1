import Mathlib.Data.List.Nodup
import Mathlib.Order.Bounds.Defs
import Zalloc.Buddy.Contract
import Zalloc.Buddy.FirstFit

/-!
# The capacity of a block

A block has the smallest power of two of pages that holds the requested bytes, unless the conversion
of the request to `float` rounds it down to a power of two. Then the block is too small.

## Main definitions

* `Capacity L c s`: the block that `buddy_alloc` returns is as large as it should be.

## Main results

* `capacity_iff`: the requests for which it is.
-/

set_option autoImplicit false

namespace Zalloc

/-- The page counts that hold `s` bytes. -/
def Holding (s : ℕ) : Set ℕ := {p | (∃ j, p = 2 ^ j) ∧ s ≤ pageSize * p}

/-- `buddy_alloc` returns a block for `s` bytes of as many pages as are necessary. -/
def Capacity (L : ℕ) (c : Config) (s : ℕ) : Prop :=
  ∃ m o p, (buddyAlloc s).Returns ⟨c.self, []⟩ m o ∧ UsedLeaf L m.self ⟨o, p, s⟩ ∧
    IsLeast (Holding s) p

/-- In a run of allowed steps, let there be room for a request. The block that `buddy_alloc` returns
has the smallest power of two of pages that holds the bytes, exactly if the conversion to `float`
does not round the request down to a power of two. -/
theorem capacity_iff {L s : ℕ} {lib : Bool} {memory : ℕ → Node} {self : Buddy} {c : Config}
    (hL : L ≤ 29) (hnew : buddyNew lib memory (L + 12) = some self)
    (hreach : Runs.Reach (Step levelByte) (Allowed L) ⟨self, []⟩ c)
    (hroom : HasRoom L c.live (allocSize s)) : Capacity L c s ↔ ¬ RoundsDown s := by
  obtain ⟨t, h⟩ := reach_inv hL hnew hreach
  obtain ⟨m, j, pos, t', hj, hsize, -, hret, hinv⟩ := h.alloc hL hroom
  have hlt : allocSize s < 2 ^ 32 := by
    rw [hsize]
    exact Nat.pow_lt_pow_right (by decide) (by omega)
  rw [← le_mul_allocSize_iff hlt]
  constructor
  · rintro ⟨m', o, p, hret', hleaf, hleast⟩
    obtain ⟨rfl, rfl⟩ := Prog.returns_unique hret hret'
    -- the new block is the only one at its offset
    have hlive := hinv.usedLeaf_iff.1 hleaf
    have heq := List.inj_on_of_nodup_map hinv.nodup hlive (List.mem_cons_self ..) rfl
    obtain rfl : p = allocSize s := congrArg Block.pages heq
    exact hleast.1.2
  · intro hle
    refine ⟨m, _, allocSize s, hret, hinv.usedLeaf_iff.2 (List.mem_cons_self ..),
      ⟨⟨j, hsize⟩, hle⟩, ?_⟩
    rintro _ ⟨⟨i, rfl⟩, hi⟩
    exact allocSize_le hlt hi

/-- A page is as large as it should be. -/
theorem capacity_iff_page : Capacity 1 oneBlock 4096 ↔ ¬ RoundsDown 4096 :=
  capacity_iff (L := 1) (by decide) buddyNew_twoPages
    (reach_oneBlock (.inr (.inl hasRoom_first_page))) hasRoom_second_page

/-- In an empty arena of `2 ^ 13` pages there is room for `2 ^ 24 + 1` bytes, and the block that is
returned is one byte short. -/
theorem not_capacity_short :
    ∃ self, buddyNew false (fun _ => ⟨0, 0, .unused⟩) (13 + 12) = some self ∧
      HasRoom 13 [] (allocSize (2 ^ 24 + 1)) ∧ ¬ Capacity 13 ⟨self, []⟩ (2 ^ 24 + 1) := by
  have hnew : buddyNew false (fun _ => ⟨0, 0, .unused⟩) (13 + 12) =
      some ⟨13, fun _ => ⟨0, 0, .unused⟩⟩ := by
    simp [buddyNew, pageSize]
  have hsize : allocSize (2 ^ 24 + 1) = 2 ^ 12 := by decide
  refine ⟨_, hnew, ⟨0, by rw [hsize]; decide, by simp⟩, ?_⟩
  -- the empty arena gives its first half to the request
  have h := buddyNew_inv hnew
  rintro ⟨m, o, p, hret, hleaf, hleast⟩
  obtain ⟨m', t', hret', hinv⟩ := h.alloc_fresh (s := 2 ^ 24 + 1) (by decide)
    (by rw [hsize]; decide)
  obtain ⟨rfl, rfl⟩ := Prog.returns_unique hret hret'
  have hlive : (⟨0, p, 2 ^ 24 + 1⟩ : Block) ∈ _ := hinv.usedLeaf_iff.1 hleaf
  rw [List.mem_singleton, Block.mk.injEq, hsize] at hlive
  have hholds := hleast.1.2
  rw [hlive.2.1] at hholds
  exact absurd hholds (by decide)

end Zalloc
