import Zalloc.Foundations.PartitionTree.Basic

/-!
# Lookup and removal in a binary partition

`PTree.find k a t x` is the block of a partition of `[a, a + 2 ^ k)` that contains unit `x`, and
`PTree.remove k a t x` frees that block and merges free siblings upwards.

## Main results

* `PTree.find_eq_some_iff`: `find` finds the block that contains the unit.
* `PTree.mem_blocks_remove`: removal takes away exactly that block.
* `PTree.Normal.remove`: removal keeps free space maximally merged.
-/

set_option autoImplicit false

namespace PTree

variable {α : Type}

/-! ## Lookup -/

/-- The block that contains unit `x`. -/
def find : ℕ → ℕ → PTree α → ℕ → Option (Extent α)
  | _, _, free, _ => none
  | k, a, block p, _ => some ⟨a, k, p⟩
  | k + 1, a, node l r, x => if x < a + 2 ^ k then find k a l x else find k (a + 2 ^ k) r x
  | 0, _, node _ _, _ => none

@[simp] theorem find_free (k a x : ℕ) : find k a (free : PTree α) x = none := by cases k <;> rfl
@[simp] theorem find_block (k a x : ℕ) (p : α) : find k a (block p) x = some ⟨a, k, p⟩ := by
  cases k <;> rfl
@[simp] theorem find_node (k a x : ℕ) (l r : PTree α) :
    find (k + 1) a (node l r) x =
      if x < a + 2 ^ k then find k a l x else find k (a + 2 ^ k) r x := rfl

theorem mem_of_find {k a x : ℕ} {t : PTree α} {e : Extent α} (h : find k a t x = some e) :
    e ∈ blocks k a t := by
  induction t generalizing k a with
  | free => simp at h
  | block p => simpa using h.symm
  | node l r ihl ihr =>
    cases k with
    | zero => simp [find] at h
    | succ k =>
      rw [find_node] at h
      split_ifs at h
      · exact List.mem_append_left _ (ihl h)
      · exact List.mem_append_right _ (ihr h)

/-- `find` finds the block that contains the unit. -/
theorem find_eq_some_iff {k a x : ℕ} {t : PTree α} (hx : a ≤ x) (hx' : x < a + 2 ^ k)
    {e : Extent α} : find k a t x = some e ↔ e ∈ blocks k a t ∧ e.start ≤ x ∧ x < e.stop := by
  induction t generalizing k a with
  | free => simp
  | block p =>
    simp only [find_block, Option.some.injEq, blocks_block, List.mem_singleton]
    constructor
    · rintro rfl
      exact ⟨rfl, hx, hx'⟩
    · exact fun h => h.1.symm
  | node l r ihl ihr =>
    cases k with
    | zero => simp [find, blocks]
    | succ k =>
      have hpow : 2 ^ (k + 1) = 2 ^ k + 2 ^ k := by ring
      rw [find_node, blocks_node, List.mem_append]
      split_ifs with hlt
      · -- the unit is in the left half, and no block of the right half contains it
        rw [ihl hx hlt]
        constructor
        · exact fun h => ⟨.inl h.1, h.2⟩
        · rintro ⟨he | he, hin⟩
          · exact ⟨he, hin⟩
          · have := (blocks_bounds he).1
            omega
      · rw [ihr (by omega) (by omega)]
        constructor
        · exact fun h => ⟨.inr h.1, h.2⟩
        · rintro ⟨he | he, hin⟩
          · have := (blocks_bounds he).2
            omega
          · exact ⟨he, hin⟩

/-- A block is found at its first unit. -/
theorem find_of_mem {k a : ℕ} {t : PTree α} {e : Extent α} (he : e ∈ blocks k a t) :
    find k a t e.start = some e := by
  have hb := blocks_bounds he
  have hlt := e.start_lt_stop
  exact (find_eq_some_iff hb.1 (by omega)).2 ⟨he, le_rfl, hlt⟩

/-! ## Removal -/

/-- Two halves put together again: two free halves are one free range. -/
def merge : PTree α → PTree α → PTree α
  | free, free => free
  | l, r => node l r

/-- Free the block that contains unit `x`, and merge free siblings upwards. -/
def remove : ℕ → ℕ → PTree α → ℕ → PTree α
  | k + 1, a, node l r, x =>
    if x < a + 2 ^ k then merge (remove k a l x) r else merge l (remove k (a + 2 ^ k) r x)
  | 0, _, node l r, _ => node l r
  | _, _, free, _ => free
  | _, _, block _, _ => free

@[simp] theorem remove_free (k a x : ℕ) : remove k a (free : PTree α) x = free := by
  cases k <;> rfl
@[simp] theorem remove_block (k a x : ℕ) (p : α) : remove k a (block p) x = free := by
  cases k <;> rfl
@[simp] theorem remove_node (k a x : ℕ) (l r : PTree α) :
    remove (k + 1) a (node l r) x =
      if x < a + 2 ^ k then merge (remove k a l x) r
      else merge l (remove k (a + 2 ^ k) r x) := rfl

@[simp] theorem merge_free_free : merge free (free : PTree α) = free := rfl

theorem merge_eq_node {l r : PTree α} (h : ¬ (l = free ∧ r = free)) : merge l r = node l r := by
  cases l <;> cases r <;> simp_all [merge]

theorem blocks_merge (k a : ℕ) (l r : PTree α) :
    blocks (k + 1) a (merge l r) = blocks (k + 1) a (node l r) := by
  by_cases h : l = free ∧ r = free
  · obtain ⟨rfl, rfl⟩ := h
    simp
  · rw [merge_eq_node h]

theorem full_merge (l r : PTree α) : (merge l r).full = (l.full && r.full) := by
  by_cases h : l = free ∧ r = free
  · obtain ⟨rfl, rfl⟩ := h
    rfl
  · rw [merge_eq_node h, full_node]

theorem Normal.merge {l r : PTree α} (hl : l.Normal) (hr : r.Normal) : (merge l r).Normal := by
  by_cases h : l = free ∧ r = free
  · obtain ⟨rfl, rfl⟩ := h
    trivial
  · rw [merge_eq_node h]
    exact ⟨h, hl, hr⟩

/-- Removal keeps free space maximally merged. -/
theorem Normal.remove {k a x : ℕ} {t : PTree α} (h : t.Normal) : (remove k a t x).Normal := by
  induction t generalizing k a with
  | free => simp
  | block p => simp
  | node l r ihl ihr =>
    cases k with
    | zero => exact h
    | succ k =>
      obtain ⟨-, hl, hr⟩ := h
      rw [remove_node]
      split_ifs
      · exact (ihl hl).merge hr
      · exact hl.merge (ihr hr)

/-- A partition is not full once a block has been removed. -/
theorem full_remove {k a x : ℕ} {t : PTree α} {e : Extent α} (h : find k a t x = some e) :
    (remove k a t x).full = false := by
  induction t generalizing k a with
  | free => simp at h
  | block p => simp
  | node l r ihl ihr =>
    cases k with
    | zero => simp [find] at h
    | succ k =>
      rw [find_node] at h
      rw [remove_node]
      -- the half with the removed block is not full, and merging keeps that
      split_ifs at h ⊢ with hx
      · rw [full_merge, ihl h, Bool.false_and]
      · rw [full_merge, ihr h, Bool.and_false]

/-- Removal takes away exactly the block that contains the unit. -/
theorem mem_blocks_remove {k a x : ℕ} {t : PTree α} {e₀ : Extent α}
    (h : find k a t x = some e₀) (e : Extent α) :
    e ∈ blocks k a (remove k a t x) ↔ e ∈ blocks k a t ∧ e ≠ e₀ := by
  induction t generalizing k a with
  | free => simp at h
  | block p =>
    obtain rfl : (⟨a, k, p⟩ : Extent α) = e₀ := by simpa using h
    simp
  | node l r ihl ihr =>
    cases k with
    | zero => simp [find] at h
    | succ k =>
      -- a block of the other half is not the removed one
      rw [find_node] at h
      rw [remove_node]
      split_ifs at h ⊢ with hlt
      · have hne : ∀ f ∈ blocks k (a + 2 ^ k) r, f ≠ e₀ := by
          rintro f hf rfl
          have h₁ := (blocks_bounds (mem_of_find h)).2
          have h₂ := (blocks_bounds hf).1
          have := f.start_lt_stop
          omega
        rw [blocks_merge, blocks_node, blocks_node, List.mem_append, List.mem_append, ihl h,
          or_and_right]
        exact or_congr_right ⟨fun he => ⟨he, hne e he⟩, And.left⟩
      · have hne : ∀ f ∈ blocks k a l, f ≠ e₀ := by
          rintro f hf rfl
          have h₁ := (blocks_bounds (mem_of_find h)).1
          have h₂ := (blocks_bounds hf).2
          have := f.start_lt_stop
          omega
        rw [blocks_merge, blocks_node, blocks_node, List.mem_append, List.mem_append, ihr h,
          or_and_right]
        exact or_congr_left ⟨fun he => ⟨he, hne e he⟩, And.left⟩

end PTree
