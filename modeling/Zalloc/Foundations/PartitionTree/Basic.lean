import Mathlib.Data.Nat.Init
import Mathlib.Algebra.Order.Group.Nat
import Mathlib.Tactic.Ring

/-!
# Binary partitions of a dyadic range

A `PTree α` cuts a range of `2 ^ k` units into halves, quarters and so on. A leaf is either free
or one block with a tag; a block at depth `d` is a naturally aligned range of `2 ^ (k - d)` units.
This is the abstract content of any binary buddy system.

## Main definitions

* `PTree.blocks k a t`: the blocks of a partition of `[a, a + 2 ^ k)`, from left to right.
* `PTree.full`: no leaf is free.
* `PTree.Normal`: no two sibling leaves are both free, so free space is maximally merged.

## Main results

* `PTree.eq_of_meets`: the blocks of a partition are pairwise disjoint.
* `PTree.full_iff_covered`: a partition is full exactly when its blocks cover its range.
* `PTree.eq_of_blocks`: a normal partition is determined by its blocks.
-/

set_option autoImplicit false

/-- A tagged range of `2 ^ order` units. -/
structure Extent (α : Type) where
  /-- The first unit of the range. -/
  start : ℕ
  /-- The binary logarithm of the number of units. -/
  order : ℕ
  /-- What is recorded with the range. -/
  tag : α
deriving DecidableEq, Repr

namespace Extent

variable {α : Type}

/-- The first unit past the range. -/
def stop (e : Extent α) : ℕ := e.start + 2 ^ e.order

/-- The range has a unit in `[lo, hi)`. -/
def Meets (e : Extent α) (lo hi : ℕ) : Prop := e.start < hi ∧ lo < e.stop

instance (e : Extent α) (lo hi : ℕ) : Decidable (e.Meets lo hi) :=
  inferInstanceAs (Decidable (_ ∧ _))

theorem start_lt_stop (e : Extent α) : e.start < e.stop :=
  Nat.lt_add_of_pos_right (Nat.two_pow_pos _)

theorem stop_mk (a j : ℕ) (p : α) : (⟨a, j, p⟩ : Extent α).stop = a + 2 ^ j := rfl

end Extent

/-- A binary partition: every leaf is free or a block with a tag. -/
inductive PTree (α : Type) where
  /-- A free leaf. -/
  | free
  /-- A leaf that is one block. -/
  | block (p : α)
  /-- A range that is cut into two halves. -/
  | node (l r : PTree α)
deriving DecidableEq, Repr

namespace PTree

variable {α β : Type}

/-! ## Shape -/

/-- The partition can be made of a range of `2 ^ k` units: no path is longer than `k`. -/
def HeightLE : ℕ → PTree α → Prop
  | k + 1, node l r => HeightLE k l ∧ HeightLE k r
  | 0, node _ _ => False
  | _, free => True
  | _, block _ => True

/-- No leaf is free. -/
def full : PTree α → Bool
  | free => false
  | block _ => true
  | node l r => l.full && r.full

/-- No two sibling leaves are both free. -/
def Normal : PTree α → Prop
  | node l r => ¬ (l = free ∧ r = free) ∧ Normal l ∧ Normal r
  | _ => True

/-- The blocks of a partition of `[a, a + 2 ^ k)`, from left to right. -/
def blocks : ℕ → ℕ → PTree α → List (Extent α)
  | _, _, free => []
  | k, a, block p => [⟨a, k, p⟩]
  | k + 1, a, node l r => blocks k a l ++ blocks k (a + 2 ^ k) r
  | 0, _, node _ _ => []

/-- Replace the tags. -/
def map (f : α → β) : PTree α → PTree β
  | free => free
  | block p => block (f p)
  | node l r => node (map f l) (map f r)

@[simp] theorem heightLE_free (k : ℕ) : (free : PTree α).HeightLE k := by cases k <;> trivial
@[simp] theorem heightLE_block (k : ℕ) (p : α) : (block p).HeightLE k := by cases k <;> trivial
@[simp] theorem heightLE_node_zero (l r : PTree α) : ¬ (node l r).HeightLE 0 := id
@[simp] theorem heightLE_node_succ (k : ℕ) (l r : PTree α) :
    (node l r).HeightLE (k + 1) ↔ l.HeightLE k ∧ r.HeightLE k := Iff.rfl
@[simp] theorem full_free : (free : PTree α).full = false := rfl
@[simp] theorem full_block (p : α) : (block p).full = true := rfl
@[simp] theorem full_node (l r : PTree α) : (node l r).full = (l.full && r.full) := rfl
@[simp] theorem normal_free : (free : PTree α).Normal := trivial
@[simp] theorem normal_block (p : α) : (block p).Normal := trivial
@[simp] theorem normal_node (l r : PTree α) :
    (node l r).Normal ↔ ¬ (l = free ∧ r = free) ∧ l.Normal ∧ r.Normal := Iff.rfl
@[simp] theorem blocks_free (k a : ℕ) : blocks k a (free : PTree α) = [] := by cases k <;> rfl
@[simp] theorem blocks_block (k a : ℕ) (p : α) : blocks k a (block p) = [⟨a, k, p⟩] := by
  cases k <;> rfl
@[simp] theorem blocks_node (k a : ℕ) (l r : PTree α) :
    blocks (k + 1) a (node l r) = blocks k a l ++ blocks k (a + 2 ^ k) r := rfl

/-! ## Where the blocks lie -/

/-- The blocks of a partition lie in its range. -/
theorem blocks_bounds {k a : ℕ} {t : PTree α} {e : Extent α} (h : e ∈ blocks k a t) :
    a ≤ e.start ∧ e.stop ≤ a + 2 ^ k := by
  induction t generalizing k a with
  | free => simp at h
  | block p =>
    obtain rfl : e = ⟨a, k, p⟩ := by simpa using h
    exact ⟨le_rfl, le_rfl⟩
  | node l r ihl ihr =>
    cases k with
    | zero => simp [blocks] at h
    | succ k =>
      have hpow : 2 ^ (k + 1) = 2 ^ k + 2 ^ k := by ring
      have hpos := Nat.two_pow_pos k
      rcases List.mem_append.mp h with h | h
      · obtain ⟨hstart, hstop⟩ := ihl h
        exact ⟨hstart, by omega⟩
      · obtain ⟨hstart, hstop⟩ := ihr h
        exact ⟨by omega, by omega⟩

/-- The order of a block is at most the height of the partition. -/
theorem order_le {k a : ℕ} {t : PTree α} {e : Extent α} (h : e ∈ blocks k a t) : e.order ≤ k := by
  induction t generalizing k a with
  | free => simp at h
  | block p =>
    obtain rfl : e = ⟨a, k, p⟩ := by simpa using h
    exact le_rfl
  | node l r ihl ihr =>
    cases k with
    | zero => simp [blocks] at h
    | succ k =>
      rcases List.mem_append.mp h with h | h
      · exact Nat.le_succ_of_le (ihl h)
      · exact Nat.le_succ_of_le (ihr h)

/-- Two blocks that share a unit are the same block. -/
theorem eq_of_meets {k a : ℕ} {t : PTree α} {e f : Extent α} (he : e ∈ blocks k a t)
    (hf : f ∈ blocks k a t) (h : e.Meets f.start f.stop) : e = f := by
  induction t generalizing k a with
  | free => simp at he
  | block p =>
    obtain rfl : e = ⟨a, k, p⟩ := by simpa using he
    obtain rfl : f = ⟨a, k, p⟩ := by simpa using hf
    rfl
  | node l r ihl ihr =>
    cases k with
    | zero => simp [blocks] at he
    | succ k =>
      obtain ⟨hlt, hgt⟩ := h
      rcases List.mem_append.mp he with he | he <;> rcases List.mem_append.mp hf with hf | hf
      · exact ihl he hf
      · -- blocks of different halves share no unit
        have := (blocks_bounds he).2.trans (blocks_bounds hf).1
        omega
      · have := (blocks_bounds hf).2.trans (blocks_bounds he).1
        omega
      · exact ihr he hf

/-- Two blocks with the same first unit are the same block. -/
theorem eq_of_start_eq {k a : ℕ} {t : PTree α} {e f : Extent α} (he : e ∈ blocks k a t)
    (hf : f ∈ blocks k a t) (h : e.start = f.start) : e = f :=
  eq_of_meets he hf ⟨h ▸ f.start_lt_stop, h ▸ e.start_lt_stop⟩

/-- A normal partition without blocks is free. -/
theorem Normal.exists_block {k : ℕ} (a : ℕ) {t : PTree α} (hn : t.Normal) (hk : t.HeightLE k)
    (ht : t ≠ free) : ∃ e, e ∈ blocks k a t := by
  induction t generalizing k a with
  | free => exact absurd rfl ht
  | block p => exact ⟨⟨a, k, p⟩, by simp⟩
  | node l r ihl ihr =>
    obtain ⟨hsplit, hnl, hnr⟩ := hn
    cases k with
    | zero => exact absurd hk (heightLE_node_zero l r)
    | succ k =>
      obtain ⟨hkl, hkr⟩ := hk
      -- at least one of the halves is not free, and it has a block
      by_cases hl : l = free
      · obtain ⟨e, he⟩ := ihr (a + 2 ^ k) hnr hkr fun hr => hsplit ⟨hl, hr⟩
        exact ⟨e, List.mem_append_right _ he⟩
      · obtain ⟨e, he⟩ := ihl a hnl hkl hl
        exact ⟨e, List.mem_append_left _ he⟩

/-- A partition is full exactly when its blocks cover its range. -/
theorem full_iff_covered {k : ℕ} (a : ℕ) {t : PTree α} (hk : t.HeightLE k) :
    t.full = true ↔ ∀ x, a ≤ x → x < a + 2 ^ k → ∃ e ∈ blocks k a t, e.Meets x (x + 1) := by
  induction t generalizing k a with
  | free =>
    -- the first unit of a free range is not covered
    simp only [full_free, Bool.false_eq_true, blocks_free, List.not_mem_nil, false_and,
      exists_false, false_iff, not_forall]
    exact ⟨a, le_rfl, Nat.lt_add_of_pos_right (Nat.two_pow_pos k), id⟩
  | block p =>
    simp only [full_block, blocks_block, List.mem_singleton, exists_eq_left, true_iff]
    exact fun x hlo hhi => ⟨Nat.lt_succ_of_le hlo, hhi⟩
  | node l r ihl ihr =>
    cases k with
    | zero => exact absurd hk (heightLE_node_zero l r)
    | succ k =>
      obtain ⟨hkl, hkr⟩ := hk
      have hpow : 2 ^ (k + 1) = 2 ^ k + 2 ^ k := by ring
      have hpos := Nat.two_pow_pos k
      rw [full_node, Bool.and_eq_true, ihl a hkl, ihr (a + 2 ^ k) hkr]
      constructor
      · -- a unit of a half is covered by a block of that half
        rintro ⟨hl, hr⟩ x hlo hhi
        by_cases hx : x < a + 2 ^ k
        · obtain ⟨e, he, hm⟩ := hl x hlo hx
          exact ⟨e, List.mem_append_left _ he, hm⟩
        · obtain ⟨e, he, hm⟩ := hr x (by omega) (by omega)
          exact ⟨e, List.mem_append_right _ he, hm⟩
      · -- and by no block of the other half
        refine fun h => ⟨fun x hlo hhi => ?_, fun x hlo hhi => ?_⟩
        · obtain ⟨e, he, hm⟩ := h x hlo (by omega)
          rcases List.mem_append.mp he with he | he
          · exact ⟨e, he, hm⟩
          · have := (blocks_bounds he).1
            have := hm.1
            omega
        · obtain ⟨e, he, hm⟩ := h x (by omega) (by omega)
          rcases List.mem_append.mp he with he | he
          · have := (blocks_bounds he).2
            have := hm.2
            omega
          · exact ⟨e, he, hm⟩

/-! ## A normal partition is determined by its blocks -/

private theorem mem_left_iff {k a : ℕ} {l r : PTree α} {e : Extent α} :
    e ∈ blocks k a l ↔ e ∈ blocks (k + 1) a (node l r) ∧ e.start < a + 2 ^ k := by
  rw [blocks_node, List.mem_append]
  constructor
  · exact fun h => ⟨.inl h, e.start_lt_stop.trans_le (blocks_bounds h).2⟩
  · rintro ⟨h | h, hlt⟩
    · exact h
    · exact absurd (blocks_bounds h).1 (Nat.not_le.2 hlt)

private theorem mem_right_iff {k a : ℕ} {l r : PTree α} {e : Extent α} :
    e ∈ blocks k (a + 2 ^ k) r ↔ e ∈ blocks (k + 1) a (node l r) ∧ a + 2 ^ k ≤ e.start := by
  rw [blocks_node, List.mem_append]
  constructor
  · exact fun h => ⟨.inr h, (blocks_bounds h).1⟩
  · rintro ⟨h | h, hle⟩
    · exact absurd hle (Nat.not_le.2 (e.start_lt_stop.trans_le (blocks_bounds h).2))
    · exact h

/-- A normal partition is determined by its set of blocks. -/
theorem eq_of_blocks {k a : ℕ} {t t' : PTree α} (hn : t.Normal) (hn' : t'.Normal)
    (hk : t.HeightLE k) (hk' : t'.HeightLE k)
    (h : ∀ e, e ∈ blocks k a t ↔ e ∈ blocks k a t') : t = t' := by
  induction t generalizing k a t' with
  | free =>
    -- the other partition has no blocks either
    by_contra hne
    obtain ⟨e, he⟩ := hn'.exists_block a hk' (Ne.symm hne)
    simpa using (h e).2 he
  | block p =>
    have hp := (h ⟨a, k, p⟩).1 (by simp)
    cases t' with
    | free => simp at hp
    | block q => simpa using hp
    | node l r =>
      cases k with
      | zero => exact absurd hk' (heightLE_node_zero l r)
      | succ k =>
        -- a block of the whole range is longer than any block of a half
        rcases List.mem_append.mp hp with hp | hp <;> exact absurd (order_le hp) (by simp)
  | node l r ihl ihr =>
    cases k with
    | zero => exact absurd hk (heightLE_node_zero l r)
    | succ k =>
      cases t' with
      | free =>
        obtain ⟨e, he⟩ := hn.exists_block a hk (by simp)
        simpa using (h e).1 he
      | block q =>
        have hq := (h ⟨a, k + 1, q⟩).2 (by simp)
        rcases List.mem_append.mp hq with hq | hq <;> exact absurd (order_le hq) (by simp)
      | node l' r' =>
        obtain ⟨-, hnl, hnr⟩ := hn
        obtain ⟨-, hnl', hnr'⟩ := hn'
        have hl : l = l' := ihl (a := a) hnl hnl' hk.1 hk'.1 fun e =>
          mem_left_iff.trans ((and_congr_left' (h e)).trans mem_left_iff.symm)
        have hr : r = r' := ihr (a := a + 2 ^ k) hnr hnr' hk.2 hk'.2 fun e =>
          mem_right_iff.trans ((and_congr_left' (h e)).trans mem_right_iff.symm)
        rw [hl, hr]

end PTree
