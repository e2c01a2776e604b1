import Mathlib.Algebra.Order.BigOperators.Group.List
import Mathlib.Data.List.Nodup
import Zalloc.Foundations.PartitionTree.Insert

/-!
# How much a partition takes

A block takes its own units. But when ranges of `2 ^ j` units are asked for, a smaller block spoils
the whole range that it lies in. As long as the blocks do not take everything, counted in that way,
there is a free range, however the blocks are scattered.

## Main definitions

* `PTree.load j es`: the units that the blocks take, each of them at least `2 ^ j`.
* `PTree.frees k a t`: the free leaves.

## Main results

* `PTree.insert_of_load_lt`: an insertion succeeds where the load leaves something.
* `PTree.full_iff_load`: a partition is full exactly when the blocks have all the units.
* `PTree.pairwise_blocks`: the blocks are listed from left to right.
* `PTree.exists_free_iff`: a unit is in a free leaf exactly if it is in no block.
-/

set_option autoImplicit false

namespace PTree

variable {α : Type}

/-- The units that the blocks take when ranges of `2 ^ j` units are asked for. -/
def load (j : ℕ) (es : List (Extent α)) : ℕ := (es.map fun e => 2 ^ max j e.order).sum

@[simp] theorem load_nil (j : ℕ) : load j ([] : List (Extent α)) = 0 := rfl

@[simp] theorem load_append (j : ℕ) (es fs : List (Extent α)) :
    load j (es ++ fs) = load j es + load j fs := by
  rw [load, List.map_append, List.sum_append]
  rfl

@[simp] theorem load_singleton (j : ℕ) (e : Extent α) : load j [e] = 2 ^ max j e.order := by
  rw [load, List.map_singleton, List.sum_singleton]

/-- One block takes a whole range. -/
theorem le_load {j : ℕ} {es : List (Extent α)} {e : Extent α} (he : e ∈ es) : 2 ^ j ≤ load j es :=
  calc 2 ^ j ≤ 2 ^ max j e.order := Nat.pow_le_pow_right Nat.two_pos (Nat.le_max_left j _)
    _ ≤ load j es := List.le_sum_of_mem (List.mem_map_of_mem he)

/-- An insertion that fails has found everything taken. -/
theorem le_load_of_insert_eq_none {p : α} {j m a : ℕ} {t : PTree α} (hn : t.Normal)
    (hk : t.HeightLE (j + m)) (h : insert p m t = none) :
    2 ^ (j + m) ≤ load j (blocks (j + m) a t) := by
  induction t generalizing m a with
  | free =>
    obtain ⟨t', ht⟩ := exists_insert_free p m
    rw [ht] at h
    cases h
  | block q =>
    rw [blocks_block, load_singleton]
    exact Nat.pow_le_pow_right Nat.two_pos (Nat.le_max_right j _)
  | node l r ihl ihr =>
    cases m with
    | zero =>
      -- a cut range has a block somewhere
      obtain ⟨e, he⟩ := hn.exists_block a hk (by simp)
      exact le_load he
    | succ m =>
      obtain ⟨-, hnl, hnr⟩ := normal_node l r |>.1 hn
      obtain ⟨hkl, hkr⟩ := (heightLE_node_succ (j + m) l r).1 hk
      obtain ⟨hl, hr⟩ := insert_node_eq_none_iff.1 h
      have hleft := ihl (a := a) hnl hkl hl
      have hright := ihr (a := a + 2 ^ (j + m)) hnr hkr hr
      rw [← Nat.add_assoc, blocks_node, load_append, pow_succ]
      omega

/-- An insertion succeeds where the load leaves something. -/
theorem insert_of_load_lt {p : α} {j m a : ℕ} {t : PTree α} (hn : t.Normal)
    (hk : t.HeightLE (j + m)) (h : load j (blocks (j + m) a t) < 2 ^ (j + m)) :
    ∃ pos t', insert p m t = some (pos, t') := by
  cases hins : insert p m t with
  | some x => exact ⟨x.1, x.2, rfl⟩
  | none =>
    have hle := le_load_of_insert_eq_none (a := a) hn hk hins
    omega

/-- The blocks do not have more units than there are. -/
theorem load_zero_le {k a : ℕ} {t : PTree α} : load 0 (blocks k a t) ≤ 2 ^ k := by
  induction t generalizing k a with
  | free => simp
  | block p => simp
  | node l r ihl ihr =>
    cases k with
    | zero => simp [blocks]
    | succ k =>
      rw [blocks_node, load_append, pow_succ]
      have hleft := ihl (k := k) (a := a)
      have hright := ihr (k := k) (a := a + 2 ^ k)
      omega

/-- A partition is full exactly when the blocks have all the units. -/
theorem full_iff_load {k a : ℕ} {t : PTree α} (hk : t.HeightLE k) :
    t.full = true ↔ load 0 (blocks k a t) = 2 ^ k := by
  induction t generalizing k a with
  | free => simp [Nat.ne_of_lt (Nat.two_pow_pos k)]
  | block p => simp
  | node l r ihl ihr =>
    cases k with
    | zero => exact absurd hk (by simp)
    | succ k =>
      obtain ⟨hkl, hkr⟩ := (heightLE_node_succ k l r).1 hk
      rw [full_node, Bool.and_eq_true, ihl (a := a) hkl, ihr (a := a + 2 ^ k) hkr, blocks_node,
        load_append, pow_succ]
      have hleft := load_zero_le (k := k) (a := a) (t := l)
      have hright := load_zero_le (k := k) (a := a + 2 ^ k) (t := r)
      omega

/-- The blocks are listed from left to right. -/
theorem pairwise_blocks {k a : ℕ} {t : PTree α} :
    (blocks k a t).Pairwise fun e f => e.stop ≤ f.start := by
  induction t generalizing k a with
  | free => simp
  | block p => simp
  | node l r ihl ihr =>
    cases k with
    | zero => simp [blocks]
    | succ k =>
      refine List.pairwise_append.2 ⟨ihl, ihr, fun e he f hf => ?_⟩
      exact (blocks_bounds he).2.trans (blocks_bounds hf).1

theorem nodup_blocks {k a : ℕ} {t : PTree α} : (blocks k a t).Nodup := by
  refine pairwise_blocks.imp fun {e f} hle heq => ?_
  have hlt := e.start_lt_stop
  rw [heq] at hle hlt
  omega

/-! ## Free leaves -/

/-- The free leaves of a partition of `[a, a + 2 ^ k)`, from left to right. -/
def frees : ℕ → ℕ → PTree α → List (Extent Unit)
  | k, a, free => [⟨a, k, ()⟩]
  | _, _, block _ => []
  | k + 1, a, node l r => frees k a l ++ frees k (a + 2 ^ k) r
  | 0, _, node _ _ => []

@[simp] theorem frees_free (k a : ℕ) : frees k a (free : PTree α) = [⟨a, k, ()⟩] := by
  cases k <;> rfl
@[simp] theorem frees_block (k a : ℕ) (p : α) : frees k a (block p) = [] := by cases k <;> rfl
@[simp] theorem frees_node (k a : ℕ) (l r : PTree α) :
    frees (k + 1) a (node l r) = frees k a l ++ frees k (a + 2 ^ k) r := rfl

theorem frees_bounds {k a : ℕ} {t : PTree α} {f : Extent Unit} (h : f ∈ frees k a t) :
    a ≤ f.start ∧ f.stop ≤ a + 2 ^ k := by
  induction t generalizing k a with
  | free =>
    obtain rfl : f = ⟨a, k, ()⟩ := by simpa using h
    exact ⟨le_rfl, le_rfl⟩
  | block p => simp at h
  | node l r ihl ihr =>
    cases k with
    | zero => simp [frees] at h
    | succ k =>
      have hpow : 2 ^ (k + 1) = 2 ^ k + 2 ^ k := by ring
      have hpos := Nat.two_pow_pos k
      rcases List.mem_append.1 h with h | h
      · obtain ⟨hstart, hstop⟩ := ihl h
        exact ⟨hstart, by omega⟩
      · obtain ⟨hstart, hstop⟩ := ihr h
        exact ⟨by omega, by omega⟩

/-- A unit is in a free leaf exactly if it is in no block. -/
theorem exists_free_iff {k a x : ℕ} {t : PTree α} (hk : t.HeightLE k) (hlo : a ≤ x)
    (hhi : x < a + 2 ^ k) :
    (∃ f ∈ frees k a t, f.Meets x (x + 1)) ↔ ∀ e ∈ blocks k a t, ¬ e.Meets x (x + 1) := by
  induction t generalizing k a with
  | free =>
    have hmeets : (⟨a, k, ()⟩ : Extent Unit).Meets x (x + 1) := ⟨by simp only; omega, hhi⟩
    simp [hmeets]
  | block p =>
    have hmeets : (⟨a, k, p⟩ : Extent α).Meets x (x + 1) := ⟨by simp only; omega, hhi⟩
    simp [hmeets]
  | node l r ihl ihr =>
    cases k with
    | zero => exact absurd hk (by simp)
    | succ k =>
      obtain ⟨hkl, hkr⟩ := (heightLE_node_succ k l r).1 hk
      have hpow : 2 ^ (k + 1) = 2 ^ k + 2 ^ k := by ring
      rw [frees_node, blocks_node]
      simp only [List.mem_append]
      by_cases hx : x < a + 2 ^ k
      · -- nothing of the right half is there
        have hf : ∀ f ∈ frees k (a + 2 ^ k) r, ¬ f.Meets x (x + 1) := fun f hf hm => by
          have hstart := (frees_bounds hf).1
          exact absurd hm.1 (by omega)
        have he : ∀ e ∈ blocks k (a + 2 ^ k) r, ¬ e.Meets x (x + 1) := fun e he hm => by
          have hstart := (blocks_bounds he).1
          exact absurd hm.1 (by omega)
        have hleft := ihl hkl hlo hx
        grind
      · have hf : ∀ f ∈ frees k a l, ¬ f.Meets x (x + 1) := fun f hf hm => by
          have hstop := (frees_bounds hf).2
          exact absurd hm.2 (by omega)
        have he : ∀ e ∈ blocks k a l, ¬ e.Meets x (x + 1) := fun e he hm => by
          have hstop := (blocks_bounds he).2
          exact absurd hm.2 (by omega)
        have hright := ihr (a := a + 2 ^ k) hkr (by omega) (by omega)
        grind

end PTree
