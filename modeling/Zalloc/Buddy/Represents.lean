import Zalloc.Buddy.Defs
import Zalloc.Foundations.BinaryIndex
import Zalloc.Foundations.PartitionTree.Insert

/-!
# The array represents a partition

`Represents tree k i t` says that the visible part of the array below node `i`, which covers
`2 ^ k` pages, is the partition `t`, tagged with the requests. The marks `NODE_SPLIT` and
`NODE_FULL` are not part of the partition: a node that is cut is full exactly when the partition
below it is. What lies below a leaf is not constrained.

The arrays in question have `N - 1` elements with `N = 2 ^ (level + 1)`, and `Effect N i m m'`
collects what an operation below node `i` leaves alone.

## Main results

* `Represents.congr`: only the subtree of a node matters for what it represents.
* `Represents.used_or_full_iff`, `Represents.unused_iff`: what a state says about the partition.
-/

set_option autoImplicit false

namespace Zalloc

/-! ## Index arithmetic

No index below `2 ^ 30` leads to wrapping, apart from the parent of the root. -/

section Index

variable {i : ℕ}

theorem buddyIndex_zero : buddyIndex 0 = -1 := by decide

theorem buddyIndex_left (h : 2 * i + 3 ≤ 2 ^ 30) :
    buddyIndex (2 * i + 1) = (2 * i + 2 : ℕ) := by
  simp only [buddyIndex, toInt, u64, u64Sub, Nat.and_one_is_mod]
  split <;> omega

theorem buddyIndex_right (h : 2 * i + 3 ≤ 2 ^ 30) :
    buddyIndex (2 * i + 2) = (2 * i + 1 : ℕ) := by
  simp only [buddyIndex, toInt, u64, u64Sub, Nat.and_one_is_mod]
  split <;> omega

theorem parentIndex_zero : parentIndex 0 = u64Max := by decide

theorem parentIndex_left (h : 2 * i + 3 ≤ 2 ^ 30) : parentIndex (2 * i + 1) = i := by
  simp only [parentIndex, u64, u64Sub]
  omega

theorem parentIndex_right (h : 2 * i + 3 ≤ 2 ^ 30) : parentIndex (2 * i + 2) = i := by
  simp only [parentIndex, u64, u64Sub]
  omega

theorem u64_left (h : 2 * i + 3 ≤ 2 ^ 30) : u64 (i * 2 + 1) = 2 * i + 1 := by
  simp only [u64]
  omega

theorem u64_right (h : 2 * i + 3 ≤ 2 ^ 30) : u64 (i * 2 + 2) = 2 * i + 2 := by
  simp only [u64]
  omega

theorem advance_left (h : 2 * i + 3 ≤ 2 ^ 30) (level : ℤ) (length : ℕ) :
    advance (2 * i + 1) level length = ⟨.visit, 2 * i + 2, level, length⟩ := by
  have hodd : (2 * i + 1) &&& 1 = 1 := by rw [Nat.and_one_is_mod]; omega
  have hnext : u64 (2 * i + 1 + 1) = 2 * i + 2 := by simp only [u64]; omega
  rw [advance, if_pos hodd, hnext]

theorem advance_right (i : ℕ) (level : ℤ) (length : ℕ) :
    advance (2 * i + 2) level length = ⟨.climb, 2 * i + 2, level, length⟩ := by
  have heven : ¬ (2 * i + 2) &&& 1 = 1 := by rw [Nat.and_one_is_mod]; omega
  rw [advance, if_neg heven]

theorem advance_zero (level : ℤ) (length : ℕ) :
    advance 0 level length = ⟨.climb, 0, level, length⟩ := rfl

/-- Past the root the search starts at the root again. -/
theorem advance_u64Max (level : ℤ) (length : ℕ) :
    advance u64Max level length = ⟨.visit, 0, level, length⟩ := by
  rw [advance, if_pos (by decide)]
  rfl

end Index

/-- The subtree of height `k` below node `i` lies in an array of `N - 1` elements, and no index of
that array leads to wrapping. -/
structure InRange (N k i : ℕ) : Prop where
  /-- The last element of the subtree is an element of the array. -/
  le : (i + 2) * 2 ^ k ≤ N
  /-- The array is small. -/
  small : N ≤ 2 ^ 30

namespace InRange

variable {N k i : ℕ}

/-- The whole tree of an arena of `2 ^ L` pages. -/
theorem root {L : ℕ} (hL : L ≤ 29) : InRange (2 ^ (L + 1)) L 0 :=
  ⟨by rw [pow_succ]; omega, Nat.pow_le_pow_right (by decide) (by omega)⟩

theorem lt (h : InRange N k i) : i + 1 < N := by
  have hle := h.le
  have := Nat.le_mul_of_pos_right (i + 2) (Nat.two_pow_pos k)
  omega

theorem left (h : InRange N (k + 1) i) : InRange N k (2 * i + 1) := by
  refine ⟨le_trans ?_ h.le, h.small⟩
  rw [pow_succ, Nat.mul_comm (2 ^ k), ← Nat.mul_assoc]
  exact Nat.mul_le_mul_right _ (by omega)

theorem right (h : InRange N (k + 1) i) : InRange N k (2 * i + 2) := by
  refine ⟨le_trans (le_of_eq ?_) h.le, h.small⟩
  rw [pow_succ]
  ring

theorem children (h : InRange N (k + 1) i) : 2 * i + 3 ≤ 2 ^ 30 := by
  have := h.right.lt
  have := h.small
  omega

end InRange

/-! ## Frames -/

namespace Traced

@[simp] theorem touch_self (m : Traced) (i : ℕ) : (m.touch i).self = m.self := rfl
@[simp] theorem touch_touched (m : Traced) (i : ℕ) : (m.touch i).touched = i :: m.touched := rfl
@[simp] theorem setNode_level (m : Traced) (i : ℕ) (node : Node) :
    (m.setNode i node).self.level = m.self.level := rfl
@[simp] theorem setNode_tree (m : Traced) (i : ℕ) (node : Node) :
    (m.setNode i node).self.tree = Function.update m.self.tree i node := rfl
@[simp] theorem setNode_touched (m : Traced) (i : ℕ) (node : Node) :
    (m.setNode i node).touched = i :: m.touched := rfl
@[simp] theorem setState_level (m : Traced) (i : ℕ) (state : NodeState) :
    (m.setState i state).self.level = m.self.level := rfl
@[simp] theorem setState_tree (m : Traced) (i : ℕ) (state : NodeState) :
    (m.setState i state).self.tree =
      Function.update m.self.tree i { m.self.tree i with state } := rfl
@[simp] theorem setState_touched (m : Traced) (i : ℕ) (state : NodeState) :
    (m.setState i state).touched = i :: m.touched := rfl

end Traced

/-- New accesses are to elements of an array of `N - 1` elements. -/
def Within (N : ℕ) (m m' : Traced) : Prop :=
  ∀ x ∈ m'.touched, x ∈ m.touched ∨ x + 1 < N

namespace Within

variable {N i : ℕ} {m m' m'' : Traced}

theorem refl (N : ℕ) (m : Traced) : Within N m m := fun _ hx => .inl hx

theorem trans (h₁ : Within N m m') (h₂ : Within N m' m'') : Within N m m'' :=
  fun x hx => (h₂ x hx).elim (h₁ x) .inr

theorem mono {M : ℕ} (h : Within N m m') (hle : N ≤ M) : Within M m m' :=
  fun x hx => (h x hx).imp_right fun hlt => by omega

theorem touch (m : Traced) (hi : i + 1 < N) : Within N m (m.touch i) := by
  intro x hx
  -- the latest access is in range, the others are old
  rcases List.mem_cons.mp hx with rfl | hx
  · exact .inr hi
  · exact .inl hx

theorem setNode (m : Traced) (hi : i + 1 < N) (node : Node) : Within N m (m.setNode i node) := by
  intro x hx
  rcases List.mem_cons.mp hx with rfl | hx
  · exact .inr hi
  · exact .inl hx

end Within

/-- What an operation below node `i` of an array of `N - 1` elements leaves alone. -/
structure Effect (N i : ℕ) (m m' : Traced) : Prop where
  /-- The level is the same. -/
  level : m'.self.level = m.self.level
  /-- Nodes outside the subtree are the same. -/
  off : AgreeOff i m.self.tree m'.self.tree
  /-- The accesses are to elements of the array. -/
  within : Within N m m'

namespace Effect

variable {N i : ℕ} {m m' m'' : Traced}

theorem refl (N i : ℕ) (m : Traced) : Effect N i m m :=
  ⟨rfl, AgreeOff.refl i _, Within.refl N m⟩

theorem trans (h₁ : Effect N i m m') (h₂ : Effect N i m' m'') : Effect N i m m'' :=
  ⟨h₂.level.trans h₁.level, h₁.off.trans h₂.off, h₁.within.trans h₂.within⟩

theorem of_left (h : Effect N (2 * i + 1) m m') : Effect N i m m' :=
  ⟨h.level, h.off.of_left, h.within⟩

theorem of_right (h : Effect N (2 * i + 2) m m') : Effect N i m m' :=
  ⟨h.level, h.off.of_right, h.within⟩

/-- An operation that changes no node has an effect below any node. -/
theorem of_self_eq (i : ℕ) (h : m'.self = m.self) (hw : Within N m m') : Effect N i m m' :=
  ⟨by rw [h], by rw [h]; exact AgreeOff.refl i _, hw⟩

/-- Reading a node has an effect below any node. -/
theorem touch {n : ℕ} (i : ℕ) (m : Traced) (hn : n + 1 < N) : Effect N i m (m.touch n) :=
  .of_self_eq i (Traced.touch_self m n) (Within.touch m hn)

theorem setNode (m : Traced) (hi : i + 1 < N) (node : Node) : Effect N i m (m.setNode i node) :=
  ⟨rfl, AgreeOff.update _ i node, Within.setNode m hi node⟩

theorem setState (m : Traced) (hi : i + 1 < N) (state : NodeState) :
    Effect N i m (m.setState i state) :=
  Effect.setNode m hi _

end Effect

/-! ## The represented partition -/

/-- The visible part of the array below node `i`, which covers `2 ^ k` pages, is the partition
`t`, tagged with the requests. -/
def Represents (tree : ℕ → Node) : ℕ → ℕ → PTree ℕ → Prop
  | _, i, .free => (tree i).state = .unused
  | _, i, .block s => tree i = ⟨allocSize s, s, .used⟩
  | k + 1, i, .node l r =>
    (tree i).state = (if l.full && r.full then .full else .split) ∧
      Represents tree k (2 * i + 1) l ∧ Represents tree k (2 * i + 2) r
  | 0, _, .node _ _ => False

section Represents

variable {tree tree' : ℕ → Node} {k i s : ℕ} {t l r : PTree ℕ}

@[simp] theorem represents_free : Represents tree k i .free ↔ (tree i).state = .unused := by
  cases k <;> rfl

@[simp] theorem represents_block :
    Represents tree k i (.block s) ↔ tree i = ⟨allocSize s, s, .used⟩ := by
  cases k <;> rfl

@[simp] theorem represents_node :
    Represents tree (k + 1) i (.node l r) ↔
      (tree i).state = (if l.full && r.full then .full else .split) ∧
        Represents tree k (2 * i + 1) l ∧ Represents tree k (2 * i + 2) r := Iff.rfl

@[simp] theorem not_represents_node_zero : ¬ Represents tree 0 i (.node l r) := id

namespace Represents

theorem heightLE (h : Represents tree k i t) : t.HeightLE k := by
  induction t generalizing k i with
  | free => simp
  | block s => simp
  | node l r ihl ihr =>
    cases k with
    | zero => exact absurd h not_represents_node_zero
    | succ k => exact ⟨ihl h.2.1, ihr h.2.2⟩

/-- A tree represents one partition only. -/
theorem unique {t' : PTree ℕ} (h : Represents tree k i t) (h' : Represents tree k i t') :
    t = t' := by
  induction t generalizing k i t' with
  | free =>
    rw [represents_free] at h
    cases t' with
    | free => rfl
    | block s =>
      rw [represents_block] at h'
      simp [h'] at h
    | node l r =>
      cases k with
      | zero => exact absurd h' not_represents_node_zero
      | succ k =>
        rw [h'.1] at h
        split at h <;> cases h
  | block s =>
    rw [represents_block] at h
    cases t' with
    | free =>
      rw [represents_free, h] at h'
      cases h'
    | block s' =>
      rw [represents_block, h, Node.mk.injEq] at h'
      rw [h'.2.1]
    | node l r =>
      cases k with
      | zero => exact absurd h' not_represents_node_zero
      | succ k =>
        have hstate := h'.1
        rw [h] at hstate
        split at hstate <;> cases hstate
  | node l r ihl ihr =>
    cases k with
    | zero => exact absurd h not_represents_node_zero
    | succ k =>
      obtain ⟨hstate, hl, hr⟩ := h
      cases t' with
      | free =>
        rw [represents_free, hstate] at h'
        split at h' <;> cases h'
      | block s =>
        rw [represents_block] at h'
        rw [h'] at hstate
        split at hstate <;> cases hstate
      | node l' r' => rw [ihl hl h'.2.1, ihr hr h'.2.2]

/-- Only the subtree of a node matters for what it represents. -/
theorem congr (h : Represents tree k i t) (hsame : ∀ n, InSubtree i n → tree' n = tree n) :
    Represents tree' k i t := by
  -- the index and the height follow the partition down
  induction t generalizing k i with
  | free => simpa [hsame i (InSubtree.refl i)] using h
  | block s => simpa [hsame i (InSubtree.refl i)] using h
  | node l r ihl ihr =>
    cases k with
    | zero => exact h
    | succ k =>
      obtain ⟨hstate, hl, hr⟩ := h
      exact ⟨by rw [hsame i (InSubtree.refl i), hstate],
        ihl hl fun n hn => hsame n hn.of_left, ihr hr fun n hn => hsame n hn.of_right⟩

theorem congr_left (h : Represents tree k (2 * i + 1) t) (hoff : AgreeOff (2 * i + 2) tree tree') :
    Represents tree' k (2 * i + 1) t :=
  h.congr hoff.right_left

theorem congr_right (h : Represents tree k (2 * i + 2) t)
    (hoff : AgreeOff (2 * i + 1) tree tree') : Represents tree' k (2 * i + 2) t :=
  h.congr hoff.left_right

/-- A change of a node alone leaves the left half below it. -/
theorem congr_left_of_update {node : Node} (h : Represents tree k (2 * i + 1) t) :
    Represents (Function.update tree i node) k (2 * i + 1) t :=
  h.congr fun n hn => Function.update_of_ne (by have := hn.le; omega) _ _

/-- A change of a node alone leaves the right half below it. -/
theorem congr_right_of_update {node : Node} (h : Represents tree k (2 * i + 2) t) :
    Represents (Function.update tree i node) k (2 * i + 2) t :=
  h.congr fun n hn => Function.update_of_ne (by have := hn.le; omega) _ _

theorem unused_iff (h : Represents tree k i t) : (tree i).state = .unused ↔ t = .free := by
  cases t with
  | free => simpa using h
  | block s =>
    rw [represents_block] at h
    simp [h]
  | node l r =>
    cases k with
    | zero => exact absurd h not_represents_node_zero
    | succ k =>
      rw [h.1]
      split <;> simp

/-- A node is used or full exactly when nothing below it is free. -/
theorem used_or_full_iff (h : Represents tree k i t) :
    ((tree i).state = .used ∨ (tree i).state = .full) ↔ t.full = true := by
  cases t with
  | free =>
    rw [represents_free] at h
    simp [h]
  | block s =>
    rw [represents_block] at h
    simp [h]
  | node l r =>
    cases k with
    | zero => exact absurd h not_represents_node_zero
    | succ k =>
      -- a cut node is full exactly when both of its halves are
      rw [h.1, PTree.full_node]
      split <;> simp_all

end Represents

end Represents

end Zalloc
