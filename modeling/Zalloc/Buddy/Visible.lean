import Zalloc.Buddy.Run

/-!
# The visible tree

A node is visible if it is reached from the root through split and full nodes. States below a leaf
are left behind by splitting and merging and mean nothing.

## Main definitions

* `Visible tree n`: node `n` is visible.
* `firstPage L n`, `pageCount L n`: the pages that node `n` stands for.
* `WellFormed L c`: the representation invariant of the tree and its blocks.

## Main results

* `Inv.wellFormed`: a tree that represents a partition into the live blocks is well formed.
* `reach_wellFormed`: so is the tree after any run in which there is room for every request.
-/

set_option autoImplicit false

namespace Zalloc

/-- A node that is split or full. -/
def IsCut (state : NodeState) : Prop := state = .split ∨ state = .full

instance (state : NodeState) : Decidable (IsCut state) := inferInstanceAs (Decidable (_ ∨ _))

/-- Node `n` is reached from node `i` through split and full nodes. -/
inductive VisibleFrom (tree : ℕ → Node) (i : ℕ) : ℕ → Prop
  /-- The node itself. -/
  | refl : VisibleFrom tree i i
  /-- To the left child. -/
  | left {n : ℕ} (h : VisibleFrom tree i n) (hcut : IsCut (tree n).state) :
      VisibleFrom tree i (2 * n + 1)
  /-- To the right child. -/
  | right {n : ℕ} (h : VisibleFrom tree i n) (hcut : IsCut (tree n).state) :
      VisibleFrom tree i (2 * n + 2)

/-- Node `n` is reached from the root through split and full nodes. -/
def Visible (tree : ℕ → Node) (n : ℕ) : Prop := VisibleFrom tree 0 n

/-- The number of pages of node `n`. -/
def pageCount (L n : ℕ) : ℕ := 2 ^ (L - Nat.log2 (n + 1))

/-- The first page of node `n`. -/
def firstPage (L n : ℕ) : ℕ := (n + 1) * pageCount L n - 2 ^ L

/-- The node stands for page `x`. -/
def HoldsPage (L n x : ℕ) : Prop := firstPage L n ≤ x ∧ x < firstPage L n + pageCount L n

/-- The representation invariant of the buddy tree. -/
structure WellFormed (L : ℕ) (c : Config) : Prop where
  /-- Unused and used nodes are the leaves of the visible tree. -/
  leaf_iff : ∀ n, Visible c.self.tree n →
    ((c.self.tree n).state = .unused ∨ (c.self.tree n).state = .used ↔
      ¬ Visible c.self.tree (2 * n + 1) ∧ ¬ Visible c.self.tree (2 * n + 2))
  /-- A split or full node is above the page level. -/
  above_pages : ∀ n, Visible c.self.tree n → IsCut (c.self.tree n).state → n + 1 < 2 ^ L
  /-- A node with children is full exactly when both of them are used or full. -/
  full_iff : ∀ n, Visible c.self.tree n → IsCut (c.self.tree n).state →
    ((c.self.tree n).state = .full ↔
      ((c.self.tree (2 * n + 1)).state = .used ∨ (c.self.tree (2 * n + 1)).state = .full) ∧
      ((c.self.tree (2 * n + 2)).state = .used ∨ (c.self.tree (2 * n + 2)).state = .full))
  /-- No split node has two unused children. -/
  not_both_unused : ∀ n, Visible c.self.tree n → (c.self.tree n).state = .split →
    ¬ ((c.self.tree (2 * n + 1)).state = .unused ∧ (c.self.tree (2 * n + 2)).state = .unused)
  /-- The visible leaves tile the arena. -/
  tiles : ∀ x < 2 ^ L, ∃! n, Visible c.self.tree n ∧ ¬ IsCut (c.self.tree n).state ∧
    HoldsPage L n x
  /-- The used leaves are the live blocks. -/
  live_iff : ∀ b, b ∈ c.live ↔ ∃ n, Visible c.self.tree n ∧
    c.self.tree n = ⟨b.pages, b.used, .used⟩ ∧
    b.offset = pageSize * firstPage L n ∧ b.pages = pageCount L n
  /-- There are no other used leaves. -/
  used_live : ∀ n, Visible c.self.tree n → (c.self.tree n).state = .used →
    ∃ b ∈ c.live, c.self.tree n = ⟨b.pages, b.used, .used⟩ ∧
      b.offset = pageSize * firstPage L n ∧ b.pages = pageCount L n

/-! ## Children -/

section Children

variable {tree : ℕ → Node} {i j n : ℕ}

theorem VisibleFrom.trans (h₁ : VisibleFrom tree i j) (h₂ : VisibleFrom tree j n) :
    VisibleFrom tree i n := by
  induction h₂ with
  | refl => exact h₁
  | left _ hcut ih => exact ih.left hcut
  | right _ hcut ih => exact ih.right hcut

/-- The way down begins with one of the children. -/
theorem VisibleFrom.cases_head (h : VisibleFrom tree i n) :
    n = i ∨ IsCut (tree i).state ∧ (VisibleFrom tree (2 * i + 1) n ∨
      VisibleFrom tree (2 * i + 2) n) := by
  -- the last step of the way down is taken off, the first one is wanted
  induction h with
  | refl => exact .inl rfl
  | left _ hcut ih =>
    rcases ih with rfl | ⟨hi, hl | hr⟩
    · exact .inr ⟨hcut, .inl .refl⟩
    · exact .inr ⟨hi, .inl (hl.left hcut)⟩
    · exact .inr ⟨hi, .inr (hr.left hcut)⟩
  | right _ hcut ih =>
    rcases ih with rfl | ⟨hi, hl | hr⟩
    · exact .inr ⟨hcut, .inr .refl⟩
    · exact .inr ⟨hi, .inl (hl.right hcut)⟩
    · exact .inr ⟨hi, .inr (hr.right hcut)⟩

theorem visible_left_iff : Visible tree (2 * n + 1) ↔ Visible tree n ∧ IsCut (tree n).state := by
  refine ⟨fun h => ?_, fun h => h.1.left h.2⟩
  -- a left child is no right child, and it has one parent
  generalize hm : 2 * n + 1 = m at h
  cases h with
  | refl => omega
  | @left n' h hcut =>
    obtain rfl : n = n' := by omega
    exact ⟨h, hcut⟩
  | right => omega

theorem visible_right_iff : Visible tree (2 * n + 2) ↔ Visible tree n ∧ IsCut (tree n).state := by
  refine ⟨fun h => ?_, fun h => h.1.right h.2⟩
  generalize hm : 2 * n + 2 = m at h
  cases h with
  | refl => omega
  | left => omega
  | @right n' h hcut =>
    obtain rfl : n = n' := by omega
    exact ⟨h, hcut⟩

theorem not_isCut_iff {state : NodeState} : ¬ IsCut state ↔ state = .unused ∨ state = .used := by
  cases state <;> simp [IsCut]

end Children

/-! ## Where a node lies -/

/-- Node `n` is `k` levels above the pages and starts at page `a`. -/
structure NodeAt (L k n a : ℕ) : Prop where
  /-- The position of the node. -/
  eq : (n + 1) * 2 ^ k = 2 ^ L + a
  /-- The node ends in the arena. -/
  le : a + 2 ^ k ≤ 2 ^ L

namespace NodeAt

variable {L k n a : ℕ}

theorem root (L : ℕ) : NodeAt L L 0 0 := ⟨by simp, by simp⟩

theorem left (h : NodeAt L (k + 1) n a) : NodeAt L k (2 * n + 1) a := by
  have heq := h.eq
  have hle := h.le
  rw [pow_succ] at heq hle
  refine ⟨?_, by omega⟩
  rw [← heq]
  ring

theorem right (h : NodeAt L (k + 1) n a) : NodeAt L k (2 * n + 2) (a + 2 ^ k) := by
  have heq := h.eq
  have hle := h.le
  rw [pow_succ] at heq hle
  refine ⟨?_, by omega⟩
  rw [← Nat.add_assoc, ← heq]
  ring

theorem height_le (h : NodeAt L k n a) : k ≤ L :=
  (Nat.pow_le_pow_iff_right (by decide)).1 ((Nat.le_add_left _ a).trans h.le)

/-- The depth of a node. -/
theorem log2_eq (h : NodeAt L k n a) : Nat.log2 (n + 1) = L - k := by
  have hk := h.height_le
  have hpow : 2 ^ (L - k) * 2 ^ k = 2 ^ L := by rw [← pow_add, Nat.sub_add_cancel hk]
  have hpos := Nat.two_pow_pos k
  rw [Nat.log2_eq_iff (Nat.succ_ne_zero n)]
  -- both bounds, multiplied by the size of the node
  constructor
  · apply Nat.le_of_mul_le_mul_right _ hpos
    rw [h.eq, hpow]
    exact Nat.le_add_right _ _
  · apply Nat.lt_of_mul_lt_mul_right (a := 2 ^ k)
    have hle := h.le
    rw [h.eq, pow_succ, Nat.mul_right_comm, hpow]
    omega

theorem pageCount_eq (h : NodeAt L k n a) : pageCount L n = 2 ^ k := by
  rw [pageCount, h.log2_eq, Nat.sub_sub_self h.height_le]

theorem firstPage_eq (h : NodeAt L k n a) : firstPage L n = a := by
  rw [firstPage, h.pageCount_eq, h.eq, Nat.add_sub_cancel_left]

theorem holdsPage_iff (h : NodeAt L k n a) {x : ℕ} : HoldsPage L n x ↔ a ≤ x ∧ x < a + 2 ^ k := by
  rw [HoldsPage, h.firstPage_eq, h.pageCount_eq]

theorem lt_of_succ (h : NodeAt L (k + 1) n a) : n + 1 < 2 ^ L := by
  have hpos := Nat.two_pow_pos k
  have hle := h.le
  have heq := h.eq
  have hmul := Nat.le_mul_of_pos_right (n + 1) hpos
  rw [pow_succ, ← Nat.mul_assoc] at heq
  rw [pow_succ] at hle
  -- the node has two pages at least
  omega

end NodeAt

/-! ## Visible nodes represent parts of the partition -/

section Represents

variable {tree : ℕ → Node} {L k i n a : ℕ} {t : PTree ℕ}

theorem Represents.isCut_iff (h : Represents tree k i t) :
    IsCut (tree i).state ↔ ∃ k' l r, k = k' + 1 ∧ t = .node l r := by
  cases t with
  | free =>
    rw [represents_free] at h
    simp [IsCut, h]
  | block s =>
    rw [represents_block] at h
    simp [IsCut, h]
  | node l r =>
    cases k with
    | zero => exact absurd h not_represents_node_zero
    | succ k => exact ⟨fun _ => ⟨k, l, r, rfl, rfl⟩, fun _ => h.split_or_full⟩

/-- A used node represents a block. -/
theorem Represents.exists_block (h : Represents tree k n t) (hused : (tree n).state = .used) :
    ∃ s, t = .block s := by
  cases t with
  | block s => exact ⟨s, rfl⟩
  | free =>
    rw [represents_free, hused] at h
    cases h
  | node l r =>
    cases k with
    | zero => exact absurd h not_represents_node_zero
    | succ k =>
      rcases h.split_or_full with hstate | hstate
      · rw [hused] at hstate
        cases hstate
      · rw [hused] at hstate
        cases hstate

/-- The part of a partition that a visible node stands for. -/
structure Part (tree : ℕ → Node) (L k a : ℕ) (t : PTree ℕ) (k' n a' : ℕ) (t' : PTree ℕ) :
    Prop where
  /-- The node represents the part. -/
  rep : Represents tree k' n t'
  /-- The place of the node. -/
  at_node : NodeAt L k' n a'
  /-- The part is normal. -/
  normal : t'.Normal
  /-- The part lies in the whole. -/
  start_le : a ≤ a'
  /-- The part lies in the whole. -/
  le_stop : a' + 2 ^ k' ≤ a + 2 ^ k
  /-- The blocks of the part are blocks of the whole. -/
  blocks : ∀ e ∈ t'.blocks k' a', e ∈ t.blocks k a

/-- Every visible node stands for a part of the partition. -/
theorem VisibleFrom.part (h : VisibleFrom tree i n) (hrep : Represents tree k i t)
    (hat : NodeAt L k i a) (hn : t.Normal) :
    ∃ k' a' t', Part tree L k a t k' n a' t' := by
  -- the node of the last step represents a part that is cut
  induction h with
  | refl => exact ⟨k, a, t, hrep, hat, hn, le_rfl, le_rfl, fun _ he => he⟩
  | left _ hcut ih =>
    obtain ⟨k', a', t', p⟩ := ih
    obtain ⟨j, l, r, rfl, rfl⟩ := p.rep.isCut_iff.1 hcut
    have hpow : 2 ^ (j + 1) = 2 ^ j + 2 ^ j := by rw [pow_succ]; omega
    have hpos := Nat.two_pow_pos j
    have hstop := p.le_stop
    -- the left half starts where the part starts
    refine ⟨j, a', l, p.rep.2.1, p.at_node.left, p.normal.2.1, p.start_le, by omega, ?_⟩
    exact fun e he => p.blocks e (by rw [PTree.blocks_node]; exact List.mem_append_left _ he)
  | right _ hcut ih =>
    obtain ⟨k', a', t', p⟩ := ih
    obtain ⟨j, l, r, rfl, rfl⟩ := p.rep.isCut_iff.1 hcut
    have hpow : 2 ^ (j + 1) = 2 ^ j + 2 ^ j := by rw [pow_succ]; omega
    have hpos := Nat.two_pow_pos j
    have hstart := p.start_le
    have hstop := p.le_stop
    -- the right half starts in its middle
    refine ⟨j, a' + 2 ^ j, r, p.rep.2.2, p.at_node.right, p.normal.2.2, by omega, by omega, ?_⟩
    exact fun e he => p.blocks e (by rw [PTree.blocks_node]; exact List.mem_append_right _ he)

/-- Every block is the part of a visible used node. -/
theorem exists_visible_of_mem {e : Extent ℕ} (hrep : Represents tree k i t) (hat : NodeAt L k i a)
    (he : e ∈ t.blocks k a) :
    ∃ n, VisibleFrom tree i n ∧ NodeAt L e.order n e.start ∧
      tree n = ⟨allocSize e.tag, e.tag, .used⟩ := by
  induction t generalizing k i a with
  | free => simp at he
  | block s =>
    obtain rfl : e = ⟨a, k, s⟩ := by simpa using he
    exact ⟨i, .refl, hat, by simpa using hrep⟩
  | node l r ihl ihr =>
    cases k with
    | zero => exact absurd hrep not_represents_node_zero
    | succ k =>
      have hcut : IsCut (tree i).state := hrep.split_or_full
      rw [PTree.blocks_node] at he
      rcases List.mem_append.1 he with he | he
      · obtain ⟨n, hv, hn, htree⟩ := ihl hrep.2.1 hat.left he
        exact ⟨n, (VisibleFrom.refl.left hcut).trans hv, hn, htree⟩
      · obtain ⟨n, hv, hn, htree⟩ := ihr hrep.2.2 hat.right he
        exact ⟨n, (VisibleFrom.refl.right hcut).trans hv, hn, htree⟩

/-- A page of a node is a page of exactly one visible leaf below the node. -/
theorem existsUnique_leaf {x : ℕ} (hrep : Represents tree k i t) (hat : NodeAt L k i a)
    (hn : t.Normal) (hle : a ≤ x) (hlt : x < a + 2 ^ k) :
    ∃! n, VisibleFrom tree i n ∧ ¬ IsCut (tree n).state ∧ HoldsPage L n x := by
  induction t generalizing k i a with
  | node l r ihl ihr =>
    cases k with
    | zero => exact absurd hrep not_represents_node_zero
    | succ k =>
      have hcut : IsCut (tree i).state := hrep.split_or_full
      have hpow : 2 ^ (k + 1) = 2 ^ k + 2 ^ k := by rw [pow_succ]; omega
      obtain ⟨-, hl, hr⟩ := hrep
      -- the leaves of the other half do not hold the page
      have hbelow : ∀ n, VisibleFrom tree (2 * i + 1) n → HoldsPage L n x → x < a + 2 ^ k := by
        intro n hv hx
        obtain ⟨k', a', t', p⟩ := hv.part hl hat.left hn.2.1
        have := p.le_stop
        have := (p.at_node.holdsPage_iff.1 hx).2
        omega
      have habove : ∀ n, VisibleFrom tree (2 * i + 2) n → HoldsPage L n x → a + 2 ^ k ≤ x := by
        intro n hv hx
        obtain ⟨k', a', t', p⟩ := hv.part hr hat.right hn.2.2
        exact p.start_le.trans (p.at_node.holdsPage_iff.1 hx).1
      -- so the leaf is one of the half that the page is in
      by_cases hx : x < a + 2 ^ k
      · obtain ⟨n, ⟨hv, hleaf, hh⟩, huniq⟩ := ihl hl hat.left hn.2.1 hle hx
        refine ⟨n, ⟨(VisibleFrom.refl.left hcut).trans hv, hleaf, hh⟩, ?_⟩
        rintro n' ⟨hv', hleaf', hh'⟩
        rcases hv'.cases_head with rfl | ⟨-, hv' | hv'⟩
        · exact absurd hcut hleaf'
        · exact huniq n' ⟨hv', hleaf', hh'⟩
        · have := habove n' hv' hh'
          omega
      · obtain ⟨n, ⟨hv, hleaf, hh⟩, huniq⟩ := ihr hr hat.right hn.2.2 (by omega) (by omega)
        refine ⟨n, ⟨(VisibleFrom.refl.right hcut).trans hv, hleaf, hh⟩, ?_⟩
        rintro n' ⟨hv', hleaf', hh'⟩
        rcases hv'.cases_head with rfl | ⟨-, hv' | hv'⟩
        · exact absurd hcut hleaf'
        · exact absurd (hbelow n' hv' hh') hx
        · exact huniq n' ⟨hv', hleaf', hh'⟩
  | _ =>
    -- a leaf is its own only leaf
    have hleaf : ¬ IsCut (tree i).state := fun hcut => by
      obtain ⟨_, _, _, -, ht⟩ := hrep.isCut_iff.1 hcut
      cases ht
    refine ⟨i, ⟨.refl, hleaf, hat.holdsPage_iff.2 ⟨hle, hlt⟩⟩, ?_⟩
    rintro n ⟨hv, -, -⟩
    rcases hv.cases_head with rfl | ⟨hcut, -⟩
    · rfl
    · exact absurd hcut hleaf

end Represents

/-! ## The representation invariant -/

/-- A tree that represents a partition into the live blocks is well formed. -/
theorem Inv.wellFormed {L : ℕ} {c : Config} {t : PTree ℕ} (h : Inv L c t) : WellFormed L c := by
  have hpart : ∀ {n}, Visible c.self.tree n →
      ∃ k a t', Part c.self.tree L L 0 t k n a t' :=
    fun hv => VisibleFrom.part hv h.rep (NodeAt.root L) h.normal
  -- a used leaf represents a block of the partition, which is live
  have hused : ∀ n, Visible c.self.tree n → (c.self.tree n).state = .used →
      ∃ b ∈ c.live, c.self.tree n = ⟨b.pages, b.used, .used⟩ ∧
        b.offset = pageSize * firstPage L n ∧ b.pages = pageCount L n := by
    intro n hv hstate
    obtain ⟨k, a, t', p⟩ := hpart hv
    obtain ⟨s, rfl⟩ := p.rep.exists_block hstate
    have he : (⟨a, k, s⟩ : Extent ℕ) ∈ t.blocks L 0 := p.blocks ⟨a, k, s⟩ (by simp)
    refine ⟨blockOf ⟨a, k, s⟩, (h.live _).2 ⟨_, he, rfl⟩, ?_, ?_, p.at_node.pageCount_eq.symm⟩
    · have hrep := represents_block.1 p.rep
      rw [hrep, h.sized _ he, blockOf]
    · rw [p.at_node.firstPage_eq, blockOf]
  refine ⟨?_, ?_, ?_, ?_, ?_, ?_, hused⟩
  · -- a node has visible children exactly when it is cut
    intro n hv
    rw [visible_left_iff, visible_right_iff, ← not_isCut_iff]
    simp [hv]
  · -- a cut node represents two halves, so it is not a page
    intro n hv hcut
    obtain ⟨k, a, t', p⟩ := hpart hv
    obtain ⟨j, l, r, rfl, rfl⟩ := p.rep.isCut_iff.1 hcut
    exact p.at_node.lt_of_succ
  · intro n hv hcut
    obtain ⟨k, a, t', p⟩ := hpart hv
    obtain ⟨j, l, r, rfl, rfl⟩ := p.rep.isCut_iff.1 hcut
    obtain ⟨hstate, hl, hr⟩ := p.rep
    -- the mark is about both halves, and so are the states of the children
    rw [hl.used_or_full_iff, hr.used_or_full_iff, hstate]
    cases l.full <;> cases r.full <;> decide
  · intro n hv hsplit
    obtain ⟨k, a, t', p⟩ := hpart hv
    obtain ⟨j, l, r, rfl, rfl⟩ := p.rep.isCut_iff.1 (.inl hsplit)
    obtain ⟨-, hl, hr⟩ := p.rep
    -- two free halves would have been merged
    rw [hl.unused_iff, hr.unused_iff]
    exact p.normal.1
  · intro x hx
    exact existsUnique_leaf h.rep (NodeAt.root L) h.normal (Nat.zero_le x) (by omega)
  · intro b
    rw [h.live b]
    constructor
    · -- a block has its leaf
      rintro ⟨e, he, rfl⟩
      obtain ⟨n, hv, hat, htree⟩ := exists_visible_of_mem h.rep (NodeAt.root L) he
      refine ⟨n, hv, ?_, ?_, hat.pageCount_eq.symm⟩
      · rw [htree, h.sized e he, blockOf]
      · rw [hat.firstPage_eq, blockOf]
    · -- the live block of the leaf is this one
      rintro ⟨n, hv, htree, hoffset, hpages⟩
      obtain ⟨b', hb', htree', hoffset', hpages'⟩ := hused n hv (by rw [htree])
      have huse : b.used = b'.used := (Node.mk.inj (htree.symm.trans htree')).2.1
      have heq : b = b' := by
        cases b
        cases b'
        rw [Block.mk.injEq]
        exact ⟨hoffset.trans hoffset'.symm, hpages.trans hpages'.symm, huse⟩
      rw [heq]
      exact (h.live b').1 hb'

/-- In a run in which there is room for every request, and in which the element before the tree
does not look full, the tree is well formed after every operation. -/
theorem reach_wellFormed {L : ℕ} {before : Buddy → ℕ} {lib : Bool} {memory : ℕ → Node}
    {self : Buddy} {c : Config} (hL : L ≤ 29)
    (hbefore : ∀ self : Buddy, self.level = L → before self ≠ NodeState.full.toByte)
    (hnew : buddyNew lib memory (L + 12) = some self)
    (hreach : Runs.Reach (Step before) (Fits L) ⟨self, []⟩ c) : WellFormed L c := by
  obtain ⟨t, h⟩ := reach_inv_of_fits hL hbefore hnew hreach
  exact h.wellFormed

/-- The tree of two pages is well formed when the first of them has been taken. -/
theorem reach_wellFormed_oneBlock : WellFormed 1 oneBlock :=
  have hreach : Runs.Reach (Step fun _ => 0) (Fits 1) ⟨twoPages, []⟩ _ :=
    reach_oneBlock hasRoom_first_page
  reach_wellFormed (by decide) (fun _ _ => by decide) buddyNew_twoPages hreach

end Zalloc
