import Zalloc.Buddy.Visible
import Zalloc.Foundations.PartitionTree.Shape

/-!
# The tree is a function of the live blocks

Two trees that represent partitions of the same shape answer every sequence of calls in the same
way, and two partitions with the same blocks have the same shape. So the visible tree and all
further answers depend on the live blocks alone, not on the calls that led to them.

## Main definitions

* `Answers before b ops rs b'`: the calls `ops` return the results `rs`, one after the other.
* `SameVisible b₁ b₂`: the visible nodes of two trees and their states are the same.

## Main results

* `Alike.run`: trees that are alike give the same answer and stay alike.
* `Inv.free_alloc`: releasing a block that has just been allocated restores the visible tree.
* `Inv.free_all`: releasing all live blocks, in any order, leaves the root unused.
* `history_independent`: the three of them for runs.
-/

set_option autoImplicit false

namespace Zalloc

/-! ## Sequences of calls -/

/-- The calls return the results, one after the other. -/
inductive Answers (before : Buddy → ℕ) : Buddy → List Op → List ℕ → Buddy → Prop
  /-- No call. -/
  | nil {b : Buddy} : Answers before b [] [] b
  /-- One more call in front. -/
  | cons {b b' : Buddy} {m : Traced} {op : Op} {r : ℕ} {ops : List Op} {rs : List ℕ}
      (h : (op.run before).Returns ⟨b, []⟩ m r) (hs : Answers before m.self ops rs b') :
      Answers before b (op :: ops) (r :: rs) b'

/-- The visible nodes of the trees and their states are the same. -/
def SameVisible (b₁ b₂ : Buddy) : Prop :=
  ∀ n, (Visible b₁.tree n ↔ Visible b₂.tree n) ∧
    (Visible b₁.tree n → (b₁.tree n).state = (b₂.tree n).state)

/-! ## Trees of the same shape -/

/-- Both trees represent partitions of the arena, and these have the same shape. -/
structure Alike (L : ℕ) (b₁ b₂ : Buddy) (t₁ t₂ : PTree ℕ) : Prop where
  /-- The level of the first tree. -/
  level₁ : b₁.level = L
  /-- The level of the second tree. -/
  level₂ : b₂.level = L
  /-- The partition of the first tree. -/
  rep₁ : Represents b₁.tree L 0 t₁
  /-- The partition of the second tree. -/
  rep₂ : Represents b₂.tree L 0 t₂
  /-- The shapes are the same. -/
  shape : PTree.SameShape t₁ t₂

section Alike

variable {L k i n s o r : ℕ} {before₁ before₂ : Buddy → ℕ} {b₁ b₂ : Buddy} {m₁ : Traced}
  {t₁ t₂ : PTree ℕ}

theorem Alike.symm (h : Alike L b₁ b₂ t₁ t₂) : Alike L b₂ b₁ t₂ t₁ :=
  ⟨h.level₂, h.level₁, h.rep₂, h.rep₁, h.shape.symm⟩

/-- An allocation gives the same answer. -/
theorem Alike.alloc (h : Alike L b₁ b₂ t₁ t₂) (hL : L ≤ 29)
    (hret : (buddyAlloc s).Returns ⟨b₁, []⟩ m₁ o) :
    ∃ m₂ t₁' t₂', (buddyAlloc s).Returns ⟨b₂, []⟩ m₂ o ∧ Alike L m₁.self m₂.self t₁' t₂' := by
  -- a request that exceeds the arena is refused by both
  by_cases hlarge : 2 ^ L < allocSize s
  · have hret₁ : (buddyAlloc s).Returns ⟨b₁, []⟩ ⟨b₁, []⟩ u64Max :=
      buddyAlloc_of_lt (by rwa [h.level₁])
    have hret₂ : (buddyAlloc s).Returns ⟨b₂, []⟩ ⟨b₂, []⟩ u64Max :=
      buddyAlloc_of_lt (by rwa [h.level₂])
    obtain ⟨rfl, rfl⟩ := Prog.returns_unique hret hret₁
    exact ⟨_, t₁, t₂, hret₂, h⟩
  · have hle : allocSize s ≤ 2 ^ L := Nat.not_lt.1 hlarge
    -- in a full arena the search never ends, and this one has
    have hfull : t₁.full = false := by
      by_contra hfull
      refine buddyAlloc_of_full (m := ⟨b₁, []⟩) h.rep₁ (by simpa using hfull) ?_ hret
      rwa [h.level₁]
    have hlt : 2 ^ L < 2 ^ 32 := Nat.pow_lt_pow_right (by decide) (by omega)
    obtain ⟨j, hsize⟩ := exists_allocSize_eq_two_pow (hle.trans_lt hlt)
    have hj : j ≤ L := (Nat.pow_le_pow_iff_right (by decide)).1 (hsize ▸ hle)
    -- the round in which the search ends is the same in both trees
    obtain ⟨c, hc, hnone, pos, t₁', hins₁⟩ := exists_round s h.rep₁.heightLE hj hfull
    -- insertion looks at the shape only
    obtain ⟨t₂', hins₂, hshape⟩ := h.shape.insert_some hins₁
    obtain ⟨m, hret₁, hrep₁, he₁⟩ := buddyAlloc_of_insert (m := ⟨b₁, []⟩) hL h.level₁ hsize hc hj
      h.rep₁ hnone hins₁
    obtain ⟨m₂, hret₂, hrep₂, he₂⟩ := buddyAlloc_of_insert (m := ⟨b₂, []⟩) hL h.level₂ hsize hc hj
      h.rep₂ (fun e he => h.shape.insert_none (hnone e he)) hins₂
    obtain ⟨rfl, rfl⟩ := Prog.returns_unique hret hret₁
    exact ⟨m₂, t₁', t₂', hret₂, he₁.level.trans h.level₁, he₂.level.trans h.level₂, hrep₁, hrep₂,
      hshape⟩

/-- A release is answered in the same way. -/
theorem Alike.free (h : Alike L b₁ b₂ t₁ t₂) (hL : L ≤ 29)
    (hbefore₁ : ∀ self : Buddy, self.level = L → before₁ self ≠ NodeState.full.toByte)
    (hbefore₂ : ∀ self : Buddy, self.level = L → before₂ self ≠ NodeState.full.toByte)
    (hret : (buddyFree before₁ o).Returns ⟨b₁, []⟩ m₁ ()) :
    ∃ m₂ t₁' t₂', (buddyFree before₂ o).Returns ⟨b₂, []⟩ m₂ () ∧
      Alike L m₁.self m₂.self t₁' t₂' := by
  -- a release that returns is of a block that starts at the offset
  obtain ⟨e₁, he₁, hstart₁⟩ : ∃ e ∈ t₁.blocks L 0, e.start = o / pageSize := by
    by_contra hno
    obtain ⟨m, -, -, hab⟩ := buddyFree_aborts (m := ⟨b₁, []⟩) hL h.level₁ h.rep₁
      fun e he heq => hno ⟨e, he, heq⟩
    exact Prog.not_aborts_of_returns hret hab
  have hfind₁ := PTree.find_of_mem he₁
  rw [hstart₁] at hfind₁
  -- the other tree has a block at the same place
  obtain ⟨e₂, hfind₂, hstart₂, -⟩ := h.shape.find_some hfind₁
  obtain ⟨m, hret₁, hlevel₁, hrep₁⟩ := buddyFree_of_find (m := ⟨b₁, []⟩) hL h.level₁ h.rep₁ hfind₁
    hstart₁ hbefore₁
  obtain ⟨m₂, hret₂, hlevel₂, hrep₂⟩ := buddyFree_of_find (m := ⟨b₂, []⟩) hL h.level₂ h.rep₂ hfind₂
    (hstart₂.trans hstart₁) hbefore₂
  obtain ⟨rfl, -⟩ := Prog.returns_unique hret hret₁
  exact ⟨m₂, _, _, hret₂, hlevel₁, hlevel₂, hrep₁, hrep₂, h.shape.remove L 0 _⟩

/-- Trees that are alike give the same answer and stay alike. -/
theorem Alike.run (h : Alike L b₁ b₂ t₁ t₂) (hL : L ≤ 29)
    (hbefore₁ : ∀ self : Buddy, self.level = L → before₁ self ≠ NodeState.full.toByte)
    (hbefore₂ : ∀ self : Buddy, self.level = L → before₂ self ≠ NodeState.full.toByte)
    {op : Op} (hret : (op.run before₁).Returns ⟨b₁, []⟩ m₁ r) :
    ∃ m₂ t₁' t₂', (op.run before₂).Returns ⟨b₂, []⟩ m₂ r ∧ Alike L m₁.self m₂.self t₁' t₂' := by
  cases op with
  | alloc s => exact h.alloc hL hret
  | free o =>
    obtain ⟨m, u, hfree, hpure⟩ := Prog.returns_bind_iff.1 hret
    obtain ⟨rfl, rfl⟩ := Prog.returns_pure_iff.1 hpure
    obtain ⟨m₂, t₁', t₂', hfree₂, halike⟩ := h.free hL hbefore₁ hbefore₂ hfree
    exact ⟨m₂, t₁', t₂', hfree₂.bind (by simp), halike⟩

/-- Trees that are alike answer every sequence of calls in the same way. -/
theorem Alike.answers {ops : List Op} {rs : List ℕ} {b₁' : Buddy} (h : Alike L b₁ b₂ t₁ t₂)
    (hL : L ≤ 29)
    (hbefore₁ : ∀ self : Buddy, self.level = L → before₁ self ≠ NodeState.full.toByte)
    (hbefore₂ : ∀ self : Buddy, self.level = L → before₂ self ≠ NodeState.full.toByte)
    (hans : Answers before₁ b₁ ops rs b₁') : ∃ b₂', Answers before₂ b₂ ops rs b₂' := by
  -- on the calls, of which the first one is answered by both in the same way
  induction hans generalizing b₂ t₁ t₂ with
  | nil => exact ⟨b₂, .nil⟩
  | cons hret _ ih =>
    obtain ⟨m₂, t₁', t₂', hret₂, halike⟩ := h.run hL hbefore₁ hbefore₂ hret
    obtain ⟨b₂', hans₂⟩ := ih halike
    exact ⟨b₂', .cons hret₂ hans₂⟩

/-- Below nodes that represent the same shape the same nodes are visible, and they again represent
the same shape. -/
theorem VisibleFrom.alike {tree₁ tree₂ : ℕ → Node} (h : VisibleFrom tree₁ i n)
    (hrep₁ : Represents tree₁ k i t₁) (hrep₂ : Represents tree₂ k i t₂)
    (hshape : PTree.SameShape t₁ t₂) :
    VisibleFrom tree₂ i n ∧ ∃ k' t₁' t₂', Represents tree₁ k' n t₁' ∧ Represents tree₂ k' n t₂' ∧
      PTree.SameShape t₁' t₂' := by
  -- the shape of the other partition cuts it where the first one is cut
  induction h with
  | refl => exact ⟨.refl, k, t₁, t₂, hrep₁, hrep₂, hshape⟩
  | left _ hcut ih =>
    obtain ⟨hv, k', t₁', t₂', hr₁, hr₂, hs⟩ := ih
    obtain ⟨j, l₁, r₁, rfl, rfl⟩ := hr₁.isCut_iff.1 hcut
    obtain ⟨l₂, r₂, rfl⟩ := hs.exists_node
    exact ⟨hv.left hr₂.split_or_full, j, l₁, l₂, hr₁.2.1, hr₂.2.1, hs.node_left⟩
  | right _ hcut ih =>
    obtain ⟨hv, k', t₁', t₂', hr₁, hr₂, hs⟩ := ih
    obtain ⟨j, l₁, r₁, rfl, rfl⟩ := hr₁.isCut_iff.1 hcut
    obtain ⟨l₂, r₂, rfl⟩ := hs.exists_node
    exact ⟨hv.right hr₂.split_or_full, j, r₁, r₂, hr₁.2.2, hr₂.2.2, hs.node_right⟩

/-- The state of a node is a function of the shape it represents. -/
theorem Represents.state_eq {tree₁ tree₂ : ℕ → Node} (hrep₁ : Represents tree₁ k n t₁)
    (hrep₂ : Represents tree₂ k n t₂) (hshape : PTree.SameShape t₁ t₂) :
    (tree₁ n).state = (tree₂ n).state := by
  cases t₁ with
  | free =>
    obtain rfl := hshape.eq_free_iff.1 rfl
    rw [represents_free] at hrep₁ hrep₂
    rw [hrep₁, hrep₂]
  | block s =>
    cases t₂ with
    | block s' =>
      rw [represents_block] at hrep₁ hrep₂
      rw [hrep₁, hrep₂]
    | free => cases hshape
    | node l r => cases hshape
  | node l r =>
    cases k with
    | zero => exact absurd hrep₁ not_represents_node_zero
    | succ k =>
      obtain ⟨l', r', rfl⟩ := hshape.exists_node
      rw [hrep₁.1, hrep₂.1, hshape.node_left.full_eq, hshape.node_right.full_eq]

/-- Trees that are alike have the same visible nodes, in the same states. -/
theorem Alike.sameVisible (h : Alike L b₁ b₂ t₁ t₂) : SameVisible b₁ b₂ := by
  intro n
  refine ⟨⟨fun hv => ?_, fun hv => ?_⟩, fun hv => ?_⟩
  · exact (VisibleFrom.alike hv h.rep₁ h.rep₂ h.shape).1
  · exact (VisibleFrom.alike hv h.rep₂ h.rep₁ h.shape.symm).1
  · obtain ⟨-, k, t₁', t₂', hr₁, hr₂, hs⟩ := VisibleFrom.alike hv h.rep₁ h.rep₂ h.shape
    exact hr₁.state_eq hr₂ hs

end Alike

/-! ## The same blocks -/

/-- The offsets and page counts of the live blocks are the same. -/
def SameBlocks (c₁ c₂ : Config) : Prop :=
  ∀ o p, (∃ b ∈ c₁.live, b.offset = o ∧ b.pages = p) ↔ ∃ b ∈ c₂.live, b.offset = o ∧ b.pages = p

section Inv

variable {L s o : ℕ} {before : Buddy → ℕ} {c c₁ c₂ : Config} {t t₁ t₂ : PTree ℕ}

/-- The live blocks give the ranges of the partition. -/
theorem Inv.exists_block_iff (h : Inv L c t) (x j : ℕ) :
    (∃ e ∈ t.blocks L 0, e.start = x ∧ e.order = j) ↔
      ∃ b ∈ c.live, b.offset = pageSize * x ∧ b.pages = 2 ^ j := by
  constructor
  · rintro ⟨e, he, rfl, rfl⟩
    exact ⟨blockOf e, (h.live _).2 ⟨e, he, rfl⟩, rfl, rfl⟩
  · rintro ⟨b, hb, hoffset, hpages⟩
    obtain ⟨e, he, rfl⟩ := (h.live b).1 hb
    exact ⟨e, he, Nat.eq_of_mul_eq_mul_left (by decide) hoffset,
      Nat.pow_right_injective le_rfl hpages⟩

/-- Trees with the same live blocks are alike. -/
theorem Inv.alike (h₁ : Inv L c₁ t₁) (h₂ : Inv L c₂ t₂) (hsame : SameBlocks c₁ c₂) :
    Alike L c₁.self c₂.self t₁ t₂ := by
  refine ⟨h₁.level, h₂.level, h₁.rep, h₂.rep, ?_⟩
  refine PTree.sameShape_of_blocks 0 h₁.normal h₂.normal h₁.heightLE h₂.heightLE fun x j => ?_
  rw [h₁.exists_block_iff, h₂.exists_block_iff]
  exact hsame _ _

/-- Releasing a block that has just been allocated restores the visible tree. -/
theorem Inv.free_alloc (h : Inv L c t) (hL : L ≤ 29)
    (hbefore : ∀ self : Buddy, self.level = L → before self ≠ NodeState.full.toByte)
    (hroom : HasRoom L c.live (allocSize s)) :
    ∃ m o m', (buddyAlloc s).Returns ⟨c.self, []⟩ m o ∧
      (buddyFree before o).Returns ⟨m.self, []⟩ m' () ∧ SameVisible c.self m'.self := by
  obtain ⟨m, j, pos, t', -, -, -, hret, hinv⟩ := h.alloc hL hroom
  obtain ⟨m', hfree, hinv'⟩ := hinv.free hL hbefore (List.mem_cons_self ..)
  -- the live blocks are the old ones again
  refine ⟨m, _, m', hret, hfree, (h.alike hinv' fun o p => ?_).sameVisible⟩
  -- the new block is the only one with its offset
  have hnodup := hinv.nodup
  rw [List.map_cons, List.nodup_cons] at hnodup
  have hne : ∀ b ∈ c.live, b.offset ≠ pageSize * (pos * 2 ^ j) := fun b hb heq =>
    hnodup.1 (List.mem_map.2 ⟨b, hb, heq⟩)
  have hlive : c.live.filter (fun b => b.offset ≠ pageSize * (pos * 2 ^ j)) = c.live :=
    List.filter_eq_self.2 fun b hb => by simpa using hne b hb
  rw [List.filter_cons_of_neg (by simp), hlive]

/-- Releasing all live blocks, in any order, leaves a single free block. -/
theorem Inv.free_all {os : List ℕ} (h : Inv L c t) (hL : L ≤ 29)
    (hbefore : ∀ self : Buddy, self.level = L → before self ≠ NodeState.full.toByte)
    (hos : os.Perm (c.live.map Block.offset)) :
    ∃ self, Answers before c.self (os.map Op.free) (os.map fun _ => 0) self ∧
      Inv L ⟨self, []⟩ .free := by
  induction os generalizing c t with
  | nil =>
    have hlive : c.live = [] := List.map_eq_nil_iff.1 hos.nil_eq.symm
    refine ⟨c.self, .nil, ?_⟩
    -- a normal partition without blocks is a single free one
    have hfree : t = .free := by
      by_contra hne
      obtain ⟨e, he⟩ := h.normal.exists_block 0 h.heightLE hne
      have hmem := (h.live _).2 ⟨e, he, rfl⟩
      rw [hlive] at hmem
      cases hmem
    rwa [← hlive, ← hfree]
  | cons o os ih =>
    have hmem : o ∈ c.live.map Block.offset := hos.subset (List.mem_cons_self ..)
    obtain ⟨b, hb, rfl⟩ := List.mem_map.1 hmem
    obtain ⟨m, hret, hinv⟩ := h.free hL hbefore hb
    -- the remaining offsets are those of the remaining blocks
    have hnodup := hos.nodup_iff.2 h.nodup
    have hrest : os.Perm ((c.live.filter fun b' => b'.offset ≠ b.offset).map Block.offset) := by
      have hfilter := hos.filter (fun o => o ≠ b.offset)
      rw [List.filter_map, List.filter_cons_of_neg (by simp), List.filter_eq_self.2] at hfilter
      · exact hfilter
      · intro o ho
        have hne : o ≠ b.offset := fun heq => (List.nodup_cons.1 hnodup).1 (heq ▸ ho)
        simpa using hne
    obtain ⟨self, hans, hfree⟩ := ih hinv hrest
    refine ⟨self, .cons ?_ hans, hfree⟩
    exact hret.bind (by simp)

/-- A request for the whole of a free arena succeeds. -/
theorem Inv.alloc_whole (h : Inv L c .free) (hL : L ≤ 29) (hsize : allocSize s = 2 ^ L) :
    ∃ m, (buddyAlloc s).Returns ⟨c.self, []⟩ m 0 := by
  have hins : PTree.free.insert s (L - L) = some (0, PTree.block s) := by
    rw [Nat.sub_self]
    rfl
  obtain ⟨m, hret, -⟩ := h.alloc_of_insert hL hsize le_rfl hins
  exact ⟨m, by simpa using hret⟩

end Inv

/-- Two runs in which there is room for every request, and in which the element before the tree
does not look full, that end with the same live blocks end with the same visible tree, and every
further sequence of calls is answered in the same way. In particular a release directly after an
allocation restores the visible tree, and after the release of all live blocks in any order the
root is the only visible node, it is unused, and a request for the whole arena succeeds. -/
theorem history_independent {L : ℕ} {before : Buddy → ℕ} {lib₁ lib₂ : Bool}
    {memory₁ memory₂ : ℕ → Node} {self₁ self₂ : Buddy} {c₁ c₂ : Config} (hL : L ≤ 29)
    (hbefore : ∀ self : Buddy, self.level = L → before self ≠ NodeState.full.toByte)
    (hnew₁ : buddyNew lib₁ memory₁ (L + 12) = some self₁)
    (hnew₂ : buddyNew lib₂ memory₂ (L + 12) = some self₂)
    (hreach₁ : Runs.Reach (Step before) (Fits L) ⟨self₁, []⟩ c₁)
    (hreach₂ : Runs.Reach (Step before) (Fits L) ⟨self₂, []⟩ c₂) :
    (SameBlocks c₁ c₂ → SameVisible c₁.self c₂.self ∧
      ∀ ops rs, (∃ b, Answers before c₁.self ops rs b) ↔ ∃ b, Answers before c₂.self ops rs b) ∧
    (∀ s, HasRoom L c₁.live (allocSize s) →
      ∃ m o m', (buddyAlloc s).Returns ⟨c₁.self, []⟩ m o ∧
        (buddyFree before o).Returns ⟨m.self, []⟩ m' () ∧ SameVisible c₁.self m'.self) ∧
    ∀ os : List ℕ, os.Perm (c₁.live.map Block.offset) →
      ∃ self, Answers before c₁.self (os.map Op.free) (os.map fun _ => 0) self ∧
        (∀ n, Visible self.tree n ↔ n = 0) ∧ (self.tree 0).state = .unused ∧
        ∀ s, allocSize s = 2 ^ L → ∃ m, (buddyAlloc s).Returns ⟨self, []⟩ m 0 := by
  obtain ⟨t₁, h₁⟩ := reach_inv_of_fits hL hbefore hnew₁ hreach₁
  obtain ⟨t₂, h₂⟩ := reach_inv_of_fits hL hbefore hnew₂ hreach₂
  refine ⟨fun hsame => ?_, fun s hroom => h₁.free_alloc hL hbefore hroom, fun os hos => ?_⟩
  · have halike := h₁.alike h₂ hsame
    refine ⟨halike.sameVisible, fun ops rs => ⟨?_, ?_⟩⟩
    · rintro ⟨b, hans⟩
      exact halike.answers hL hbefore hbefore hans
    · rintro ⟨b, hans⟩
      exact halike.symm.answers hL hbefore hbefore hans
  · obtain ⟨self, hans, hfree⟩ := h₁.free_all hL hbefore hos
    have hroot : (self.tree 0).state = .unused := represents_free.1 hfree.rep
    refine ⟨self, hans, fun n => ⟨fun hv => ?_, ?_⟩, hroot, fun s hsize => ?_⟩
    · rcases VisibleFrom.cases_head hv with hn | ⟨hcut, -⟩
      · exact hn
      · simp [IsCut, hroot] at hcut
    · rintro rfl
      exact .refl
    · exact hfree.alloc_whole hL hsize

/-- The arena of two pages after both have been taken and the second one has been released. -/
def secondReleased : Config :=
  ⟨((buddyFree (fun _ => 0) 4096).exec 8 ⟨bothTaken.self, []⟩).state.self, oneBlock.live⟩

theorem reach_secondReleased :
    Runs.Reach (Step fun _ => 0) (Fits 1) ⟨twoPages, []⟩ secondReleased := by
  have hret : (buddyFree (fun _ => 0) 4096).Returns ⟨bothTaken.self, []⟩ _ () :=
    Prog.returns_of_value? (n := 8) (by decide +kernel)
  have hstep : Step (fun _ => 0) bothTaken (.free 4096) secondReleased :=
    .free (b := ⟨4096, 1, 4096⟩) (List.mem_cons_self ..) hret
  -- a release needs no room
  have hfits : Fits 1 bothTaken (.free 4096) := trivial
  exact .step (reach_bothTaken hasRoom_first_page hasRoom_second_page) hfits hstep

/-- One run takes the first of two pages, the other takes both and releases the second one. -/
theorem history_independent_oneBlock :
    (SameBlocks oneBlock secondReleased ∧ SameVisible oneBlock.self secondReleased.self ∧
      ∀ ops rs, (∃ b, Answers (fun _ => 0) oneBlock.self ops rs b) ↔
        ∃ b, Answers (fun _ => 0) secondReleased.self ops rs b) ∧
    (∀ s, HasRoom 1 oneBlock.live (allocSize s) →
      ∃ m o m', (buddyAlloc s).Returns ⟨oneBlock.self, []⟩ m o ∧
        (buddyFree (fun _ => 0) o).Returns ⟨m.self, []⟩ m' () ∧
        SameVisible oneBlock.self m'.self) ∧
    ∀ os : List ℕ, os.Perm (oneBlock.live.map Block.offset) →
      ∃ self, Answers (fun _ => 0) oneBlock.self (os.map Op.free) (os.map fun _ => 0) self ∧
        (∀ n, Visible self.tree n ↔ n = 0) ∧ (self.tree 0).state = .unused ∧
        ∀ s, allocSize s = 2 ^ 1 → ∃ m, (buddyAlloc s).Returns ⟨self, []⟩ m 0 := by
  have hsame : SameBlocks oneBlock secondReleased := fun _ _ => Iff.rfl
  have hreach : Runs.Reach (Step fun _ => 0) (Fits 1) ⟨twoPages, []⟩ oneBlock :=
    reach_oneBlock hasRoom_first_page
  obtain ⟨halike, hundo, hall⟩ := history_independent (by decide) (fun _ _ => by decide)
    buddyNew_twoPages buddyNew_twoPages hreach reach_secondReleased
  exact ⟨⟨hsame, halike hsame⟩, hundo, hall⟩

end Zalloc
