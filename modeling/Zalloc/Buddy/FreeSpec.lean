import Zalloc.Buddy.Represents
import Zalloc.Foundations.PartitionTree.Remove

/-!
# What release does to the represented partition

`buddy_free` walks to the block that contains the page and takes it out as `PTree.remove` does.
`_combine` has two loops: up to the top of the free subtree that the release leaves, and from there
up through the ancestors that are no longer full. Either of them may get as far as the root, and
line 187 then reads the element before the tree.

## Main results

* `walk_of_find`, `walk_aborts`: the walk ends at the block that contains the page, or aborts.
* `CombineReaches.left`, `CombineReaches.right`: what `_combine` has done when it reaches a node.
* `buddyFree_of_find`: the effect of a release.
-/

set_option autoImplicit false

namespace Zalloc

/-! ## The walk -/

section Walk

variable {N k i a x : ℕ} {m : Traced} {t : PTree ℕ} {e : Extent ℕ}

/-- At a node that is cut the walk goes on to the half that contains the page. -/
theorem walkBody_node (hi : 2 * i + 3 ≤ 2 ^ 30) (ha : a + 2 ^ (k + 1) ≤ 2 ^ 30)
    (h : (m.self.tree i).state = .split ∨ (m.self.tree i).state = .full) :
    (walkBody x ⟨i, a, 2 ^ (k + 1)⟩).Returns m (m.touch i)
      (.inl (if x < a + 2 ^ k then ⟨2 * i + 1, a, 2 ^ k⟩ else ⟨2 * i + 2, a + 2 ^ k, 2 ^ k⟩)) := by
  have hhalf : 2 ^ (k + 1) / 2 = 2 ^ k := by rw [pow_succ, Nat.mul_div_cancel _ Nat.two_pos]
  have hsum : u64 (a + 2 ^ k) = a + 2 ^ k := by
    rw [pow_succ] at ha
    exact Nat.mod_eq_of_lt (by omega)
  by_cases hx : x < a + 2 ^ k
  · rcases h with h | h <;> simp [walkBody, h, hhalf, hsum, hx, u64_left hi]
  · rcases h with h | h <;> simp [walkBody, h, hhalf, hsum, hx, u64_right hi]

/-- At a used node that starts at the page the walk ends. -/
theorem walkBody_used (h : (m.self.tree i).state = .used) :
    (walkBody x ⟨i, x, 2 ^ k⟩).Returns m (m.touch i) (.inr ⟨i, x, 2 ^ k⟩) := by
  simp [walkBody, h]

theorem walkBody_used_aborts (h : (m.self.tree i).state = .used) (hx : a ≠ x) :
    (walkBody x ⟨i, a, 2 ^ k⟩).Aborts m (m.touch i) := by
  simp [walkBody, h, hx.symm]

theorem walkBody_unused_aborts (h : (m.self.tree i).state = .unused) :
    (walkBody x ⟨i, a, 2 ^ k⟩).Aborts m (m.touch i) := by
  simp [walkBody, h]

/-- The index of the leaf that contains page `x` in the subtree of node `i`, which starts at page
`a`. -/
def leafIndex : ℕ → ℕ → ℕ → PTree ℕ → ℕ → ℕ
  | k + 1, i, a, .node l r, x =>
    if x < a + 2 ^ k then leafIndex k (2 * i + 1) a l x
    else leafIndex k (2 * i + 2) (a + 2 ^ k) r x
  | _, i, _, _, _ => i

@[simp] theorem leafIndex_block (k i a s x : ℕ) : leafIndex k i a (.block s) x = i := by
  cases k <;> rfl

@[simp] theorem leafIndex_node (k i a x : ℕ) (l r : PTree ℕ) :
    leafIndex (k + 1) i a (.node l r) x =
      if x < a + 2 ^ k then leafIndex k (2 * i + 1) a l x
      else leafIndex k (2 * i + 2) (a + 2 ^ k) r x := rfl

/-- The leaf of a block holds its request. -/
theorem tree_leafIndex {tree : ℕ → Node} (hrep : Represents tree k i t)
    (h : t.find k a x = some e) :
    tree (leafIndex k i a t x) = ⟨allocSize e.tag, e.tag, .used⟩ := by
  induction t generalizing k i a with
  | free => simp at h
  | block s =>
    obtain rfl : (⟨a, k, s⟩ : Extent ℕ) = e := by simpa using h
    simpa using hrep
  | node l r ihl ihr =>
    cases k with
    | zero => exact absurd hrep not_represents_node_zero
    | succ k =>
      rw [PTree.find_node] at h
      rw [leafIndex_node]
      -- the index follows the same path as the lookup
      split_ifs at h ⊢ with hx
      · exact ihl hrep.2.1 h
      · exact ihr hrep.2.2 h

/-- A node that is cut is in one of the two states of the default case. -/
theorem Represents.split_or_full {tree : ℕ → Node} {l r : PTree ℕ}
    (h : Represents tree (k + 1) i (.node l r)) :
    (tree i).state = .split ∨ (tree i).state = .full := by
  rw [h.1]
  split
  · exact .inr rfl
  · exact .inl rfl

/-- The walk to the first page of a block ends at its leaf. -/
theorem walk_of_find (hrep : Represents m.self.tree k i t) (hr : InRange N k i)
    (ha : a + 2 ^ k ≤ 2 ^ 30) (h : t.find k a x = some e) (hx : e.start = x) :
    ∃ m', m'.self = m.self ∧ Within N m m' ∧
      (Prog.loop (walkBody x) ⟨i, a, 2 ^ k⟩).Returns m m'
        ⟨leafIndex k i a t x, x, 2 ^ e.order⟩ := by
  induction t generalizing k i a m with
  | free => simp at h
  | block s =>
    obtain rfl : (⟨a, k, s⟩ : Extent ℕ) = e := by simpa using h
    obtain rfl : a = x := hx
    rw [represents_block] at hrep
    refine ⟨m.touch i, rfl, Within.touch m hr.lt, ?_⟩
    rw [leafIndex_block]
    exact (walkBody_used (by rw [hrep])).loop_exit
  | node l r ihl ihr =>
    cases k with
    | zero => exact absurd hrep not_represents_node_zero
    | succ k =>
      -- one step down, and the rest is the walk of the half
      have hstep := walkBody_node (x := x) hr.children ha hrep.split_or_full
      have hpow : 2 ^ (k + 1) = 2 ^ k + 2 ^ k := by rw [pow_succ]; omega
      have hpos := Nat.two_pow_pos k
      rw [PTree.find_node] at h
      rw [leafIndex_node]
      have htouch := Within.touch m hr.lt
      split_ifs at h hstep ⊢ with hlt
      · obtain ⟨m', hself, hw, hret⟩ := ihl (m := m.touch i) hrep.2.1 hr.left (by omega) h
        exact ⟨m', hself, htouch.trans hw, (Prog.Iterates.single hstep).returns_iff.2 hret⟩
      · obtain ⟨m', hself, hw, hret⟩ := ihr (m := m.touch i) hrep.2.2 hr.right (by omega) h
        exact ⟨m', hself, htouch.trans hw, (Prog.Iterates.single hstep).returns_iff.2 hret⟩

/-- The walk to a page that is not the first page of a block aborts. -/
theorem walk_aborts (hrep : Represents m.self.tree k i t) (hr : InRange N k i)
    (ha : a + 2 ^ k ≤ 2 ^ 30) (h : ∀ e, t.find k a x = some e → e.start ≠ x) :
    ∃ m', m'.self = m.self ∧ Within N m m' ∧
      (Prog.loop (walkBody x) ⟨i, a, 2 ^ k⟩).Aborts m m' := by
  induction t generalizing k i a m with
  | free =>
    -- the case `NODE_UNUSED` is `assert(0)`
    rw [represents_free] at hrep
    exact ⟨m.touch i, rfl, Within.touch m hr.lt,
      Prog.aborts_loop_iff.2 (.inr (walkBody_unused_aborts hrep))⟩
  | block s =>
    rw [represents_block] at hrep
    -- the block starts at another page, so the assertion fails
    have hx : a ≠ x := h ⟨a, k, s⟩ (by simp)
    exact ⟨m.touch i, rfl, Within.touch m hr.lt,
      Prog.aborts_loop_iff.2 (.inr (walkBody_used_aborts (by rw [hrep]) hx))⟩
  | node l r ihl ihr =>
    cases k with
    | zero => exact absurd hrep not_represents_node_zero
    | succ k =>
      have hstep := walkBody_node (x := x) hr.children ha hrep.split_or_full
      have hpow : 2 ^ (k + 1) = 2 ^ k + 2 ^ k := by rw [pow_succ]; omega
      have hpos := Nat.two_pow_pos k
      rw [PTree.find_node] at h
      have htouch := Within.touch m hr.lt
      split_ifs at h hstep with hlt
      · obtain ⟨m', hself, hw, hab⟩ := ihl (m := m.touch i) hrep.2.1 hr.left (by omega) h
        exact ⟨m', hself, htouch.trans hw, Prog.aborts_loop_iff.2 (.inl ⟨_, _, hstep, hab⟩)⟩
      · obtain ⟨m', hself, hw, hab⟩ := ihr (m := m.touch i) hrep.2.2 hr.right (by omega) h
        exact ⟨m', hself, htouch.trans hw, Prog.aborts_loop_iff.2 (.inl ⟨_, _, hstep, hab⟩)⟩

end Walk

/-! ## Combining -/

section Combine

variable {before : Buddy → ℕ} {N k i n c : ℕ} {m m' m₁ : Traced} {l l' r r' t t' : PTree ℕ}

theorem combineBody_zero : (combineBody 0).Returns m m (.inr 0) := by
  simp [combineBody, buddyIndex_zero]

/-- From a left child the climb goes on if the right child is unused. -/
theorem combineBody_left (hi : 2 * i + 3 ≤ 2 ^ 30) :
    (combineBody (2 * i + 1)).Returns m (m.touch (2 * i + 2))
      (if (m.self.tree (2 * i + 2)).state = .unused then .inl i else .inr (2 * i + 1)) := by
  have hpos : ¬ ((2 * i + 2 : ℕ) : ℤ) < 0 := by omega
  simp only [combineBody, buddyIndex_left hi, hpos, ↓reduceIte, Int.toNat_natCast,
    parentIndex_left hi]
  by_cases h : (m.self.tree (2 * i + 2)).state = .unused <;> simp [h]

/-- From a right child the climb goes on if the left child is unused. -/
theorem combineBody_right (hi : 2 * i + 3 ≤ 2 ^ 30) :
    (combineBody (2 * i + 2)).Returns m (m.touch (2 * i + 1))
      (if (m.self.tree (2 * i + 1)).state = .unused then .inl i else .inr (2 * i + 2)) := by
  have hpos : ¬ ((2 * i + 1 : ℕ) : ℤ) < 0 := by omega
  simp only [combineBody, buddyIndex_right hi, hpos, ↓reduceIte, Int.toNat_natCast,
    parentIndex_right hi]
  by_cases h : (m.self.tree (2 * i + 1)).state = .unused <;> simp [h]

/-- Below the root a full parent is downgraded, and the climb ends at any other parent. -/
theorem downgradeBody_of_parent (hc : parentIndex c = i) (hi : i ≠ u64Max) :
    (downgradeBody before c).Returns m
      (if (m.self.tree i).state = .full then (m.touch i).setState i .split else m.touch i)
      (if (m.self.tree i).state = .full then .inl i else .inr ()) := by
  by_cases h : (m.self.tree i).state = .full <;> simp [downgradeBody, hc, hi, h, writeSplit]

/-- At the root the element before the tree is read. -/
theorem downgradeBody_zero (h : before m.self ≠ NodeState.full.toByte) :
    (downgradeBody before 0).Returns m (m.touch u64Max) (.inr ()) := by
  simp [downgradeBody, parentIndex_zero, h]

/-- What `_combine`, started at node `n`, has come to when it reaches node `i`. The partition below
`i` has become `t'`, and `full` says whether it was full before. -/
inductive CombineReaches (before : Buddy → ℕ) (N k i : ℕ) (m : Traced) (n : ℕ) :
    Bool → PTree ℕ → Prop
  /-- The first loop is at node `i`, which is to become unused. -/
  | climbing {full : Bool} {m' : Traced} (hit : Prog.Iterates combineBody (m, n) (m', i))
      (hself : m'.self = m.self) (hw : Within N m m') : CombineReaches before N k i m n full .free
  /-- The second loop is at node `i`, which is no longer full. -/
  | downgrading {m₁ m' : Traced} {c : ℕ} {t' : PTree ℕ}
      (hloop : (Prog.loop combineBody n).Returns m m₁ c)
      (hit : Prog.Iterates (downgradeBody before) (m₁.setState c .unused, c) (m', i))
      (hne : t' ≠ .free) (hrep : Represents m'.self.tree k i t') (he : Effect N i m m') :
      CombineReaches before N k i m n true t'
  /-- `_combine` has returned below node `i`. -/
  | done {m' : Traced} {t' : PTree ℕ} (hret : (combine before n).Returns m m' ())
      (hne : t' ≠ .free) (hrep : Represents m'.self.tree k i t') (he : Effect N i m m') :
      CombineReaches before N k i m n false t'

namespace CombineReaches

/-- When the second loop is at a child, it goes on to the parent if that was full. -/
theorem of_child {full : Bool} (hr : InRange N (k + 1) i)
    (hloop : (Prog.loop combineBody n).Returns m m₁ c)
    {c' : ℕ} (hit : Prog.Iterates (downgradeBody before) (m₁.setState c .unused, c) (m', c'))
    (hc : parentIndex c' = i) (hi : (m'.self.tree i).state = if full then .full else .split)
    (hl : Represents m'.self.tree k (2 * i + 1) l) (hr' : Represents m'.self.tree k (2 * i + 2) r)
    (hfull : (l.full && r.full) = false) (he : Effect N i m m') :
    CombineReaches before N (k + 1) i m n full (.node l r) := by
  have hne : i ≠ u64Max := by
    have := hr.lt
    have := hr.small
    rw [u64Max]
    omega
  have hstep : (downgradeBody before c').Returns m' _ _ := downgradeBody_of_parent hc hne
  have hetouch := he.trans (Effect.touch i m' hr.lt)
  cases full with
  | true =>
    have hstate : (m'.self.tree i).state = .full := by simpa using hi
    rw [if_pos hstate, if_pos hstate] at hstep
    -- a full parent becomes split, and the second loop goes on
    refine .downgrading hloop (hit.tail hstep) (by simp)
      ⟨by simp [hfull], hl.congr_left_of_update, hr'.congr_right_of_update⟩
      (hetouch.trans (Effect.setState _ hr.lt .split))
  | false =>
    have hstate : (m'.self.tree i).state = .split := by simpa using hi
    rw [if_neg (by simp [hstate]), if_neg (by simp [hstate])] at hstep
    -- a split parent ends the second loop, and with it `_combine`
    have hret : (combine before n).Returns m (m'.touch i) () := by
      simp only [combine, Prog.returns_bind_iff, returns_writeState_iff]
      exact ⟨m₁, c, hloop, _, (), rfl, hit.returns hstep⟩
    exact .done hret (by simp) ⟨by simpa [hfull] using hstate, hl, hr'⟩ hetouch

/-- From the left half to the parent. -/
theorem left (h : CombineReaches before N k (2 * i + 1) m n l.full l') (hr : InRange N (k + 1) i)
    (hrep : Represents m.self.tree (k + 1) i (.node l r)) (hfull : l'.full = false) :
    CombineReaches before N (k + 1) i m n (PTree.node l r).full (PTree.merge l' r) := by
  obtain ⟨hi, hl, hr'⟩ := hrep
  have hp := parentIndex_left hr.children
  have hlr : (l'.full && r.full) = false := by rw [hfull, Bool.false_and]
  generalize hlf : l.full = lf at h
  cases h with
  | @climbing _ m' hit hself hw =>
    have hstep := combineBody_left (m := m') hr.children
    have htouch := hw.trans (Within.touch m' hr.right.lt)
    have hunused := hr'.unused_iff
    rw [← hself] at hunused
    by_cases hfree : r = .free
    · -- two free siblings are merged
      subst hfree
      rw [if_pos (hunused.2 rfl)] at hstep
      exact .climbing (hit.tail hstep) hself htouch
    · -- the sibling is in use, so the first loop ends at the child
      rw [if_neg (mt hunused.1 hfree)] at hstep
      rw [PTree.merge_eq_node (by simp [hfree])]
      have hread : Effect N i m (m'.touch (2 * i + 2)) := .of_self_eq i hself htouch
      have he := hread.trans (Effect.setState _ hr.left.lt .unused).of_left
      have hne : i ≠ 2 * i + 1 := by omega
      refine of_child hr (hit.returns hstep) (.refl _) hp ?_ ?_ ?_ hlr he
      · simp [hne, hself, hi]
      · simp
      · exact (hself ▸ hr').congr_right (AgreeOff.update _ _ _)
  | downgrading hloop hit hne hrep' he =>
    rw [PTree.merge_eq_node (by simp [hne])]
    exact of_child hr hloop hit hp (by rw [he.off.left_parent, hi, PTree.full_node]) hrep'
      (hr'.congr_right he.off) hlr he.of_left
  | done hret hne hrep' he =>
    -- nothing above the left child is written any more
    rw [PTree.merge_eq_node (by simp [hne]), PTree.full_node, hlf, Bool.false_and]
    refine .done hret (by simp) ⟨?_, hrep', hr'.congr_right he.off⟩ he.of_left
    rw [he.off.left_parent, hi, hlf, hfull]

/-- From the right half to the parent. -/
theorem right (h : CombineReaches before N k (2 * i + 2) m n r.full r') (hr : InRange N (k + 1) i)
    (hrep : Represents m.self.tree (k + 1) i (.node l r)) (hfull : r'.full = false) :
    CombineReaches before N (k + 1) i m n (PTree.node l r).full (PTree.merge l r') := by
  obtain ⟨hi, hl, hr'⟩ := hrep
  have hp := parentIndex_right hr.children
  have hlr : (l.full && r'.full) = false := by rw [hfull, Bool.and_false]
  generalize hrf : r.full = rf at h
  cases h with
  | @climbing _ m' hit hself hw =>
    have hstep := combineBody_right (m := m') hr.children
    have htouch := hw.trans (Within.touch m' hr.left.lt)
    have hunused := hl.unused_iff
    rw [← hself] at hunused
    by_cases hfree : l = .free
    · -- two free siblings are merged
      subst hfree
      rw [if_pos (hunused.2 rfl)] at hstep
      exact .climbing (hit.tail hstep) hself htouch
    · -- the sibling is in use, so the first loop ends at the child
      rw [if_neg (mt hunused.1 hfree)] at hstep
      rw [PTree.merge_eq_node (by simp [hfree])]
      have hread : Effect N i m (m'.touch (2 * i + 1)) := .of_self_eq i hself htouch
      have he := hread.trans (Effect.setState _ hr.right.lt .unused).of_right
      have hne : i ≠ 2 * i + 2 := by omega
      refine of_child hr (hit.returns hstep) (.refl _) hp ?_ ?_ ?_ hlr he
      · simp [hne, hself, hi]
      · exact (hself ▸ hl).congr_left (AgreeOff.update _ _ _)
      · simp
  | downgrading hloop hit hne hrep' he =>
    rw [PTree.merge_eq_node (by simp [hne])]
    exact of_child hr hloop hit hp (by rw [he.off.right_parent, hi, PTree.full_node])
      (hl.congr_left he.off) hrep' hlr he.of_right
  | done hret hne hrep' he =>
    rw [PTree.merge_eq_node (by simp [hne]), PTree.full_node, hrf, Bool.and_false]
    refine .done hret (by simp) ⟨?_, hl.congr_left he.off, hrep'⟩ he.of_right
    rw [he.off.right_parent, hi, hrf, hfull, Bool.and_false]

end CombineReaches

/-- `_combine` removes the block from the partition below any node above it. -/
theorem combineReaches {a x : ℕ} {e : Extent ℕ} (hrep : Represents m.self.tree k i t)
    (hr : InRange N k i) (h : t.find k a x = some e) :
    CombineReaches before N k i m (leafIndex k i a t x) t.full (t.remove k a x) := by
  induction t generalizing k i a with
  | free => simp at h
  | block s =>
    rw [leafIndex_block, PTree.remove_block]
    -- the first loop starts at the leaf of the block
    exact .climbing (.refl _) rfl (Within.refl N m)
  | node l r ihl ihr =>
    cases k with
    | zero => exact absurd hrep not_represents_node_zero
    | succ k =>
      rw [PTree.find_node] at h
      rw [leafIndex_node, PTree.remove_node]
      split_ifs at h ⊢ with hx
      · exact (ihl hrep.2.1 hr.left h).left hr hrep (PTree.full_remove h)
      · exact (ihr hrep.2.2 hr.right h).right hr hrep (PTree.full_remove h)

/-- At the root `_combine` returns, unless the element before the tree looks full. -/
theorem CombineReaches.returns {full : Bool} (h : CombineReaches before N k 0 m n full t')
    (hbefore : ∀ self : Buddy, self.level = m.self.level → before self ≠ NodeState.full.toByte) :
    ∃ m', (combine before n).Returns m m' () ∧ m'.self.level = m.self.level ∧
      Represents m'.self.tree k 0 t' := by
  cases h with
  | @climbing _ m' hit hself hw =>
    -- the whole arena has become free, and the second loop reads in front of the tree
    refine ⟨(m'.setState 0 .unused).touch u64Max, ?_, by simp [hself], by simp⟩
    simp only [combine, Prog.returns_bind_iff, returns_writeState_iff]
    refine ⟨m', 0, hit.returns combineBody_zero, _, (), rfl, ?_⟩
    exact (downgradeBody_zero (hbefore _ (by simp [hself]))).loop_exit
  | @downgrading m₁ m' c _ hloop hit hne hrep he =>
    -- the root was full, and the second loop reads in front of the tree
    refine ⟨m'.touch u64Max, ?_, he.level, hrep⟩
    simp only [combine, Prog.returns_bind_iff, returns_writeState_iff]
    exact ⟨m₁, c, hloop, _, (), rfl, hit.returns (downgradeBody_zero (hbefore _ he.level))⟩
  | @done m' _ hret hne hrep he => exact ⟨m', hret, he.level, hrep⟩

end Combine

/-! ## Release -/

section Free

variable {before : Buddy → ℕ} {L o x : ℕ} {m : Traced} {t : PTree ℕ} {e : Extent ℕ}

/-- The walk to a page of the arena is its loop, started at the root. -/
theorem returns_walk_iff {m' : Traced} {w : Walk} :
    (walk x).Returns m m' w ↔ x < 2 ^ m.self.level ∧
      (Prog.loop (walkBody x) ⟨0, 0, 2 ^ m.self.level⟩).Returns m m' w := by
  simp only [walk, Prog.returns_bind_iff, returns_pageTotal_iff, Prog.returns_require_iff]
  constructor
  · rintro ⟨_, _, ⟨rfl, rfl⟩, _, _, ⟨hlt, rfl⟩, hret⟩
    exact ⟨hlt, hret⟩
  · rintro ⟨hlt, hret⟩
    exact ⟨m, _, ⟨rfl, rfl⟩, m, (), ⟨hlt, rfl⟩, hret⟩

/-- The walk to any other page fails an assertion in front of the loop. -/
theorem aborts_walk_iff {m' : Traced} :
    (walk x).Aborts m m' ↔ ¬ x < 2 ^ m.self.level ∧ m' = m ∨ x < 2 ^ m.self.level ∧
      (Prog.loop (walkBody x) ⟨0, 0, 2 ^ m.self.level⟩).Aborts m m' := by
  simp only [walk, Prog.aborts_bind_iff, returns_pageTotal_iff, Prog.returns_require_iff,
    Prog.aborts_require_iff, not_aborts_pageTotal, false_or]
  constructor
  · rintro ⟨_, _, ⟨rfl, rfl⟩, ⟨hlt, rfl⟩ | ⟨_, _, ⟨hlt, rfl⟩, hab⟩⟩
    · exact .inl ⟨hlt, rfl⟩
    · exact .inr ⟨hlt, hab⟩
  · rintro (⟨hlt, rfl⟩ | ⟨hlt, hab⟩)
    · exact ⟨m', _, ⟨rfl, rfl⟩, .inl ⟨hlt, rfl⟩⟩
    · exact ⟨m, _, ⟨rfl, rfl⟩, .inr ⟨m, (), ⟨hlt, rfl⟩, hab⟩⟩

/-- The walk from the root. -/
theorem returns_walk_of_find (hL : L ≤ 29) (hlevel : m.self.level = L)
    (hrep : Represents m.self.tree L 0 t) (h : t.find L 0 x = some e) (hx : e.start = x) :
    ∃ m', m'.self = m.self ∧ Within (2 ^ (L + 1)) m m' ∧
      (walk x).Returns m m' ⟨leafIndex L 0 0 t x, x, 2 ^ e.order⟩ := by
  have hle : 0 + 2 ^ L ≤ 2 ^ 30 := by
    rw [Nat.zero_add]
    exact Nat.pow_le_pow_right Nat.two_pos (by omega)
  have hlt : x < 2 ^ L := by
    have hstop := (PTree.blocks_bounds (PTree.mem_of_find h)).2
    have := e.start_lt_stop
    omega
  obtain ⟨m', hself, hw, hret⟩ := walk_of_find hrep (InRange.root hL) hle h hx
  refine ⟨m', hself, hw, returns_walk_iff.2 ?_⟩
  rw [hlevel]
  exact ⟨hlt, hret⟩

/-- Looking a page up only reads nodes. -/
theorem grows_walk {R : Traced → Traced → Prop} [IsPreorder Traced R]
    (htouch : ∀ m index, R m (m.touch index)) (x : ℕ) : (walk x).Grows R := by
  have hread : ∀ index, (readState index).Grows R := fun index =>
    ⟨fun _ m => htouch m index, fun _ _ => refl_of R _⟩
  refine .bind (.read _) fun _ => .bind (.require _) fun _ => .loop (fun w => ?_) _
  refine .bind (hread _) fun state => ?_
  cases state with
  | used => exact .bind (.require _) fun _ => .pure _
  | unused => exact .abort
  | split =>
    dsimp only
    split_ifs
    · exact .pure _
    · exact .pure _
  | full =>
    dsimp only
    split_ifs
    · exact .pure _
    · exact .pure _

/-- The tree is the same. -/
def SameTree (m m' : Traced) : Prop := m'.self = m.self

instance : IsPreorder Traced SameTree where
  refl _ := rfl
  trans _ _ _ h₁ h₂ := Eq.trans h₂ h₁

/-- `buddy_used_size` changes nothing. -/
theorem buddyUsedSize_self {m' : Traced} {n : ℕ} (h : (buddyUsedSize o).Returns m m' n) :
    m'.self = m.self := by
  have hgrows : (buddyUsedSize o).Grows SameTree :=
    .bind (grows_walk (fun _ _ => rfl) _) fun _ => .read _
  obtain ⟨k, hk⟩ := h
  have hsame := hgrows.from_start k m
  rwa [hk] at hsame

/-- `buddy_used_size` of a block is the size that was requested. -/
theorem buddyUsedSize_of_find (hL : L ≤ 29) (hlevel : m.self.level = L)
    (hrep : Represents m.self.tree L 0 t) (h : t.find L 0 (o / pageSize) = some e)
    (hx : e.start = o / pageSize) :
    ∃ m', (buddyUsedSize o).Returns m m' e.tag ∧ m'.self = m.self := by
  obtain ⟨m', hself, -, hwalk⟩ := returns_walk_of_find hL hlevel hrep h hx
  refine ⟨m', hwalk.bind ?_, hself⟩
  rw [Prog.returns_read_iff, hself, tree_leafIndex hrep h]
  exact ⟨rfl, rfl⟩

/-- The walk to a page at which no block starts fails an assertion. -/
theorem walk_aborts_of_not_start (hL : L ≤ 29) (hlevel : m.self.level = L)
    (hrep : Represents m.self.tree L 0 t) (h : ∀ e ∈ t.blocks L 0, e.start ≠ x) :
    ∃ m', m'.self = m.self ∧ Within (2 ^ (L + 1)) m m' ∧ (walk x).Aborts m m' := by
  have hle : 0 + 2 ^ L ≤ 2 ^ 30 := by
    rw [Nat.zero_add]
    exact Nat.pow_le_pow_right Nat.two_pos (by omega)
  -- a page of the arena fails in the walk, any other one before it
  by_cases hlt : x < 2 ^ L
  · obtain ⟨m', hself, hw, hab⟩ := walk_aborts (x := x) hrep (InRange.root hL) hle
      fun e he => h e (PTree.mem_of_find he)
    refine ⟨m', hself, hw, aborts_walk_iff.2 (.inr ?_)⟩
    rw [hlevel]
    exact ⟨hlt, hab⟩
  · exact ⟨m, rfl, Within.refl _ m, aborts_walk_iff.2 (.inl ⟨by rwa [hlevel], rfl⟩)⟩

/-- `buddy_free` of an offset at which no block starts fails an assertion. -/
theorem buddyFree_aborts (hL : L ≤ 29) (hlevel : m.self.level = L)
    (hrep : Represents m.self.tree L 0 t)
    (h : ∀ e ∈ t.blocks L 0, e.start ≠ o / pageSize) :
    ∃ m', m'.self = m.self ∧ Within (2 ^ (L + 1)) m m' ∧ (buddyFree before o).Aborts m m' := by
  obtain ⟨m', hself, hw, hab⟩ := walk_aborts_of_not_start hL hlevel hrep h
  exact ⟨m', hself, hw, Prog.aborts_bind_iff.2 (.inl hab)⟩

/-- `buddy_free` removes the block, unless the element before the tree looks full. -/
theorem buddyFree_of_find (hL : L ≤ 29) (hlevel : m.self.level = L)
    (hrep : Represents m.self.tree L 0 t) (h : t.find L 0 (o / pageSize) = some e)
    (hx : e.start = o / pageSize)
    (hbefore : ∀ self : Buddy, self.level = L → before self ≠ NodeState.full.toByte) :
    ∃ m', (buddyFree before o).Returns m m' () ∧ m'.self.level = L ∧
      Represents m'.self.tree L 0 (t.remove L 0 (o / pageSize)) := by
  obtain ⟨m₁, hself, -, hwalk⟩ := returns_walk_of_find hL hlevel hrep h hx
  have hrep₁ : Represents m₁.self.tree L 0 t := by rwa [hself]
  have hlevel₁ : m₁.self.level = L := by rw [hself, hlevel]
  obtain ⟨m₂, hret, hlevel₂, hrep₂⟩ :=
    (combineReaches hrep₁ (InRange.root hL) h).returns (by rwa [hlevel₁])
  exact ⟨m₂, hwalk.bind hret, hlevel₂.trans hlevel₁, hrep₂⟩

/-- When the arena is not full and keeps a block, `buddy_free` does not look at the element before
the tree. -/
theorem buddyFree_within (hL : L ≤ 29) (hlevel : m.self.level = L)
    (hrep : Represents m.self.tree L 0 t) (h : t.find L 0 (o / pageSize) = some e)
    (hx : e.start = o / pageSize) (hfull : t.full = false)
    (hlast : t.remove L 0 (o / pageSize) ≠ .free) :
    ∃ m', (buddyFree before o).Returns m m' () ∧
      Represents m'.self.tree L 0 (t.remove L 0 (o / pageSize)) ∧
      Effect (2 ^ (L + 1)) 0 m m' := by
  obtain ⟨m₁, hself, hw, hwalk⟩ := returns_walk_of_find hL hlevel hrep h hx
  have hrep₁ : Represents m₁.self.tree L 0 t := by rwa [hself]
  have hreach : CombineReaches before _ L 0 m₁ _ t.full _ :=
    combineReaches hrep₁ (InRange.root hL) h
  -- the root was not full, so the second loop does not get past it
  rw [hfull] at hreach
  generalize t.remove L 0 (o / pageSize) = t' at hreach hlast ⊢
  cases hreach with
  | climbing hit hself' hw' => exact absurd rfl hlast
  | @done m₂ _ hret hne hrep₂ he =>
    exact ⟨m₂, hwalk.bind hret, hrep₂,
      (Effect.of_self_eq 0 hself hw).trans he⟩

end Free

end Zalloc
