import Mathlib.Data.List.Nodup
import Zalloc.Buddy.FirstFit

/-!
# Lookup by offset

`buddy_free` and `buddy_used_size` walk from the root to the leaf that contains the page of an
offset. Only the first page of a live block passes the assertions on the way.

## Main definitions

* `FreePage L self x`: page `x` belongs to an unused leaf of the tree.

## Main results

* `walk_ends`: the walk ends after at most as many nodes as the tree has levels.
* `lookup_by_offset`: what the two functions do for any offset.
-/

set_option autoImplicit false

namespace Zalloc

/-- Page `x` belongs to an unused leaf of the tree. -/
def FreePage (L : ℕ) (self : Buddy) (x : ℕ) : Prop :=
  ∃ n, Visible self.tree n ∧ (self.tree n).state = .unused ∧ HoldsPage L n x

/-! ## The length of the walk -/

section Walk

variable {k i a x : ℕ} {m : Traced} {t : PTree ℕ}

/-- Below a node that is `k` levels above the pages, the walk visits at most `k + 1` nodes. -/
theorem walk_ends {N : ℕ} (hrep : Represents m.self.tree k i t) (hr : InRange N k i)
    (ha : a + 2 ^ k ≤ 2 ^ 30) :
    ∃ m', m'.touched.length ≤ m.touched.length + (k + 1) ∧
      ((∃ w, (Prog.loop (walkBody x) ⟨i, a, 2 ^ k⟩).Returns m m' w) ∨
        (Prog.loop (walkBody x) ⟨i, a, 2 ^ k⟩).Aborts m m') := by
  induction t generalizing k i a m with
  | free =>
    rw [represents_free] at hrep
    exact ⟨m.touch i, by simp, .inr (Prog.aborts_loop_iff.2 (.inr (walkBody_unused_aborts hrep)))⟩
  | block s =>
    rw [represents_block] at hrep
    have hused : (m.self.tree i).state = .used := by rw [hrep]
    refine ⟨m.touch i, by simp, ?_⟩
    by_cases hx : a = x
    · subst hx
      exact .inl ⟨_, (walkBody_used hused).loop_exit⟩
    · exact .inr (Prog.aborts_loop_iff.2 (.inr (walkBody_used_aborts hused hx)))
  | node l r ihl ihr =>
    cases k with
    | zero => exact absurd hrep not_represents_node_zero
    | succ k =>
      -- one node more, whichever half the walk goes on to
      have hstep := walkBody_node (x := x) hr.children ha hrep.split_or_full
      have hpow : 2 ^ (k + 1) = 2 ^ k + 2 ^ k := by rw [pow_succ]; omega
      have hpos := Nat.two_pow_pos k
      have htail : ∀ {w : Walk}, (walkBody x ⟨i, a, 2 ^ (k + 1)⟩).Returns m (m.touch i) (.inl w) →
          (∃ m', m'.touched.length ≤ (m.touch i).touched.length + (k + 1) ∧
            ((∃ w', (Prog.loop (walkBody x) w).Returns (m.touch i) m' w') ∨
              (Prog.loop (walkBody x) w).Aborts (m.touch i) m')) →
          ∃ m', m'.touched.length ≤ m.touched.length + (k + 1 + 1) ∧
            ((∃ w', (Prog.loop (walkBody x) ⟨i, a, 2 ^ (k + 1)⟩).Returns m m' w') ∨
              (Prog.loop (walkBody x) ⟨i, a, 2 ^ (k + 1)⟩).Aborts m m') := by
        rintro w hw ⟨m', hlen, hend⟩
        rw [Traced.touch_touched, List.length_cons] at hlen
        refine ⟨m', by omega, ?_⟩
        rcases hend with ⟨w', hret⟩ | hab
        · exact .inl ⟨w', hw.loop_next hret⟩
        · exact .inr (Prog.aborts_loop_iff.2 (.inl ⟨_, _, hw, hab⟩))
      split_ifs at hstep
      · exact htail hstep (ihl (m := m.touch i) hrep.2.1 hr.left (by omega))
      · exact htail hstep (ihr (m := m.touch i) hrep.2.2 hr.right (by omega))

end Walk

/-! ## Free pages -/

section Lookup

variable {L x o : ℕ} {before : Buddy → ℕ} {c : Config} {t : PTree ℕ}

/-- A page is free exactly when it is a page of the arena and of no live block. -/
theorem Inv.freePage_iff (h : Inv L c t) :
    FreePage L c.self x ↔ x < 2 ^ L ∧ ∀ b ∈ c.live, ¬ b.Meets x (x + 1) := by
  have hpart : ∀ {n}, Visible c.self.tree n →
      ∃ k a t', Part c.self.tree L L 0 t k n a t' :=
    fun hv => VisibleFrom.part hv h.rep (NodeAt.root L) h.normal
  constructor
  · rintro ⟨n, hv, hunused, hx⟩
    obtain ⟨k, a, t', p⟩ := hpart hv
    have hbounds := p.at_node.holdsPage_iff.1 hx
    have hle := p.at_node.le
    refine ⟨by omega, fun b hb hmeets => ?_⟩
    -- the leaf of such a block would hold the page as well
    obtain ⟨n', hv', htree, hoffset, hpages⟩ := (h.wellFormed.live_iff b).1 hb
    have hx' : HoldsPage L n' x := by
      rw [Block.Meets, Block.stop, hoffset, hpages, ← Nat.mul_add] at hmeets
      exact ⟨Nat.lt_succ_iff.1 (Nat.lt_of_mul_lt_mul_left hmeets.1),
        Nat.lt_of_mul_lt_mul_left hmeets.2⟩
    have hleaf : ¬ IsCut (c.self.tree n).state := not_isCut_iff.2 (.inl hunused)
    have hleaf' : ¬ IsCut (c.self.tree n').state := not_isCut_iff.2 (.inr (by rw [htree]))
    have heq := (h.wellFormed.tiles x (by omega)).unique ⟨hv, hleaf, hx⟩ ⟨hv', hleaf', hx'⟩
    rw [heq, htree] at hunused
    cases hunused
  · rintro ⟨hlt, hfree⟩
    obtain ⟨n, ⟨hv, hleaf, hx⟩, -⟩ := h.wellFormed.tiles x hlt
    refine ⟨n, hv, ?_, hx⟩
    -- a used leaf is the leaf of a live block
    rcases not_isCut_iff.1 hleaf with hunused | hused
    · exact hunused
    · obtain ⟨k, a, t', p⟩ := hpart hv
      obtain ⟨s, rfl⟩ := p.rep.exists_block hused
      have hmem := p.blocks ⟨a, k, s⟩ (by simp)
      refine absurd (blockOf_meets.2 ?_) (hfree _ ((h.live _).2 ⟨_, hmem, rfl⟩))
      have hbounds := p.at_node.holdsPage_iff.1 hx
      exact ⟨Nat.lt_succ_of_le hbounds.1, hbounds.2⟩

/-- The pages that become free are those of the block. -/
theorem Inv.freePage_remove {b : Block} {self : Buddy} {t' : PTree ℕ} (h : Inv L c t)
    (hb : b ∈ c.live) (h' : Inv L ⟨self, c.live.filter fun b' => b'.offset ≠ b.offset⟩ t') :
    FreePage L self x ↔ FreePage L c.self x ∨ b.Meets x (x + 1) := by
  rw [h.freePage_iff]
  have hiff := h'.freePage_iff (x := x)
  simp only [List.mem_filter, decide_eq_true_eq] at hiff
  rw [hiff]
  constructor
  · rintro ⟨hlt, hfree⟩
    by_cases hmeets : b.Meets x (x + 1)
    · exact .inr hmeets
    · refine .inl ⟨hlt, fun b' hb' => ?_⟩
      by_cases hoff : b'.offset = b.offset
      · rwa [List.inj_on_of_nodup_map h.nodup hb' hb hoff]
      · exact hfree b' ⟨hb', hoff⟩
  · rintro (⟨hlt, hfree⟩ | hmeets)
    · exact ⟨hlt, fun b' hb' => hfree b' hb'.1⟩
    · have hstop := h.stop_le hb
      refine ⟨?_, fun b' hb' hmeets' => ?_⟩
      · exact Nat.lt_of_mul_lt_mul_left (hmeets.2.trans_le hstop)
      · -- no two live blocks share a page
        obtain ⟨hlo, hhi⟩ := hmeets
        obtain ⟨hlo', hhi'⟩ := hmeets'
        obtain ⟨e, -, rfl⟩ := (h.live b).1 hb
        obtain ⟨e', -, rfl⟩ := (h.live b').1 hb'.1
        have hdisj := h.disjoint hb'.1 hb hb'.2
        simp only [blockOf, pageSize] at hlo hhi hlo' hhi' hdisj
        omega

/-! ## The two functions -/

/-- What no walk can find is not found, and nothing is changed at any moment. -/
theorem Inv.lookup_aborts (h : Inv L c t) (hL : L ≤ 29)
    (hno : ∀ b ∈ c.live, b.offset ≠ pageSize * (x / pageSize)) :
    (∃ m, (buddyUsedSize x).Aborts ⟨c.self, []⟩ m) ∧
    (∃ m, (buddyFree before x).Aborts ⟨c.self, []⟩ m) ∧
    ∀ n, ((buddyUsedSize x).exec n ⟨c.self, []⟩).state.self = c.self ∧
      ((buddyFree before x).exec n ⟨c.self, []⟩).state.self = c.self := by
  have hblocks : ∀ e ∈ t.blocks L 0, e.start ≠ x / pageSize := by
    intro e he heq
    exact hno (blockOf e) ((h.live _).2 ⟨e, he, rfl⟩) (by rw [blockOf, heq])
  -- the walk aborts, and nothing comes after it
  obtain ⟨m, -, -, hab⟩ := walk_aborts_of_not_start (m := ⟨c.self, []⟩) hL h.level h.rep hblocks
  have hnot : ∀ m' w, ¬ (walk (x / pageSize)).Returns ⟨c.self, []⟩ m' w :=
    fun m' w hret => Prog.not_aborts_of_returns hret hab
  refine ⟨⟨m, Prog.aborts_bind_iff.2 (.inl hab)⟩, ⟨m, Prog.aborts_bind_iff.2 (.inl hab)⟩,
    fun n => ?_⟩
  have hsame : SameTree ⟨c.self, []⟩ ((walk (x / pageSize)).exec n ⟨c.self, []⟩).state :=
    (grows_walk (R := SameTree) (fun _ _ => rfl) _).from_start n ⟨c.self, []⟩
  refine ⟨?_, ?_⟩
  · rw [buddyUsedSize, Prog.state_bind_of_not_returns hnot]
    exact hsame
  · rw [buddyFree, Prog.state_bind_of_not_returns hnot]
    exact hsame

/-- In a run in which there is room for every request, the walk to the page of any offset ends
after at most `L + 1` nodes. At the first page of a live block `buddy_used_size` returns the size
that was requested, and `buddy_free` makes exactly the pages of the block free and leaves the other
blocks alone. At any other page both fail an assertion before a node is changed. -/
theorem lookup_by_offset {lib : Bool} {memory : ℕ → Node} {self : Buddy} (hL : L ≤ 29)
    (hbefore : ∀ self : Buddy, self.level = L → before self ≠ NodeState.full.toByte)
    (hnew : buddyNew lib memory (L + 12) = some self)
    (hreach : Runs.Reach (Step before) (Fits L) ⟨self, []⟩ c) (x : ℕ) :
    (∀ b, UsedLeaf L c.self b ↔ b ∈ c.live) ∧
    (∃ m, m.touched.length ≤ L + 1 ∧
      ((∃ w, (walk (x / pageSize)).Returns ⟨c.self, []⟩ m w) ∨
        (walk (x / pageSize)).Aborts ⟨c.self, []⟩ m)) ∧
    (∀ b ∈ c.live, b.offset = pageSize * (x / pageSize) →
      (∃ m, (buddyUsedSize x).Returns ⟨c.self, []⟩ m b.used ∧ m.self = c.self) ∧
      ∃ m, (buddyFree before x).Returns ⟨c.self, []⟩ m () ∧
        (∀ y, FreePage L m.self y ↔ FreePage L c.self y ∨ b.Meets y (y + 1)) ∧
        ∀ b', UsedLeaf L m.self b' ↔ UsedLeaf L c.self b' ∧ b'.offset ≠ b.offset) ∧
    ((∀ b ∈ c.live, b.offset ≠ pageSize * (x / pageSize)) →
      (∃ m, (buddyUsedSize x).Aborts ⟨c.self, []⟩ m) ∧
      (∃ m, (buddyFree before x).Aborts ⟨c.self, []⟩ m) ∧
      ∀ n, ((buddyUsedSize x).exec n ⟨c.self, []⟩).state.self = c.self ∧
        ((buddyFree before x).exec n ⟨c.self, []⟩).state.self = c.self) := by
  obtain ⟨t, h⟩ := reach_inv_of_fits hL hbefore hnew hreach
  refine ⟨fun b => h.usedLeaf_iff, ?_, fun b hb hoff => ?_, h.lookup_aborts hL⟩
  · -- an offset outside the arena does not get as far as the walk
    by_cases hlt : x / pageSize < 2 ^ c.self.level
    · have hle : 0 + 2 ^ L ≤ 2 ^ 30 := by
        rw [Nat.zero_add]
        exact Nat.pow_le_pow_right Nat.two_pos (by omega)
      obtain ⟨m, hlen, hend⟩ := walk_ends (m := ⟨c.self, []⟩) (x := x / pageSize) h.rep
        (InRange.root hL) hle
      rw [← h.level] at hend
      refine ⟨m, by simpa using hlen, hend.imp ?_ fun hab => aborts_walk_iff.2 (.inr ⟨hlt, hab⟩)⟩
      rintro ⟨w, hret⟩
      exact ⟨w, returns_walk_iff.2 ⟨hlt, hret⟩⟩
    · exact ⟨⟨c.self, []⟩, by simp, .inr (aborts_walk_iff.2 (.inl ⟨hlt, rfl⟩))⟩
  · -- the functions look at the page of the offset only
    have hpage : b.offset / pageSize = x / pageSize := by
      rw [hoff]
      exact Nat.mul_div_cancel_left _ (by decide)
    obtain ⟨e, rfl, hfind, hstart⟩ := h.find_of_live hb
    rw [hpage] at hfind hstart
    refine ⟨buddyUsedSize_of_find (m := ⟨c.self, []⟩) hL h.level h.rep hfind hstart, ?_⟩
    obtain ⟨m, hret, hinv⟩ := h.free hL hbefore hb
    have hsame : buddyFree before (blockOf e).offset = buddyFree before x := by
      rw [buddyFree, buddyFree, hpage]
    rw [hsame] at hret
    refine ⟨m, hret, fun y => h.freePage_remove hb hinv, fun b' => ?_⟩
    have hleaf : UsedLeaf L m.self b' ↔ _ := hinv.usedLeaf_iff
    rw [hleaf, h.usedLeaf_iff, List.mem_filter, decide_eq_true_eq]

/-- The first page of the arena of two pages is that of its only block. -/
theorem lookup_by_offset_first_page :
    (∃ m, (buddyUsedSize 7).Returns ⟨oneBlock.self, []⟩ m 4096 ∧ m.self = oneBlock.self) ∧
    ∃ m, (buddyFree (fun _ => 0) 7).Returns ⟨oneBlock.self, []⟩ m () := by
  have hreach : Runs.Reach (Step fun _ => 0) (Fits 1) ⟨twoPages, []⟩ oneBlock :=
    reach_oneBlock hasRoom_first_page
  obtain ⟨-, -, hstart, -⟩ :=
    lookup_by_offset (by decide) (fun _ _ => by decide) buddyNew_twoPages hreach 7
  obtain ⟨hused, m, hret, -⟩ := hstart ⟨0, 1, 4096⟩ (by decide) (by decide)
  exact ⟨hused, m, hret⟩

end Lookup

end Zalloc
