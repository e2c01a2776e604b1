import Zalloc.Buddy.Represents

/-!
# What allocation does to the represented partition

The search of `buddy_alloc` below a node is first-fit insertion into the partition below it, at
the depth at which the requested size is reached. The depth is counted from `length`, not from the
level of the node: after a climb past the root the search starts again one depth further down.

## Main results

* `search_none`: a search that finds nothing below a node changes nothing and advances from it.
* `search_some`: a search that finds a node below another one takes it as `PTree.insert` does,
  and marking its parents brings the marks up to date.
-/

set_option autoImplicit false

namespace Zalloc

section Steps

variable {m : Traced} {size i length : ℕ} {v : ℤ}

/-! ## Single iterations -/

theorem searchBody_take (h : (m.self.tree i).state = .unused) :
    (searchBody size ⟨.visit, i, v, size⟩).Returns m (m.touch i)
      (.inr ⟨.visit, i, v, size⟩) := by
  simp [searchBody, h]

/-- A used or full node is passed by. -/
theorem searchBody_pass (h : (m.self.tree i).state = .used ∨ (m.self.tree i).state = .full) :
    (searchBody size ⟨.visit, i, v, length⟩).Returns m (m.touch i)
      (.inl (advance i v length)) := by
  by_cases hlen : size = length
  · rcases h with h | h <;> simp [searchBody, h, hlen]
  · rcases h with h | h <;> simp [searchBody, h, hlen]

/-- A split node of the right size is passed by. -/
theorem searchBody_pass_split (h : (m.self.tree i).state = .split) :
    (searchBody size ⟨.visit, i, v, size⟩).Returns m (m.touch i)
      (.inl (advance i v size)) := by
  simp [searchBody, h]

theorem searchBody_descend (hlen : size ≠ length) (h : (m.self.tree i).state = .split) :
    (searchBody size ⟨.visit, i, v, length⟩).Returns m (m.touch i)
      (.inl (descend i v length)) := by
  simp [searchBody, h, hlen]

/-- A free node that is too large is split. -/
theorem searchBody_split (hlen : size ≠ length) (h : (m.self.tree i).state = .unused) :
    (searchBody size ⟨.visit, i, v, length⟩).Returns m
      ((((m.touch i).setState i .split).setState (u64 (i * 2 + 1)) .unused).setState
        (u64 (i * 2 + 2)) .unused)
      (.inl (descend i v length)) := by
  simp [searchBody, h, hlen]

theorem searchBody_climb :
    (searchBody size ⟨.climb, i, v, length⟩).Returns m m
      (.inl (advance (parentIndex i) (v - 1) (u64 (length * 2)))) := by
  simp [searchBody]

theorem markParentBody_zero : (markParentBody 0).Returns m m (.inr ()) := by
  simp [markParentBody, buddyIndex_zero]

end Steps

/-! ## Marking parents -/

section Mark

variable {m : Traced} {i : ℕ}

/-- From a left child the climb goes on if the right child is used or full. -/
theorem markParentBody_left (hi : 2 * i + 3 ≤ 2 ^ 30)
    (h : (m.self.tree (2 * i + 2)).state = .used ∨ (m.self.tree (2 * i + 2)).state = .full) :
    (markParentBody (2 * i + 1)).Returns m ((m.touch (2 * i + 2)).setState i .full) (.inl i) := by
  have hpos : ((2 * i + 2 : ℕ) : ℤ) > 0 := by omega
  -- `buddyIndex` gives the sibling, which is an `int` above zero
  simp only [markParentBody, buddyIndex_left hi, hpos, ↓reduceIte, Int.toNat_natCast,
    parentIndex_left hi]
  simp [h]

theorem markParentBody_left_stop (hi : 2 * i + 3 ≤ 2 ^ 30)
    (h : ¬ ((m.self.tree (2 * i + 2)).state = .used ∨ (m.self.tree (2 * i + 2)).state = .full)) :
    (markParentBody (2 * i + 1)).Returns m (m.touch (2 * i + 2)) (.inr ()) := by
  have hpos : ((2 * i + 2 : ℕ) : ℤ) > 0 := by omega
  simp only [markParentBody, buddyIndex_left hi, hpos, ↓reduceIte, Int.toNat_natCast]
  simp [h]

/-- From a right child the climb goes on if the left child is used or full. -/
theorem markParentBody_right (hi : 2 * i + 3 ≤ 2 ^ 30)
    (h : (m.self.tree (2 * i + 1)).state = .used ∨ (m.self.tree (2 * i + 1)).state = .full) :
    (markParentBody (2 * i + 2)).Returns m ((m.touch (2 * i + 1)).setState i .full) (.inl i) := by
  have hpos : ((2 * i + 1 : ℕ) : ℤ) > 0 := by omega
  simp only [markParentBody, buddyIndex_right hi, hpos, ↓reduceIte, Int.toNat_natCast,
    parentIndex_right hi]
  simp [h]

theorem markParentBody_right_stop (hi : 2 * i + 3 ≤ 2 ^ 30)
    (h : ¬ ((m.self.tree (2 * i + 1)).state = .used ∨ (m.self.tree (2 * i + 1)).state = .full)) :
    (markParentBody (2 * i + 2)).Returns m (m.touch (2 * i + 1)) (.inr ()) := by
  have hpos : ((2 * i + 1 : ℕ) : ℤ) > 0 := by omega
  simp only [markParentBody, buddyIndex_right hi, hpos, ↓reduceIte, Int.toNat_natCast]
  simp [h]

/-- What has become of marking from node `n` when it reaches node `i`: it goes on there if the
partition below `i` is full, and has ended otherwise. -/
def MarkReaches (full : Bool) (m : Traced) (n : ℕ) (m' : Traced) (i : ℕ) : Prop :=
  if full then Prog.Iterates markParentBody (m, n) (m', i)
  else (markParent n).Returns m m' ()

variable {N k n : ℕ} {m₂ : Traced} {l r : PTree ℕ}

/-- Marking that has brought the left half up to date does so for the parent. -/
theorem MarkReaches.left (h : MarkReaches l.full m n m₂ (2 * i + 1)) (hrange : InRange N (k + 1) i)
    (hi : (m₂.self.tree i).state = .split) (hl : Represents m₂.self.tree k (2 * i + 1) l)
    (hr : Represents m₂.self.tree k (2 * i + 2) r) :
    ∃ m₃, MarkReaches (PTree.node l r).full m n m₃ i ∧
      Represents m₃.self.tree (k + 1) i (.node l r) ∧ Effect N i m₂ m₃ := by
  rw [PTree.full_node]
  cases hlf : l.full with
  | false =>
    -- marking has ended below, and the parent stays split
    exact ⟨m₂, by simpa [MarkReaches, hlf] using h, ⟨by simp [hlf, hi], hl, hr⟩, Effect.refl N i m₂⟩
  | true =>
    have hit : Prog.Iterates markParentBody (m, n) (m₂, 2 * i + 1) := by
      simpa [MarkReaches, hlf] using h
    cases hrf : r.full with
    | false =>
      -- the sibling is neither used nor full, so marking ends here
      have hstop := markParentBody_left_stop hrange.children
        (mt hr.used_or_full_iff.1 (by simp [hrf]))
      refine ⟨m₂.touch (2 * i + 2), ?_, ⟨by simp [hrf, hi], hl, hr⟩,
        .touch i m₂ hrange.right.lt⟩
      simpa [MarkReaches, markParent] using hit.returns hstop
    | true =>
      -- both children are used or full, so the parent becomes full
      have hgo := markParentBody_left hrange.children (hr.used_or_full_iff.2 hrf)
      refine ⟨(m₂.touch (2 * i + 2)).setState i .full, ?_,
        ⟨by simp [hlf, hrf], hl.congr_left_of_update, hr.congr_right_of_update⟩,
        (Effect.touch i m₂ hrange.right.lt).trans (Effect.setState _ hrange.lt .full)⟩
      simpa [MarkReaches] using hit.tail hgo

/-- Marking that has brought the right half up to date does so for the parent. -/
theorem MarkReaches.right (h : MarkReaches r.full m n m₂ (2 * i + 2))
    (hrange : InRange N (k + 1) i) (hi : (m₂.self.tree i).state = .split)
    (hl : Represents m₂.self.tree k (2 * i + 1) l) (hr : Represents m₂.self.tree k (2 * i + 2) r) :
    ∃ m₃, MarkReaches (PTree.node l r).full m n m₃ i ∧
      Represents m₃.self.tree (k + 1) i (.node l r) ∧ Effect N i m₂ m₃ := by
  rw [PTree.full_node]
  cases hrf : r.full with
  | false =>
    -- as for the left half
    exact ⟨m₂, by simpa [MarkReaches, hrf] using h, ⟨by simp [hrf, hi], hl, hr⟩, Effect.refl N i m₂⟩
  | true =>
    have hit : Prog.Iterates markParentBody (m, n) (m₂, 2 * i + 2) := by
      simpa [MarkReaches, hrf] using h
    cases hlf : l.full with
    | false =>
      have hstop := markParentBody_right_stop hrange.children
        (mt hl.used_or_full_iff.1 (by simp [hlf]))
      refine ⟨m₂.touch (2 * i + 1), ?_, ⟨by simp [hlf, hi], hl, hr⟩,
        .touch i m₂ hrange.left.lt⟩
      simpa [MarkReaches, markParent] using hit.returns hstop
    | true =>
      have hgo := markParentBody_right hrange.children (hl.used_or_full_iff.2 hlf)
      refine ⟨(m₂.touch (2 * i + 1)).setState i .full, ?_,
        ⟨by simp [hlf, hrf], hl.congr_left_of_update, hr.congr_right_of_update⟩,
        (Effect.touch i m₂ hrange.left.lt).trans (Effect.setState _ hrange.lt .full)⟩
      simpa [MarkReaches] using hit.tail hgo

end Mark

/-! ## The search -/

section Search

variable {N k i d s size : ℕ} {v : ℤ} {m : Traced} {t : PTree ℕ}

theorem length_half (size d : ℕ) : size * 2 ^ (d + 1) / 2 = size * 2 ^ d := by
  rw [pow_succ, ← Nat.mul_assoc, Nat.mul_div_cancel _ Nat.two_pos]

theorem length_double (h : size * 2 ^ (d + 1) < 2 ^ 64) :
    u64 (size * 2 ^ d * 2) = size * 2 ^ (d + 1) := by
  rw [Nat.mul_assoc, ← pow_succ, u64, Nat.mod_eq_of_lt h]

theorem length_ne (hsize : 0 < size) (d : ℕ) : size ≠ size * 2 ^ (d + 1) := by
  have := Nat.le_mul_of_pos_right size (Nat.two_pow_pos d)
  rw [pow_succ, ← Nat.mul_assoc]
  omega

theorem length_lt (h : size * 2 ^ (d + 1) < 2 ^ 64) : size * 2 ^ d < 2 ^ 64 := by
  rw [pow_succ, ← Nat.mul_assoc] at h
  omega

/-- A search that finds nothing below a node changes nothing and advances from the node. -/
theorem search_none (hsize : 0 < size) (hlen : size * 2 ^ d < 2 ^ 64)
    (hrep : Represents m.self.tree k i t) (hr : InRange N k i) (h : t.insert s d = none) :
    ∃ m', m'.self = m.self ∧ Within N m m' ∧
      Prog.Iterates (searchBody size) (m, ⟨.visit, i, v, size * 2 ^ d⟩)
        (m', advance i v (size * 2 ^ d)) := by
  induction d generalizing k i v m t with
  | zero =>
    -- the node has the right size and is not free, so it is passed by
    refine ⟨m.touch i, rfl, Within.touch m hr.lt, ?_⟩
    rw [pow_zero, Nat.mul_one]
    by_cases hfull : t.full = true
    · exact .single (searchBody_pass (hrep.used_or_full_iff.2 hfull))
    · cases t with
      | free => simp at h
      | block p => simp at hfull
      | node l r =>
        cases k with
        | zero => exact absurd hrep not_represents_node_zero
        | succ k =>
          -- a split node of the right size
          have hstate := hrep.1
          rw [if_neg (by simpa using hfull)] at hstate
          exact .single (searchBody_pass_split hstate)
  | succ d ih =>
    by_cases hfull : t.full = true
    · exact ⟨m.touch i, rfl, Within.touch m hr.lt,
        .single (searchBody_pass (hrep.used_or_full_iff.2 hfull))⟩
    · cases t with
      | free =>
        -- a free node takes a block of any size
        obtain ⟨t', ht⟩ := PTree.exists_insert_free s (d + 1)
        rw [ht] at h
        cases h
      | block p => simp at hfull
      | node l r =>
        cases k with
        | zero => exact absurd hrep not_represents_node_zero
        | succ k =>
          obtain ⟨hstate, hl, hr'⟩ := hrep
          rw [if_neg (by simpa using hfull)] at hstate
          obtain ⟨hnl, hnr⟩ := PTree.insert_node_eq_none_iff.1 h
          have hi := hr.children
          -- down to the left child
          have hdown := searchBody_descend (v := v) (length_ne hsize d) hstate
          rw [descend, u64_left hi, length_half] at hdown
          -- through the left half, to the right child
          obtain ⟨m₁, hself₁, hw₁, hit₁⟩ :=
            ih (v := v + 1) (m := m.touch i) (length_lt hlen) hl hr.left hnl
          rw [advance_left hi] at hit₁
          -- through the right half, to the climb
          obtain ⟨m₂, hself₂, hw₂, hit₂⟩ :=
            ih (v := v + 1) (m := m₁) (length_lt hlen) (by rw [hself₁]; exact hr') hr.right hnr
          rw [advance_right] at hit₂
          -- from the right child back to the node
          have hup : (searchBody size ⟨.climb, 2 * i + 2, v + 1, size * 2 ^ d⟩).Returns m₂ m₂ _ :=
            searchBody_climb
          rw [parentIndex_right hi, length_double hlen, Int.add_sub_cancel] at hup
          refine ⟨m₂, by rw [hself₂, hself₁, Traced.touch_self],
            (Within.touch m hr.lt).trans (hw₁.trans hw₂), ?_⟩
          exact ((Prog.Iterates.single hdown).trans (hit₁.trans hit₂)).tail hup

/-- The search for `s` bytes that visits node `i`, `d` levels above the requested size, takes the
node at position `pos` of that depth below `i`; the partition is `t'` when its parents have been
marked as far as `i`. -/
def SearchTakes (N k i d s : ℕ) (v : ℤ) (m : Traced) (pos : ℕ) (t' : PTree ℕ) : Prop :=
  ∃ n m₁ m₂, n + 1 = (i + 1) * 2 ^ d + pos ∧
    (Prog.loop (searchBody (allocSize s)) ⟨.visit, i, v, allocSize s * 2 ^ d⟩).Returns m m₁
      ⟨.visit, n, v + d, allocSize s⟩ ∧
    MarkReaches t'.full (m₁.setNode n ⟨allocSize s, s, .used⟩) n m₂ i ∧
    Represents m₂.self.tree k i t' ∧ Effect N i m m₂

variable {m' : Traced} {pos : ℕ} {t' l l' r r' : PTree ℕ}

theorem SearchTakes.of_left (h : SearchTakes N k (2 * i + 1) d s (v + 1) m' pos l')
    (hrange : InRange N (k + 1) i) (he : Effect N i m m')
    (hit : Prog.Iterates (searchBody (allocSize s)) (m, ⟨.visit, i, v, allocSize s * 2 ^ (d + 1)⟩)
      (m', ⟨.visit, 2 * i + 1, v + 1, allocSize s * 2 ^ d⟩))
    (hi : (m'.self.tree i).state = .split) (hr : Represents m'.self.tree k (2 * i + 2) r) :
    SearchTakes N (k + 1) i (d + 1) s v m pos (.node l' r) := by
  obtain ⟨n, m₁, m₂, hn, hloop, hmark, hl', he'⟩ := h
  -- the search below the left child has not written the node itself
  have hsplit : (m₂.self.tree i).state = .split := by rw [he'.off.left_parent, hi]
  obtain ⟨m₃, hmark₃, hrep₃, he₃⟩ := hmark.left hrange hsplit hl' (hr.congr_right he'.off)
  refine ⟨n, m₁, m₃, ?_, ?_, hmark₃, hrep₃, he.trans (he'.of_left.trans he₃)⟩
  · rw [hn, pow_succ]
    ring
  · have hrun := hit.returns_iff.2 hloop
    rwa [Int.add_assoc, Int.add_comm 1, ← Nat.cast_succ] at hrun

theorem SearchTakes.of_right (h : SearchTakes N k (2 * i + 2) d s (v + 1) m' pos r')
    (hrange : InRange N (k + 1) i) (he : Effect N i m m')
    (hit : Prog.Iterates (searchBody (allocSize s)) (m, ⟨.visit, i, v, allocSize s * 2 ^ (d + 1)⟩)
      (m', ⟨.visit, 2 * i + 2, v + 1, allocSize s * 2 ^ d⟩))
    (hi : (m'.self.tree i).state = .split) (hl : Represents m'.self.tree k (2 * i + 1) l) :
    SearchTakes N (k + 1) i (d + 1) s v m (2 ^ d + pos) (.node l r') := by
  obtain ⟨n, m₁, m₂, hn, hloop, hmark, hr', he'⟩ := h
  have hsplit : (m₂.self.tree i).state = .split := by rw [he'.off.right_parent, hi]
  obtain ⟨m₃, hmark₃, hrep₃, he₃⟩ := hmark.right hrange hsplit (hl.congr_left he'.off) hr'
  refine ⟨n, m₁, m₃, ?_, ?_, hmark₃, hrep₃, he.trans (he'.of_right.trans he₃)⟩
  · rw [hn, pow_succ]
    ring
  · have hrun := hit.returns_iff.2 hloop
    rwa [Int.add_assoc, Int.add_comm 1, ← Nat.cast_succ] at hrun

/-- A search that finds a node below node `i` takes it as first-fit insertion does. -/
theorem search_some (hlen : allocSize s * 2 ^ d < 2 ^ 64) (hrep : Represents m.self.tree k i t)
    (hr : InRange N k i) (hdk : d ≤ k) (h : t.insert s d = some (pos, t')) :
    SearchTakes N k i d s v m pos t' := by
  induction d generalizing k i v m t pos t' with
  | zero =>
    cases t with
    | block p => simp at h
    | node l r => simp at h
    | free =>
      obtain ⟨rfl, rfl⟩ : 0 = pos ∧ PTree.block s = t' := by simpa using h
      -- a free node of the right size is taken
      rw [represents_free] at hrep
      refine ⟨i, m.touch i, (m.touch i).setNode i ⟨allocSize s, s, .used⟩, by simp, ?_, ?_, ?_,
        (Effect.touch i m hr.lt).trans (Effect.setNode _ hr.lt _)⟩
      · have htake :
            (searchBody (allocSize s) ⟨.visit, i, v, allocSize s⟩).Returns m (m.touch i) _ :=
          searchBody_take hrep
        simpa using (Prog.Iterates.refl (m, (⟨.visit, i, v, allocSize s⟩ : Cursor))).returns htake
      · simpa [MarkReaches] using Prog.Iterates.refl _
      · simp
  | succ d ih =>
    cases k with
    | zero => exact absurd hdk (by omega)
    | succ k =>
      have hi := hr.children
      have hdk' : d ≤ k := Nat.le_of_succ_le_succ hdk
      have hne := length_ne (allocSize_pos s) d
      cases t with
      | block p => simp at h
      | free =>
        -- the node is split, and both halves are marked unused
        rw [represents_free] at hrep
        obtain ⟨l', hl'⟩ := PTree.exists_insert_free s d
        obtain ⟨rfl, rfl⟩ : 0 = pos ∧ PTree.node l' .free = t' := by simpa [hl'] using h
        have hdown := searchBody_split (v := v) hne hrep
        rw [u64_left hi, u64_right hi, descend, u64_left hi, length_half] at hdown
        have he := (Effect.touch i m hr.lt).trans <| (Effect.setState _ hr.lt .split).trans <|
          (Effect.setState _ hr.left.lt .unused).of_left.trans
            (Effect.setState _ hr.right.lt .unused).of_right
        have h₁ : i ≠ 2 * i + 1 := by omega
        have h₂ : i ≠ 2 * i + 2 := by omega
        refine SearchTakes.of_left (ih (length_lt hlen) ?_ hr.left hdk' hl') hr he (.single hdown)
          ?_ ?_
        · simp [Function.update_apply]
        · simp [Function.update_apply, h₁, h₂]
        · simp
      | node l r =>
        obtain ⟨hstate, hl, hr'⟩ := hrep
        -- a full node has no room
        have hnf : ¬ (l.full && r.full) = true := fun hfull => by
          rw [PTree.insert_eq_none_of_full (by simpa using hfull)] at h
          cases h
        rw [if_neg hnf] at hstate
        have hdown := searchBody_descend (v := v) hne hstate
        rw [descend, u64_left hi, length_half] at hdown
        have he := Effect.touch i m hr.lt
        rcases PTree.insert_node_cases h with ⟨l', hins, rfl⟩ | ⟨hnone, pos', r', hins, rfl, rfl⟩
        · have htouch : Represents (m.touch i).self.tree k (2 * i + 1) l := hl
          exact SearchTakes.of_left (ih (length_lt hlen) htouch hr.left hdk' hins) hr he
            (.single hdown) hstate hr'
        · -- nothing in the left half: on to the right child
          obtain ⟨m₁, hself, hw, hit⟩ := search_none (v := v + 1) (m := m.touch i)
            (allocSize_pos s) (length_lt hlen) hl hr.left hnone
          rw [advance_left hi] at hit
          have he₁ := he.trans (Effect.of_self_eq i hself hw)
          have hsame : m₁.self = m.self := hself
          refine SearchTakes.of_right (ih (length_lt hlen) ?_ hr.right hdk' hins) hr he₁
            (hit.head hdown) ?_ ?_
          · rwa [hsame]
          · rwa [hsame]
          · rwa [hsame]

end Search

/-! ## The whole search

The search starts at the root with the depth of the requested size. When a round has found nothing
the climb passes the root unnoticed, and the next round starts at the root with twice the
`length`. -/

section Rounds

variable {N L j s c pos : ℕ} {v : ℤ} {m m' : Traced} {t t' : PTree ℕ}

/-- A round that finds nothing leads back to the root, one level up and with twice the length. -/
theorem search_round {d : ℕ} (hlen : allocSize s * 2 ^ (d + 1) < 2 ^ 64)
    (hrep : Represents m.self.tree L 0 t) (hr : InRange N L 0) (h : t.insert s d = none) :
    ∃ m', m'.self = m.self ∧ Within N m m' ∧
      Prog.Iterates (searchBody (allocSize s)) (m, ⟨.visit, 0, v, allocSize s * 2 ^ d⟩)
        (m', ⟨.visit, 0, v - 1, allocSize s * 2 ^ (d + 1)⟩) := by
  obtain ⟨m', hself, hw, hit⟩ := search_none (v := v) (allocSize_pos s) (length_lt hlen) hrep hr h
  rw [advance_zero] at hit
  have hup : (searchBody (allocSize s) ⟨.climb, 0, v, allocSize s * 2 ^ d⟩).Returns m' m' _ :=
    searchBody_climb
  -- the parent of the root is `(uint64_t) -1`, whose next sibling is the root again
  rw [parentIndex_zero, advance_u64Max, length_double hlen] at hup
  exact ⟨m', hself, hw, hit.tail hup⟩

/-- Rounds that find nothing change nothing. -/
theorem search_rounds {d : ℕ} (hlen : allocSize s * 2 ^ (d + c) < 2 ^ 64)
    (hrep : Represents m.self.tree L 0 t) (hr : InRange N L 0)
    (h : ∀ e < c, t.insert s (d + e) = none) :
    ∃ m', m'.self = m.self ∧ Within N m m' ∧
      Prog.Iterates (searchBody (allocSize s)) (m, ⟨.visit, 0, v, allocSize s * 2 ^ d⟩)
        (m', ⟨.visit, 0, v - c, allocSize s * 2 ^ (d + c)⟩) := by
  induction c with
  | zero => exact ⟨m, rfl, Within.refl N m, by simpa using Prog.Iterates.refl _⟩
  | succ c ih =>
    obtain ⟨m₁, hself₁, hw₁, hit₁⟩ := ih (length_lt hlen) fun e he => h e (by omega)
    obtain ⟨m₂, hself₂, hw₂, hit₂⟩ := search_round (v := v - c) (m := m₁) hlen
      (by rw [hself₁]; exact hrep) hr (h c (Nat.lt_succ_self c))
    refine ⟨m₂, hself₂.trans hself₁, hw₁.trans hw₂, ?_⟩
    rw [Nat.cast_succ, ← Int.sub_sub]
    exact hit₁.trans hit₂

/-- Marking that has reached the root is done. -/
theorem MarkReaches.root {full : Bool} {n : ℕ} (h : MarkReaches full m n m' 0) :
    (markParent n).Returns m m' () := by
  cases full with
  | false => simpa [MarkReaches] using h
  | true =>
    have hit : Prog.Iterates markParentBody (m, n) (m', 0) := by simpa [MarkReaches] using h
    exact hit.returns markParentBody_zero

/-- A search of a partition that is not full succeeds in some round. -/
theorem exists_round (s : ℕ) (hk : t.HeightLE L) (hj : j ≤ L) (hfull : t.full = false) :
    ∃ c ≤ j, (∀ e < c, t.insert s (L - j + e) = none) ∧
      ∃ pos t', t.insert s (L - j + c) = some (pos, t') := by
  -- at the level of the pages there is room
  have hlast : (t.insert s (L - j + j)).isSome := by
    rw [Nat.sub_add_cancel hj]
    exact PTree.exists_insert hk hfull
  have hex : ∃ c, (t.insert s (L - j + c)).isSome := ⟨j, hlast⟩
  obtain ⟨x, hx⟩ := Option.isSome_iff_exists.1 (Nat.find_spec hex)
  refine ⟨Nat.find hex, Nat.find_min' hex hlast, fun e he => ?_, x.1, x.2, hx⟩
  simpa using Nat.find_min hex he

/-- `buddy_alloc` inserts at the first depth, from that of the requested size downwards, at which
there is room. -/
theorem buddyAlloc_of_insert (hL : L ≤ 29) (hlevel : m.self.level = L) (hsize : allocSize s = 2 ^ j)
    (hc : c ≤ j) (hj : j ≤ L) (hrep : Represents m.self.tree L 0 t)
    (hnone : ∀ e < c, t.insert s (L - j + e) = none)
    (h : t.insert s (L - j + c) = some (pos, t')) :
    ∃ m', (buddyAlloc s).Returns m m'
        (indexOffset (2 ^ (L - j + c) + pos - 1) (L - j : ℕ) L) ∧
      Represents m'.self.tree L 0 t' ∧ Effect (2 ^ (L + 1)) 0 m m' := by
  have hr := InRange.root hL
  have hlen : allocSize s * 2 ^ (L - j + c) < 2 ^ 64 := by
    rw [hsize, ← pow_add]
    exact Nat.pow_lt_pow_right (by decide) (by omega)
  -- the rounds that find nothing, then the one that takes a node
  obtain ⟨m₁, hself₁, hw₁, hit⟩ := search_rounds (v := 0) hlen hrep hr hnone
  obtain ⟨n, m₂, m₃, hn, hloop, hmark, hrep', he⟩ := search_some (v := 0 - c) (m := m₁) hlen
    (by rw [hself₁]; exact hrep) hr (by omega) h
  have hsearch := hit.returns_iff.2 hloop
  -- the level goes down by one with each round, and up again on the way to the node
  have hstart : allocSize s * 2 ^ (L - j) = 2 ^ L := by
    rw [hsize, ← pow_add, Nat.add_sub_cancel' hj]
  have hend : (0 - c : ℤ) + (L - j + c : ℕ) = (L - j : ℕ) := by push_cast; ring
  have hindex : n = 2 ^ (L - j + c) + pos - 1 := by omega
  rw [hstart, hend, hindex] at hsearch
  rw [hindex] at hmark
  have heff := (Effect.of_self_eq 0 hself₁ hw₁).trans he
  have hfits : ¬ 2 ^ j > 2 ^ L := Nat.not_lt.2 (Nat.pow_le_pow_right Nat.two_pos hj)
  refine ⟨m₃, ?_, hrep', heff⟩
  simp only [buddyAlloc, Prog.returns_bind_iff, returns_pageTotal_iff]
  refine ⟨m, 2 ^ L, ⟨rfl, by rw [hlevel]⟩, ?_⟩
  rw [hsize] at hsearch hmark ⊢
  rw [if_neg hfits]
  simp only [Prog.returns_bind_iff, returns_writeUsed_iff, Prog.returns_read_iff,
    Prog.returns_pure_iff]
  exact ⟨m₂, _, hsearch, _, (), rfl, m₃, (), hmark.root, m₃, L, ⟨rfl, by rw [heff.level, hlevel]⟩,
    rfl, rfl⟩

/-- A request that exceeds the arena is refused. -/
theorem buddyAlloc_of_lt (h : 2 ^ m.self.level < allocSize s) :
    (buddyAlloc s).Returns m m u64Max := by
  simp [buddyAlloc, h]

/-- The search has not left the root since `m₀`. -/
def AtRoot (m₀ m : Traced) (c : Cursor) : Prop :=
  m.self = m₀.self ∧ Within 2 m₀ m ∧ c.index = 0

/-- In an arena in which nothing is free the search goes around at the root. -/
theorem atRoot_step {size : ℕ} {m₀ : Traced} (hrep : Represents m₀.self.tree L 0 t)
    (hfull : t.full = true) (m : Traced) (c : Cursor) (h : AtRoot m₀ m c) :
    ∃ m' c', (searchBody size c).Returns m m' (.inl c') ∧ AtRoot m₀ m' c' := by
  obtain ⟨point, i, v, length⟩ := c
  obtain ⟨hself, hw, rfl : i = 0⟩ := h
  cases point with
  | visit =>
    have hstate := hrep.used_or_full_iff.2 hfull
    rw [← hself] at hstate
    exact ⟨m.touch 0, _, searchBody_pass hstate, hself,
      hw.trans (Within.touch m Nat.one_lt_two), rfl⟩
  | climb =>
    have hup : (searchBody size ⟨.climb, 0, v, length⟩).Returns m m _ := searchBody_climb
    rw [parentIndex_zero, advance_u64Max] at hup
    exact ⟨m, _, hup, hself, hw, rfl⟩

theorem AtRoot.start (m : Traced) (v : ℤ) (length : ℕ) : AtRoot m m ⟨.visit, 0, v, length⟩ :=
  ⟨rfl, Within.refl 2 m, rfl⟩

/-- The search of an arena in which nothing is free never ends. -/
theorem buddyAlloc_of_full (hrep : Represents m.self.tree L 0 t) (hfull : t.full = true)
    (h : allocSize s ≤ 2 ^ m.self.level) {o : ℕ} : ¬ (buddyAlloc s).Returns m m' o := by
  intro hret
  simp only [buddyAlloc, Prog.returns_bind_iff, returns_pageTotal_iff] at hret
  obtain ⟨m₁, length, ⟨rfl, rfl⟩, hret⟩ := hret
  rw [if_neg (Nat.not_lt.2 h)] at hret
  obtain ⟨m₂, c, hloop, -⟩ := Prog.returns_bind_iff.1 hret
  exact Prog.not_returns_loop _ (atRoot_step hrep hfull) (AtRoot.start ..) hloop

end Rounds

end Zalloc
