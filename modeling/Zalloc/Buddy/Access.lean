import Zalloc.Buddy.Visible

/-!
# Accesses to the tree

The operations touch only elements of the array, with one exception: a release that reaches the
root, because the arena was full before it or is empty after it, reads the element before the
tree. In the packed layout this is the level, and the level of an arena of eight pages is
overwritten.

## Main definitions

* `KeepsOff L c`: the steps that do not reach the element before the tree.

## Main results

* `touched_lt`: in a run of such steps every access is to an element of the array, at any moment of
  any operation, and the level stays what it was.
* `free_touches_before`: in an arena of eight pages a release touches the element before the tree.
-/

set_option autoImplicit false

namespace Zalloc

/-! ## The record of accesses only grows -/

/-- Accesses are recorded for good, and the level changes only with an access before the tree. -/
def Recorded (m m' : Traced) : Prop :=
  (∀ x ∈ m.touched, x ∈ m'.touched) ∧ (m'.self.level = m.self.level ∨ u64Max ∈ m'.touched)

instance : IsPreorder Traced Recorded where
  refl m := ⟨fun _ hx => hx, .inl rfl⟩
  trans m m' m'' h₁ h₂ := by
    refine ⟨fun x hx => h₂.1 x (h₁.1 x hx), ?_⟩
    rcases h₂.2 with heq | hmem
    · rcases h₁.2 with heq' | hmem'
      · exact .inl (heq.trans heq')
      · exact .inr (h₂.1 _ hmem')
    · exact .inr hmem

section Grows

variable {index size s o : ℕ} {state : NodeState} {before : Buddy → ℕ}

theorem Recorded.touch (m : Traced) (index : ℕ) : Recorded m (m.touch index) :=
  ⟨fun _ hx => List.mem_cons_of_mem _ hx, .inl rfl⟩

theorem Recorded.setNode (m : Traced) (index : ℕ) (node : Node) :
    Recorded m (m.setNode index node) :=
  ⟨fun _ hx => List.mem_cons_of_mem _ hx, .inl rfl⟩

theorem grows_readState : (readState index).Grows Recorded :=
  ⟨fun _ m => Recorded.touch m index, fun _ _ => refl_of Recorded _⟩

theorem grows_writeState : (writeState index state).Grows Recorded :=
  .modify fun m => Recorded.setNode m index _

theorem grows_writeUsed : (writeUsed index size s).Grows Recorded :=
  .modify fun m => Recorded.setNode m index _

theorem grows_pageTotal : pageTotal.Grows Recorded := .read _

theorem grows_readFull : (readFull before index).Grows Recorded :=
  ⟨fun _ m => Recorded.touch m index, fun _ _ => refl_of Recorded _⟩

theorem grows_writeSplit : (writeSplit index).Grows Recorded := by
  refine .modify fun m => ?_
  by_cases h : index = u64Max
  · rw [if_pos h]
    exact ⟨fun _ hx => List.mem_cons_of_mem _ hx, .inr (h ▸ List.mem_cons_self ..)⟩
  · rw [if_neg h]
    exact Recorded.setNode m index _

theorem grows_markParent : (markParent index).Grows Recorded := by
  refine .loop (fun index => ?_) index
  unfold markParentBody
  dsimp only
  split_ifs
  · refine .bind grows_readState fun state => ?_
    split_ifs
    · exact .bind grows_writeState fun _ => .pure _
    · exact .pure _
  · exact .pure _

theorem grows_searchBody (c : Cursor) : (searchBody size c).Grows Recorded := by
  obtain ⟨point, i, v, length⟩ := c
  cases point with
  | climb => exact .pure _
  | visit =>
    refine .bind grows_readState fun state => ?_
    by_cases hsize : size = length
    · rw [if_pos hsize]
      split_ifs
      · exact .pure _
      · exact .pure _
    · rw [if_neg hsize]
      cases state with
      | used => exact .pure _
      | full => exact .pure _
      | split => exact .pure _
      | unused =>
        refine .bind grows_writeState fun _ => .bind grows_writeState fun _ => ?_
        exact .bind grows_writeState fun _ => .pure _

theorem grows_buddyAlloc : (buddyAlloc s).Grows Recorded := by
  refine .bind grows_pageTotal fun length => ?_
  split_ifs
  · exact .pure _
  · refine .bind (.loop grows_searchBody _) fun c => .bind grows_writeUsed fun _ => ?_
    exact .bind grows_markParent fun _ => .bind (.read _) fun _ => .pure _

theorem grows_combine : (combine before index).Grows Recorded := by
  refine .bind (.loop (fun index => ?_) index) fun _ => .bind grows_writeState fun _ =>
    .loop (fun index => ?_) _
  · unfold combineBody
    dsimp only
    split_ifs
    · exact .pure _
    · refine .bind grows_readState fun state => ?_
      split_ifs
      · exact .pure _
      · exact .pure _
  · refine .bind grows_readFull fun full => ?_
    split_ifs
    · exact .bind grows_writeSplit fun _ => .pure _
    · exact .pure _

theorem grows_buddyFree : (buddyFree before o).Grows Recorded :=
  .bind (grows_walk Recorded.touch _) fun _ => grows_combine

end Grows

/-! ## Accesses of one operation -/

/-- All recorded accesses are to elements of the array, and the level is that of the arena. -/
def Safe (L : ℕ) (m : Traced) : Prop :=
  (∀ x ∈ m.touched, x < 2 ^ (L + 1) - 1) ∧ m.self.level = L

/-- The tree of `2 ^ L` pages represents a normal partition. -/
structure TreeInv (L : ℕ) (b : Buddy) (t : PTree ℕ) : Prop where
  /-- The level is that of the arena. -/
  level : b.level = L
  /-- The tree represents the partition. -/
  rep : Represents b.tree L 0 t
  /-- Free siblings have been merged. -/
  normal : t.Normal

/-- The steps that do not reach the element before the tree: a release must find a split root and
leave a used node, unless its offset is outside the arena and it fails its first assertion. -/
def KeepsOff (L : ℕ) (c : Config) : Op → Prop
  | .alloc _ => True
  | .free o => 2 ^ L ≤ o / pageSize ∨ (c.self.tree 0).state = .split ∧
      ∃ n n', n ≠ n' ∧ Visible c.self.tree n ∧ (c.self.tree n).state = .used ∧
        Visible c.self.tree n' ∧ (c.self.tree n').state = .used

section Safe

variable {L s o : ℕ} {before : Buddy → ℕ} {b : Buddy} {t : PTree ℕ} {m m' : Traced}

/-- What happens before a moment at which all is well is well. -/
theorem Safe.of_recorded (hL : L ≤ 29) (h : Recorded m m') (hsafe : Safe L m') : Safe L m := by
  refine ⟨fun x hx => hsafe.1 x (h.1 x hx), ?_⟩
  -- a change of the level has left an access before the tree in the record
  rcases h.2 with heq | hmem
  · exact heq.symm.trans hsafe.2
  · have hlt := hsafe.1 _ hmem
    have hpow : 2 ^ (L + 1) ≤ 2 ^ 30 := Nat.pow_le_pow_right Nat.two_pos (by omega)
    unfold u64Max at hlt
    omega

theorem Safe.of_within (hlevel : m.self.level = L) (hw : Within (2 ^ (L + 1)) ⟨b, []⟩ m) :
    Safe L m := by
  refine ⟨fun x hx => ?_, hlevel⟩
  rcases hw x hx with hx | hx
  · cases hx
  · omega

theorem Safe.start (h : b.level = L) : Safe L ⟨b, []⟩ := Safe.of_within h (Within.refl _ _)

/-- The search of an arena in which nothing is free looks at the root only. -/
theorem buddyAlloc_safe_of_full (h : TreeInv L b t) (hL : L ≤ 29) (hfull : t.full = true)
    (hle : allocSize s ≤ 2 ^ L) (n : ℕ) : Safe L ((buddyAlloc s).exec n ⟨b, []⟩).state := by
  have hstep : ∀ m c, AtRoot ⟨b, []⟩ m c →
      ∃ m' c', (searchBody (allocSize s) c).Returns m m' (.inl c') ∧ AtRoot ⟨b, []⟩ m' c' :=
    atRoot_step h.rep hfull
  -- the search stays at the root
  have hnever : ∀ m c, ¬ (Prog.loop (searchBody (allocSize s))
      ⟨.visit, 0, 0, 1 <<< b.level⟩).Returns ⟨b, []⟩ m c :=
    fun m c => Prog.not_returns_loop _ hstep (AtRoot.start ..)
  have hnot : ¬ allocSize s > 1 <<< b.level := by
    rw [Nat.one_shiftLeft, h.level]
    omega
  -- so nothing behind the search is ever run
  have hloop : ((buddyAlloc s).exec n ⟨b, []⟩).state = ((Prog.loop (searchBody (allocSize s))
      ⟨.visit, 0, 0, 1 <<< b.level⟩).exec n ⟨b, []⟩).state := by
    unfold buddyAlloc pageTotal
    rw [Prog.exec_bind]
    change Exec.state (Prog.exec (if allocSize s > 1 <<< b.level then _ else _) n _) = _
    rw [if_neg hnot]
    exact Prog.state_bind_of_not_returns hnever n
  obtain ⟨m, c, ⟨hself, hw, -⟩, hrec⟩ :=
    Prog.Grows.of_invariant grows_searchBody _ hstep (AtRoot.start ⟨b, []⟩ 0 (1 <<< b.level)) n
  rw [hloop]
  have hpow : 2 ≤ 2 ^ (L + 1) := Nat.pow_le_pow_right Nat.two_pos (by omega : 1 ≤ L + 1)
  have hlevel : m.self.level = L := by rw [hself, h.level]
  exact (Safe.of_within hlevel (hw.mono hpow)).of_recorded hL hrec

/-- What an allocation that returns makes of the tree. -/
theorem TreeInv.alloc (h : TreeInv L b t) (hL : L ≤ 29) (hfull : t.full = false) :
    ∃ m o t', (buddyAlloc s).Returns ⟨b, []⟩ m o ∧ TreeInv L m.self t' ∧ Safe L m := by
  by_cases hlarge : 2 ^ L < allocSize s
  · exact ⟨⟨b, []⟩, u64Max, t, buddyAlloc_of_lt (by rwa [h.level]), h, Safe.start h.level⟩
  · have hle : allocSize s ≤ 2 ^ L := Nat.not_lt.1 hlarge
    have hlt : 2 ^ L < 2 ^ 32 := Nat.pow_lt_pow_right (by decide) (by omega)
    obtain ⟨j, hsize⟩ := exists_allocSize_eq_two_pow (hle.trans_lt hlt)
    have hj : j ≤ L := (Nat.pow_le_pow_iff_right (by decide)).1 (hsize ▸ hle)
    -- the search may need several rounds, which only look at the tree
    obtain ⟨c, hc, hnone, pos, t', hins⟩ := exists_round s h.rep.heightLE hj hfull
    obtain ⟨m, hret, hrep, he⟩ := buddyAlloc_of_insert (m := ⟨b, []⟩) hL h.level hsize hc hj
      h.rep hnone hins
    have hlevel := he.level.trans h.level
    exact ⟨m, _, t', hret, ⟨hlevel, hrep, h.normal.insert hins⟩, Safe.of_within hlevel he.within⟩

/-- An allocation is safe at any moment, whether or not it returns. -/
theorem TreeInv.alloc_safe (h : TreeInv L b t) (hL : L ≤ 29) (n : ℕ) :
    Safe L ((buddyAlloc s).exec n ⟨b, []⟩).state := by
  cases hfull : t.full with
  | false =>
    obtain ⟨m, o, t', hret, -, hsafe⟩ := h.alloc (s := s) hL hfull
    exact hsafe.of_recorded hL (grows_buddyAlloc.of_returns hret n)
  | true =>
    by_cases hlarge : 2 ^ L < allocSize s
    · have hret : (buddyAlloc s).Returns ⟨b, []⟩ ⟨b, []⟩ u64Max :=
        buddyAlloc_of_lt (by rwa [h.level])
      exact (Safe.start h.level).of_recorded hL (grows_buddyAlloc.of_returns hret n)
    · exact buddyAlloc_safe_of_full h hL hfull (Nat.not_lt.1 hlarge) n

/-- An allocation that returns keeps the invariant. -/
theorem TreeInv.alloc_step (h : TreeInv L b t) (hL : L ≤ 29)
    (hret : (buddyAlloc s).Returns ⟨b, []⟩ m o) : ∃ t', TreeInv L m.self t' := by
  cases hfull : t.full with
  | false =>
    obtain ⟨m', o', t', hret', hinv, -⟩ := h.alloc (s := s) hL hfull
    obtain ⟨rfl, -⟩ := Prog.returns_unique hret hret'
    exact ⟨t', hinv⟩
  | true =>
    by_cases hlarge : 2 ^ L < allocSize s
    · have hret' : (buddyAlloc s).Returns ⟨b, []⟩ ⟨b, []⟩ u64Max :=
        buddyAlloc_of_lt (by rwa [h.level])
      obtain ⟨rfl, -⟩ := Prog.returns_unique hret hret'
      exact ⟨t, h⟩
    · have hle : allocSize s ≤ 2 ^ b.level := by rw [h.level]; omega
      exact absurd hret (buddyAlloc_of_full (m := ⟨b, []⟩) h.rep hfull hle)

/-- A visible used node stands for a block of the partition. -/
theorem TreeInv.exists_block (h : TreeInv L b t) {n : ℕ} (hv : Visible b.tree n)
    (hused : (b.tree n).state = .used) :
    ∃ e ∈ t.blocks L 0, NodeAt L e.order n e.start := by
  obtain ⟨k, a, t', p⟩ := VisibleFrom.part hv h.rep (NodeAt.root L) h.normal
  obtain ⟨s, rfl⟩ := p.rep.exists_block hused
  exact ⟨⟨a, k, s⟩, p.blocks _ (by simp), p.at_node⟩

/-- While two nodes are used, the removal of a block leaves one. -/
theorem TreeInv.remove_ne_free (h : TreeInv L b t) {x n n' : ℕ} {e₀ : Extent ℕ} (hne : n ≠ n')
    (hv : Visible b.tree n) (hused : (b.tree n).state = .used) (hv' : Visible b.tree n')
    (hused' : (b.tree n').state = .used) (hfind : t.find L 0 x = some e₀) :
    t.remove L 0 x ≠ .free := by
  obtain ⟨e, he, hat⟩ := h.exists_block hv hused
  obtain ⟨e', he', hat'⟩ := h.exists_block hv' hused'
  -- different nodes stand for different blocks
  have hee : e ≠ e' := by
    rintro rfl
    have heq := Nat.eq_of_mul_eq_mul_right (Nat.two_pow_pos _) (hat.eq.trans hat'.eq.symm)
    exact hne (by omega)
  -- only one of the two can be the block that is removed
  intro hfree
  have hblocks := PTree.mem_blocks_remove hfind
  simp only [hfree, PTree.blocks_free, List.not_mem_nil, false_iff, not_and, not_not] at hblocks
  exact hee ((hblocks e he).trans (hblocks e' he').symm)

/-- A release of a permitted offset either fails an assertion or takes out a block; both are
safe. -/
theorem TreeInv.free (before : Buddy → ℕ) (h : TreeInv L b t) (hL : L ≤ 29)
    (hok : 2 ^ L ≤ o / pageSize ∨ (b.tree 0).state = .split ∧
      ∃ n n', n ≠ n' ∧ Visible b.tree n ∧ (b.tree n).state = .used ∧
        Visible b.tree n' ∧ (b.tree n').state = .used) :
    ∃ m, Safe L m ∧ ((buddyFree before o).Aborts ⟨b, []⟩ m ∨
      (buddyFree before o).Returns ⟨b, []⟩ m () ∧ ∃ t', TreeInv L m.self t') := by
  -- the walk ends at a block that starts at the offset, or at a failed assertion
  by_cases hblock : ∃ e ∈ t.blocks L 0, e.start = o / pageSize
  · obtain ⟨e, he, hstart⟩ := hblock
    have hbounds := (PTree.blocks_bounds he).2
    have hpos := e.start_lt_stop
    rcases hok with hout | ⟨hsplit, n, n', hne, hv, hused, hv', hused'⟩
    · omega
    have hfind := PTree.find_of_mem he
    rw [hstart] at hfind
    -- the root is split, so the partition is not full
    have hfull : t.full = false := by
      have hroot := h.rep.used_or_full_iff
      rw [hsplit] at hroot
      simpa using hroot
    obtain ⟨m, hret, hrep, he'⟩ := buddyFree_within (m := ⟨b, []⟩) hL h.level h.rep hfind hstart
      hfull (h.remove_ne_free hne hv hused hv' hused' hfind)
    have hlevel := he'.level.trans h.level
    exact ⟨m, Safe.of_within hlevel he'.within, .inr ⟨hret, _, hlevel, hrep, h.normal.remove⟩⟩
  · obtain ⟨m, hself, hw, hab⟩ := buddyFree_aborts (m := ⟨b, []⟩) hL h.level h.rep
      fun e he heq => hblock ⟨e, he, heq⟩
    exact ⟨m, Safe.of_within (hself ▸ h.level) hw, .inl hab⟩

end Safe

/-! ## Runs -/

section Runs

variable {L : ℕ} {c : Config} {self : Buddy} {lib : Bool} {memory : ℕ → Node}

theorem reach_treeInv (hL : L ≤ 29) (hnew : buddyNew lib memory (L + 12) = some self)
    (hreach : Runs.Reach (Step levelByte) (KeepsOff L) ⟨self, []⟩ c) :
    ∃ t, TreeInv L c.self t := by
  have hstart := buddyNew_inv hnew
  refine hreach.invariant (I := fun c => ∃ t, TreeInv L c.self t)
    ⟨.free, hstart.level, hstart.rep, hstart.normal⟩ ?_
  rintro c op c' ⟨t, h⟩ hok hs
  cases hs with
  | alloc hret => exact h.alloc_step hL hret
  | free hb hret =>
    obtain ⟨m, -, hab | ⟨hret', hinv⟩⟩ := h.free levelByte hL hok
    · exact absurd hab (Prog.not_aborts_of_returns hret)
    · obtain ⟨rfl, -⟩ := Prog.returns_unique hret hret'
      exact hinv

/-- In a run of steps that keep off the element before the tree, at any moment of any further
such operation, whether or not it returns, every element of the tree that has been read or written
has an index below `2 ^ (L + 1) - 1`, and the level is `L`. -/
theorem touched_lt (hL : L ≤ 29) (hnew : buddyNew lib memory (L + 12) = some self)
    (hreach : Runs.Reach (Step levelByte) (KeepsOff L) ⟨self, []⟩ c) {op : Op}
    (hok : KeepsOff L c op) (n : ℕ) :
    (∀ x ∈ ((op.run levelByte).exec n ⟨c.self, []⟩).state.touched, x < 2 ^ (L + 1) - 1) ∧
      ((op.run levelByte).exec n ⟨c.self, []⟩).state.self.level = L := by
  obtain ⟨t, h⟩ := reach_treeInv hL hnew hreach
  cases op with
  | alloc s => exact h.alloc_safe hL n
  | free o =>
    -- what has been touched at any moment of a call is in the record when it ends
    have hgrows : ((Op.free o).run levelByte).Grows Recorded :=
      .bind grows_buddyFree fun _ => .pure _
    obtain ⟨m, hsafe, hab | ⟨hret, -⟩⟩ := h.free levelByte hL hok
    · have hab' : ((Op.free o).run levelByte).Aborts ⟨c.self, []⟩ m :=
        Prog.aborts_bind_iff.2 (.inl hab)
      exact hsafe.of_recorded hL (hgrows.of_aborts hab' n)
    · have hret' : ((Op.free o).run levelByte).Returns ⟨c.self, []⟩ m 0 :=
        hret.bind (by simp)
      exact hsafe.of_recorded hL (hgrows.of_returns hret' n)

end Runs

/-- An arena of four pages. -/
def fourPages : Buddy := ⟨2, fun _ => ⟨0, 0, .unused⟩⟩

/-- The arena after a request for one page. -/
def firstTaken : Config := ⟨((buddyAlloc 4096).exec 8 ⟨fourPages, []⟩).state.self, [⟨0, 1, 4096⟩]⟩

/-- The arena after a second request for one page. -/
def secondTaken : Config :=
  ⟨((buddyAlloc 4096).exec 8 ⟨firstTaken.self, []⟩).state.self, ⟨4096, 1, 4096⟩ :: firstTaken.live⟩

theorem reach_secondTaken :
    Runs.Reach (Step levelByte) (KeepsOff 2) ⟨fourPages, []⟩ secondTaken := by
  have hret₁ : (buddyAlloc 4096).Returns ⟨fourPages, []⟩ _ 0 :=
    Prog.returns_of_value? (n := 8) (by decide +kernel)
  have hret₂ : (buddyAlloc 4096).Returns ⟨firstTaken.self, []⟩ _ 4096 :=
    Prog.returns_of_value? (n := 8) (by decide +kernel)
  have hstep₁ : Step levelByte ⟨fourPages, []⟩ (.alloc 4096) _ := .alloc hret₁
  have hstep₂ : Step levelByte firstTaken (.alloc 4096) _ := .alloc hret₂
  rw [if_neg (by decide), allocSize_page] at hstep₁ hstep₂
  have hok : ∀ c s, KeepsOff 2 c (.alloc s) := fun _ _ => trivial
  exact .step (.step .start (hok _ _) hstep₁) (hok _ _) hstep₂

/-- The release of one of two blocks in an arena of four pages touches the array only. -/
theorem touched_lt_secondTaken :
    (∀ x ∈ (((Op.free 0).run levelByte).exec 8 ⟨secondTaken.self, []⟩).state.touched,
        x < 2 ^ (2 + 1) - 1) ∧
      (((Op.free 0).run levelByte).exec 8 ⟨secondTaken.self, []⟩).state.self.level = 2 := by
  have hnew : buddyNew false (fun _ => ⟨0, 0, .unused⟩) (2 + 12) = some fourPages := by
    simp [buddyNew, fourPages, pageSize]
  have hcut₀ : IsCut (secondTaken.self.tree 0).state := by decide +kernel
  have hcut₁ : IsCut (secondTaken.self.tree 1).state := by decide +kernel
  have hone : Visible secondTaken.self.tree 1 := VisibleFrom.refl.left hcut₀
  have hok : KeepsOff 2 secondTaken (.free 0) :=
    .inr ⟨by decide +kernel, 3, 4, by decide, hone.left hcut₁, by decide +kernel,
      hone.right hcut₁, by decide +kernel⟩
  exact touched_lt (by decide) hnew reach_secondTaken hok 8

/-! ## Eight pages

The level of an arena of eight pages is the byte of a full node. -/

/-- An arena of eight pages. -/
def eightPages : Buddy := ⟨3, fun _ => ⟨0, 0, .unused⟩⟩

/-- The arena after a request for all of its pages. -/
def allTaken : Config := ⟨((buddyAlloc 32768).exec 8 ⟨eightPages, []⟩).state.self, [⟨0, 8, 32768⟩]⟩

theorem reach_allTaken :
    Runs.Reach (Step levelByte) (fun _ _ => True) ⟨eightPages, []⟩ allTaken := by
  have hret : (buddyAlloc 32768).Returns ⟨eightPages, []⟩ _ 0 :=
    Prog.returns_of_value? (n := 8) (by decide)
  have hstep : Step levelByte ⟨eightPages, []⟩ (.alloc 32768) _ := .alloc hret
  have hsize : allocSize 32768 = 8 := by decide
  rw [if_neg (by decide), hsize] at hstep
  exact .step .start trivial hstep

/-- The release of the only block touches the element before the tree, and replaces the level. -/
theorem free_touches_before :
    buddyNew false (fun _ => ⟨0, 0, .unused⟩) (3 + 12) = some eightPages ∧
    Runs.Reach (Step levelByte) (fun _ _ => True) ⟨eightPages, []⟩ allTaken ∧
    (∃ b ∈ allTaken.live, b.offset = 0) ∧
    ∃ m, ((Op.free 0).run levelByte).Returns ⟨allTaken.self, []⟩ m 0 ∧
      ¬ (∀ x ∈ m.touched, x < 2 ^ (3 + 1) - 1) ∧ m.self.level = 2 := by
  refine ⟨by simp [buddyNew, eightPages, pageSize], reach_allTaken, by decide, ?_⟩
  refine ⟨_, Prog.returns_of_value? (n := 8) (by decide), ?_, ?_⟩
  · decide
  · decide

end Zalloc
