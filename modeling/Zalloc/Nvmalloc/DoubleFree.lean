import Zalloc.Nvmalloc.Run
import Zalloc.Nvmalloc.Writes

/-!
# Double frees

The word at the start of a block is negative once the block has been freed: it is the header of a
waiting block, then that of a free piece, or zero when the block has been merged with the free zone.
It comes to be positive only when a block is handed out that contains it, so that until then a
second `nvfree` is noticed.

## Main definitions

* `Dead x st`: the word at `x` is not positive.
* `NotHandedOut x c op c'`: a step that does not hand out a block that contains `x`.

## Main results

* `Dead.nvmalloc`, `Dead.nvfree`: what the calls do to such a word.
* `nvfree_twice`: a second `nvfree` stops the process, and changes nothing.
-/

set_option autoImplicit false

namespace Zalloc

/-- The offset is in the block. -/
def NvBlock.Contains (b : NvBlock) (x : ℕ) : Prop := b.location ≤ x ∧ x < b.location + b.size

/-- The word at `x` is not positive. -/
structure Dead (x : ℕ) (st : NvState) : Prop where
  /-- It is in the arena. -/
  inside : x + 8 ≤ st.endAddress
  /-- It is not positive. -/
  nonpos : (st.mem x).toInt ≤ 0

/-- A word that is not positive stays so. -/
def KeepsDead (x : ℕ) (st st' : NvState) : Prop := Dead x st → Dead x st'

instance (x : ℕ) : IsPreorder NvState (KeepsDead x) where
  refl _ h := h
  trans _ _ _ h₁ h₂ h := h₂ (h₁ h)

/-- A step that does not hand out a block that contains `x`. -/
def NotHandedOut (x : ℕ) (c : NvConfig) (op : NvOp) (c' : NvConfig) : Prop :=
  NvStep c op c' ∧ ∀ b, c'.live = b :: c.live → ¬ b.Contains x

section

variable {a added location now size x : ℕ} {grows : Growth} {st st' : NvState} {v : BitVec 64}

/-! ## Writes -/

/-- A word is written, at another offset or with a value that is not positive. -/
theorem keepsDead_update (h : a = x → v.toInt ≤ 0) :
    KeepsDead x st { st with mem := Function.update st.mem a v } := by
  intro hdead
  refine ⟨hdead.inside, ?_⟩
  show (Function.update st.mem a v x).toInt ≤ 0
  by_cases hx : a = x
  · rw [← hx, Function.update_self]
    exact h hx
  · rw [Function.update_of_ne (Ne.symm hx)]
    exact hdead.nonpos

theorem keepsDead_of_searchWrite (h : SearchWrite st st') : KeepsDead x st st' := by
  cases h with
  | lists lists => exact fun hdead => ⟨hdead.inside, hdead.nonpos⟩
  | report r => exact fun hdead => ⟨hdead.inside, hdead.nonpos⟩
  | header a hv => exact keepsDead_update fun _ => hv

/-- The new memory is behind the old one. -/
theorem keepsDead_of_zoneWrite (h : ZoneWrite st st') : KeepsDead x st st' := by
  intro hdead
  have hin := hdead.inside
  cases h with
  | grow newPages =>
    refine ⟨hin.trans (Nat.le_add_right ..), ?_⟩
    rw [grow_mem_of_lt (by omega)]
    exact hdead.nonpos
  | zone freeZone => exact ⟨hin, hdead.nonpos⟩

theorem keepsDead_of_tickWrite (h : TickWrite st st') : KeepsDead x st st' := by
  cases h with
  | search h => exact keepsDead_of_searchWrite h
  | queue | released | clear | zone => exact fun hdead => ⟨hdead.inside, hdead.nonpos⟩

/-- A word is written, at another offset or with a value that is not positive. -/
theorem keepsDead_setWord (h : a = x → v.toInt ≤ 0) : (setWord a v).Grows (KeepsDead x) :=
  grows_setWord fun _ => keepsDead_update h

theorem keepsDead_incrementTime : (incrementTime now).Grows (KeepsDead x) :=
  grows_incrementTime fun _ _ => keepsDead_of_tickWrite

theorem keepsDead_getFreeLocation : (getFreeLocation size grows).Grows (KeepsDead x) := by
  refine .bind (grows_find fun _ _ => keepsDead_of_searchWrite) fun found =>
    .bind (grows_orFreeZone fun _ _ => keepsDead_of_zoneWrite) fun location => ?_
  cases location with
  | none => exact .pure _
  | some location =>
    exact .bind (grows_changeBits fun _ _ _ hdead => ⟨hdead.inside, hdead.nonpos⟩) fun _ => .pure _

/-! ## Calls -/

/-- `nvmalloc` makes a word positive only if it is that of the header. -/
theorem Dead.nvmalloc (h : Dead x st) {r : Option ℕ}
    (hret : (nvmalloc size grows now).Returns st st' r)
    (hne : ∀ location, r = some (location + 8) → location ≠ x) : Dead x st' := by
  obtain ⟨st₁, ⟨found, actualSize⟩, hlocate, hret⟩ := Prog.returns_bind_iff.1 hret
  have h₁ : Dead x st₁ := keepsDead_getFreeLocation.returns hlocate h
  cases found with
  | none =>
    obtain ⟨rfl, -⟩ := Prog.returns_pure_iff.1 hret
    exact h₁
  | some location =>
    obtain ⟨st₂, ⟨⟩, hheader, hret⟩ := Prog.returns_bind_iff.1 hret
    obtain ⟨st₃, ⟨⟩, htime, hret⟩ := Prog.returns_bind_iff.1 hret
    obtain ⟨rfl, rfl⟩ := Prog.returns_pure_iff.1 hret
    have h₂ : Dead x st₂ :=
      (keepsDead_setWord fun heq => absurd heq (hne location rfl)).returns hheader h₁
    exact keepsDead_incrementTime.returns htime h₂

/-- A word that has been written. -/
theorem eq_of_setWord (h : (setWord a v).Returns st st' ()) :
    st' = { st with mem := Function.update st.mem a v } := by
  obtain ⟨st₁, ⟨⟩, hreq, hmod⟩ := Prog.returns_bind_iff.1 h
  obtain ⟨-, rfl⟩ := Prog.returns_require_iff.1 hreq
  exact Prog.returns_modify_iff.1 hmod

/-- A message does not change anything else. -/
theorem eq_of_reportIf {wrong : Prop} [Decidable wrong] {r : Report}
    (h : (reportIf wrong r).Returns st st' ()) : ∃ reports, st' = { st with reports } := by
  unfold reportIf at h
  split_ifs at h
  · exact ⟨_, Prog.returns_modify_iff.1 h⟩
  · exact ⟨_, (Prog.returns_pure_iff.1 h).1⟩

/-- What `putInDNAList` writes besides the header is not at the start of a unit. -/
theorem dead_of_putInDNAList (hin : x + 8 ≤ st.endAddress) (hx : baseSize ∣ x)
    (hlocation : baseSize ∣ location)
    (htail : st.dontAllocateListTail = nilOffset ∨ baseSize ∣ st.dontAllocateListTail)
    (h : location ≠ x → Dead x st)
    (hret : (putInDNAList location size added).Returns st st' ()) : Dead x st' := by
  obtain ⟨_, hsize, hread, hret⟩ := Prog.returns_bind_iff.1 hret
  obtain rfl := (grows_getHeaderSize (R := Eq)).returns hread
  obtain ⟨_, ⟨⟩, hreport, hret⟩ := Prog.returns_bind_iff.1 hret
  obtain ⟨reports, rfl⟩ := eq_of_reportIf hreport
  obtain ⟨_, ⟨⟩, hheader, hret⟩ := Prog.returns_bind_iff.1 hret
  obtain rfl := eq_of_setWord hheader
  obtain ⟨st₂, ⟨⟩, htime, hret⟩ := Prog.returns_bind_iff.1 hret
  -- the header
  have h₁ : Dead x { st with
      mem := Function.update st.mem location
        (BitVec.ofInt 64 (-crcCompute location (u32 (size + 1)))), reports } := by
    refine ⟨hin, ?_⟩
    show (Function.update st.mem location _ x).toInt ≤ 0
    by_cases heq : location = x
    · rw [heq, Function.update_self]
      exact toInt_neg_crcCompute_nonpos (Nat.mod_lt _ (by decide))
    · rw [Function.update_of_ne (Ne.symm heq)]
      exact (h heq).nonpos
  -- the time
  have hne : location + 24 ≠ x + 0 :=
    add_ne_add_of_dvd hlocation hx (by decide) (by decide) (by decide)
  have h₂ : Dead x st₂ := (keepsDead_setWord fun heq => absurd heq hne).returns htime h₁
  obtain rfl := eq_of_setWord htime
  -- the link
  obtain ⟨_, tail, hread, hret⟩ := Prog.returns_bind_iff.1 hret
  obtain ⟨rfl, rfl⟩ := Prog.returns_read_iff.1 hread
  split_ifs at hret with hnil
  · obtain rfl := Prog.returns_modify_iff.1 hret
    exact ⟨h₂.inside, h₂.nonpos⟩
  · obtain ⟨st₃, ⟨⟩, hlink, hret⟩ := Prog.returns_bind_iff.1 hret
    have hne' : st.dontAllocateListTail + 8 ≠ x + 0 :=
      add_ne_add_of_dvd (htail.resolve_left hnil) hx (by decide) (by decide) (by decide)
    have h₃ : Dead x st₃ := (keepsDead_setWord fun heq => absurd heq hne').returns hlink h₂
    obtain rfl := Prog.returns_modify_iff.1 hret
    exact ⟨h₃.inside, h₃.nonpos⟩

/-- `nvfree` makes no word at the start of a unit positive, and that of the block not positive. -/
theorem dead_of_nvfree {b : NvBlock} (hin : x + 8 ≤ st.endAddress) (hx : baseSize ∣ x)
    (hlocation : baseSize ∣ b.location) (hlt : b.location + 8 < 2 ^ 64)
    (htail : st.dontAllocateListTail = nilOffset ∨ baseSize ∣ st.dontAllocateListTail)
    (h : b.location ≠ x → Dead x st) {r : ℤ}
    (hret : (nvfree (b.location + 8) added now).Returns st st' r) : Dead x st' := by
  have hoffset : u64Sub (b.location + 8) 8 = b.location := by
    simp only [u64Sub]
    omega
  obtain ⟨_, hsize, hread, hret⟩ := Prog.returns_bind_iff.1 hret
  obtain rfl := (grows_getHeaderSize (R := Eq)).returns hread
  dsimp only at hret
  rw [hoffset] at hret
  split_ifs at hret
  · obtain ⟨_, _, -, hno⟩ := Prog.returns_bind_iff.1 hret
    exact absurd hno Prog.not_returns_abort
  · obtain ⟨_, _, -, hno⟩ := Prog.returns_bind_iff.1 hret
    exact absurd hno Prog.not_returns_abort
  · obtain ⟨st₁, ⟨⟩, hput, hret⟩ := Prog.returns_bind_iff.1 hret
    obtain ⟨st₂, ⟨⟩, htime, hret⟩ := Prog.returns_bind_iff.1 hret
    obtain ⟨rfl, -⟩ := Prog.returns_pure_iff.1 hret
    have h₁ : Dead x st₁ := dead_of_putInDNAList hin hx hlocation htail h hput
    exact keepsDead_incrementTime.returns htime h₁

/-- `nvfree` of a block whose header is not positive stops the process. -/
theorem Dead.nvfree (h : Dead x st) (hlt : x + 8 < 2 ^ 64) :
    (nvfree (x + 8) added now).Aborts st { st with reports := st.reports ++ [.header] } := by
  have hoffset : u64Sub (x + 8) 8 = x := by
    simp only [u64Sub]
    omega
  unfold Zalloc.nvfree
  rw [hoffset]
  refine Prog.aborts_bind_iff.2 (.inr ⟨st, _, returns_getHeaderSize h.inside, ?_⟩)
  rw [if_pos h.nonpos]
  exact Prog.aborts_bind_iff.2 (.inr ⟨_, (), Prog.returns_modify _ _, Prog.aborts_abort_iff.2 rfl⟩)

end

/-! ## Runs -/

/-- The tail of the don't-allocate list is the start of a block. -/
theorem NvInv.dvd_tail {st : NvState} {live : List NvBlock} {waiting : List Waiting}
    (h : NvInv st [] live waiting) :
    st.dontAllocateListTail = nilOffset ∨ baseSize ∣ st.dontAllocateListTail := by
  rcases h.queue with ⟨-, -, htail⟩ | ⟨Q, w, rfl, htail, -⟩
  · exact .inl htail
  · right
    rw [htail]
    have hw : w ∈ Q ++ [w] := List.mem_append_right Q (List.mem_singleton_self w)
    exact (h.occupied.aligned _ (NvInv.mem_waiting hw)).1

/-- The allocator is ready, the word at `x` is not positive, and no live block contains `x`. -/
structure DeadIn (freeWait x : ℕ) (c : NvConfig) : Prop where
  /-- The invariant of the allocator. -/
  ready : NvReady freeWait c
  /-- A block may start at `x`. -/
  aligned : baseSize ∣ x
  /-- The word is not positive. -/
  dead : Dead x c.st
  /-- It is not in a live block. -/
  outside : ∀ b ∈ c.live, ¬ b.Contains x

section

variable {addr added freeWait now nrPages x : ℕ} {c c₁ c₂ : NvConfig} {op : NvOp}

/-- A step that does not hand out a block that contains `x` keeps all this. -/
theorem DeadIn.step (h : DeadIn freeWait x c) (hok : op.Allowed c)
    (hs : NotHandedOut x c op c₁) : DeadIn freeWait x c₁ := by
  obtain ⟨hs, hout⟩ := hs
  refine ⟨h.ready.step hok hs, h.aligned, ?_, ?_⟩
  · cases hs with
    | @served st' size now location grows hret =>
      refine h.dead.nvmalloc hret fun location' heq => ?_
      obtain rfl := Nat.add_right_cancel (Option.some.inj heq)
      rintro rfl
      have hpos := unitsOf_pos (show 0 < size + 8 by omega)
      refine hout _ rfl ⟨le_rfl, ?_⟩
      simp only [blockUnits, baseSize]
      omega
    | refused hret => exact h.dead.nvmalloc hret fun _ hno => absurd hno (by simp)
    | @free st' b added now r hmem hret =>
      obtain ⟨hsize, hend, hlt⟩ := h.ready.inv.bounds (NvInv.mem_live hmem)
      have hdvd := (h.ready.inv.occupied.aligned _ (NvInv.mem_live hmem)).1
      exact dead_of_nvfree h.dead.inside h.aligned hdvd (by omega) h.ready.inv.dvd_tail
        (fun _ => h.dead) hret
    | @store b y v hmem hlo hhi =>
      refine keepsDead_update (fun heq => ?_) h.dead
      exact absurd ⟨by omega, by omega⟩ (h.outside b hmem)
  · cases hs with
    | served hret =>
      intro b hb
      rcases List.mem_cons.1 hb with rfl | hb
      · exact hout _ rfl
      · exact h.outside b hb
    | refused hret => exact h.outside
    | free hmem hret => exact fun b hb => h.outside b (List.mem_of_mem_erase hb)
    | store hmem hlo hhi => exact h.outside

/-- The word at the start of a block that has just been freed. -/
theorem NvReady.deadIn (h : NvReady freeWait c) (hfree : NvStep c (.free addr added now) c₁) :
    DeadIn freeWait (addr - 8) c₁ := by
  have hok : NvOp.Allowed c (.free addr added now) := trivial
  have hready := h.step hok hfree
  cases hfree with
  | @free st' b added now r hmem hret =>
    rw [Nat.add_sub_cancel]
    obtain ⟨hsize, hend, hlt⟩ := h.inv.bounds (NvInv.mem_live hmem)
    have hdvd := (h.inv.occupied.aligned _ (NvInv.mem_live hmem)).1
    refine ⟨hready, hdvd, ?_, fun b' hb' => ?_⟩
    · exact dead_of_nvfree (by omega) hdvd hdvd (by omega) h.inv.dvd_tail
        (fun hne => absurd rfl hne) hret
    · -- the live blocks do not overlap
      have hapart := (h.inv.take_live (List.perm_cons_erase hmem)).occupied.apart
      have hoff : NvBlock.Apart b b' := (List.pairwise_cons.1 hapart).1 b' (NvInv.mem_live hb')
      rintro ⟨h₁, h₂⟩
      rcases hoff with hle | hle
      · omega
      · omega

/-- From the moment at which a block has been freed until a block is handed out that contains its
offset, a second `nvfree` stops the process, and changes nothing. -/
theorem nvfree_twice (hpages : nrPages * nvPageSize < 2 ^ 32) {mem : ℕ → BitVec 64}
    (h : Runs.Reach NvStep (fun c op => op.Allowed c) (nvStart nrPages freeWait mem) c)
    (hfree : NvStep c (.free addr added now) c₁)
    (hrun : Runs.Reach (NotHandedOut (addr - 8)) (fun c op => op.Allowed c) c₁ c₂)
    (added' now' : ℕ) :
    (nvfree addr added' now').Aborts c₂.st
      { c₂.st with reports := c₂.st.reports ++ [.header] } := by
  have hdead : DeadIn freeWait (addr - 8) c₂ :=
    hrun.invariant ((reach_nvReady hpages h).deadIn hfree) fun _ _ _ hI hok hs => hI.step hok hs
  have hin := hdead.dead.inside
  have harena := hdead.ready.inv.shape.endAddress
  have hlt := hdead.ready.inv.shape.bitmapSize_lt
  have haddr : addr - 8 + 8 = addr := by
    cases hfree with
    | free hmem hret => rfl
  rw [← haddr]
  exact hdead.dead.nvfree (by omega)

end

section

variable {x size now location added : ℕ} {c : NvConfig} {b : NvBlock}

/-- Another block is handed out. -/
theorem notHandedOut_malloc
    (hret : ((nvmalloc size .refused now).exec 100 c.st).value? = some (some (location + 8)))
    (hx : x < location) :
    NotHandedOut x c (.malloc size .refused now) (c.afterMalloc size now location) := by
  refine ⟨.served (Prog.returns_of_value? hret), fun b hlive hcontains => ?_⟩
  obtain ⟨rfl, -⟩ := List.cons.inj hlive
  exact absurd hcontains.1 (by simpa using hx)

/-- Nothing is handed out when a block is freed. -/
theorem notHandedOut_free (hmem : b ∈ c.live)
    (hret : ((nvfree (b.location + 8) added now).exec 100 c.st).value? = some 0) :
    NotHandedOut x c (.free (b.location + 8) added now) (c.afterFree b added now) := by
  refine ⟨.free hmem (Prog.returns_of_value? hret), fun b' hlive => ?_⟩
  have hlength : (c.live.erase b).length = (b' :: c.live).length := congrArg List.length hlive
  have hle : (c.live.erase b).length ≤ c.live.length := List.length_erase_le
  simp only [List.length_cons] at hlength
  omega

end

/-- The first block has been freed and released, and has come to be a part of a gap. Then it is
freed again. -/
theorem nvfree_twice_firstReleased :
    (nvfree 8 200 200).Aborts firstReleased.st
      { firstReleased.st with reports := firstReleased.st.reports ++ [.header] } := by
  have hbefore : Runs.Reach NvStep (fun c op => op.Allowed c) (nvStart 4 100 fun _ => 0)
      (((nvStart 4 100 fun _ => 0).afterMalloc 100 10 0).afterMalloc 8 11 128) := by
    refine reach_afterMalloc (reach_afterMalloc .start (allowed_of_le ?_) ?_) (allowed_of_le ?_) ?_
    all_goals decide
  have hfree : NvStep (((nvStart 4 100 fun _ => 0).afterMalloc 100 10 0).afterMalloc 8 11 128)
      (.free 8 20 30) firstFreed := by
    refine .free (b := ⟨0, 128⟩) (r := 0) ?_ (Prog.returns_of_value? ?_)
    all_goals decide
  have hrun : Runs.Reach (NotHandedOut (8 - 8)) (fun c op => op.Allowed c) firstFreed
      firstReleased := by
    refine .step (.step .start (allowed_of_le ?_) (notHandedOut_malloc ?_ ?_))
      (show NvOp.Allowed _ (.free _ _ _) from trivial) (notHandedOut_free ?_ ?_)
    all_goals decide
  exact nvfree_twice (by decide) hbefore hfree hrun 200 200

end Zalloc
