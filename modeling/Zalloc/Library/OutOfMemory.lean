import Zalloc.Library.Init

/-!
# Out of memory

When the tree refuses a request it returns `(uint64_t) -1`. `buddy_xmalloc` tests for that with
`pos < 0`, which is false for every `uint64_t`, and adds the number to `memblock`: the answer is the
address of the byte in front of the mapping, and none of the callers takes it for a failure.

## Main definitions

* `BootInv st`: if initialisation has succeeded, there is a tree and `memblock` is a proper address.

## Main results

* `reach_bootInv`: this holds in every run, whatever is asked for.
* `refused_not_null`: no entry point reports a refused request.
-/

set_option autoImplicit false

namespace Zalloc

/-! ## What every run keeps -/

/-- If initialisation has succeeded, there is a tree, and `memblock` is the address of a mapping. -/
def BootInv (st : Lib) : Prop :=
  st.isInit = true →
    (∃ b, st.buddy = some b) ∧ pageSize ≤ st.memblock ∧ st.memblock + 2 ^ 31 ≤ 2 ^ 64

section Boot

variable {o : Outcome} {st l : Lib} {s r n ptr : ℕ} {c c' : LConfig}

/-- `init_` keeps the invariant, and there is a tree afterwards. -/
theorem BootInv.init (h : BootInv st) (o : Outcome) :
    BootInv (init_ o st) ∧ ∃ b, (init_ o st).buddy = some b := by
  by_cases hinit : st.isInit = true
  · rw [init_of_isInit hinit]
    exact ⟨h, (h hinit).1⟩
  · have hbody : init_ o st = initBody o st := by rw [init_, if_neg hinit]
    obtain ⟨b, hb, -⟩ := exists_buddyNew o.memory
    have hbuddy : (initBody o st).buddy = some b := by rw [initBody_buddy, hb]
    rw [hbody]
    refine ⟨fun hinit' => ⟨⟨b, hbuddy⟩, ?_⟩, b, hbuddy⟩
    -- `isInit` is only set once there is a mapping
    by_cases hreach : ReachesMmap o st
    · cases hm : o.mapping with
      | none => exact absurd ((initBody_of_none hreach hm).symm.trans hinit') hinit
      | some m =>
        rw [(initBody_of_mapping hreach hm).1]
        exact ⟨Nat.le_of_dvd m.base_pos m.aligned, m.le⟩
    · exact absurd ((initBody_of_not_reaches hreach).2.symm.trans hinit') hinit

/-- A new tree, or other bytes, change nothing about it. -/
theorem BootInv.set (h : BootInv st) (b : Buddy) (mem : Memory) :
    BootInv { st with buddy := some b, mem } :=
  fun hinit => ⟨⟨b, rfl⟩, (h hinit).2⟩

theorem BootInv.setMem (h : BootInv st) (mem : Memory) : BootInv { st with mem } :=
  fun hinit => h hinit

theorem BootInv.xmalloc (h : BootInv st) (hret : (buddyXmalloc o s).Returns st l r) :
    BootInv l := by
  obtain ⟨h', b, hb⟩ := h.init o
  obtain ⟨m, -, -, rfl, -⟩ := (returns_buddyXmalloc_iff hb).1 hret
  exact h'.set m.self _

theorem BootInv.xfree (h : BootInv st) (hret : (buddyXfree o ptr).Returns st l ()) :
    BootInv l := by
  obtain ⟨h', b, hb⟩ := h.init o
  obtain ⟨-, m, -, rfl⟩ := (returns_buddyXfree_iff hb).1 hret
  exact h'.set m.self _

theorem BootInv.getSize (h : BootInv st) (hret : (buddyGetSize o ptr).Returns st l n) :
    BootInv l := by
  obtain ⟨h', b, hb⟩ := h.init o
  obtain ⟨m, -, rfl⟩ := (returns_buddyGetSize_iff hb).1 hret
  exact h'.set m.self _

/-- Every call that returns keeps the invariant. -/
theorem BootInv.step {call : Call} (h : BootInv c.lib) (hs : LStep c call c') : BootInv c'.lib := by
  cases hs with
  | init => exact (h.init _).1
  | malloc hret => exact h.xmalloc hret
  | calloc hret =>
    obtain ⟨l₁, hxm, -, rfl⟩ := returns_calloc_iff.1 hret
    exact (h.xmalloc hxm).setMem _
  | free hp hret => exact h.xfree hret
  | getSize hret => exact h.getSize hret
  | realloc hp hret =>
    obtain ⟨l₁, hxm, hrest⟩ := returns_realloc_iff.1 hret
    have h₁ := h.xmalloc hxm
    split_ifs at hrest with hboth
    · obtain ⟨l₂, n, hsize, -, hfree⟩ := hrest
      exact ((h₁.getSize hsize).setMem _).xfree hfree
    · rwa [hrest]
  | write => exact h.setMem _

/-- Every run keeps the invariant. -/
theorem reach_bootInv {mem : Memory}
    (hreach : Runs.Reach LStep (fun _ _ => True) ⟨Lib.start mem, []⟩ c) : BootInv c.lib := by
  have hstart : BootInv (Lib.start mem) := fun hinit => absurd hinit (by simp [Lib.start])
  exact hreach.invariant (I := fun c => BootInv c.lib) hstart fun _ _ _ h _ hs => h.step hs

/-! ## Refused requests -/

section Refused

variable {b : Buddy} {m : Traced}

/-- The answer to a refused request is the byte in front of the mapping. -/
theorem BootInv.xmalloc_refused (h : BootInv st) (hinit : st.isInit = true)
    (hb : st.buddy = some b) (hrefused : (buddyAlloc s).Returns ⟨b, []⟩ m u64Max)
    (hself : m.self = b) (o : Outcome) :
    (buddyXmalloc o s).Returns st st (st.memblock - 1) ∧ st.memblock - 1 ≠ 0 := by
  obtain ⟨-, hlo, hhi⟩ := h hinit
  have hsame := init_of_isInit hinit o
  -- `memblock + (uint64_t) -1` wraps around once
  have hwrap : u64 (st.memblock + u64Max) = st.memblock - 1 := by
    simp only [u64, u64Max, pageSize] at hlo ⊢
    omega
  constructor
  · refine (returns_buddyXmalloc_iff (by rw [hsame, hb])).2 ⟨m, u64Max, hrefused, ?_, ?_⟩
    · rw [hself, hsame, ← hb]
    · rw [hsame, hwrap]
  · simp only [pageSize] at hlo
    omega

/-- In every initialised state that a run can reach, whatever it has asked for, no entry point
reports a refused request: `buddy_xmalloc` and `malloc` return the byte in front of the mapping,
`posix_memalign` stores it and returns `0`, and `calloc` and `realloc` never return `NULL`. -/
theorem refused_not_null {mem : Memory}
    (hreach : Runs.Reach LStep (fun _ _ => True) ⟨Lib.start mem, []⟩ c)
    (hinit : c.lib.isInit = true) (hb : c.lib.buddy = some b)
    (hrefused : (buddyAlloc s).Returns ⟨b, []⟩ m u64Max) (hself : m.self = b) (o : Outcome) :
    ¬ (∃ l, (buddyXmalloc o s).Returns c.lib l 0) ∧
    ¬ (∃ l, (malloc o s).Returns c.lib l 0) ∧
    (∀ num size, u64 (num * size) = s → ¬ ∃ l, (calloc o num size).Returns c.lib l 0) ∧
    (∀ align, ¬ ∃ l code res, (posixMemalign o align s).Returns c.lib l (code, res) ∧ code ≠ 0) ∧
    (∀ o₂ o₃ ptr, ¬ ∃ l, (realloc o o₂ o₃ ptr s).Returns c.lib l 0) ∧
    (buddyXmalloc o s).Returns c.lib c.lib (c.lib.memblock - 1) ∧
    (malloc o s).Returns c.lib c.lib (c.lib.memblock - 1) ∧
    ∀ align, (posixMemalign o align s).Returns c.lib c.lib (0, some (c.lib.memblock - 1)) := by
  obtain ⟨hret, hne⟩ := (reach_bootInv hreach).xmalloc_refused hinit hb hrefused hself o
  -- there is one answer only, and it is not `NULL`
  have hxm : ¬ ∃ l, (buddyXmalloc o s).Returns c.lib l 0 := by
    rintro ⟨l, hzero⟩
    exact hne (Prog.returns_unique hret hzero).2
  have hmemalign : ∀ align,
      (posixMemalign o align s).Returns c.lib c.lib (0, some (c.lib.memblock - 1)) := by
    intro align
    refine hret.bind ?_
    rw [if_neg hne]
    exact Prog.returns_pure _ _
  refine ⟨hxm, hxm, ?_, ?_, ?_, hret, hret, hmemalign⟩
  · -- `calloc` and `realloc` return what the request has returned
    rintro num size rfl ⟨l, hzero⟩
    obtain ⟨l₁, hcall, -⟩ := returns_calloc_iff.1 hzero
    exact hxm ⟨l₁, hcall⟩
  · rintro align ⟨l, code, res, hcode, hpos⟩
    have hpair := (Prog.returns_unique (hmemalign align) hcode).2
    exact hpos (congrArg Prod.fst hpair).symm
  · rintro o₂ o₃ ptr ⟨l, hzero⟩
    obtain ⟨l₁, hcall, -⟩ := returns_realloc_iff.1 hzero
    exact hxm ⟨l₁, hcall⟩

end Refused

end Boot

/-! ## A request that exceeds the arena -/

theorem allocSize_large : allocSize (2 ^ 32) = 2 ^ 20 := by decide

/-- After one request for a page the tree refuses one for `2 ^ 32` bytes. -/
theorem refused_onePage :
    ∃ b, onePage.lib.buddy = some b ∧
      (buddyAlloc (2 ^ 32)).Returns ⟨b, []⟩ ⟨b, []⟩ u64Max := by
  obtain ⟨b, blocks, t, h⟩ := isReady_onePage
  have hlevel : b.level = pageLevel := h.inv.level
  have hlarge : 2 ^ b.level < allocSize (2 ^ 32) := by
    rw [hlevel, allocSize_large]
    decide
  exact ⟨b, h.buddy, buddyAlloc_of_lt (m := ⟨b, []⟩) hlarge⟩

/-- After one request for a page, no entry point reports that there are no `2 ^ 32` bytes. -/
theorem refused_not_null_onePage :
    ¬ (∃ l, (buddyXmalloc mappedFile (2 ^ 32)).Returns onePage.lib l 0) ∧
    ¬ (∃ l, (calloc mappedFile (2 ^ 16) (2 ^ 16)).Returns onePage.lib l 0) ∧
    ¬ (∃ l, (realloc mappedFile mappedFile mappedFile 4096 (2 ^ 32)).Returns onePage.lib l 0) := by
  obtain ⟨b, hb, hrefused⟩ := refused_onePage
  obtain ⟨_, _, _, h⟩ := isReady_onePage
  have hreach : Runs.Reach LStep (fun _ _ => True) ⟨Lib.start fun _ => none, []⟩ onePage :=
    reach_onePage.mono fun _ _ _ => trivial
  obtain ⟨hxm, -, hcalloc, -, hrealloc, -⟩ :=
    refused_not_null hreach h.isInit hb hrefused rfl mappedFile
  exact ⟨hxm, hcalloc _ _ (by decide), hrealloc _ _ _⟩

/-- The tree refuses `2 ^ 32` bytes and is unchanged, and the answer is the byte in front of the
mapping, where nothing is mapped. -/
theorem refused_before_mapping :
    (∃ b, onePage.lib.buddy = some b ∧
      (buddyAlloc (2 ^ 32)).Returns ⟨b, []⟩ ⟨b, []⟩ u64Max) ∧
    (∃ l, (buddyXmalloc mappedFile (2 ^ 32)).Returns onePage.lib l 4095) ∧
    (4095 : ℕ) ≠ 0 ∧ onePage.lib.mem 4095 = none :=
  ⟨refused_onePage, ⟨_, Prog.returns_of_value? (n := 64) (by decide +kernel)⟩, by decide,
    by decide +kernel⟩

end Zalloc
