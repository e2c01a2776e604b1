import Zalloc.Foundations.Runs
import Zalloc.Nvmalloc.Calls

/-!
# Runs of `nvmalloc`

A configuration is the state of the allocator together with the blocks that are live and the blocks
that have been freed so far, which the source does not keep. The steps are the calls of `nvmalloc`,
the calls of `nvfree` for a live block, and the writes of a client to its live blocks.

## Main definitions

* `NvStep c op c'`: a call that returns, or a write.
* `NvOp.Allowed c op`: the sizes fit in 32 bits.
* `NvOp.InTime c op`: the times fit in 64 bits.
* `NvConfig.waiting c`: the blocks that have been freed and not released.
* `NvReady freeWait c`: the invariant of a configuration.

## Main results

* `NvReady.step`, `reach_nvReady`: the invariant holds in every run.
-/

set_option autoImplicit false

namespace Zalloc

/-! ## Configurations -/

/-- The allocator, the live blocks and the blocks that have been freed. -/
structure NvConfig where
  /-- The allocator. -/
  st : NvState
  /-- The blocks that have been handed out and not been freed. -/
  live : List NvBlock
  /-- The blocks that have been freed, in this order. -/
  freed : List Waiting

/-- The blocks that have been freed and not yet released. -/
def NvConfig.waiting (c : NvConfig) : List Waiting := c.freed.drop c.st.released.length

/-- The actions. The answers of the system and of the clock are part of them. -/
inductive NvOp where
  /-- `nvmalloc`. -/
  | malloc (size : ℕ) (grows : Growth) (now : ℕ)
  /-- `nvfree`. -/
  | free (addr added now : ℕ)
  /-- The client writes a word. -/
  | store (x : ℕ) (v : BitVec 64)

/-- A call that returns, or a write. -/
inductive NvStep : NvConfig → NvOp → NvConfig → Prop
  /-- A block is handed out. -/
  | served {c : NvConfig} {st' : NvState} {size now location : ℕ} {grows : Growth}
      (h : (nvmalloc size grows now).Returns c.st st' (some (location + 8))) :
      NvStep c (.malloc size grows now)
        ⟨st', ⟨location, baseSize * blockUnits size⟩ :: c.live, c.freed⟩
  /-- There is no more memory. -/
  | refused {c : NvConfig} {st' : NvState} {size now : ℕ} {grows : Growth}
      (h : (nvmalloc size grows now).Returns c.st st' none) :
      NvStep c (.malloc size grows now) ⟨st', c.live, c.freed⟩
  /-- A live block is freed. -/
  | free {c : NvConfig} {st' : NvState} {b : NvBlock} {added now : ℕ} {r : ℤ} (hmem : b ∈ c.live)
      (h : (nvfree (b.location + 8) added now).Returns c.st st' r) :
      NvStep c (.free (b.location + 8) added now) ⟨st', c.live.erase b, c.freed ++ [⟨b, added⟩]⟩
  /-- A word behind the header of a live block is written. -/
  | store {c : NvConfig} {b : NvBlock} {x : ℕ} {v : BitVec 64} (hmem : b ∈ c.live)
      (hlo : b.location + 8 ≤ x) (hhi : x + 8 ≤ b.location + b.size) :
      NvStep c (.store x v)
        ⟨{ c.st with mem := Function.update c.st.mem x v }, c.live, c.freed⟩

/-- The size of the block fits in 32 bits, and the arena stays below 4 GiB. -/
def NvOp.Allowed (c : NvConfig) : NvOp → Prop
  | .malloc size grows _ => size + 8 ≤ 2 ^ 32 - baseSize ∧
      (grows = .granted → c.st.freeZone + baseSize * blockUnits size > c.st.endAddress →
        c.st.endAddress + growth (baseSize * blockUnits size) < 2 ^ 32)
  | .free _ _ _ => True
  | .store _ _ => True

/-- The time at which a block may be released does not wrap. -/
def NvOp.InTime (c : NvConfig) : NvOp → Prop
  | .malloc _ _ _ => True
  | .free _ added _ => added + c.st.dontAllocateWait < 2 ^ 64
  | .store _ _ => True

instance (c : NvConfig) : (op : NvOp) → Decidable (op.InTime c)
  | .malloc _ _ _ => inferInstanceAs (Decidable True)
  | .free _ added _ => inferInstanceAs (Decidable (added + c.st.dontAllocateWait < 2 ^ 64))
  | .store _ _ => inferInstanceAs (Decidable True)

/-- The allocator after `nvmalloc_init`. -/
def nvStart (nrPages freeWait : ℕ) (mem : ℕ → BitVec 64) : NvConfig :=
  ⟨nvmallocInit nrPages freeWait mem, [], []⟩

/-! ## The invariant -/

/-- The block has been released as it was freed, and not too early. -/
structure ReleasedAs (freeWait : ℕ) (r : Release) (w : Waiting) : Prop where
  /-- It is this block. -/
  location : r.location = w.location
  /-- With its size. -/
  size : r.size = w.size
  /-- Its time had come. -/
  due : u64 (u64 w.timeAdded + freeWait) ≤ r.time

/-- The invariant of a configuration. -/
structure NvReady (freeWait : ℕ) (c : NvConfig) : Prop where
  /-- The invariant of the allocator. -/
  inv : NvInv c.st [] c.live c.waiting
  /-- The time in the list is that of `nvmalloc_init`. -/
  wait : c.st.dontAllocateWait = freeWait
  /-- Nothing has been printed. -/
  reports : c.st.reports = []
  /-- The blocks that have been released are the ones that were freed first. -/
  released : List.Forall₂ (ReleasedAs freeWait) c.st.released (c.freed.take c.st.released.length)

section

variable {nrPages freeWait size now : ℕ} {grows : Growth} {c c' : NvConfig} {op : NvOp}
  {st st' : NvState} {live : List NvBlock} {done waiting waiting' freed : List Waiting}

/-- The blocks that have been released, and the ones that have not. -/
theorem nvReady_of_append (hinv : NvInv st [] live waiting) (hwait : st.dontAllocateWait = freeWait)
    (hreports : st.reports = []) (hdone : List.Forall₂ (ReleasedAs freeWait) st.released done) :
    NvReady freeWait ⟨st, live, done ++ waiting⟩ := by
  have hlength := hdone.length_eq
  refine ⟨?_, hwait, hreports, ?_⟩
  · rw [NvConfig.waiting, hlength, List.drop_left]
    exact hinv
  · rw [hlength, List.take_left]
    exact hdone

/-- `incrementTime` keeps the invariant. -/
theorem Ticked.nvReady (h : Ticked st now waiting st' waiting') (hinv : NvInv st' [] live waiting')
    (hwait : st.dontAllocateWait = freeWait) (hreports : st.reports = [])
    (hdone : List.Forall₂ (ReleasedAs freeWait) st.released done) :
    NvReady freeWait ⟨st', live, done ++ waiting⟩ := by
  cases h with
  | keeps => exact nvReady_of_append hinv hwait hreports hdone
  | @releases w _ head tail _ hdue hfreed =>
    rw [List.append_cons]
    refine nvReady_of_append hinv (hfreed.wait.trans hwait) (hfreed.reports.trans hreports) ?_
    rw [hfreed.released]
    refine List.rel_append hdone (.cons ⟨rfl, rfl, ?_⟩ .nil)
    rw [← hwait]
    exact hdue

/-- The allocator is ready after `nvmalloc_init`. -/
theorem nvReady_start (hpages : nrPages * nvPageSize < 2 ^ 32) (mem : ℕ → BitVec 64) :
    NvReady freeWait (nvStart nrPages freeWait mem) := by
  have hbytes : u32 (nrPages * nvPageSize) = nvPageSize * nrPages := by
    rw [u32_eq hpages, Nat.mul_comm]
  have hbit : ∀ u, (nvmallocInit nrPages freeWait mem).bit u = false := fun u => Nat.zero_testBit _
  have hzone : (nvmallocInit nrPages freeWait mem).zone = 0 := Nat.zero_div _
  refine ⟨⟨⟨(Nat.mul_div_cancel' (Nat.dvd_zero baseSize)).symm, hzone.le.trans (Nat.zero_le _), ?_, ?_,
      fun _ p hp => absurd hp List.not_mem_nil⟩,
    ⟨List.forall_mem_nil _, List.forall_mem_nil _, List.forall_mem_nil _, List.Pairwise.nil,
      fun u _ => ?_, .inl hzone⟩, fun a n hgap => ?_, List.forall_mem_nil _, List.forall_mem_nil _,
    .inl ⟨rfl, rfl, rfl⟩⟩, rfl, rfl, .nil⟩
  · show u32 (nrPages * nvPageSize) = 512 * (u32 (nrPages * nvPageSize) / baseSize / 8)
    rw [hbytes]
    simp only [nvPageSize, baseSize]
    omega
  · show u32 (nrPages * nvPageSize) / baseSize / 8 < 2 ^ 23
    rw [hbytes]
    simp only [nvPageSize, baseSize] at hpages ⊢
    omega
  · show (nvmallocInit nrPages freeWait mem).bit u = true ↔ _
    rw [hbit u]
    refine ⟨fun hno => absurd hno Bool.false_ne_true, ?_⟩
    rintro ⟨b, hb, -⟩
    exact absurd hb List.not_mem_nil
  · have hpos := hgap.pos
    have hle : a + n ≤ 0 := hgap.le.trans hzone.le
    omega

/-- A write of the client keeps the invariant. -/
theorem NvInv.store {b : NvBlock} {x : ℕ} {v : BitVec 64} (h : NvInv st [] live waiting)
    (hb : b ∈ live) (hlo : b.location + 8 ≤ x) (hhi : x + 8 ≤ b.location + b.size) :
    NvInv { st with mem := Function.update st.mem x v } [] live waiting := by
  have hperm := List.perm_cons_erase hb
  refine ((h.take_live hperm).write_transit (List.mem_singleton_self b)
    ⟨by omega, by omega⟩ v).put_live ?_ hperm
  show (Function.update st.mem x v b.location).toInt = _
  rw [Function.update_of_ne (by omega)]
  exact h.liveHeader b hb

/-- A step keeps the invariant. -/
theorem NvReady.step (h : NvReady freeWait c) (hok : op.Allowed c) (hs : NvStep c op c') :
    NvReady freeWait c' := by
  have hsplit : c.freed = c.freed.take c.st.released.length ++ c.waiting :=
    (List.take_append_drop ..).symm
  cases hs with
  | @served st' size now location grows hret =>
    obtain ⟨st₁, waiting', hserved⟩ := h.inv.served hok.1 hok.2 hret
    rw [hsplit]
    refine hserved.tick.nvReady hserved.inv (hserved.same.wait.trans h.wait)
      (hserved.same.reports.trans h.reports) ?_
    rw [hserved.same.released]
    exact h.released
  | @refused st' size now grows hret =>
    obtain ⟨lists, rfl, -, hinv⟩ := h.inv.refused hok.1 hok.2 hret
    exact ⟨hinv, h.wait, h.reports, h.released⟩
  | @free st' b added now r hmem hret =>
    obtain ⟨mem, head, tail, st₁, waiting', htick, hinv, hret'⟩ :=
      h.inv.returns_nvfree (List.perm_cons_erase hmem) added now
    obtain ⟨rfl, -⟩ := Prog.returns_unique hret hret'
    have hfreed : c.freed ++ [⟨b, added⟩] =
        c.freed.take c.st.released.length ++ (c.waiting ++ [⟨b, added⟩]) := by
      rw [← List.append_assoc, ← hsplit]
    rw [hfreed]
    exact htick.nvReady hinv h.wait h.reports h.released
  | store hmem hlo hhi => exact ⟨h.inv.store hmem hlo hhi, h.wait, h.reports, h.released⟩

/-- The invariant holds in every run. -/
theorem reach_nvReady (hpages : nrPages * nvPageSize < 2 ^ 32) {mem : ℕ → BitVec 64}
    (h : Runs.Reach NvStep (fun c op => op.Allowed c) (nvStart nrPages freeWait mem) c) :
    NvReady freeWait c :=
  h.invariant (nvReady_start hpages mem) fun _ _ _ hready hok hs => hready.step hok hs

end

/-! ## Runs on fixed inputs -/

section

variable {c : NvConfig} {b : NvBlock} {size now location added : ℕ} {ok : NvConfig → NvOp → Prop}
  {start : NvConfig}

/-- The configuration after a call of `nvmalloc` that does not need more memory. -/
def NvConfig.afterMalloc (c : NvConfig) (size now location : ℕ) : NvConfig :=
  ⟨((nvmalloc size .refused now).exec 100 c.st).state,
    ⟨location, baseSize * blockUnits size⟩ :: c.live, c.freed⟩

/-- The configuration after a call of `nvfree`. -/
def NvConfig.afterFree (c : NvConfig) (b : NvBlock) (added now : ℕ) : NvConfig :=
  ⟨((nvfree (b.location + 8) added now).exec 100 c.st).state, c.live.erase b,
    c.freed ++ [⟨b, added⟩]⟩

theorem allowed_of_le (h : size + 8 ≤ 2 ^ 32 - baseSize) :
    NvOp.Allowed c (.malloc size .refused now) :=
  ⟨h, nofun⟩

theorem reach_afterMalloc (h : Runs.Reach NvStep ok start c)
    (hok : ok c (.malloc size .refused now))
    (hret : ((nvmalloc size .refused now).exec 100 c.st).value? = some (some (location + 8))) :
    Runs.Reach NvStep ok start (c.afterMalloc size now location) :=
  .step h hok (.served (Prog.returns_of_value? hret))

theorem reach_afterFree (h : Runs.Reach NvStep ok start c)
    (hok : ok c (.free (b.location + 8) added now)) (hmem : b ∈ c.live)
    (hret : ((nvfree (b.location + 8) added now).exec 100 c.st).value? = some 0) :
    Runs.Reach NvStep ok start (c.afterFree b added now) :=
  .step h hok (.free hmem (Prog.returns_of_value? hret))

end

/-- An arena of four pages. The first block has been freed. -/
def firstFreed : NvConfig :=
  ((((nvStart 4 100 fun _ => 0).afterMalloc 100 10 0).afterMalloc 8 11 128).afterFree ⟨0, 128⟩
    20 30)

/-- Now it has been released. The second block is waiting, and the third one is live. -/
def firstReleased : NvConfig := (firstFreed.afterMalloc 8 120 192).afterFree ⟨128, 64⟩ 130 130

theorem reach_firstReleased :
    Runs.Reach NvStep (fun c op => op.Allowed c ∧ op.InTime c) (nvStart 4 100 fun _ => 0)
      firstReleased := by
  refine reach_afterFree (reach_afterMalloc (reach_afterFree (reach_afterMalloc
    (reach_afterMalloc .start ⟨allowed_of_le ?_, trivial⟩ ?_) ⟨allowed_of_le ?_, trivial⟩ ?_)
    ⟨trivial, ?_⟩ ?_ ?_) ⟨allowed_of_le ?_, trivial⟩ ?_) ⟨trivial, ?_⟩ ?_ ?_
  all_goals decide

end Zalloc
