import Zalloc.Nvmalloc.Run

/-!
# The don't-allocate list

A block that has been freed is appended to the don't-allocate list, which is threaded through the
blocks themselves. The blocks are released in the order in which they were freed, and none of them
before its time.

## Main definitions

* `ReleasedInTime freeWait r w`: the block `w` has been released once its time had come.
* `Quarantine freeWait c`: what holds of the list.
* `TimesFit freeWait c`: the times of the freed blocks do not wrap.

## Main results

* `nvmalloc_quarantine`: this holds in every run of allowed steps in which the times do not wrap.
* `not_quarantine`: it does not hold after a request that is rounded up to zero units.
-/

set_option autoImplicit false

namespace Zalloc

/-- The block `w` has been released with its size, once its time had come. -/
structure ReleasedInTime (freeWait : ℕ) (r : Release) (w : Waiting) : Prop where
  /-- It is this block. -/
  location : r.location = w.location
  /-- With its size. -/
  size : r.size = w.size
  /-- Its time had come. -/
  due : w.timeAdded + freeWait ≤ r.time

/-- What holds of the don't-allocate list. -/
structure Quarantine (freeWait : ℕ) (c : NvConfig) : Prop where
  /-- The nodes of the list are the blocks that have been freed and not released, in this order. -/
  queue : Queue c.st c.waiting
  /-- No block is in the list twice. -/
  nodup : (c.waiting.map fun w => w.location).Nodup
  /-- The `n` blocks that have been released are the first `n` that were freed. -/
  released : List.Forall₂ (ReleasedInTime freeWait) c.st.released
    (c.freed.take c.st.released.length)
  /-- No live block overlaps a block in the list. -/
  live : ∀ b ∈ c.live, ∀ w ∈ c.waiting, NvBlock.Apart b w.toNvBlock
  /-- Nor does a block that is handed out. -/
  malloc : ∀ size grows now, (NvOp.malloc size grows now).Allowed c → ∀ st' location,
    (nvmalloc size grows now).Returns c.st st' (some (location + 8)) →
      ∀ w ∈ c.waiting, NvBlock.Apart ⟨location, baseSize * blockUnits size⟩ w.toNvBlock

section

variable {freeWait nrPages : ℕ} {c c' : NvConfig} {op : NvOp}

/-- The blocks of the list start at different offsets. -/
theorem NvReady.nodup (h : NvReady freeWait c) : (c.waiting.map fun w => w.location).Nodup := by
  have hapart := (List.pairwise_append.1 h.inv.occupied.apart).2.1
  have hwaiting := (List.pairwise_append.1 hapart).2.1
  refine List.pairwise_map.2 ((List.pairwise_map.1 hwaiting).imp_of_mem ?_)
  intro w w' hw hw' hoff heq
  have hpos := h.inv.occupied.pos _ (NvInv.mem_waiting hw)
  have hpos' := h.inv.occupied.pos _ (NvInv.mem_waiting hw')
  rcases hoff with hle | hle
  · omega
  · omega

/-- A block that is handed out does not overlap one in the list. -/
theorem NvReady.apart_waiting (h : NvReady freeWait c) {size now location : ℕ} {grows : Growth}
    (hok : (NvOp.malloc size grows now).Allowed c) {st' : NvState}
    (hret : (nvmalloc size grows now).Returns c.st st' (some (location + 8))) {w : Waiting}
    (hw : w ∈ c.waiting) :
    NvBlock.Apart ⟨location, baseSize * blockUnits size⟩ w.toNvBlock := by
  obtain ⟨st₁, waiting', hserved⟩ := h.inv.served hok.1 hok.2 hret
  have hapart := (List.pairwise_append.1 hserved.inv₁.occupied.apart).2.1
  exact (List.pairwise_append.1 hapart).2.2 _ (List.mem_cons_self ..) _ (List.mem_map_of_mem hw)

/-- The configuration is ready, and the times of the freed blocks do not wrap. -/
def TimesFit (freeWait : ℕ) (c : NvConfig) : Prop :=
  NvReady freeWait c ∧ ∀ w ∈ c.freed, w.timeAdded + freeWait < 2 ^ 64

/-- In a run in which the times do not wrap, those of the freed blocks do not. -/
theorem TimesFit.step (h : TimesFit freeWait c) (hok : op.InTime c) (hs : NvStep c op c') :
    ∀ w ∈ c'.freed, w.timeAdded + freeWait < 2 ^ 64 := by
  obtain ⟨hready, h⟩ := h
  cases hs with
  | served hret => exact h
  | refused hret => exact h
  | @free st' b added now r hmem hret =>
    intro w hw
    rcases List.mem_append.1 hw with hw | hw
    · exact h w hw
    · have htime : added + c.st.dontAllocateWait < 2 ^ 64 := hok
      rw [hready.wait] at htime
      rw [List.mem_singleton.1 hw]
      exact htime
  | store hmem hlo hhi => exact h

/-- The blocks have been released in time, if the times do not wrap. -/
theorem NvReady.quarantine (h : NvReady freeWait c)
    (htime : ∀ w ∈ c.freed, w.timeAdded + freeWait < 2 ^ 64) : Quarantine freeWait c := by
  have hapart := (List.pairwise_append.1 h.inv.occupied.apart).2.1
  refine ⟨h.inv.queue, h.nodup, ?_, fun b hb w hw => (List.pairwise_append.1 hapart).2.2 b hb _
    (List.mem_map_of_mem hw), fun size grows now hok st' location hret w hw =>
    h.apart_waiting hok hret hw⟩
  obtain ⟨hlength, hreleased⟩ := List.forall₂_iff_zip.1 h.released
  refine List.forall₂_iff_zip.2 ⟨hlength, fun {r w} hmem => ?_⟩
  have has := hreleased hmem
  have hlt := htime w (List.mem_of_mem_take (List.of_mem_zip hmem).2)
  have hdue := has.due
  rw [u64, u64, Nat.mod_eq_of_lt (show w.timeAdded < 2 ^ 64 by omega), Nat.mod_eq_of_lt hlt] at hdue
  exact ⟨has.location, has.size, hdue⟩

/-- In every run of allowed steps in which the times do not wrap, the blocks are released in the
order in which they were freed, and not too early. -/
theorem nvmalloc_quarantine (hpages : nrPages * nvPageSize < 2 ^ 32) {mem : ℕ → BitVec 64}
    (h : Runs.Reach NvStep (fun c op => op.Allowed c ∧ op.InTime c) (nvStart nrPages freeWait mem)
      c) : Quarantine freeWait c := by
  obtain ⟨hready, htime⟩ := h.invariant (I := TimesFit freeWait)
    ⟨nvReady_start hpages mem, List.forall_mem_nil _⟩
    fun _ _ _ hinv hok hs => ⟨hinv.1.step hok.1 hs, hinv.step hok.2 hs⟩
  exact hready.quarantine htime

end

/-- One block has been released, 100 ticks after it was freed, and another one is waiting. -/
theorem nvmalloc_quarantine_firstReleased :
    firstReleased.st.released = [⟨0, 128, 120⟩] ∧ firstReleased.waiting = [⟨⟨128, 64⟩, 130⟩] ∧
      Quarantine 100 firstReleased :=
  ⟨by decide +kernel, by decide +kernel, nvmalloc_quarantine (by decide) reach_firstReleased⟩

/-- A request that is rounded up to zero units is answered with the start of the free zone, which is
freed, and handed out once more while it is in the list. -/
def overlapping : NvConfig :=
  ((((nvStart 4 100 fun _ => 0).afterMalloc 8 10 0).afterMalloc (2 ^ 32 - 9) 11 64).afterFree
    ⟨64, 2 ^ 32⟩ 20 20).afterMalloc 8 30 64

/-- The block is freed once more, and its successor in the list is itself. -/
def requeued : NvConfig := overlapping.afterFree ⟨64, 64⟩ 40 40

theorem reach_overlapping :
    Runs.Reach NvStep (fun c op => op.InTime c) (nvStart 4 100 fun _ => 0) overlapping := by
  refine reach_afterMalloc (reach_afterFree (reach_afterMalloc (reach_afterMalloc .start trivial ?_)
    trivial ?_) ?_ ?_ ?_) trivial ?_
  all_goals decide

/-- After a request that is rounded up to zero units, a block is handed out that is in the list, and
a block is in the list twice. -/
theorem not_quarantine :
    (Runs.Reach NvStep (fun c op => op.InTime c) (nvStart 4 100 fun _ => 0) overlapping ∧
      ¬ Quarantine 100 overlapping) ∧
    Runs.Reach NvStep (fun c op => op.InTime c) (nvStart 4 100 fun _ => 0) requeued ∧
      ¬ Quarantine 100 requeued := by
  refine ⟨⟨reach_overlapping, fun h => ?_⟩, reach_afterFree reach_overlapping ?_ ?_ ?_, fun h => ?_⟩
  · -- the live block and the waiting one start at the same offset
    have hlive : (⟨64, 64⟩ : NvBlock) ∈ overlapping.live := by decide
    have hwaiting : (⟨⟨64, 2 ^ 32⟩, 20⟩ : Waiting) ∈ overlapping.waiting := by decide +kernel
    rcases h.live _ hlive _ hwaiting with hle | hle
    · exact absurd hle (by decide)
    · exact absurd hle (by decide)
  · decide
  · decide
  · decide +kernel
  · exact absurd h.nodup (by decide +kernel)

end Zalloc
