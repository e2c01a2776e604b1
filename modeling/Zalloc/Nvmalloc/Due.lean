import Zalloc.Nvmalloc.AnySize
import Zalloc.Nvmalloc.Blocks
import Zalloc.Nvmalloc.Frame

/-!
# When freed blocks come back

A call of `nvfree`, and a call of `nvmalloc` that hands out a block, take the first block out of the
don't-allocate list exactly if its time has come. With the waiting time zero that `nv_alloc.c` asks
for, no block ever stays in the list, so the free zone starts behind the last live block. A call of
`nvmalloc` that is refused takes nothing out of the list, so that it is of no use to try again.

## Main definitions

* `releasedBy wait now waiting`: what a call at the time `now` takes from the list.
* `Compact c`: nothing but the live blocks is in use.
* `Starved k c`: there is neither a hint for `k` units nor room in the free zone.

## Main results

* `NvInv.released_incrementTime`: `incrementTime` releases a block exactly if its time has come.
* `nv_compact`: with the waiting time zero, nothing but the live blocks is in use.
* `retry_starves`: a client that is refused and only tries again is never served.
-/

set_option autoImplicit false

namespace Zalloc

/-! ## `incrementTime` -/

/-- What a call at the time `now` takes from the don't-allocate list. -/
def releasedBy (wait now : ℕ) : List Waiting → List Release
  | [] => []
  | w :: _ => if u64 (u64 w.timeAdded + wait) ≤ now then [⟨w.location, w.size, now⟩] else []

section

variable {st st' : NvState} {live live' : List NvBlock} {waiting : List Waiting} {b : NvBlock}
  {size now added location : ℕ} {grows : Growth}

/-- `incrementTime` releases the first block exactly if its time has come. -/
theorem NvInv.released_incrementTime (h : NvInv st [] live waiting)
    (hret : (incrementTime now).Returns st st' ()) :
    st'.released = st.released ++ releasedBy st.dontAllocateWait now waiting := by
  cases waiting with
  | nil =>
    obtain ⟨rfl, -⟩ := Prog.returns_unique hret (returns_incrementTime_nil h.queue.nil.1)
    exact (List.append_nil _).symm
  | cons w rest =>
    by_cases hdue : u64 (u64 w.timeAdded + st.dontAllocateWait) ≤ now
    · obtain ⟨-, head, tail, hinv₁, hpop⟩ := h.pop
      obtain ⟨u, k, hu, hk, -⟩ :=
        h.occupied.units h.shape (NvInv.mem_waiting (List.mem_cons_self ..))
      let st₂ : NvState := { st with
        dontAllocateListHead := head
        dontAllocateListTail := tail
        released := st.released ++ [⟨w.location, w.size, now⟩] }
      have hinv₂ : NvInv st₂ [⟨baseSize * u, baseSize * k⟩] live rest := by
        rw [← hu, ← hk]
        exact hinv₁.congr rfl rfl rfl rfl rfl h.shape.hints rfl rfl
      obtain ⟨st₃, st₄, totalSize, size, hextend, hinsert, -, hfreed⟩ := hinv₂.returns_release
      rw [← hu, ← hk] at hextend
      rw [← hu] at hinsert
      obtain ⟨rfl, -⟩ :=
        Prog.returns_unique hret (h.headAt.returns_releases hdue hpop hextend hinsert)
      rw [hfreed.released, releasedBy, if_pos hdue]
    · obtain ⟨rfl, -⟩ := Prog.returns_unique hret (h.headAt.returns_waits hdue)
      rw [releasedBy, if_neg hdue, List.append_nil]

/-! ## The calls -/

/-- A call of `nvmalloc` that hands out a block ends with `incrementTime`. -/
theorem NvInv.served_ticks (h : NvInv st [] live waiting) (hle : size + 8 ≤ 2 ^ 32 - baseSize)
    (hgrow : grows = .granted → st.freeZone + baseSize * blockUnits size > st.endAddress →
      st.endAddress + growth (baseSize * blockUnits size) < 2 ^ 32)
    (hret : (nvmalloc size grows now).Returns st st' (some (location + 8))) :
    ∃ st₁ live', NvInv st₁ [] live' waiting ∧ SameRecords st st₁ ∧
      (incrementTime now).Returns st₁ st' () := by
  have hsize : u32 (size + 8) = size + 8 := u32_eq (by simp only [baseSize] at hle; omega)
  have hpos : 0 < size + 8 := by omega
  cases h.locates hpos hle hgrow with
  | hit hhit hbit hinv hloop hlocate =>
    obtain ⟨mem, st₂, waiting', hinv₁, -, -, htime, hmalloc⟩ :=
      hinv.hands_out (by rwa [hsize]) now
    obtain ⟨rfl, -⟩ := Prog.returns_unique hret hmalloc
    exact ⟨_, _, hinv₁, ⟨rfl, rfl, rfl, rfl, rfl⟩, htime⟩
  | extended hmiss hext hinv hlocate =>
    obtain ⟨mem, st₂, waiting', hinv₁, -, -, htime, hmalloc⟩ :=
      hinv.hands_out (by rwa [hsize]) now
    obtain ⟨rfl, -⟩ := Prog.returns_unique hret hmalloc
    exact ⟨_, _, hinv₁, ⟨hext.records.head, hext.records.tail, hext.records.wait,
      hext.records.reports, hext.records.released⟩, htime⟩
  | @full lists hmiss hinv hlocate =>
    have hnone : (nvmalloc size grows now).Returns st { st with freeLists := lists } none := by
      unfold Zalloc.nvmalloc
      rw [hsize]
      exact hlocate.bind (Prog.returns_pure _ _)
    cases (Prog.returns_unique hret hnone).2
  | diverges hmiss hloop hnever =>
    rw [← hsize] at hloop hnever
    exact absurd hret (not_returns_nvmalloc hloop hnever)

/-- What a call of `nvmalloc` that hands out a block takes from the list. -/
theorem NvInv.released_nvmalloc (h : NvInv st [] live waiting)
    (hle : size + 8 ≤ 2 ^ 32 - baseSize)
    (hgrow : grows = .granted → st.freeZone + baseSize * blockUnits size > st.endAddress →
      st.endAddress + growth (baseSize * blockUnits size) < 2 ^ 32)
    (hret : (nvmalloc size grows now).Returns st st' (some (location + 8))) :
    st'.released = st.released ++ releasedBy st.dontAllocateWait now waiting := by
  obtain ⟨st₁, live', hinv, hsame, htime⟩ := h.served_ticks hle hgrow hret
  rw [hinv.released_incrementTime htime, hsame.released, hsame.wait]

/-- What a call of `nvfree` takes from the list. -/
theorem NvInv.released_nvfree (h : NvInv st [] live waiting) (hb : b ∈ live) {r : ℤ}
    (hret : (nvfree (b.location + 8) added now).Returns st st' r) :
    st'.released = st.released ++
      releasedBy st.dontAllocateWait now (waiting ++ [⟨b, added⟩]) := by
  obtain ⟨mem, head, tail, hinv, hput⟩ :=
    (h.take_live (List.perm_cons_erase hb)).returns_putInDNAList (h.liveHeader b hb) added
  obtain ⟨st₁, h₁, h₂⟩ := h.nvfree_parts hb hret
  obtain ⟨rfl, -⟩ := Prog.returns_unique hput h₁
  exact hinv.released_incrementTime h₂

end

/-! ## No waiting time -/

/-- The clock does not run backwards during a call. -/
def NvOp.Forward : NvOp → Prop
  | .malloc _ _ _ => True
  | .free _ added now => added ≤ now
  | .store _ _ => True

/-- Nothing but the live blocks is in use. -/
structure Compact (c : NvConfig) : Prop where
  /-- The don't-allocate list is empty. -/
  queue : c.waiting = [] ∧ c.st.dontAllocateListHead = nilOffset
  /-- The bits are those of the live blocks. -/
  bits : ∀ u, 64 * u < c.st.endAddress →
    (c.st.bit u = true ↔ ∃ b ∈ c.live, b.location ≤ 64 * u ∧ 64 * u + 64 ≤ b.location + b.size)
  /-- The live blocks are below the free zone. -/
  inside : ∀ b ∈ c.live, b.location + b.size ≤ c.st.freeZone
  /-- The last of them ends there. -/
  top : c.st.freeZone = 0 ∨ ∃ b ∈ c.live, b.location + b.size = c.st.freeZone

section

variable {freeWait nrPages size : ℕ} {c c' : NvConfig} {op : NvOp}

/-- All blocks that have been freed have been released. -/
theorem NvReady.released_step (h : NvReady 0 c) (hall : c.st.released.length = c.freed.length)
    (hok : op.Allowed c) (hforward : op.Forward) (hs : NvStep c op c') :
    c'.st.released.length = c'.freed.length := by
  have hwaiting : c.waiting = [] := by
    rw [NvConfig.waiting, hall, List.drop_length]
  cases hs with
  | served hret =>
    rw [h.inv.released_nvmalloc hok.1 hok.2 hret, hwaiting, releasedBy, List.append_nil]
    exact hall
  | @refused st' size now grows hret =>
    obtain ⟨lists, rfl, -⟩ := h.inv.refused hok.1 hok.2 hret
    exact hall
  | @free st' b added now r hb hret =>
    -- the block that is freed is released at once
    have hdue : u64 (u64 added + 0) ≤ now := by
      have hle : added ≤ now := hforward
      simp only [u64]
      omega
    rw [h.inv.released_nvfree hb hret, hwaiting, h.wait, List.nil_append, releasedBy, if_pos hdue,
      List.length_append, List.length_append, hall]
    rfl
  | store hb hlo hhi => exact hall

/-- When no block is waiting, nothing but the live blocks is in use. -/
theorem NvReady.compact (h : NvReady freeWait c) (hwaiting : c.waiting = []) : Compact c := by
  have hblocks := h.blocks
  have hlive : c.blocks = c.live := by
    rw [NvConfig.blocks, hwaiting]
    exact List.append_nil _
  have hqueue := hblocks.queue
  rw [hwaiting] at hqueue
  have hinside := hblocks.inside
  have hbits := hblocks.bits
  rw [hlive] at hinside hbits
  refine ⟨⟨hwaiting, hqueue.nil.1⟩, fun u hu => ?_, hinside, ?_⟩
  · by_cases hzone : 64 * u < c.st.freeZone
    · exact hbits u hzone
    · -- there is no block in the free zone
      have harena := hblocks.arena
      rw [hblocks.clear u (by omega) (by omega)]
      refine ⟨fun hno => absurd hno Bool.false_ne_true, ?_⟩
      rintro ⟨b, hb, hlo, hhi⟩
      have hle := hinside b hb
      omega
  · rcases hblocks.top with hzero | htop
    · exact .inl hzero
    · obtain ⟨⟨z, hz⟩, -⟩ := hblocks.freeZone
      by_cases hpos : z = 0
      · exact .inl (by omega)
      · -- the last unit below the free zone belongs to a block
        obtain ⟨b, hb, hlo, hhi⟩ := (hbits _ (by omega)).1 htop
        have hle := hinside b hb
        exact .inr ⟨b, hb, by omega⟩

/-- Where the waiting time is zero and the clock does not run backwards during a call, in every run
of allowed steps nothing but the live blocks is in use after a call. -/
theorem nv_compact (hpages : nrPages * nvPageSize < 2 ^ 32) {mem : ℕ → BitVec 64}
    (h : Runs.Reach NvStep (fun c op => op.Allowed c ∧ op.Forward) (nvStart nrPages 0 mem) c) :
    Compact c := by
  obtain ⟨hready, hall⟩ := h.invariant
    (I := fun c => NvReady 0 c ∧ c.st.released.length = c.freed.length)
    ⟨nvReady_start hpages mem, rfl⟩
    fun _ _ _ hc hok hs => ⟨hc.1.step hok.1 hs, hc.1.released_step hc.2 hok.1 hok.2 hs⟩
  refine hready.compact ?_
  rw [NvConfig.waiting, hall, List.drop_length]

end

/-- Two blocks have been handed out by the handler, and the first one has been freed. -/
def handlerFreed : NvConfig :=
  ((nvHandlerInit.afterMalloc 100 10 0).afterMalloc 8 11 128).afterFree ⟨0, 128⟩ 20 20

theorem reach_handlerFreed : Runs.Reach NvStep (fun c op => op.Allowed c ∧ op.Forward)
    nvHandlerInit handlerFreed := by
  refine reach_afterFree (reach_afterMalloc (reach_afterMalloc .start
    ⟨allowed_of_le ?_, trivial⟩ ?_) ⟨allowed_of_le ?_, trivial⟩ ?_) ⟨trivial, le_rfl⟩ ?_ ?_
  all_goals decide

/-- The second block ends at the free zone. -/
theorem nv_compact_handlerFreed :
    handlerFreed.live = [⟨128, 64⟩] ∧ handlerFreed.st.freeZone = 192 ∧ Compact handlerFreed :=
  ⟨by decide, by decide, nv_compact (by decide) reach_handlerFreed⟩

/-! ## Retries -/

/-- There is no hint for `k` units, and no room for them in the free zone. -/
structure Starved (k : ℕ) (c : NvConfig) : Prop where
  /-- The lists from the one for `k` units on are empty. -/
  lists : ∀ j, bucketOf k ≤ j → j ≤ nrSizes → c.st.freeLists j = []
  /-- There is no room in the free zone. -/
  full : c.st.endAddress < c.st.freeZone + baseSize * k

/-- The client tries again, for as much or more, and the system refuses more memory. -/
def Retries (size : ℕ) (c : NvConfig) (op : NvOp) : Prop :=
  op.Allowed c ∧ ∃ size' now, op = .malloc size' .refused now ∧ size ≤ size'

section

variable {st st' : NvState} {live : List NvBlock} {waiting : List Waiting} {c c' : NvConfig}
  {freeWait nrPages size k now : ℕ} {grows : Growth} {op : NvOp} {r : Option ℕ}

/-- The parts of `nvmalloc` that decide whether a block is handed out. -/
theorem nvmalloc_parts (hret : (nvmalloc size grows now).Returns st st' r) :
    ∃ s₁ found s₂ location, (nvSearch size).Returns st s₁ found ∧
      (orFreeZone (actualSizeOf (u32 (size + 8))) grows found).Returns s₁ s₂ location ∧
      r = location.map (· + 8) := by
  obtain ⟨s₀, ⟨location, actualSize⟩, hlocate, hret⟩ := Prog.returns_bind_iff.1 hret
  obtain ⟨s₁, found, hsearch, hlocate⟩ := Prog.returns_bind_iff.1 hlocate
  obtain ⟨s₂, freeLocation, hzone, hlocate⟩ := Prog.returns_bind_iff.1 hlocate
  refine ⟨s₁, found, s₂, freeLocation, hsearch, hzone, ?_⟩
  cases freeLocation with
  | none =>
    obtain ⟨-, heq⟩ := Prog.returns_pure_iff.1 hlocate
    obtain ⟨rfl, rfl⟩ := Prod.mk.inj heq
    exact (Prog.returns_pure_iff.1 hret).2
  | some a =>
    obtain ⟨s₃, _, -, hlocate⟩ := Prog.returns_bind_iff.1 hlocate
    obtain ⟨-, heq⟩ := Prog.returns_pure_iff.1 hlocate
    obtain ⟨rfl, rfl⟩ := Prod.mk.inj heq
    obtain ⟨s₄, _, -, hret⟩ := Prog.returns_bind_iff.1 hret
    obtain ⟨s₅, _, -, hret⟩ := Prog.returns_bind_iff.1 hret
    exact (Prog.returns_pure_iff.1 hret).2

/-- The search finds nothing, or there has been a hint. -/
theorem NvInv.searches (h : NvInv st [] live waiting) (hle : size + 8 ≤ 2 ^ 32 - baseSize)
    {found : Option ℕ} (hret : (nvSearch size).Returns st st' found) :
    (found = none ∧ ∃ lists, st' = { st with freeLists := lists } ∧
      Miss st (blockUnits size) (bucketOf (blockUnits size)) lists) ∨
    (∃ a, found = some a) ∧
      ∃ j, bucketOf (blockUnits size) ≤ j ∧ j ≤ nrSizes ∧ st.freeLists j ≠ [] := by
  have hsize : u32 (size + 8) = size + 8 := u32_eq (by simp only [baseSize] at hle; omega)
  have hpos : 0 < size + 8 := by omega
  rw [nvSearch, hsize, search_eq hpos hle] at hret
  cases h.ends hpos with
  | @miss lists hmiss hloop =>
    obtain ⟨rfl, rfl⟩ := Prog.returns_unique hret hloop
    exact .inl ⟨rfl, lists, rfl, hmiss⟩
  | hit hhit hloop =>
    obtain ⟨-, rfl⟩ := Prog.returns_unique hret hloop
    obtain ⟨lists', j, p, l, hsearched, hfirst, hlast, hl, -⟩ := hhit.found
    refine .inr ⟨⟨_, rfl⟩, j, hfirst, hlast, List.ne_nil_of_mem (hsearched.mem (p := p) ?_)⟩
    rw [hl]
    exact List.mem_cons_self ..

/-- When the system refuses more memory, a full free zone has no room. -/
theorem eq_none_of_full (hfull : st.endAddress < st.freeZone + size)
    (hret : (orFreeZone size .refused none).Returns st st' r) : r = none := by
  by_cases hpages : size ≤ 2 ^ 32 - nvPageSize
  · exact (Prog.returns_unique hret (returns_orFreeZone_none hfull hpages)).2
  · exact absurd hret (not_returns_orFreeZone hfull fun _ _ =>
      not_returns_getMoreMemory (by omega))

/-- After a request that has been refused there is nothing left for it. -/
theorem NvReady.starved (h : NvReady freeWait c) (hok : (NvOp.malloc size grows now).Allowed c)
    (hret : (nvmalloc size grows now).Returns c.st st' none) :
    st'.released = c.st.released ∧ Starved (blockUnits size) ⟨st', c.live, c.freed⟩ := by
  obtain ⟨lists, rfl, hmiss, -⟩ := h.inv.refused hok.1 hok.2 hret
  refine ⟨rfl, hmiss.empty, ?_⟩
  by_contra hroom
  obtain ⟨s₁, found, s₂, location, hsearch, hzone, heq⟩ := nvmalloc_parts hret
  obtain rfl := Option.map_eq_none_iff.1 heq.symm
  rcases h.inv.searches hok.1 hsearch with ⟨rfl, lists', rfl, -⟩ | ⟨⟨a, rfl⟩, -⟩
  · -- the free zone would have been reserved
    rw [actualSizeOf_request hok.1] at hzone
    cases (Prog.returns_unique hzone (returns_orFreeZone_room (by simpa using hroom))).2
  · cases (Prog.returns_pure_iff.1 hzone).2

/-- A retry is refused, and nothing is released. -/
theorem Starved.step (hstarved : Starved k c) (h : NvReady freeWait c) (hk : k ≤ blockUnits size)
    (hok : Retries size c op) (hs : NvStep c op c') :
    Starved k c' ∧ c'.live = c.live ∧ c'.freed = c.freed ∧ c'.st.released = c.st.released := by
  obtain ⟨hallowed, size', now, rfl, hle⟩ := hok
  have hunits : blockUnits size ≤ blockUnits size' := by
    simp only [blockUnits, unitsOf]
    exact Nat.div_le_div_right (by omega)
  have hbucket := bucketOf_mono (hk.trans hunits)
  -- the search finds nothing, whether or not a block is handed out
  have hnone : ∀ st' r, (nvmalloc size' .refused now).Returns c.st st' r → r = none := by
    intro st' r hret
    obtain ⟨s₁, found, s₂, location, hsearch, hzone, rfl⟩ := nvmalloc_parts hret
    rcases h.inv.searches hallowed.1 hsearch with ⟨rfl, lists, rfl, -⟩ | ⟨-, j, hfirst, hlast, hne⟩
    · rw [actualSizeOf_request hallowed.1] at hzone
      have hfull := hstarved.full
      have hmul : baseSize * k ≤ baseSize * blockUnits size' :=
        Nat.mul_le_mul_left _ (hk.trans hunits)
      rw [eq_none_of_full (by dsimp only; omega) hzone]
      rfl
    · exact absurd (hstarved.lists j (hbucket.trans hfirst) hlast) hne
  cases hs with
  | served hret => cases hnone _ _ hret
  | refused hret =>
    obtain ⟨lists, rfl, hmiss, -⟩ := h.inv.refused hallowed.1 hallowed.2 hret
    refine ⟨⟨fun j hfirst hlast => ?_, hstarved.full⟩, rfl, rfl, rfl⟩
    refine List.eq_nil_iff_forall_not_mem.2 fun p hp => ?_
    have hp' := hmiss.searched.mem hp
    rw [hstarved.lists j hfirst hlast] at hp'
    cases hp'

/-- A request that is refused in a run of allowed steps is refused for ever: while the client only
tries again, for as much or more, and the system refuses more memory, no block is handed out and
none is released, whatever the clock reads. -/
theorem retry_starves (hpages : nrPages * nvPageSize < 2 ^ 32) {mem : ℕ → BitVec 64}
    (h : Runs.Reach NvStep (fun c op => op.Allowed c) (nvStart nrPages freeWait mem) c)
    (hok : (NvOp.malloc size grows now).Allowed c)
    (hret : (nvmalloc size grows now).Returns c.st st' none)
    (hrun : Runs.Reach NvStep (Retries size) ⟨st', c.live, c.freed⟩ c') :
    c'.live = c.live ∧ c'.freed = c.freed ∧ c'.waiting = c.waiting := by
  have hready := reach_nvReady hpages h
  obtain ⟨hreleased, hstarved⟩ := hready.starved hok hret
  obtain ⟨-, -, hlive, hfreed, hreleased'⟩ := hrun.invariant
    (I := fun c' => NvReady freeWait c' ∧ Starved (blockUnits size) c' ∧ c'.live = c.live ∧
      c'.freed = c.freed ∧ c'.st.released = c.st.released)
    ⟨hready.step hok (.refused hret), hstarved, rfl, rfl, hreleased⟩
    fun c₁ op c₂ hc hretry hs => by
      obtain ⟨hnext, hlive, hfreed, hreleased⟩ := hc.2.1.step hc.1 le_rfl hretry hs
      exact ⟨hc.1.step hretry.1 hs, hnext, hlive.trans hc.2.2.1, hfreed.trans hc.2.2.2.1,
        hreleased.trans hc.2.2.2.2⟩
  refine ⟨hlive, hfreed, ?_⟩
  rw [NvConfig.waiting, NvConfig.waiting, hfreed, hreleased']

end

/-- An arena of one page. The block that fills it has been freed, and may be released from the time
110 on. -/
def pageFreed : NvConfig :=
  ((nvStart 1 100 fun _ => 0).afterMalloc 4088 0 0).afterFree ⟨0, 4096⟩ 10 20

/-- The allocator after so many requests of eight bytes at the times 1000, 1001 and so on. -/
def afterRetries : ℕ → NvState
  | 0 => pageFreed.st
  | n + 1 => ((nvmalloc 8 .refused (1000 + n)).exec 100 (afterRetries n)).state

theorem reach_pageFreed : Runs.Reach NvStep (fun c op => op.Allowed c) (nvStart 1 100 fun _ => 0)
    pageFreed := by
  refine reach_afterFree (reach_afterMalloc .start (allowed_of_le ?_) ?_) trivial ?_ ?_
  all_goals decide

/-- The block is still waiting after two requests. -/
theorem retry_starves_pageFreed :
    pageFreed.waiting = [⟨⟨0, 4096⟩, 10⟩] ∧
      NvConfig.waiting ⟨afterRetries 2, pageFreed.live, pageFreed.freed⟩ = pageFreed.waiting := by
  have hfirst : (nvmalloc 8 .refused 1000).Returns pageFreed.st (afterRetries 1) none :=
    Prog.returns_of_value? (by decide)
  have hsecond : (nvmalloc 8 .refused 1001).Returns (afterRetries 1) (afterRetries 2) none :=
    Prog.returns_of_value? (by decide +kernel)
  have hretry : Retries 8 ⟨afterRetries 1, pageFreed.live, pageFreed.freed⟩
      (.malloc 8 .refused 1001) := ⟨allowed_of_le (by decide), 8, 1001, rfl, le_rfl⟩
  exact ⟨by decide, (retry_starves (by decide) reach_pageFreed (allowed_of_le (by decide))
    hfirst (.step .start hretry (.refused hsecond))).2.2⟩

end Zalloc
