import Zalloc.Foundations.Density
import Zalloc.Nvmalloc.Due
import Zalloc.Nvmalloc.Hints

/-!
# How much of the arena is used

A block is placed in the free zone only when no gap is large enough for it. So the gaps that are
left behind are short, and the free zone cannot get far away from the start of the arena: how far is
known from the sizes of the requests, and from how many blocks are in use at the same time.

## Main definitions

* `NvOp.Asks fits P c op`: the requests are for numbers of units that fit, and at most `P` blocks
  are in use at the same time.
* `Moves c c' op`: what a step does to the blocks and to the free zone.
* `RoomFor fits P n c`: a request that is not served from a gap has room within `n` units.
* `Spread K d P c`: the invariant, for blocks of `K` units and gaps of `d` units.
* `Contained fits P n nrPages c`: the free zone stays within `n` units, and an arena of this size is
  large enough for ever.

## Main results

* `nv_light_contained`: this holds with `P * (2 * K - 1)` units for requests of at most `K` units.
* `nv_uniform_contained`: it holds with `P * K` units where all requests are for `K` units.
-/

set_option autoImplicit false

open BitArray

namespace Zalloc

/-! ## Requests -/

/-- The requests are for numbers of units that fit, and at most `P` blocks are live or waiting. -/
def NvOp.Asks (fits : ℕ → Prop) (P : ℕ) (c : NvConfig) : NvOp → Prop
  | .malloc size _ _ => fits (blockUnits size) ∧ c.blocks.length < P
  | .free _ _ _ => True
  | .store _ _ => True

/-- What a step does to the blocks and to the free zone. -/
inductive Moves (c c' : NvConfig) : NvOp → Prop
  /-- There is no new block. -/
  | keeps {op : NvOp} (hblocks : c'.blocks.Subperm c.blocks) (hzone : c'.st.zone ≤ c.st.zone)
      (hend : c'.st.endAddress = c.st.endAddress) : Moves c c' op
  /-- A block has been placed, and then another one may have been released. -/
  | places {size now location : ℕ} {grows : Growth} {st₁ : NvState}
      (hblocks : c'.blocks.Subperm (⟨location, baseSize * blockUnits size⟩ :: c.blocks))
      (hplaced : Placed c.st st₁ size location) (hzone : c'.st.zone ≤ st₁.zone)
      (hret : (nvmalloc size grows now).Returns c.st c'.st (some (location + 8))) :
      Moves c c' (.malloc size grows now)

/-- Where the search finds nothing for a request, there is room for it within `n` units. -/
def RoomFor (fits : ℕ → Prop) (P n : ℕ) (c : NvConfig) : Prop :=
  ∀ size grows now, (NvOp.malloc size grows now).Asks fits P c →
    ∀ lists, Miss c.st (blockUnits size) (bucketOf (blockUnits size)) lists →
      c.st.zone + blockUnits size ≤ n

/-- The blocks have at most `K` units, there are at most `P` of them, and the free zone starts
within `K + d` units for each. -/
structure Spread (K d P : ℕ) (c : NvConfig) : Prop where
  /-- The sizes of the blocks. -/
  size : ∀ b ∈ c.blocks, b.size ≤ baseSize * K
  /-- Their number. -/
  count : c.blocks.length ≤ P
  /-- The free zone. -/
  zone : c.st.zone ≤ P * (K + d)

/-- The free zone stays within `n` units, so that an arena of this size is large enough. -/
structure Contained (fits : ℕ → Prop) (P n nrPages : ℕ) (c : NvConfig) : Prop where
  /-- The free zone starts within `n` units. -/
  freeZone : c.st.freeZone ≤ 64 * n
  /-- An arena that has had as much from the beginning has never been extended. -/
  arena : 64 * n ≤ nvPageSize * nrPages → c.st.endAddress = nvPageSize * nrPages
  /-- Where there is as much, every further request is answered. -/
  serves : 64 * n ≤ c.st.endAddress → ∀ size grows now,
    (NvOp.malloc size grows now).Allowed c → (NvOp.malloc size grows now).Asks fits P c →
      ∃ st' p, (nvmalloc size grows now).Returns c.st st' (some p)

/-! ## The arena -/

/-- The arena is the same. -/
def SameArena (st st' : NvState) : Prop := st'.endAddress = st.endAddress

instance : IsPreorder NvState SameArena where
  refl _ := rfl
  trans _ _ _ h₁ h₂ := Eq.trans h₂ h₁

section

variable {st st' : NvState} {live : List NvBlock} {waiting : List Waiting} {size now : ℕ}
  {grows : Growth} {r : Option ℕ}

/-- The search does not change the arena. -/
theorem sameArena_search (hw : SearchWrite st st') : SameArena st st' := by
  cases hw with
  | lists lists => rfl
  | report r => rfl
  | header a h => rfl

/-- Neither does `incrementTime`. -/
theorem sameArena_tick (hw : TickWrite st st') : SameArena st st' := by
  cases hw with
  | search h => exact sameArena_search h
  | queue head tail => rfl
  | released released => rfl
  | clear index mask => rfl
  | zone freeZone => rfl

/-- Where there is room in the free zone whenever the search finds nothing, `nvmalloc` hands out a
block and does not extend the arena. -/
theorem NvInv.returns_some_of_room (h : NvInv st [] live waiting)
    (hle : size + 8 ≤ 2 ^ 32 - baseSize)
    (hroom : ∀ lists, Miss st (blockUnits size) (bucketOf (blockUnits size)) lists →
      st.freeZone + baseSize * blockUnits size ≤ st.endAddress)
    (hret : (nvmalloc size grows now).Returns st st' r) : r ≠ none ∧ SameArena st st' := by
  obtain ⟨s₀, ⟨location, actualSize⟩, hlocate, hret⟩ := Prog.returns_bind_iff.1 hret
  obtain ⟨s₁, found, hsearch, hlocate⟩ := Prog.returns_bind_iff.1 hlocate
  obtain ⟨s₂, freeLocation, hzone, hlocate⟩ := Prog.returns_bind_iff.1 hlocate
  rw [actualSizeOf_request hle] at hzone hlocate
  have hfound : freeLocation ≠ none ∧ SameArena st s₂ := by
    rcases h.searches hle hsearch with ⟨rfl, lists, rfl, hmiss⟩ | ⟨⟨a, rfl⟩, -⟩
    · obtain ⟨rfl, rfl⟩ := Prog.returns_unique hzone (returns_orFreeZone_room (hroom lists hmiss))
      exact ⟨Option.some_ne_none _, rfl⟩
    · obtain ⟨rfl, rfl⟩ := Prog.returns_pure_iff.1 hzone
      exact ⟨Option.some_ne_none a, (grows_find fun _ _ => sameArena_search).returns hsearch⟩
  obtain ⟨hsome, hsame⟩ := hfound
  cases freeLocation with
  | none => exact absurd rfl hsome
  | some a =>
    obtain ⟨s₃, _, hmake, hlocate⟩ := Prog.returns_bind_iff.1 hlocate
    obtain ⟨rfl, heq⟩ := Prog.returns_pure_iff.1 hlocate
    obtain ⟨rfl, rfl⟩ := Prod.mk.inj heq
    obtain ⟨s₄, _, hheader, hret⟩ := Prog.returns_bind_iff.1 hret
    obtain ⟨s₅, _, htime, hret⟩ := Prog.returns_bind_iff.1 hret
    obtain ⟨rfl, rfl⟩ := Prog.returns_pure_iff.1 hret
    have hmade : SameArena s₂ s₀ := (grows_changeBits fun _ _ _ => rfl).returns hmake
    have hwritten : SameArena s₀ s₄ := by
      refine Prog.Grows.returns ?_ hheader
      exact grows_setWord fun _ => rfl
    have hticked : SameArena s₄ st' :=
      (grows_incrementTime fun _ _ => sameArena_tick).returns htime
    refine ⟨Option.some_ne_none _, trans_of SameArena hsame (trans_of SameArena hmade ?_)⟩
    exact trans_of SameArena hwritten hticked

/-- Then it does return. -/
theorem NvInv.exists_returns_of_room (h : NvInv st [] live waiting)
    (hle : size + 8 ≤ 2 ^ 32 - baseSize)
    (hgrow : grows = .granted → st.freeZone + baseSize * blockUnits size > st.endAddress →
      st.endAddress + growth (baseSize * blockUnits size) < 2 ^ 32)
    (hroom : ∀ lists, Miss st (blockUnits size) (bucketOf (blockUnits size)) lists →
      st.freeZone + baseSize * blockUnits size ≤ st.endAddress) (now : ℕ) :
    ∃ st' p, (nvmalloc size grows now).Returns st st' (some p) := by
  cases h.mallocs hle hgrow now with
  | serves hserved hret => exact ⟨_, _, hret⟩
  | full hmiss hinv hret => exact absurd rfl (h.returns_some_of_room hle hroom hret).1
  | diverges hmiss hsearch hnever =>
    refine absurd (returns_orFreeZone_room ?_) (hnever _ _)
    rw [actualSizeOf_request hle]
    exact hroom _ hmiss

end

/-! ## The blocks after a step -/

section

variable {fits : ℕ → Prop} {freeWait nrPages K d P size now : ℕ} {grows : Growth} {c c' : NvConfig}
  {op : NvOp} {st st' : NvState} {live live' : List NvBlock} {freed : List Waiting}
  {lists : ℕ → List ℕ}

/-- The blocks that are waiting after some of them have been released. -/
theorem waiting_of_released {l : List Release} (h : st'.released = st.released ++ l) :
    NvConfig.waiting ⟨st', live', freed⟩ = (NvConfig.waiting ⟨st, live, freed⟩).drop l.length := by
  rw [NvConfig.waiting, NvConfig.waiting, h, List.length_append, List.drop_drop]

/-- No more blocks have been released than freed. -/
theorem NvReady.released_le (h : NvReady freeWait c) : c.st.released.length ≤ c.freed.length := by
  have hlength := h.released.length_eq
  rw [List.length_take] at hlength
  omega

/-- The free zone after `incrementTime`. -/
theorem Ticked.zone_le {waiting waiting' : List Waiting} (h : Ticked st now waiting st' waiting') :
    st'.zone ≤ st.zone :=
  Nat.div_le_div_right h.freeZone_le

/-- What a step does to the blocks and to the free zone. -/
theorem NvReady.moves (h : NvReady freeWait c) (hok : op.Allowed c) (hs : NvStep c op c') :
    Moves c c' op := by
  cases hs with
  | @served st' size now location grows hret =>
    obtain ⟨st₁, waiting', hserved⟩ := h.inv.served hok.1 hok.2 hret
    refine .places ?_ hserved.placed hserved.tick.zone_le hret
    rw [NvConfig.blocks, waiting_of_released (h.inv.released_nvmalloc hok.1 hok.2 hret)]
    refine List.Sublist.subperm (.cons_cons _ (.append (.refl _) (.map _ ?_)))
    exact List.drop_sublist _ _
  | @refused st' size now grows hret =>
    obtain ⟨lists, rfl, -⟩ := h.inv.refused hok.1 hok.2 hret
    exact .keeps (.refl _) le_rfl rfl
  | @free st' b added now r hb hret =>
    obtain ⟨mem, head, tail, st₁, waiting', htick, hinv, hret'⟩ :=
      h.inv.returns_nvfree (List.perm_cons_erase hb) added now
    refine .keeps ?_ ?_ ?_
    · have hwaiting : NvConfig.waiting ⟨c.st, c.live, c.freed ++ [⟨b, added⟩]⟩ =
          c.waiting ++ [⟨b, added⟩] := List.drop_append_of_le_length h.released_le
      rw [NvConfig.blocks, waiting_of_released (h.inv.released_nvfree hb hret), hwaiting]
      refine (List.Sublist.subperm (.append (.refl _) (.map _ (List.drop_sublist _ _)))).trans ?_
      -- the block that is freed moves to the end of the list
      refine List.Perm.subperm ?_
      rw [List.map_append, NvConfig.blocks]
      refine List.Perm.trans ?_ ((List.perm_cons_erase hb).append_right _).symm
      rw [← List.append_assoc]
      exact List.perm_append_singleton _ _
    · obtain ⟨rfl, -⟩ := Prog.returns_unique hret hret'
      exact htick.zone_le
    · obtain ⟨rfl, -⟩ := Prog.returns_unique hret hret'
      exact htick.endAddress
  | store hb hlo hhi => exact .keeps (.refl _) le_rfl rfl

/-! ## The free zone -/

/-- Where the blocks have at most `K` units and no gap has more than `d` units, the free zone starts
within `K + d` units for each block. -/
theorem NvReady.zone_le (h : NvReady freeWait c) (hsize : ∀ b ∈ c.blocks, b.size ≤ baseSize * K)
    (hgaps : ∀ a n, IsGap c.st.bit c.st.zone a n → n ≤ d) :
    c.st.zone ≤ c.blocks.length * (K + d) := by
  have hocc : Occupied c.st c.blocks := h.inv.occupied
  have hzone := h.inv.shape.zone_le
  refine limit_le_of_gaps (fun b => b.location / baseSize)
    (fun b => (b.location + b.size) / baseSize) hocc.top hgaps (fun u hu hset => ?_) fun b hb => ?_
  · obtain ⟨b, hb, hcov⟩ := (hocc.bits u (by omega)).1 hset
    obtain ⟨i, j, hi, hj, -⟩ := hocc.units h.inv.shape hb
    rw [NvBlock.covers_iff hi hj] at hcov
    refine ⟨b, hb, ?_, ?_⟩
    · rw [hi, Nat.mul_div_cancel_left i (by decide)]
      exact hcov.1
    · rw [hi, hj, ← Nat.mul_add, Nat.mul_div_cancel_left _ (by decide)]
      exact hcov.2
  · have hle := hsize b hb
    rw [← Nat.add_mul_div_left _ _ (show 0 < baseSize by decide)]
    exact Nat.div_le_div_right (by omega)

/-- When the search has found nothing, the gaps are short, so there is room within the bound. -/
theorem Spread.roomFor (h : Spread K d P c) (hready : NvReady freeWait c) (hinted : Hinted c.st)
    (hK : ∀ k, fits k → k ≤ K)
    (hslack : ∀ k, fits k → ∀ a n, IsGap c.st.bit c.st.zone a n → n < k → n ≤ d) :
    RoomFor fits P (P * (K + d)) c := by
  rintro size grows now ⟨hfits, hcount⟩ lists hmiss
  have hgaps : ∀ a n, IsGap c.st.bit c.st.zone a n → n ≤ d := by
    intro a n hgap
    obtain ⟨p, hp, hleads⟩ := hinted a n hgap
    by_cases hlt : n < blockUnits size
    · exact hslack _ hfits a n hgap hlt
    · -- the hint of the gap would have been found
      have hfound := hmiss.lt_of_leads (bucketOf_mono (by omega)) bucketOf_le hp hleads
      omega
  calc c.st.zone + blockUnits size ≤ c.blocks.length * (K + d) + (K + d) := by
        have hzone := hready.zone_le h.size hgaps
        have hk := hK _ hfits
        omega
    _ = (c.blocks.length + 1) * (K + d) := (Nat.succ_mul _ _).symm
    _ ≤ P * (K + d) := Nat.mul_le_mul_right _ hcount

/-- The start of the free zone, in bytes. -/
theorem NvReady.freeZone_le (h : NvReady freeWait c) {n : ℕ} (hzone : c.st.zone ≤ n) :
    c.st.freeZone ≤ 64 * n := by
  rw [h.inv.shape.freeZone]
  exact Nat.mul_le_mul_left _ hzone

/-- The room in an arena that is large enough. -/
theorem RoomFor.le_endAddress {n : ℕ} (h : RoomFor fits P n c) (hready : NvReady freeWait c)
    (hasks : (NvOp.malloc size grows now).Asks fits P c) (hroom : 64 * n ≤ c.st.endAddress)
    (hmiss : Miss c.st (blockUnits size) (bucketOf (blockUnits size)) lists) :
    c.st.freeZone + baseSize * blockUnits size ≤ c.st.endAddress := by
  have hle := h size grows now hasks lists hmiss
  rw [hready.inv.shape.freeZone]
  simp only [baseSize]
  omega

/-! ## Steps -/

/-- The blocks after a step. -/
theorem Spread.step (h : Spread K d P c) (hroom : RoomFor fits P (P * (K + d)) c)
    (hK : ∀ k, fits k → k ≤ K) (hasks : op.Asks fits P c) (hmoves : Moves c c' op) :
    Spread K d P c' := by
  cases hmoves with
  | keeps hblocks hzone hend =>
    exact ⟨fun b hb => h.size b (hblocks.subset hb), hblocks.length_le.trans h.count,
      hzone.trans h.zone⟩
  | @places size now location grows st₁ hblocks hplaced hzone hret =>
    refine ⟨fun b hb => ?_, hblocks.length_le.trans hasks.2, hzone.trans ?_⟩
    · rcases List.mem_cons.1 (hblocks.subset hb) with rfl | hold
      · exact Nat.mul_le_mul_left _ (hK _ hasks.1)
      · exact h.size b hold
    · cases hplaced with
      | gap hhit hsearch hlists hbit hsame hend =>
        rw [NvState.zone, hsame]
        exact h.zone
      | zone hmiss hext =>
        rw [hext.zone]
        exact hroom size grows now hasks _ hmiss

/-- An arena that is large enough is not extended. -/
theorem RoomFor.endAddress {n : ℕ} (h : RoomFor fits P n c) (hready : NvReady freeWait c)
    (hok : op.Allowed c) (hasks : op.Asks fits P c) (hmoves : Moves c c' op)
    (hroom : 64 * n ≤ c.st.endAddress) : c'.st.endAddress = c.st.endAddress := by
  cases hmoves with
  | keeps hblocks hzone hend => exact hend
  | places hblocks hplaced hzone hret =>
    exact (hready.inv.returns_some_of_room hok.1
      (fun lists hmiss => h.le_endAddress hready hasks hroom hmiss) hret).2

/-- In an arena that is large enough, every further request is answered. -/
theorem RoomFor.serves {n : ℕ} (h : RoomFor fits P n c) (hready : NvReady freeWait c)
    (hok : (NvOp.malloc size grows now).Allowed c)
    (hasks : (NvOp.malloc size grows now).Asks fits P c) (hroom : 64 * n ≤ c.st.endAddress) :
    ∃ st' p, (nvmalloc size grows now).Returns c.st st' (some p) :=
  hready.inv.exists_returns_of_room hok.1 hok.2
    (fun _ hmiss => h.le_endAddress hready hasks hroom hmiss) now

/-! ## Runs -/

/-- What holds in every run in which a gap that is too small for a request has at most `d` units,
and no gap loses its last hint. -/
theorem contained_of_reach {I : NvConfig → Prop} (hpages : nrPages * nvPageSize < 2 ^ 32)
    {mem : ℕ → BitVec 64} (hK : ∀ k, fits k → k ≤ K) (hstart : I (nvStart nrPages freeWait mem))
    (hI : ∀ c op c', NvReady freeWait c → I c → op.Asks fits P c → Moves c c' op → I c')
    (hslack : ∀ c, NvReady freeWait c → I c → ∀ k, fits k →
      ∀ a n, IsGap c.st.bit c.st.zone a n → n < k → n ≤ d)
    (hkeeps : ∀ c, NvReady freeWait c → I c → ∀ k, fits k → KeepsHints c.st k)
    (h : Runs.Reach NvStep (fun c op => op.Allowed c ∧ op.Asks fits P c)
      (nvStart nrPages freeWait mem) c) : Contained fits P (P * (K + d)) nrPages c := by
  have hready₀ : NvReady freeWait (nvStart nrPages freeWait mem) := nvReady_start hpages mem
  have hend₀ : (nvStart nrPages freeWait mem).st.endAddress = nvPageSize * nrPages := by
    rw [Nat.mul_comm]
    exact u32_eq hpages
  have hspread₀ : Spread K d P (nvStart nrPages freeWait mem) :=
    ⟨List.forall_mem_nil _, Nat.zero_le _, (Nat.zero_div _).le.trans (Nat.zero_le _)⟩
  obtain ⟨⟨hready, hinted, hside⟩, hspread, harena⟩ := h.invariant
    (I := fun c => (NvReady freeWait c ∧ Hinted c.st ∧ I c) ∧ Spread K d P c ∧
      (64 * (P * (K + d)) ≤ nvPageSize * nrPages → c.st.endAddress = nvPageSize * nrPages))
    ⟨⟨hready₀, hinted_start mem, hstart⟩, hspread₀, fun _ => hend₀⟩
    fun c op c' hc hop hs => by
      obtain ⟨⟨hready, hinted, hside⟩, hspread, harena⟩ := hc
      obtain ⟨hok, hasks⟩ := hop
      have hmoves := hready.moves hok hs
      have hroomFor := hspread.roomFor hready hinted hK (hslack c hready hside)
      have hhints : op.KeepsHints c := by
        cases op with
        | malloc size grows now => exact hkeeps c hready hside _ hasks.1
        | free addr added now => trivial
        | store x v => trivial
      refine ⟨⟨hready.step hok hs, hready.hinted_step hinted hok hhints hs,
        hI c op c' hready hside hasks hmoves⟩,
        hspread.step hroomFor hK hasks hmoves, fun hroom => ?_⟩
      have hsame := hroomFor.endAddress hready hok hasks hmoves
      rw [harena hroom] at hsame
      exact hsame hroom
  have hroomFor := hspread.roomFor hready hinted hK (hslack c hready hside)
  exact ⟨hready.freeZone_le hspread.zone, harena, fun hroom size grows now hok hasks =>
    hroomFor.serves hready hok hasks hroom⟩

/-- In every run of allowed steps whose requests are for at most `K` units, up to a page, with at
most `P` blocks in use at the same time, the free zone stays within `P * (2 * K - 1)` units, and
where the arena has as much, it is never extended and every request is answered. -/
theorem nv_light_contained (hpages : nrPages * nvPageSize < 2 ^ 32) {mem : ℕ → BitVec 64}
    (hK : K ≤ nrSizes)
    (h : Runs.Reach NvStep (fun c op => op.Allowed c ∧ op.Asks (· ≤ K) P c)
      (nvStart nrPages freeWait mem) c) : Contained (· ≤ K) P (P * (K + (K - 1))) nrPages c := by
  refine contained_of_reach (I := fun _ => True) hpages (fun _ hk => hk) trivial
    (fun _ _ _ _ _ _ _ => trivial) (fun _ _ _ k hk a n _ hlt => ?_) (fun c _ _ k hk hlarge => ?_) h
  · omega
  · -- hints are lost in the last list only
    omega

/-! ## Requests for the same number of units -/

/-- The blocks have `K` units each, and start at multiples of `K` units. -/
def EvenlyPlaced (K : ℕ) (c : NvConfig) : Prop :=
  ∀ b ∈ c.blocks, baseSize * K ∣ b.location ∧ b.size = baseSize * K

/-- The units of a block. -/
theorem EvenlyPlaced.covers (h : EvenlyPlaced K c) {b : NvBlock} (hb : b ∈ c.blocks) :
    ∃ i, ∀ u, b.Covers u ↔ K * i ≤ u ∧ u < K * i + K := by
  obtain ⟨⟨i, hi⟩, hsize⟩ := h b hb
  rw [Nat.mul_assoc] at hi
  exact ⟨i, fun u => NvBlock.covers_iff hi hsize⟩

/-- The units before the free zone that are set are those of the blocks. -/
theorem NvReady.covered (h : NvReady freeWait c) {u : ℕ} (hu : u < c.st.zone) :
    c.st.bit u = true ↔ ∃ b ∈ c.blocks, b.Covers u := by
  have hle := h.inv.shape.zone_le
  exact h.inv.occupied.bits u (by omega)

/-- The start of a gap, and of the free zone, is a multiple of `K`. -/
theorem EvenlyPlaced.dvd_of_end (h : EvenlyPlaced K c) (hready : NvReady freeWait c) {a : ℕ}
    (ha : a ≤ c.st.zone) (hleft : a = 0 ∨ c.st.bit (a - 1) = true)
    (hright : a = c.st.zone ∨ c.st.bit a = false) : K ∣ a := by
  by_cases hzero : a = 0
  · rw [hzero]
    exact Nat.dvd_zero K
  · -- a block ends here
    obtain ⟨b, hb, hcov⟩ := (hready.covered (by omega)).1 (hleft.resolve_left hzero)
    have hno : ¬ b.Covers a := by
      intro hcov'
      have hlt := hready.inv.occupied.lt_zone hready.inv.shape hb hcov'
      have hset := hready.inv.occupied.bit_of_covers hready.inv.shape hb hcov'
      rw [hright.resolve_left hlt.ne] at hset
      cases hset
    obtain ⟨i, hi⟩ := h.covers hb
    rw [hi] at hcov hno
    exact ⟨i + 1, by rw [Nat.mul_succ]; omega⟩

/-- So is the end of a gap. -/
theorem EvenlyPlaced.dvd_of_gap (h : EvenlyPlaced K c) (hready : NvReady freeWait c) {a n : ℕ}
    (hgap : IsGap c.st.bit c.st.zone a n) : K ∣ a ∧ K ∣ a + n := by
  have hpos := hgap.pos
  have hle := hgap.le
  refine ⟨h.dvd_of_end hready (by omega) hgap.left (.inr (hgap.clear a le_rfl (by omega))), ?_⟩
  by_cases hend : a + n = c.st.zone
  · exact h.dvd_of_end hready hle (hend ▸ hready.inv.occupied.top) (.inl hend)
  · -- a block starts here
    obtain ⟨b, hb, hcov⟩ := (hready.covered (by omega)).1 (hgap.right.resolve_left hend)
    have hno : ¬ b.Covers (a + n - 1) := fun hcov' => by
      have hset := (hready.covered (by omega)).2 ⟨b, hb, hcov'⟩
      rw [hgap.clear (a + n - 1) (by omega) (by omega)] at hset
      cases hset
    obtain ⟨i, hi⟩ := h.covers hb
    rw [hi] at hcov hno
    exact ⟨i, by omega⟩

/-- So a gap is large enough for a block. -/
theorem EvenlyPlaced.le_gap (h : EvenlyPlaced K c) (hready : NvReady freeWait c) {a n : ℕ}
    (hgap : IsGap c.st.bit c.st.zone a n) : K ≤ n := by
  obtain ⟨hstart, hend⟩ := h.dvd_of_gap hready hgap
  exact Nat.le_of_dvd hgap.pos ((Nat.dvd_add_right hstart).1 hend)

/-- A new block starts at a multiple of `K` units. -/
theorem EvenlyPlaced.step (h : EvenlyPlaced K c) (hready : NvReady freeWait c)
    (hasks : op.Asks (· = K) P c) (hmoves : Moves c c' op) : EvenlyPlaced K c' := by
  cases hmoves with
  | keeps hblocks hzone hend => exact fun b hb => h b (hblocks.subset hb)
  | @places size now location grows st₁ hblocks hplaced hzone hret =>
    obtain ⟨rfl, -⟩ := hasks
    intro b hb
    rcases List.mem_cons.1 (hblocks.subset hb) with rfl | hold
    · refine ⟨?_, rfl⟩
      cases hplaced with
      | gap hhit hsearch hlists hbit hsame hend =>
        have hgap := hhit.isGap (unitsOf_pos (by omega))
        exact Nat.mul_dvd_mul_left _ (h.dvd_of_gap hready hgap).1
      | zone hmiss hext =>
        refine Nat.mul_dvd_mul_left _ ?_
        exact h.dvd_of_end hready le_rfl hready.inv.occupied.top (.inl rfl)
    · exact h b hold

/-- In every run of allowed steps whose requests are all for `K` units, with at most `P` blocks in
use at the same time, nothing is wasted: the free zone stays within `P * K` units, and where the
arena has as much, it is never extended and every request is answered. -/
theorem nv_uniform_contained (hpages : nrPages * nvPageSize < 2 ^ 32) {mem : ℕ → BitVec 64}
    (h : Runs.Reach NvStep (fun c op => op.Allowed c ∧ op.Asks (· = K) P c)
      (nvStart nrPages freeWait mem) c) : Contained (· = K) P (P * K) nrPages c := by
  refine contained_of_reach (I := EvenlyPlaced K) (d := 0) hpages (fun _ hk => hk.le)
    (List.forall_mem_nil _) (fun c op c' hready heven hasks hm => heven.step hready hasks hm)
    (fun c hready heven k hk a n hgap hlt => ?_) (fun c hready heven k hk => ?_) h
  · have hle := heven.le_gap hready hgap
    omega
  · -- a hint that leads to a gap is not dropped
    intro _ D l _ hD d hd a n hl _
    have hle := heven.le_gap hready hl.1
    have hlt := hD d hd a n hl
    omega

end

/-- Two blocks of two units have been handed out, and the first one has been released. -/
def twoUnits : NvConfig :=
  (((nvStart 4 0 fun _ => 0).afterMalloc 100 10 0).afterMalloc 90 11 128).afterFree ⟨0, 128⟩ 20 20

theorem reach_twoUnits {fits : ℕ → Prop} (hfits : fits 2) :
    Runs.Reach NvStep (fun c op => op.Allowed c ∧ op.Asks fits 2 c) (nvStart 4 0 fun _ => 0)
      twoUnits := by
  refine reach_afterFree (reach_afterMalloc (reach_afterMalloc .start
    ⟨allowed_of_le ?_, hfits, ?_⟩ ?_) ⟨allowed_of_le ?_, hfits, ?_⟩ ?_) ⟨trivial, trivial⟩ ?_ ?_
  all_goals decide

/-- Requests for one unit or two. -/
theorem nv_light_contained_twoUnits : Contained (· ≤ 2) 2 6 4 twoUnits :=
  nv_light_contained (by decide) (by decide) (reach_twoUnits le_rfl)

/-- Requests for two units. -/
theorem nv_uniform_contained_twoUnits : Contained (· = 2) 2 4 4 twoUnits :=
  nv_uniform_contained (by decide) (reach_twoUnits rfl)

end Zalloc
