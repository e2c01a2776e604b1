import Zalloc.Nvmalloc.Run

/-!
# Blocks and the bitmap

The blocks that are live or wait in the don't-allocate list do not overlap, and the bitmap tells
which units belong to them.

## Main definitions

* `NvConfig.blocks c`: the live and the waiting blocks.
* `NvBlocks c`: what holds of the blocks, the bitmap and the free zone.

## Main results

* `nvmalloc_blocks`: this holds in every run.
-/

set_option autoImplicit false

namespace Zalloc

/-- The blocks that are live or waiting. -/
def NvConfig.blocks (c : NvConfig) : List NvBlock := c.live ++ c.waiting.map Waiting.toNvBlock

/-- What holds of the blocks, the bitmap and the free zone. -/
structure NvBlocks (c : NvConfig) : Prop where
  /-- The waiting blocks are those of the don't-allocate list. -/
  queue : Queue c.st c.waiting
  /-- The blocks do not overlap. -/
  apart : c.blocks.Pairwise NvBlock.Apart
  /-- They are aligned, and not empty. -/
  aligned : ∀ b ∈ c.blocks, 64 ∣ b.location ∧ 64 ∣ b.size ∧ 0 < b.size
  /-- They are below the free zone. -/
  inside : ∀ b ∈ c.blocks, b.location + b.size ≤ c.st.freeZone
  /-- The free zone starts in the arena, with a unit. -/
  freeZone : 64 ∣ c.st.freeZone ∧ c.st.freeZone ≤ c.st.endAddress
  /-- There is a bit for every unit of the arena. -/
  arena : c.st.endAddress = 64 * (8 * c.st.bitmapSize)
  /-- A bit below the free zone is set exactly if its unit belongs to a block. -/
  bits : ∀ u, 64 * u < c.st.freeZone →
    (c.st.bit u = true ↔ ∃ b ∈ c.blocks, b.location ≤ 64 * u ∧ 64 * u + 64 ≤ b.location + b.size)
  /-- The other bits are clear. -/
  clear : ∀ u, c.st.freeZone ≤ 64 * u → u < 8 * c.st.bitmapSize → c.st.bit u = false
  /-- The unit below the free zone belongs to a block. -/
  top : c.st.freeZone = 0 ∨ c.st.bit (c.st.freeZone / 64 - 1) = true

section

variable {freeWait nrPages : ℕ} {c : NvConfig}

/-- The invariant implies what holds of the blocks. -/
theorem NvReady.blocks (h : NvReady freeWait c) : NvBlocks c := by
  have hzone : c.st.freeZone = 64 * c.st.zone := h.inv.shape.freeZone
  have hle := h.inv.shape.zone_le
  have harena := h.inv.shape.endAddress
  have hocc : Occupied c.st c.blocks := h.inv.occupied
  refine ⟨h.inv.queue, hocc.apart, fun b hb => ?_, hocc.inside, ?_, ?_, fun u hu => ?_,
    fun u h₁ h₂ => ?_, ?_⟩
  · exact ⟨(hocc.aligned b hb).1, (hocc.aligned b hb).2, hocc.pos b hb⟩
  · exact ⟨⟨c.st.zone, hzone⟩, by omega⟩
  · omega
  · rw [hocc.bits u (by omega)]
    refine exists_congr fun b => and_congr_right fun hb => ?_
    -- a block is made of units
    obtain ⟨i, j, hi, hj, -⟩ := hocc.units h.inv.shape hb
    rw [NvBlock.covers_iff hi hj, hi, hj]
    simp only [baseSize]
    omega
  · by_contra hset
    rw [Bool.not_eq_false, hocc.bits u h₂] at hset
    obtain ⟨b, hb, hcov⟩ := hset
    have hlt := hocc.lt_zone h.inv.shape hb hcov
    omega
  · have hunits : c.st.freeZone / 64 = c.st.zone := rfl
    rw [hunits]
    exact hocc.top.imp_left fun hz => by omega

/-- In every run the blocks do not overlap, and the bitmap tells which units belong to them. -/
theorem nvmalloc_blocks (hpages : nrPages * nvPageSize < 2 ^ 32) {mem : ℕ → BitVec 64}
    (h : Runs.Reach NvStep (fun c op => op.Allowed c) (nvStart nrPages freeWait mem) c) :
    NvBlocks c :=
  (reach_nvReady hpages h).blocks

end

/-- The live and the waiting block of a run. -/
theorem nvmalloc_blocks_firstReleased :
    firstReleased.blocks = [⟨192, 64⟩, ⟨128, 64⟩] ∧ NvBlocks firstReleased :=
  ⟨by decide +kernel, nvmalloc_blocks (by decide) (reach_firstReleased.mono fun _ _ hok => hok.1)⟩

end Zalloc
