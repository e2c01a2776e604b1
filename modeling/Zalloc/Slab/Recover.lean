import Zalloc.Slab.Run

/-!
# Header recovery

A slab is found from the address of an item by clearing the low bits of the address, and the slot by
a division. This is right for a slab whose address is a multiple of its size. `mmap` promises only a
multiple of the size of a system page.

## Main definitions

* `headerOf`, `slotOf`: the header and the slot that `slab_free` computes.
* `Recovers z a i`: for the item in slot `i` of the slab at `a`, these are `a` and `i`.

## Main results

* `slabAlloc_returns`: what `slab_alloc` returns is the address of an item.
* `slabFree_congr`: what `slab_free` does depends on the header and the slot only.
* `slabInit_recovers_iff`: the items for which the header and the slot are right.
-/

set_option autoImplicit false

namespace Zalloc

/-- `(uintptr_t) addr & sch->alignment_mask`. -/
def headerOf (z : SlabSizes) (addr : ℕ) : ℕ := addr &&& z.alignmentMask

/-- `((char *) addr - (char *) slab - offsetof(struct slab_header, data)) / sch->itemsize`. -/
def slotOf (z : SlabSizes) (addr : ℕ) : ℕ :=
  u64Sub (u64Sub addr (headerOf z addr)) dataOffset / z.itemsize

/-- For the item in slot `i` of the slab at `a`, `slab_free` computes `a` and `i`. -/
def Recovers (z : SlabSizes) (a i : ℕ) : Prop :=
  headerOf z (u64 (z.item a i)) = a ∧ slotOf z (u64 (z.item a i)) = i

/-! ## The two functions -/

section

variable {st st' : SlabState} {answer : Option SlabRegion} {addr r : ℕ}

/-- What `slab_alloc` returns is the address of an item. -/
theorem slabAlloc_returns (h : (slabAlloc answer).Returns st st' r) :
    r = 0 ∨ ∃ a i, r = st.sch.item a i := by
  unfold slabAlloc at h
  obtain ⟨_, z, hz, h⟩ := Prog.returns_bind_iff.1 h
  obtain ⟨-, rfl⟩ := Prog.returns_read_iff.1 hz
  obtain ⟨_, part, -, h⟩ := Prog.returns_bind_iff.1 h
  split_ifs at h with hpart
  · -- from a partial slab
    obtain ⟨_, slots, -, h⟩ := Prog.returns_bind_iff.1 h
    obtain ⟨_, -, -, h⟩ := Prog.returns_bind_iff.1 h
    obtain ⟨_, left, -, h⟩ := Prog.returns_bind_iff.1 h
    split_ifs at h with hleft
    · obtain ⟨_, -, -, h⟩ := Prog.returns_bind_iff.1 h
      obtain ⟨_, -, -, h⟩ := Prog.returns_bind_iff.1 h
      exact .inr ⟨part, _, (Prog.returns_pure_iff.1 h).2⟩
    · exact .inr ⟨part, _, (Prog.returns_pure_iff.1 h).2⟩
  · obtain ⟨_, empty, -, h⟩ := Prog.returns_bind_iff.1 h
    obtain ⟨_, -, -, h⟩ := Prog.returns_bind_iff.1 h
    split_ifs at h with hempty
    · -- from an empty slab
      obtain ⟨_, -, -, h⟩ := Prog.returns_bind_iff.1 h
      obtain ⟨_, -, -, h⟩ := Prog.returns_bind_iff.1 h
      obtain ⟨_, page, -, h⟩ := Prog.returns_bind_iff.1 h
      obtain ⟨_, refcount, -, h⟩ := Prog.returns_bind_iff.1 h
      obtain ⟨_, -, -, h⟩ := Prog.returns_bind_iff.1 h
      obtain ⟨_, -, -, h⟩ := Prog.returns_bind_iff.1 h
      exact .inr ⟨empty, 0, (Prog.returns_pure_iff.1 h).2⟩
    · cases answer with
      | none =>
        obtain ⟨_, -, -, h⟩ := Prog.returns_bind_iff.1 h
        exact .inl (Prog.returns_pure_iff.1 h).2
      | some region =>
        -- from a new region
        obtain ⟨_, -, -, h⟩ := Prog.returns_bind_iff.1 h
        obtain ⟨_, -, -, h⟩ := Prog.returns_bind_iff.1 h
        obtain ⟨_, -, -, h⟩ := Prog.returns_bind_iff.1 h
        obtain ⟨_, -, -, h⟩ := Prog.returns_bind_iff.1 h
        exact .inr ⟨region.base, 0, (Prog.returns_pure_iff.1 h).2⟩

/-- What `slab_free` does depends on the header and the slot only. -/
theorem slabFree_congr {addr' : ℕ} (h0 : addr ≠ 0) (h0' : addr' ≠ 0)
    (hheader : headerOf st.sch.toSlabSizes addr = headerOf st.sch.toSlabSizes addr')
    (hslot : slotOf st.sch.toSlabSizes addr = slotOf st.sch.toSlabSizes addr') (n : ℕ) :
    (slabFree addr).exec n st = (slabFree addr').exec n st := by
  rw [slotOf, slotOf, hheader] at hslot
  simp only [headerOf] at hheader hslot
  simp only [slabFree, Prog.exec_bind, Prog.read, Prog.require, Exec.bind, if_pos h0, if_pos h0',
    hheader, hslot]

/-- `slab_free` reads the header that it has found first of all. -/
theorem slabFree_aborts (haddr : addr ≠ 0) (h : ¬ st.IsSlab (headerOf st.sch.toSlabSizes addr)) :
    (slabFree addr).Aborts st st := by
  unfold slabFree
  refine Prog.aborts_bind_iff.2 (.inr ⟨st, st.sch.toSlabSizes, Prog.returns_read _ _, ?_⟩)
  refine Prog.aborts_bind_iff.2 (.inr ⟨st, (), Prog.returns_require haddr, ?_⟩)
  refine Prog.aborts_bind_iff.2 (.inl (Prog.aborts_bind_iff.2 (.inl ?_)))
  exact Prog.aborts_require_iff.2 ⟨h, rfl⟩

end

/-! ## When the header is right -/

section

variable {itemsize itemcount base a i k : ℕ} {sch : SlabChain}

/-- What `slab_init` stores, in any case. -/
theorem exists_eq_slabChainOf {ceilLog2 : CeilLog2} (hinit : slabInit ceilLog2 itemsize = some sch) :
    1 ≤ itemsize ∧ ∃ n, ∃ k ≤ 63, sch = slabChainOf itemsize n k := by
  have hrange : 1 ≤ itemsize ∧ itemsize ≤ u64Max := by
    by_contra hnot
    unfold slabInit at hinit
    rw [if_pos hnot] at hinit
    cases hinit
  obtain ⟨k, hval⟩ := exists_val_leastSlabsize ceilLog2 itemsize
  have hk : k ≤ 62 := by
    by_contra hlarge
    rw [slabInit_eq_none hval (by omega)] at hinit
    cases hinit
  refine ⟨hrange.1, ?_⟩
  rcases (slabInit_eq_some_iff hrange.1 hrange.2 hval hk).1 hinit with
    ⟨-, -, -, rfl⟩ | ⟨-, rfl⟩
  · exact ⟨_, k, by omega, rfl⟩
  · exact ⟨_, k + 1, by omega, rfl⟩

/-- The header is right if the slab is aligned and the item lies in it. -/
theorem headerOf_item_iff (hk : k ≤ 63) (hle : a + 2 ^ k ≤ 2 ^ 64) :
    headerOf (slabChainOf itemsize itemcount k).toSlabSizes
        (u64 ((slabChainOf itemsize itemcount k).item a i)) = a ↔
      2 ^ k ∣ a ∧ u64 (dataOffset + i * itemsize) < 2 ^ k := by
  have hitem : (slabChainOf itemsize itemcount k).item a i = a + (dataOffset + i * itemsize) :=
    Nat.add_assoc _ _ _
  have hheader : headerOf (slabChainOf itemsize itemcount k).toSlabSizes (u64 (a +
      (dataOffset + i * itemsize))) = u64 (a + (dataOffset + i * itemsize)) / 2 ^ k * 2 ^ k :=
    BitMask.and_not_low (Nat.mod_lt _ (by decide)) (by omega)
  have hpos := Nat.two_pow_pos k
  rw [hitem, hheader]
  generalize dataOffset + i * itemsize = off
  constructor
  · intro heq
    have hmod := Nat.div_add_mod (u64 (a + off)) (2 ^ k)
    have hlt := Nat.mod_lt (u64 (a + off)) hpos
    rw [Nat.mul_comm, heq] at hmod
    refine ⟨⟨_, heq.symm.trans (Nat.mul_comm _ _)⟩, ?_⟩
    rw [u64] at hmod hlt ⊢
    omega
  · rintro ⟨⟨m, rfl⟩, hoff⟩
    -- nothing wraps but the offset
    have hsum : u64 (2 ^ k * m + off) = 2 ^ k * m + u64 off := by
      rw [u64] at hoff ⊢
      rw [u64]
      omega
    rw [hsum, Nat.mul_add_div hpos, Nat.div_eq_of_lt hoff, Nat.add_zero, Nat.mul_comm]

/-- The slot is right if its offset does not wrap. -/
theorem slotOf_item_iff (hlo : 1 ≤ itemsize) (hle : a ≤ 2 ^ 64)
    (hheader : headerOf (slabChainOf itemsize itemcount k).toSlabSizes
      (u64 ((slabChainOf itemsize itemcount k).item a i)) = a) :
    slotOf (slabChainOf itemsize itemcount k).toSlabSizes
        (u64 ((slabChainOf itemsize itemcount k).item a i)) = i ↔ i * itemsize < 2 ^ 64 := by
  have hsub : u64Sub (u64Sub (u64 (a + dataOffset + i * itemsize)) a) dataOffset =
      u64 (i * itemsize) := by
    rw [u64Sub, u64Sub, u64, u64, dataOffset]
    omega
  have hslot : slotOf (slabChainOf itemsize itemcount k).toSlabSizes
      (u64 ((slabChainOf itemsize itemcount k).item a i)) = u64 (i * itemsize) / itemsize := by
    rw [slotOf, hheader, ← hsub]
    rfl
  rw [hslot]
  constructor
  · intro heq
    -- a smaller number has a smaller quotient
    have hmul := Nat.div_mul_le_self (u64 (i * itemsize)) itemsize
    rw [heq] at hmul
    exact hmul.trans_lt (Nat.mod_lt _ (by decide))
  · intro hlt
    rw [u64, Nat.mod_eq_of_lt hlt, Nat.mul_div_cancel _ hlo]

/-- The header and the slot of an item are right if and only if the region is aligned to the size of
a slab, and neither the offset of the slot nor the address of the item wraps. -/
theorem slabInit_recovers_iff {ceilLog2 : CeilLog2} (hinit : slabInit ceilLog2 itemsize = some sch)
    (hle : base + sch.pagesPerAlloc ≤ 2 ^ 64) (ha : sch.InRegion base a) :
    Recovers sch.toSlabSizes a i ↔
      sch.slabsize ∣ base ∧ i * itemsize < 2 ^ 64 ∧
        u64 (dataOffset + i * itemsize) < sch.slabsize := by
  obtain ⟨hlo, n, k, hk, rfl⟩ := exists_eq_slabChainOf hinit
  obtain ⟨hba, hlt, hdvd⟩ := ha
  have hslabsize : (slabChainOf itemsize n k).slabsize = 2 ^ k := rfl
  have hpages : 2 ^ k ∣ (slabChainOf itemsize n k).pagesPerAlloc := slabsize_dvd_pagesPerAlloc k
  rw [hslabsize] at hdvd ⊢
  have hbase : 2 ^ k ∣ a ↔ 2 ^ k ∣ base := by
    rw [← Nat.sub_add_cancel hba]
    exact Nat.dvd_add_right hdvd
  -- a slab of the region ends with the region at the latest
  have hend : a + 2 ^ k ≤ base + (slabChainOf itemsize n k).pagesPerAlloc := by
    have hrest := Nat.le_of_dvd (by omega) (Nat.dvd_sub hpages hdvd)
    omega
  rw [Recovers, headerOf_item_iff hk (hend.trans hle), ← hbase]
  constructor
  · rintro ⟨⟨hdvd', hoff⟩, hslot⟩
    refine ⟨hdvd', (slotOf_item_iff hlo (by omega) ?_).1 hslot, hoff⟩
    exact (headerOf_item_iff hk (hend.trans hle)).2 ⟨hdvd', hoff⟩
  · rintro ⟨hdvd', hslot, hoff⟩
    refine ⟨⟨hdvd', hoff⟩, (slotOf_item_iff hlo (by omega) ?_).2 hslot⟩
    exact (headerOf_item_iff hk (hend.trans hle)).2 ⟨hdvd', hoff⟩

end

/-- The first item of a region at an address that is aligned. -/
theorem slabInit_recovers_iff_pairs : Recovers pairs.toSlabSizes (2 ^ 20) 0 :=
  (slabInit_recovers_iff slabInit_pairs (by decide)
    (by decide : pairs.InRegion (2 ^ 20) (2 ^ 20))).2
    ⟨by decide, by decide, by decide⟩

/-- A region at an address that is a multiple of the size of a system page, but not of that of a
slab. -/
def pageRegion : SlabRegion := ⟨2 ^ 20 + 4096, fun _ => ⟨0, 0, 0, 0, 0⟩⟩

/-- The first item of this region is not found again: `slab_free` reads what is before the
region. -/
theorem not_recovers_pageRegion :
    slabInit exactCeilLog2 8192 = some pairs ∧ pairs.slabsize ≤ slabPagesize ∧
      4096 ∣ pageRegion.base ∧ pairs.InRegion pageRegion.base pageRegion.base ∧
      0 < pairs.itemcount ∧ ¬ Recovers pairs.toSlabSizes pageRegion.base 0 ∧
      ∃ st', (slabAlloc (some pageRegion)).Returns pairsStart.st st' (pairs.item pageRegion.base 0) ∧
        (slabFree (pairs.item pageRegion.base 0)).Aborts st' st' := by
  refine ⟨slabInit_pairs, by decide, by decide, by decide, by decide, fun h => ?_, ?_⟩
  · exact absurd h.1 (by decide)
  · refine ⟨((slabAlloc (some pageRegion)).exec 8 pairsStart.st).state,
      Prog.returns_of_value? (by decide), slabFree_aborts (by decide) (by decide)⟩

end Zalloc
