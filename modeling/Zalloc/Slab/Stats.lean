import Mathlib.Algebra.BigOperators.Group.List.Basic
import Zalloc.Slab.Check
import Zalloc.Slab.Traverse

/-!
# `slab_stats`

The function prints a table with a row for each list and a row with the totals. The columns are the
number of slabs, of used and of free slots; the last column, a `float`, is left out.

## Main definitions

* `SlabRow`: a row of the table.
* `slabStats`: the function.
* `Accounts c stats`: what the table says about a chain.

## Main results

* `slabs_mul_le`: the slabs of a chain do not take more than the address space, so no counter wraps.
* `slabStats_accounts`: in every run the table accounts for the live items and the mapped regions.
-/

set_option autoImplicit false

namespace Zalloc

/-! ## The function -/

/-- `nr_slabs`, `used_slots` and `free_slots`, or their totals. -/
structure SlabRow where
  /-- The number of slabs. -/
  nrSlabs : ℕ
  /-- The number of used slots. -/
  usedSlots : ℕ
  /-- The number of free slots. -/
  freeSlots : ℕ
deriving DecidableEq, Repr

/-- Counters of `unsigned long long`. -/
def SlabRow.add (x y : SlabRow) : SlabRow :=
  ⟨u64 (x.nrSlabs + y.nrSlabs), u64 (x.usedSlots + y.usedSlots), u64 (x.freeSlots + y.freeSlots)⟩

/-- What a slab adds to its row. -/
def slabRow (z : SlabSizes) (slots : ℕ) : SlabRow :=
  ⟨1, u64Sub z.itemcount (freeSlots slots), freeSlots slots⟩

/-- One iteration of the loop over the slabs of a list. -/
def statsBody (z : SlabSizes) : ℕ × SlabRow → SlabProg ((ℕ × SlabRow) ⊕ SlabRow)
  | (slab, row) =>
    if slab ≠ 0 then do
      let slots ← getField SlabHeader.slots slab
      let next ← getField SlabHeader.next slab
      pure (.inl (next, row.add (slabRow z slots)))
    else pure (.inr row)

/-- The row of a list. -/
def statsRow (z : SlabSizes) (head : SlabList) : SlabProg SlabRow := do
  let slab ← getHead head
  Prog.loop (statsBody z) (slab, ⟨0, 0, 0⟩)

/-- The table. -/
structure SlabStats where
  /-- The row of each list. -/
  row : SlabList → SlabRow
  /-- The totals. -/
  total : SlabRow

/-- `slab_stats`. It prints the table in the source; here, it returns it. -/
def slabStats : SlabProg SlabStats := do
  let z ← Prog.read fun st => st.sch.toSlabSizes
  let part ← statsRow z .partly
  let empty ← statsRow z .empty
  let full ← statsRow z .full
  let row : SlabList → SlabRow
    | .partly => part
    | .empty => empty
    | .full => full
  pure ⟨row, ((SlabRow.add ⟨0, 0, 0⟩ part).add empty).add full⟩

/-! ## What is counted -/

section Count

variable {st : SlabState} {L : SlabList → List ℕ} {a : ℕ} {l : List ℕ} {w : SlabList}

/-- The number of free slots of the slabs of a list. -/
def freeCount (st : SlabState) (l : List ℕ) : ℕ := (l.map fun a => freeSlots (st.hdr a).slots).sum

/-- The number of used slots of the slabs of a list. -/
def usedCount (st : SlabState) (l : List ℕ) : ℕ := (l.flatMap (usedItems st)).length

theorem usedCount_cons : usedCount st (a :: l) = (usedItems st a).length + usedCount st l := by
  rw [usedCount, List.flatMap_cons, List.length_append, usedCount]

theorem freeCount_cons : freeCount st (a :: l) = freeSlots (st.hdr a).slots + freeCount st l := by
  rw [freeCount, List.map_cons, List.sum_cons, freeCount]

/-- A slot of a slab is used or free. -/
theorem SlabInv.freeSlots_add (h : SlabInv st L) (ha : a ∈ L w) :
    freeSlots (st.hdr a).slots + (usedItems st a).length = st.sch.itemcount := by
  have hlt := (h.slots w a ha).lt h.sized
  rw [freeSlots, BitMask.count_eq_of_lt hlt h.sized.itemcount_le, usedItems, List.length_map]
  exact BitMask.count_add_unset _ _

/-- The slots of a list of slabs. -/
theorem SlabInv.usedCount_add_freeCount (h : SlabInv st L) (hl : ∀ x ∈ l, ∃ w, x ∈ L w) :
    usedCount st l + freeCount st l = st.sch.itemcount * l.length := by
  induction l with
  | nil => rfl
  | cons a l ih =>
    obtain ⟨w, hw⟩ := hl a (List.mem_cons_self ..)
    have hslab := h.freeSlots_add hw
    have hrest := ih fun x hx => hl x (List.mem_cons_of_mem _ hx)
    rw [usedCount_cons, freeCount_cons, List.length_cons, Nat.mul_succ]
    omega

/-! ### The slabs -/

/-- The slabs of the mapped regions. -/
def allSlabs (st : SlabState) : List ℕ :=
  st.regions.flatMap fun base =>
    (List.range (st.sch.pagesPerAlloc / st.sch.slabsize)).map fun k => base + k * st.sch.slabsize

theorem length_allSlabs :
    (allSlabs st).length = st.regions.length * (st.sch.pagesPerAlloc / st.sch.slabsize) := by
  rw [allSlabs, List.length_flatMap]
  simp

theorem SlabInv.inRegion_iff_mul (h : SlabInv st L) {base : ℕ} :
    st.sch.InRegion base a ↔
      ∃ k < st.sch.pagesPerAlloc / st.sch.slabsize, base + k * st.sch.slabsize = a := by
  have hpos := h.sized.slabsize_pos
  have hdiv := Nat.div_mul_cancel h.sized.slabsize_dvd
  constructor
  · rintro ⟨hle, hlt, k, hk⟩
    rw [Nat.mul_comm] at hk
    refine ⟨k, ?_, by omega⟩
    rw [← Nat.mul_lt_mul_right hpos, hdiv]
    omega
  · rintro ⟨k, hk, rfl⟩
    rw [← Nat.mul_lt_mul_right hpos, hdiv] at hk
    exact inRegion_add_mul hk

theorem SlabInv.mem_allSlabs (h : SlabInv st L) : a ∈ allSlabs st ↔ st.IsSlab a := by
  simp only [allSlabs, List.mem_flatMap, List.mem_map, List.mem_range, SlabState.IsSlab,
    h.inRegion_iff_mul]

theorem SlabInv.nodup_allSlabs (h : SlabInv st L) : (allSlabs st).Nodup := by
  have hpos := h.sized.slabsize_pos
  rw [allSlabs, List.nodup_flatMap]
  constructor
  · intro base _
    refine List.nodup_range.map fun i j heq => ?_
    exact Nat.eq_of_mul_eq_mul_right hpos (Nat.add_left_cancel heq)
  · refine h.regions.nodup.pairwise_of_forall_ne fun base hb base' hb' hne x hx hx' => hne ?_
    have hin : ∀ {b}, x ∈ (List.range (st.sch.pagesPerAlloc / st.sch.slabsize)).map
        (fun k => b + k * st.sch.slabsize) → st.sch.InRegion b x := by
      intro b hx
      obtain ⟨k, hk, rfl⟩ := List.mem_map.1 hx
      exact h.inRegion_iff_mul.2 ⟨k, List.mem_range.1 hk, rfl⟩
    exact h.regions.eq_of_inRegion hb hb' (hin hx) (hin hx')

/-- The lists hold the slabs of the regions. -/
theorem SlabInv.perm_allSlabs (h : SlabInv st L) :
    (L .partly ++ (L .empty ++ L .full)).Perm (allSlabs st) := by
  refine (List.perm_ext_iff_of_nodup h.nodup_append h.nodup_allSlabs).2 fun x => ?_
  rw [h.mem_allSlabs, mem_append_iff]
  exact ⟨fun ⟨w, hw⟩ => h.chained.isSlab w x hw, h.cover x⟩

/-- The slabs do not take more than the address space. -/
theorem SlabInv.slabs_mul_le (h : SlabInv st L) :
    (allSlabs st).length * st.sch.slabsize ≤ 2 ^ 64 := by
  have hpos := h.sized.slabsize_pos
  -- a slab is known by its number, which is below that of the slabs of the address space
  have hsub : (allSlabs st).map (· / st.sch.slabsize) ⊆ List.range (2 ^ 64 / st.sch.slabsize) := by
    intro m hm
    obtain ⟨a, ha, rfl⟩ := List.mem_map.1 hm
    have hslab := h.mem_allSlabs.1 ha
    have hle := h.slab_le hslab
    have hdvd := Nat.div_mul_cancel (h.dvd hslab)
    rw [List.mem_range]
    refine (Nat.le_div_iff_mul_le hpos).2 ?_
    rw [Nat.succ_mul, hdvd]
    exact hle
  have hnodup : ((allSlabs st).map (· / st.sch.slabsize)).Nodup := by
    refine h.nodup_allSlabs.map_on fun a ha b hb heq => ?_
    rw [← Nat.div_mul_cancel (h.dvd (h.mem_allSlabs.1 ha)), heq,
      Nat.div_mul_cancel (h.dvd (h.mem_allSlabs.1 hb))]
  have hlen := (hnodup.subperm hsub).length_le
  rw [List.length_map, List.length_range] at hlen
  exact (Nat.le_div_iff_mul_le hpos).1 hlen

end Count

/-! ## The loops -/

section Loops

variable {st : SlabState} {L : SlabList → List ℕ} {a : ℕ} {l : List ℕ} {row : SlabRow}

theorem u64_add (m n : ℕ) : u64 (u64 m + n) = u64 (m + n) := Nat.mod_add_mod m (2 ^ 64) n

/-- The counters after the slabs of a list. -/
def SlabRow.plus (st : SlabState) (row : SlabRow) (l : List ℕ) : SlabRow :=
  ⟨u64 (row.nrSlabs + l.length), u64 (row.usedSlots + usedCount st l),
    u64 (row.freeSlots + freeCount st l)⟩

theorem SlabInv.row_plus_cons (h : SlabInv st L) {w : SlabList} (ha : a ∈ L w) :
    SlabRow.plus st (row.add (slabRow st.sch.toSlabSizes (st.hdr a).slots)) l =
      row.plus st (a :: l) := by
  have hslab := h.freeSlots_add ha
  have hcount := h.sized.itemcount_le
  have hused : u64Sub st.sch.itemcount (freeSlots (st.hdr a).slots) =
      (usedItems st a).length := by
    rw [u64Sub]
    omega
  simp only [SlabRow.plus, SlabRow.add, slabRow, hused, u64_add, usedCount_cons, freeCount_cons,
    List.length_cons, Nat.add_assoc, Nat.add_comm 1]

/-- The slabs of a list are counted. -/
theorem SlabInv.returns_statsBody (h : SlabInv st L) {w : SlabList}
    (hpath : Links.Path st.nextOf a l 0) (hl : ∀ x ∈ l, x ∈ L w)
    (hrow : row.plus st [] = row) :
    (Prog.loop (statsBody st.sch.toSlabSizes) (a, row)).Returns st st (row.plus st l) := by
  induction l generalizing a row with
  | nil =>
    obtain rfl : a = 0 := hpath
    rw [hrow]
    exact .loop_exit (Prog.returns_pure _ _)
  | cons b l ih =>
    obtain ⟨rfl, hrest⟩ := hpath
    have hmem := hl a (List.mem_cons_self ..)
    have hslab := h.chained.isSlab w a hmem
    rw [← h.row_plus_cons hmem]
    refine Prog.Returns.loop_next ?_ (ih hrest (fun x hx => hl x (List.mem_cons_of_mem _ hx)) ?_)
    · unfold statsBody
      dsimp only
      rw [if_pos (h.chained.ne_zero hmem)]
      exact (returns_getField _ hslab).bind
        ((returns_getField _ hslab).bind (Prog.returns_pure _ _))
    · simp [SlabRow.plus, SlabRow.add, usedCount, freeCount, u64]

/-- The counters of a list, which do not wrap. -/
theorem SlabInv.returns_statsRow (h : SlabInv st L) (w : SlabList) :
    (statsRow st.sch.toSlabSizes w).Returns st st
      (SlabRow.plus st ⟨0, 0, 0⟩ (L w)) := by
  refine (returns_getHead rfl).bind (h.returns_statsBody (h.chained.linked w).path
    (fun x hx => hx) ?_)
  rfl

end Loops

/-! ## Runs -/

/-- The table is right: the totals are those of the live items and of the mapped regions. The used
and the free slots of a row are those of its slabs. A slab of the row `Empty` has no used slot, one
of `Full` no free slot, and one of `Partial` at least one of both. -/
structure Accounts (c : SlabConfig) (stats : SlabStats) : Prop where
  /-- The used slots are the live items. -/
  used : stats.total.usedSlots = c.live.length
  /-- The slabs are those of the regions. -/
  slabs : stats.total.nrSlabs =
    c.st.regions.length * (c.st.sch.pagesPerAlloc / c.st.sch.slabsize)
  /-- All slots are counted. -/
  total : stats.total.usedSlots + stats.total.freeSlots =
    c.st.sch.itemcount * stats.total.nrSlabs
  /-- So are those of a list. -/
  row : ∀ w, (stats.row w).usedSlots + (stats.row w).freeSlots =
    c.st.sch.itemcount * (stats.row w).nrSlabs
  /-- No slot of an empty slab is in use. -/
  empty : (stats.row .empty).usedSlots = 0
  /-- All slots of a full slab are. -/
  full : (stats.row .full).freeSlots = 0
  /-- A partial slab has slots of both kinds. -/
  partly : (stats.row .partly).nrSlabs ≤ (stats.row .partly).usedSlots ∧
    (stats.row .partly).nrSlabs ≤ (stats.row .partly).freeSlots

section Run

variable {st : SlabState} {L : SlabList → List ℕ} {a : ℕ} {l : List ℕ} {itemsize : ℕ}
  {c : SlabConfig}

/-- A slab of the three lists has a used slot unless it is empty. -/
theorem SlabInv.usedItems_length (h : SlabInv st L) {w : SlabList} (ha : a ∈ L w) :
    (w = .empty → (usedItems st a).length = 0) ∧
      (w = .full → freeSlots (st.hdr a).slots = 0) ∧
      (w = .partly → 1 ≤ (usedItems st a).length ∧ 1 ≤ freeSlots (st.hdr a).slots) := by
  have hslab := h.freeSlots_add ha
  have hholds := h.slots w a ha
  have hlt := hholds.lt h.sized
  have hcount : freeSlots (st.hdr a).slots =
      BitMask.count st.sch.itemcount (st.hdr a).slots :=
    BitMask.count_eq_of_lt hlt h.sized.itemcount_le
  refine ⟨?_, ?_, ?_⟩
  · rintro rfl
    rw [List.length_eq_zero_iff, List.eq_nil_iff_forall_not_mem]
    intro x hx
    obtain ⟨i, hi, hbit, -⟩ := mem_usedItems.1 hx
    rw [((holds_empty_iff h.sized).1 hholds).2 i hi] at hbit
    cases hbit
  · rintro rfl
    rw [hcount]
    by_contra hne
    obtain ⟨i, hi, hbit⟩ := BitMask.count_pos_iff.1 (Nat.pos_of_ne_zero hne)
    rw [((holds_full_iff h.sized).1 hholds).2 i hi] at hbit
    cases hbit
  · rintro rfl
    obtain ⟨-, hfree, hused⟩ := (holds_partly_iff h.sized).1 hholds
    have hpos := BitMask.count_pos_iff.2 hfree
    have hless := BitMask.count_lt_iff.2 hused
    omega

/-- The counts of a whole list. -/
theorem SlabInv.counts_list (h : SlabInv st L) {w : SlabList} (hl : ∀ x ∈ l, x ∈ L w) :
    (w = .empty → usedCount st l = 0) ∧ (w = .full → freeCount st l = 0) ∧
      (w = .partly → l.length ≤ usedCount st l ∧ l.length ≤ freeCount st l) := by
  induction l with
  | nil => exact ⟨fun _ => rfl, fun _ => rfl, fun _ => ⟨le_rfl, le_rfl⟩⟩
  | cons a l ih =>
    obtain ⟨hempty, hfull, hpart⟩ := h.usedItems_length (hl a (List.mem_cons_self ..))
    obtain ⟨hempty', hfull', hpart'⟩ := ih fun x hx => hl x (List.mem_cons_of_mem _ hx)
    rw [usedCount_cons, freeCount_cons, List.length_cons]
    refine ⟨fun hw => ?_, fun hw => ?_, fun hw => ?_⟩
    · rw [hempty hw, hempty' hw]
    · rw [hfull hw, hfull' hw]
    · obtain ⟨h₁, h₂⟩ := hpart hw
      obtain ⟨h₃, h₄⟩ := hpart' hw
      omega

/-- The live items are those of the partial and of the full slabs. -/
theorem SlabReady.usedCount_live (h : SlabReady itemsize c L) :
    usedCount c.st (L .partly) + usedCount c.st (L .full) = c.live.length := by
  rw [usedCount, usedCount, ← List.length_append, ← List.flatMap_append]
  refine ((List.perm_ext_iff_of_nodup h.inv.nodup_traversed h.nodup).2 fun x => ?_).length_eq
  rw [h.inv.mem_traversed_iff, h.live x]

/-- The number of slots is less than that of the addresses. -/
theorem SlabInv.slots_lt (h : SlabInv st L) :
    st.sch.itemcount * (allSlabs st).length < 2 ^ 64 ∧ (allSlabs st).length < 2 ^ 64 := by
  have hspace := h.slabs_mul_le
  have hfits := h.sized.fits
  have hcount : st.sch.itemcount ≤ st.sch.itemcount * st.sch.itemsize :=
    Nat.le_mul_of_pos_right _ h.sized.itemsize_pos
  -- a slab has its header and a byte at least for each slot
  have hsize : dataOffset + st.sch.itemcount ≤ st.sch.slabsize := by omega
  have hbound := (Nat.mul_le_mul_left (allSlabs st).length hsize).trans hspace
  rw [dataOffset, Nat.mul_add, Nat.mul_comm _ st.sch.itemcount] at hbound
  rcases Nat.eq_zero_or_pos (allSlabs st).length with hzero | hsome
  · rw [hzero, Nat.mul_zero]
    exact ⟨Nat.two_pow_pos _, Nat.two_pow_pos _⟩
  · omega

/-- The row of a list, where no counter wraps. -/
theorem SlabInv.returns_row (h : SlabInv st L) (w : SlabList) :
    (statsRow st.sch.toSlabSizes w).Returns st st
      ⟨(L w).length, usedCount st (L w), freeCount st (L w)⟩ := by
  have hrow := h.returns_statsRow w
  have hsum := h.usedCount_add_freeCount (l := L w) fun x hx => ⟨w, hx⟩
  have hle : (L w).length ≤ (allSlabs st).length := by
    rw [← h.perm_allSlabs.length_eq, List.length_append, List.length_append]
    cases w <;> omega
  have hslots := h.slots_lt
  have hmul := Nat.mul_le_mul_left st.sch.itemcount hle
  have hexact : SlabRow.plus st ⟨0, 0, 0⟩ (L w) =
      ⟨(L w).length, usedCount st (L w), freeCount st (L w)⟩ := by
    simp only [SlabRow.plus, u64, SlabRow.mk.injEq]
    omega
  rwa [hexact] at hrow

/-- The table of a chain. -/
theorem SlabReady.accounts (h : SlabReady itemsize c L) :
    ∃ stats, slabStats.Returns c.st c.st stats ∧ Accounts c stats := by
  have hinv := h.inv
  have hsum : ∀ w, usedCount c.st (L w) + freeCount c.st (L w) =
      c.st.sch.itemcount * (L w).length := fun w =>
    hinv.usedCount_add_freeCount fun x hx => ⟨w, hx⟩
  have hpart := (hinv.counts_list (w := .partly) fun x hx => hx).2.2 rfl
  have hempty := (hinv.counts_list (w := .empty) fun x hx => hx).1 rfl
  have hfull := (hinv.counts_list (w := .full) fun x hx => hx).2.1 rfl
  have hlive := h.usedCount_live
  have hslots := hinv.slots_lt
  have hslabs := hinv.perm_allSlabs.length_eq
  rw [List.length_append, List.length_append] at hslabs
  have hsums : c.st.sch.itemcount * (allSlabs c.st).length =
      usedCount c.st (L .partly) + freeCount c.st (L .partly) +
      (usedCount c.st (L .empty) + freeCount c.st (L .empty) +
      (usedCount c.st (L .full) + freeCount c.st (L .full))) := by
    rw [← hslabs, hsum, hsum, hsum, Nat.mul_add, Nat.mul_add]
  refine ⟨_, (Prog.returns_read _ _).bind ((hinv.returns_row .partly).bind
    ((hinv.returns_row .empty).bind ((hinv.returns_row .full).bind (Prog.returns_pure _ _)))), ?_⟩
  have htotal : ((SlabRow.add ⟨0, 0, 0⟩
        ⟨(L .partly).length, usedCount c.st (L .partly), freeCount c.st (L .partly)⟩).add
        ⟨(L .empty).length, usedCount c.st (L .empty), freeCount c.st (L .empty)⟩).add
        ⟨(L .full).length, usedCount c.st (L .full), freeCount c.st (L .full)⟩ =
      ⟨(allSlabs c.st).length, c.live.length,
        freeCount c.st (L .partly) + freeCount c.st (L .empty)⟩ := by
    simp only [SlabRow.add, u64, SlabRow.mk.injEq]
    omega
  rw [htotal]
  refine ⟨rfl, length_allSlabs, ?_, ?_, hempty, hfull, hpart⟩
  · show c.live.length + (freeCount c.st (L .partly) + freeCount c.st (L .empty)) = _
    rw [hsums]
    omega
  · intro w
    cases w <;> exact hsum _

end Run

end Zalloc
