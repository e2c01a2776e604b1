import Mathlib.Data.Finset.Card
import Mathlib.Data.Finset.Range
import Zalloc.Slab.Lists

/-!
# The invariant of a chain

Every slab of a mapped region is in one of the three lists, and the slot mask says in which. The
first slab of a region counts the slabs of the region that are not empty; the other ones point to
it.

## Main definitions

* `RegionsOk z regions`: the regions are aligned and do not overlap.
* `SlabSizes.inUse z E base`: the number of slabs of the region that are not in the list `E`.
* `SlabInv st L`: the invariant; the lists have the nodes `L`.
* `UsedSlot st a i`: a slot of a slab is in use.

## Main results

* `SlabInv.move`: the invariant after one slab has changed its slots and its list.
* `SlabInv.returns_pageOf`: a slab leads to the first slab of its region.
-/

set_option autoImplicit false

namespace Zalloc

/-! ## Regions -/

/-- The regions are those of aligned, different and disjoint pieces of the address space. -/
structure RegionsOk (z : SlabSizes) (regions : List ℕ) : Prop where
  /-- No region is mapped twice. -/
  nodup : regions.Nodup
  /-- The regions are aligned to the slab size. -/
  aligned : ∀ base ∈ regions, z.slabsize ∣ base
  /-- No region is at `NULL`. -/
  pos : ∀ base ∈ regions, 0 < base
  /-- The regions are in the address space. -/
  le : ∀ base ∈ regions, base + z.pagesPerAlloc ≤ 2 ^ 64
  /-- The regions do not overlap. -/
  apart : ∀ base ∈ regions, ∀ base' ∈ regions, base ≠ base' →
    base + z.pagesPerAlloc ≤ base' ∨ base' + z.pagesPerAlloc ≤ base

namespace SlabSizes

/-- The slabs of the region at `base`. -/
def slabs (z : SlabSizes) (base : ℕ) : Finset ℕ :=
  (Finset.range (base + z.pagesPerAlloc)).filter (z.InRegion base)

/-- The number of slabs of the region at `base` that are not in the list `E`. -/
def inUse (z : SlabSizes) (E : List ℕ) (base : ℕ) : ℕ := ((z.slabs base).filter (· ∉ E)).card

variable {z : SlabSizes} {base a x : ℕ} {E E' : List ℕ}

@[simp] theorem mem_slabs : x ∈ z.slabs base ↔ z.InRegion base x := by
  rw [slabs, Finset.mem_filter, Finset.mem_range]
  exact ⟨fun h => h.2, fun h => ⟨h.2.1, h⟩⟩

theorem inUse_congr (h : ∀ x, z.InRegion base x → (x ∈ E ↔ x ∈ E')) :
    z.inUse E base = z.inUse E' base := by
  rw [inUse, inUse]
  apply congrArg Finset.card
  ext x
  rw [Finset.mem_filter, Finset.mem_filter, mem_slabs]
  exact and_congr_right fun hx => not_congr (h x hx)

/-- A slab less in use. -/
theorem inUse_cons (ha : z.InRegion base a) (hE : a ∉ E) :
    z.inUse E base = z.inUse (a :: E) base + 1 := by
  rw [inUse, inUse, ← Finset.card_insert_of_notMem (a := a)]
  · apply congrArg Finset.card
    ext x
    simp only [Finset.mem_filter, Finset.mem_insert, mem_slabs, List.mem_cons, not_or]
    constructor
    · rintro ⟨hx, hxE⟩
      -- a slab is `a` or one of the others in use
      by_cases hxa : x = a
      · exact .inl hxa
      · exact .inr ⟨hx, hxa, hxE⟩
    · rintro (rfl | ⟨hx, -, hxE⟩)
      · exact ⟨ha, hE⟩
      · exact ⟨hx, hxE⟩
  · simp

/-- The only slab in use. -/
theorem mem_of_inUse_eq_one (h : z.inUse E base = 1) (ha : z.InRegion base a) (hE : a ∉ E)
    (hx : z.InRegion base x) (hne : x ≠ a) : x ∈ E := by
  obtain ⟨b, hb⟩ := Finset.card_eq_one.1 h
  -- there is one slab in use, and `a` is it
  have hmem : ∀ y, z.InRegion base y → y ∉ E → y = b := by
    intro y hy hyE
    have hin : y ∈ (z.slabs base).filter (· ∉ E) := by
      rw [Finset.mem_filter, mem_slabs]
      exact ⟨hy, hyE⟩
    rw [hb] at hin
    exact Finset.mem_singleton.1 hin
  by_contra hxE
  exact hne ((hmem x hx hxE).trans (hmem a ha hE).symm)

/-- A slab that is the only one in use. -/
theorem inUse_eq_one (ha : z.InRegion base a) (hE : a ∉ E)
    (h : ∀ x, z.InRegion base x → x ∉ E → x = a) : z.inUse E base = 1 := by
  refine Finset.card_eq_one.2 ⟨a, ?_⟩
  ext x
  rw [Finset.mem_filter, mem_slabs, Finset.mem_singleton]
  constructor
  · exact fun hx => h x hx.1 hx.2
  · rintro rfl
    exact ⟨ha, hE⟩

end SlabSizes

/-- The region of a slab is unique. -/
theorem RegionsOk.eq_of_inRegion {z : SlabSizes} {regions : List ℕ} {base base' a : ℕ}
    (h : RegionsOk z regions) (hb : base ∈ regions) (hb' : base' ∈ regions)
    (ha : z.InRegion base a) (ha' : z.InRegion base' a) : base = base' := by
  by_contra hne
  obtain ⟨hlo, hhi, -⟩ := ha
  obtain ⟨hlo', hhi', -⟩ := ha'
  rcases h.apart base hb base' hb' hne with hle | hle
  · omega
  · omega

/-! ## The invariant -/

/-- The invariant of a chain whose lists have the nodes `L`. -/
structure SlabInv (st : SlabState) (L : SlabList → List ℕ) : Prop where
  /-- The sizes are right. -/
  sized : Sized st.sch.toSlabSizes
  /-- The regions are right. -/
  regions : RegionsOk st.sch.toSlabSizes st.regions
  /-- The lists have the nodes `L`, which are different slabs. -/
  chained : Chained st L
  /-- Every slab is in a list. -/
  cover : ∀ a, st.IsSlab a → ∃ w, a ∈ L w
  /-- The slots of a slab are those of its list. -/
  slots : ∀ w, ∀ a ∈ L w, w.Holds st.sch.toSlabSizes (st.hdr a).slots
  /-- The first slab of a region counts those that are not empty. -/
  first : ∀ base ∈ st.regions,
    (st.hdr base).refcount = st.sch.inUse (L .empty) base ∧ 0 < (st.hdr base).refcount
  /-- The other ones point to the first. -/
  rest : ∀ base ∈ st.regions, ∀ a, st.sch.InRegion base a → a ≠ base →
    (st.hdr a).refcount = 0 ∧ (st.hdr a).page = base

/-- A slot of a slab is in use. -/
def UsedSlot (st : SlabState) (a i : ℕ) : Prop :=
  st.IsSlab a ∧ i < st.sch.itemcount ∧ (st.hdr a).slots.testBit i = false

/-- Two states differ in the headers' `slots`, `refcount` and `page` only. -/
structure SameLinks (st st' : SlabState) : Prop where
  /-- The chain is the same. -/
  sch : st'.sch = st.sch
  /-- The regions are the same. -/
  regions : st'.regions = st.regions
  /-- The links forwards are the same. -/
  nextOf : st'.nextOf = st.nextOf
  /-- The links backwards are the same. -/
  prevOf : st'.prevOf = st.prevOf

section Write

variable {st st' : SlabState} {L : SlabList → List ℕ} {a v : ℕ}

/-- The lists depend on the links only. -/
theorem Chained.of_sameLinks (h : Chained st L) (hsame : SameLinks st st') : Chained st' L :=
  h.congr hsame.sch hsame.regions fun _ _ _ => ⟨by rw [hsame.nextOf], by rw [hsame.prevOf]⟩

theorem SameLinks.isSlab_iff {x : ℕ} (hsame : SameLinks st st') : st'.IsSlab x ↔ st.IsSlab x :=
  isSlab_congr (congrArg SlabChain.toSlabSizes hsame.sch) hsame.regions

/-- `slab->slots = v`. -/
theorem returns_setSlots (h : st.IsSlab a) (v : ℕ) :
    ∃ st', (setSlots a v).Returns st st' () ∧ SameLinks st st' ∧
      (∀ x, (st'.hdr x).slots = if x = a then v else (st.hdr x).slots) ∧
      (∀ x, (st'.hdr x).refcount = (st.hdr x).refcount) ∧
      ∀ x, (st'.hdr x).page = (st.hdr x).page := by
  refine ⟨_, returns_setField _ h, ⟨rfl, rfl, funext (setHdr_field rfl), funext (setHdr_field rfl)⟩,
    fun x => ?_, setHdr_field rfl, setHdr_field rfl⟩
  split_ifs with hx
  · rw [hx, setHdr_self]
  · rw [setHdr_of_ne hx]

/-- `slab->refcount = v`. -/
theorem returns_setRefcount (h : st.IsSlab a) (v : ℕ) :
    ∃ st', (setRefcount a v).Returns st st' () ∧ SameLinks st st' ∧
      (∀ x, (st'.hdr x).slots = (st.hdr x).slots) ∧
      (∀ x, (st'.hdr x).refcount = if x = a then v else (st.hdr x).refcount) ∧
      ∀ x, (st'.hdr x).page = (st.hdr x).page := by
  refine ⟨_, returns_setField _ h, ⟨rfl, rfl, funext (setHdr_field rfl), funext (setHdr_field rfl)⟩,
    setHdr_field rfl, fun x => ?_, setHdr_field rfl⟩
  split_ifs with hx
  · rw [hx, setHdr_self]
  · rw [setHdr_of_ne hx]

/-- A slab leads to the first slab of its region. -/
theorem returns_pageOf {base : ℕ} (hslab : st.IsSlab a) (hpos : a = base → 0 < (st.hdr a).refcount)
    (hrest : a ≠ base → (st.hdr a).refcount = 0 ∧ (st.hdr a).page = base) :
    (pageOf a).Returns st st base := by
  refine (returns_getField _ hslab).bind ?_
  by_cases ha : a = base
  · have hne := hpos ha
    rw [if_pos (by omega)]
    exact Prog.returns_pure_iff.2 ⟨rfl, ha.symm⟩
  · obtain ⟨hzero, hpage⟩ := hrest ha
    rw [if_neg (by simpa using hzero), ← hpage]
    exact returns_getField _ hslab

end Write

namespace SlabInv

variable {st st' : SlabState} {L L' : SlabList → List ℕ} {w w' : SlabList} {a x i base : ℕ}

/-- A slab is aligned. -/
theorem dvd (h : SlabInv st L) (ha : st.IsSlab a) : st.sch.slabsize ∣ a := by
  obtain ⟨base, hb, hin⟩ := ha
  exact Sized.dvd_of_inRegion (h.regions.aligned base hb) hin

/-- A slab lies in the address space. -/
theorem slab_le (h : SlabInv st L) (ha : st.IsSlab a) : a + st.sch.slabsize ≤ 2 ^ 64 := by
  obtain ⟨base, hb, hin⟩ := ha
  exact (h.sized.slab_le (h.regions.aligned base hb) hin).trans (h.regions.le base hb)

theorem isSlab_base (h : SlabInv st L) (hb : base ∈ st.regions) : st.IsSlab base :=
  ⟨base, hb, h.sized.inRegion_base base⟩

/-- A slab in use is not empty. -/
theorem not_mem_empty (h : SlabInv st L) (hused : UsedSlot st a i) : a ∉ L .empty := by
  intro hmem
  obtain ⟨-, hi, hbit⟩ := hused
  -- all slots of an empty slab are free
  have hall := ((holds_empty_iff h.sized).1 (h.slots .empty a hmem)).2 i hi
  rw [hbit] at hall
  cases hall

/-- A slab leads to the first slab of its region, also after writes to other fields. -/
theorem returns_pageOf (h : SlabInv st L) (hb : base ∈ st.regions) (ha : st.sch.InRegion base a)
    (hslab : st'.IsSlab a) (hrefcount : (st'.hdr a).refcount = (st.hdr a).refcount)
    (hpage : (st'.hdr a).page = (st.hdr a).page) : (pageOf a).Returns st' st' base := by
  refine Zalloc.returns_pageOf hslab ?_ ?_
  · rintro rfl
    rw [hrefcount]
    exact (h.first a hb).2
  · rw [hrefcount, hpage]
    exact h.rest base hb a ha

/-- A slab changes its slots and its list, and the count of its region is kept up to date. -/
theorem move (h : SlabInv st L) (hb : base ∈ st.regions) (ha : st.sch.InRegion base a)
    (hchained : Chained st' L') (hsizes : st'.sch.toSlabSizes = st.sch.toSlabSizes)
    (hregions : st'.regions = st.regions) (hmem : ∀ w x, x ≠ a → (x ∈ L' w ↔ x ∈ L w))
    (haw : a ∈ L' w) (hholds : w.Holds st.sch.toSlabSizes (st'.hdr a).slots)
    (hslots : ∀ x ≠ a, (st'.hdr x).slots = (st.hdr x).slots)
    (hfirst : (st'.hdr base).refcount = st.sch.inUse (L' .empty) base ∧
      0 < (st'.hdr base).refcount)
    (hrefcount : ∀ x ≠ base, (st'.hdr x).refcount = (st.hdr x).refcount)
    (hpage : ∀ x, (st'.hdr x).page = (st.hdr x).page) : SlabInv st' L' where
  sized := by
    rw [hsizes]
    exact h.sized
  regions := by
    rw [hsizes, hregions]
    exact h.regions
  chained := hchained
  cover x hx := by
    by_cases hxa : x = a
    · exact ⟨w, hxa ▸ haw⟩
    · obtain ⟨w', hw'⟩ := h.cover x ((isSlab_congr hsizes hregions).1 hx)
      exact ⟨w', (hmem w' x hxa).2 hw'⟩
  slots w' x hx := by
    rw [hsizes]
    by_cases hxa : x = a
    · rw [hxa] at hx ⊢
      rwa [hchained.unique w' w a hx haw]
    · rw [hslots x hxa]
      exact h.slots w' x ((hmem w' x hxa).1 hx)
  first b hb' := by
    rw [hregions] at hb'
    rw [hsizes]
    by_cases heq : b = base
    · rw [heq]
      exact hfirst
    · -- the slab is not one of the other regions
      rw [hrefcount b heq]
      obtain ⟨hcount, hpos⟩ := h.first b hb'
      refine ⟨hcount.trans (SlabSizes.inUse_congr fun x hx => (hmem .empty x ?_).symm), hpos⟩
      rintro rfl
      exact heq (h.regions.eq_of_inRegion hb' hb hx ha)
  rest b hb' x hx hne := by
    rw [hregions] at hb'
    rw [hsizes] at hx
    obtain ⟨hzero, hpage'⟩ := h.rest b hb' x hx hne
    refine ⟨?_, (hpage x).trans hpage'⟩
    rw [hrefcount x, hzero]
    -- a first slab is the first one of its own region
    rintro rfl
    exact hne (h.regions.eq_of_inRegion hb hb' (h.sized.inRegion_base x) hx)

end SlabInv

end Zalloc
