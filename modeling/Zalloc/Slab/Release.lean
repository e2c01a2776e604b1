import Zalloc.Slab.FreeSpec

/-!
# The release of a region

When the last slot in use of a region is given back, all its other slabs are in the list of empty
slabs. One pass over the region takes them out, all but the head of the list, which is taken out at
the end. Then the region is given back to the system.

## Main definitions

* `Releasing st L base c st'`: the slabs of the region below the address `c` have been taken out.
* `LastSlot st base a i`: no other slot of the region is in use.

## Main results

* `Releasing.step`, `Releasing.returns_loop`: one slab more, and all of them.
* `SlabInv.slabFree_region`: the invariant without the region.
* `SlabInv.slabFree_regions`: the region is given back with its last slot, and only then.
* `SlabInv.slabFree`: `slab_free` returns, keeps the invariant, and gives back the slot.
-/

set_option autoImplicit false

namespace Zalloc

/-- The empty slabs that are still in the list when the slabs of the region at `base` below `c` have
been looked at: the head is kept. -/
def kept (z : SlabSizes) (base head c : ℕ) (E : List ℕ) : List ℕ :=
  E.filter fun x => x = head ∨ ¬ (z.InRegion base x ∧ x < c)

section Kept

variable {z : SlabSizes} {base head a c x : ℕ} {E : List ℕ}

/-- The slabs of a region up to and including one. -/
theorem lt_add_slabsize_iff (hz : Sized z) (hx : z.InRegion base x) (hc : z.InRegion base c) :
    x < c + z.slabsize ↔ x < c ∨ x = c := by
  obtain ⟨hlo, -, hdvd⟩ := hx
  obtain ⟨hlo', -, hdvd'⟩ := hc
  have hS := hz.slabsize_pos
  constructor
  · intro hlt
    by_contra hno
    have hle := Sized.add_slabsize_le hdvd' hdvd (by omega)
    omega
  · rintro (hlt | rfl)
    · omega
    · omega

/-- Nothing has been looked at yet. -/
theorem kept_base : kept z base head base E = E := by
  refine List.filter_eq_self.2 fun x _ => decide_eq_true (.inr ?_)
  rintro ⟨⟨hlo, -⟩, hlt⟩
  omega

/-- The head is kept, and a slab that is not in the list does not matter. -/
theorem kept_add_slabsize (hz : Sized z) (hc : z.InRegion base c) (h : c = head ∨ c ∉ E) :
    kept z base head (c + z.slabsize) E = kept z base head c E := by
  refine List.filter_congr fun x hx => decide_eq_decide.2 ?_
  refine or_congr_right' fun hne => not_congr (and_congr_right fun hin => ?_)
  -- no member of the list is looked at in this step, but for the head
  have hxc : x ≠ c := by
    rintro rfl
    rcases h with rfl | hnot
    · exact hne rfl
    · exact hnot hx
  rw [lt_add_slabsize_iff hz hin hc]
  simp [hxc]

/-- Any other slab is taken out. -/
theorem erase_kept (hz : Sized z) (hc : z.InRegion base c) (hne : c ≠ head) (hE : E.Nodup) :
    (kept z base head c E).erase c = kept z base head (c + z.slabsize) E := by
  rw [kept, (hE.filter _).erase_eq_filter, kept, List.filter_filter]
  refine List.filter_congr fun x hx => ?_
  rw [Bool.eq_iff_iff, Bool.and_eq_true, bne_iff_ne, decide_eq_true_iff, decide_eq_true_iff]
  by_cases hin : z.InRegion base x
  · rw [lt_add_slabsize_iff hz hin hc]
    by_cases hxc : x = c
    · simp [hxc, hne, hc]
    · simp [hxc]
  · have hxc : x ≠ c := by
      rintro rfl
      exact hin hc
    simp [hxc, hin]

/-- All slabs of the region have been looked at. -/
theorem kept_end :
    kept z base head (base + z.pagesPerAlloc) E =
      E.filter fun x => x = head ∨ ¬ z.InRegion base x := by
  refine List.filter_congr fun x _ => decide_eq_decide.2 ?_
  refine or_congr_right (not_congr ⟨fun h => h.1, fun h => ⟨h, h.2.1⟩⟩)

/-- In the end the head is taken out, if it is in the region. -/
theorem erase_filter_head (hE : E.Nodup) (hin : z.InRegion base head) :
    (E.filter fun x => x = head ∨ ¬ z.InRegion base x).erase head =
      E.filter fun x => ¬ z.InRegion base x := by
  rw [(hE.filter _).erase_eq_filter, List.filter_filter]
  refine List.filter_congr fun x _ => ?_
  by_cases hx : x = head
  · simp [hx, hin]
  · simp [hx]

/-- The head stays if it is in another region. -/
theorem filter_head_of_not (hnot : ¬ z.InRegion base head) :
    (E.filter fun x => x = head ∨ ¬ z.InRegion base x) =
      E.filter fun x => ¬ z.InRegion base x := by
  refine List.filter_congr fun x _ => decide_eq_decide.2 ⟨?_, .inr⟩
  rintro (rfl | hx)
  · exact hnot
  · exact hx

/-- Whether the head is one of the slabs that have been looked at. -/
theorem found_add_slabsize (hz : Sized z) (hc : z.InRegion base c) (hne : c ≠ head) :
    z.InRegion base head ∧ head < c + z.slabsize ↔ z.InRegion base head ∧ head < c := by
  refine and_congr_right fun hin => ?_
  rw [lt_add_slabsize_iff hz hin hc]
  simp [Ne.symm hne]

end Kept

/-- The slabs of the region below `c` have been taken out of the list of empty slabs; `foundHead`
says whether the head was one of them. -/
structure Releasing (st : SlabState) (L : SlabList → List ℕ) (base c : ℕ) (foundHead : Bool)
    (st' : SlabState) : Prop where
  /-- The lists. -/
  chained : Chained st' (Function.update L .empty
    (kept st.sch.toSlabSizes base (st.sch.head .empty) c (L .empty)))
  /-- The data is the same. -/
  same : SameData st st'
  /-- The list of empty slabs has the same head. -/
  head : st'.sch.head .empty = st.sch.head .empty
  /-- The head is a slab of the region that has been looked at. -/
  found : foundHead = true ↔
    st.sch.InRegion base (st.sch.head .empty) ∧ st.sch.head .empty < c

section Loop

variable {st st' : SlabState} {L : SlabList → List ℕ} {base a c n k x : ℕ} {foundHead : Bool}

theorem Releasing.start (h : Chained st L) : Releasing st L base base false st where
  chained := by rwa [kept_base, Function.update_eq_self]
  same := .refl st
  head := rfl
  found := by
    constructor
    · exact fun hno => nomatch hno
    · rintro ⟨⟨hlo, -⟩, hlt⟩
      omega

/-- The slab at `c` is looked at. -/
theorem Releasing.step (hz : Sized st.sch.toSlabSizes) (hnodup : (L .empty).Nodup)
    (hmem : ∀ x, st.sch.InRegion base x → x ≠ a → x ∈ L .empty) (hnot : a ∉ L .empty)
    (hc : st.sch.InRegion base c) (hend : c ≠ base + st.sch.pagesPerAlloc)
    (h : Releasing st L base c foundHead st') :
    ∃ st'' foundHead', (releaseBody st.sch.toSlabSizes a (base + st.sch.pagesPerAlloc)
        (c, foundHead)).Returns st' st'' (.inl (c + st.sch.slabsize, foundHead')) ∧
      Releasing st L base (c + st.sch.slabsize) foundHead' st'' := by
  have hread : (getHead .empty).Returns st' st' (st.sch.head .empty) :=
    returns_getHead h.head
  unfold releaseBody
  dsimp only
  rw [if_pos hend]
  by_cases hhead : c = st.sch.head .empty
  · -- the head is taken out at the end
    refine ⟨st', true, hread.bind ?_, ?_, h.same, h.head, ?_⟩
    · rw [if_pos hhead]
      exact Prog.returns_pure _ _
    · rw [kept_add_slabsize hz hc (.inl hhead)]
      exact h.chained
    · have hS := hz.slabsize_pos
      rw [← hhead]
      simp [hc, hS]
  · by_cases hca : c = a
    · -- the slab itself is not empty
      refine ⟨st', foundHead, hread.bind ?_, ?_, h.same, h.head, ?_⟩
      · rw [if_neg hhead, if_pos hca]
        exact Prog.returns_pure _ _
      · rw [kept_add_slabsize hz hc (.inr (hca ▸ hnot))]
        exact h.chained
      · rw [found_add_slabsize hz hc hhead]
        exact h.found
    · -- any other slab is empty, and it is unlinked
      have hcE : c ∈ Function.update L .empty
          (kept st.sch.toSlabSizes base (st.sch.head .empty) c (L .empty)) .empty := by
        rw [Function.update_self, kept, List.mem_filter]
        refine ⟨hmem c hc hca, decide_eq_true (.inr ?_)⟩
        exact fun hboth => Nat.lt_irrefl c hboth.2
      have hne : c ≠ st'.sch.head .empty := by
        rw [h.head]
        exact hhead
      obtain ⟨st'', hret, hchained, hsame, hsch⟩ := h.chained.unlink hcE hne
      rw [Function.update_self, erase_kept hz hc hhead hnodup, Function.update_idem] at hchained
      refine ⟨st'', foundHead, hread.bind ?_, hchained,
        h.same.trans hsame, ?_, ?_⟩
      · rw [if_neg hhead, if_neg hca]
        exact hret.bind (Prog.returns_pure _ _)
      · rw [hsch, h.head]
      · rw [found_add_slabsize hz hc hhead]
        exact h.found

/-- The loop looks at all slabs of the region. -/
theorem Releasing.returns_loop (hz : Sized st.sch.toSlabSizes) (hnodup : (L .empty).Nodup)
    (hmem : ∀ x, st.sch.InRegion base x → x ≠ a → x ∈ L .empty) (hnot : a ∉ L .empty)
    (hn : st.sch.pagesPerAlloc = st.sch.slabsize * n) (hk : k ≤ n)
    (h : Releasing st L base (base + k * st.sch.slabsize) foundHead st') :
    ∃ st'' foundHead', (Prog.loop (releaseBody st.sch.toSlabSizes a
        (base + st.sch.pagesPerAlloc)) (base + k * st.sch.slabsize, foundHead)).Returns st' st''
        foundHead' ∧
      Releasing st L base (base + st.sch.pagesPerAlloc) foundHead' st'' := by
  have hS := hz.slabsize_pos
  -- the induction is on the number of slabs that are still to be looked at
  induction hk using Nat.decreasingInduction generalizing st' foundHead with
  | self =>
    have hend : base + n * st.sch.slabsize = base + st.sch.pagesPerAlloc := by
      rw [hn, Nat.mul_comm]
    rw [hend] at h ⊢
    refine ⟨st', foundHead, Prog.Returns.loop_exit ?_, h⟩
    unfold releaseBody
    dsimp only
    rw [if_neg (by simp)]
    exact Prog.returns_pure _ _
  | of_succ m hm ih =>
    have hlt : m * st.sch.slabsize < st.sch.pagesPerAlloc := by
      rw [hn, Nat.mul_comm _ n]
      exact Nat.mul_lt_mul_of_pos_right hm hS
    obtain ⟨st₁, found₁, hbody, h₁⟩ :=
      h.step hz hnodup hmem hnot (inRegion_add_mul hlt) (by omega)
    rw [Nat.add_assoc, ← Nat.succ_mul] at hbody h₁
    obtain ⟨st₂, found₂, hloop, h₂⟩ := ih h₁
    exact ⟨st₂, found₂, hbody.loop_next hloop, h₂⟩

/-- The head of the list is taken out, if it is a slab of the region. -/
theorem Releasing.returns_popEmptyIf (hbase : 0 < base) (hchained : Chained st L)
    (h : Releasing st L base (base + st.sch.pagesPerAlloc) foundHead st') :
    ∃ st'', (popEmptyIf foundHead).Returns st' st'' () ∧
      Chained st'' (Function.update L .empty
        ((L .empty).filter fun x => ¬ st.sch.InRegion base x)) ∧ SameData st st'' := by
  have hlists := h.chained
  rw [kept_end] at hlists
  cases hfound : foundHead with
  | true =>
    obtain ⟨hin, -⟩ := h.found.1 hfound
    have hne : st.sch.head .empty ≠ 0 := by
      have hle := hin.1
      omega
    have hmem := (hchained.linked .empty).head_mem hne
    have hkept : st.sch.head .empty ∈ Function.update L .empty ((L .empty).filter fun x =>
        x = st.sch.head .empty ∨ ¬ st.sch.InRegion base x) .empty := by
      rw [Function.update_self, List.mem_filter]
      exact ⟨hmem, decide_eq_true (.inl rfl)⟩
    obtain ⟨st'', hret, hpop, hsame, -⟩ := hlists.popFront_of_eq hkept h.head.symm
    rw [Function.update_self, Function.update_idem,
      erase_filter_head (hchained.nodup .empty) hin] at hpop
    exact ⟨st'', hret, hpop, h.same.trans hsame⟩
  | false =>
    -- the head would have been found
    have hnot : ¬ st.sch.InRegion base (st.sch.head .empty) := by
      intro hin
      have htrue := h.found.2 ⟨hin, hin.2.1⟩
      rw [hfound] at htrue
      cases htrue
    rw [filter_head_of_not hnot] at hlists
    exact ⟨st', Prog.returns_pure _ _, hlists, h.same⟩

end Loop

/-! ## The invariant -/

/-- The lists after the region at `base`, with the slab `a`, has been given back. -/
def released (z : SlabSizes) (L : SlabList → List ℕ) (base a : ℕ) : SlabList → List ℕ :=
  let L₁ := Function.update L .partly ((L .partly).erase a)
  Function.update L₁ .empty ((L₁ .empty).filter fun x => ¬ z.InRegion base x)

/-- No slot of the region at `base` is in use, but for slot `i` of slab `a`. -/
def LastSlot (st : SlabState) (base a i : ℕ) : Prop :=
  ∀ x j, UsedSlot st x j → st.sch.InRegion base x → x = a ∧ j = i

/-- Some regions are still right. -/
theorem RegionsOk.erase {z : SlabSizes} {regions : List ℕ} (h : RegionsOk z regions) (base : ℕ) :
    RegionsOk z (regions.erase base) where
  nodup := h.nodup.erase base
  aligned b hb := h.aligned b (List.mem_of_mem_erase hb)
  pos b hb := h.pos b (List.mem_of_mem_erase hb)
  le b hb := h.le b (List.mem_of_mem_erase hb)
  apart b hb b' hb' := h.apart b (List.mem_of_mem_erase hb) b' (List.mem_of_mem_erase hb')

namespace SlabInv

variable {st st' : SlabState} {L : SlabList → List ℕ} {w : SlabList} {a i base x : ℕ}

/-- A slab of the region is the last one in use, so the other ones are empty. -/
theorem mem_empty_of_refcount (h : SlabInv st L) (hused : UsedSlot st a i)
    (hb : base ∈ st.regions) (hin : st.sch.InRegion base a) (hrefcount : (st.hdr base).refcount = 1)
    (hx : st.sch.InRegion base x) (hne : x ≠ a) : x ∈ L .empty := by
  refine SlabSizes.mem_of_inUse_eq_one ?_ hin (h.not_mem_empty hused) hx hne
  rw [← (h.first base hb).1, hrefcount]

/-- The slabs of the other regions stay where they are. -/
theorem mem_released (h : SlabInv st L) (hmem : a ∈ L .partly) (hin : st.sch.InRegion base a)
    (hempty : ∀ x, st.sch.InRegion base x → x ≠ a → x ∈ L .empty) :
    x ∈ released st.sch.toSlabSizes L base a w ↔ x ∈ L w ∧ ¬ st.sch.InRegion base x := by
  have hother : ∀ w ≠ .empty, x ∈ L w → x ≠ a → ¬ st.sch.InRegion base x := fun w hw hx hne hbad =>
    hw (h.chained.unique w .empty x hx (hempty x hbad hne))
  dsimp only [released]
  cases w with
  | partly =>
    rw [Function.update_of_ne (by decide), Function.update_self,
      (h.chained.nodup .partly).mem_erase_iff]
    constructor
    · -- the partial slabs but `a` are in other regions
      exact fun hx => ⟨hx.2, hother .partly (by decide) hx.2 hx.1⟩
    · rintro ⟨hx, hnot⟩
      refine ⟨?_, hx⟩
      rintro rfl
      exact hnot hin
  | empty =>
    rw [Function.update_self, Function.update_of_ne (by decide), List.mem_filter,
      decide_eq_true_iff]
  | full =>
    rw [Function.update_of_ne (by decide), Function.update_of_ne (by decide)]
    refine ⟨fun hx => ⟨hx, hother .full (by decide) hx ?_⟩, fun hx => hx.1⟩
    rintro rfl
    exact absurd (h.chained.unique .full .partly x hx hmem) (by decide)

/-- A region without its slabs is unmapped. -/
theorem mem_erase_regions (h : SlabInv st L) (hb : base ∈ st.regions) :
    (∃ b ∈ st.regions.erase base, st.sch.InRegion b x) ↔
      st.IsSlab x ∧ ¬ st.sch.InRegion base x := by
  constructor
  · rintro ⟨b, hb', hx⟩
    obtain ⟨hne, hmem⟩ := (h.regions.nodup.mem_erase_iff).1 hb'
    exact ⟨⟨b, hmem, hx⟩, fun hbad => hne (h.regions.eq_of_inRegion hmem hb hx hbad)⟩
  · rintro ⟨⟨b, hb', hx⟩, hnot⟩
    refine ⟨b, (h.regions.nodup.mem_erase_iff).2 ⟨?_, hb'⟩, hx⟩
    rintro rfl
    exact hnot hx

/-- The invariant without a region. -/
theorem released (h : SlabInv st L) (hmem : a ∈ L .partly) (hb : base ∈ st.regions)
    (hin : st.sch.InRegion base a)
    (hempty : ∀ x, st.sch.InRegion base x → x ≠ a → x ∈ L .empty) (hsame : SameData st st')
    (hchained : Chained st' (Zalloc.released st.sch.toSlabSizes L base a)) :
    SlabInv { st' with regions := st'.regions.erase base }
      (Zalloc.released st.sch.toSlabSizes L base a) := by
  have hiff : ∀ w x, x ∈ Zalloc.released st.sch.toSlabSizes L base a w ↔
      x ∈ L w ∧ ¬ st.sch.InRegion base x := fun w x => h.mem_released hmem hin hempty
  have hslab : ∀ x, SlabState.IsSlab { st' with regions := st'.regions.erase base } x ↔
      st.IsSlab x ∧ ¬ st.sch.InRegion base x := by
    intro x
    rw [← h.mem_erase_regions hb, SlabState.IsSlab, hsame.sizes, hsame.regions]
  exact {
    sized := by
      rw [hsame.sizes]
      exact h.sized
    regions := by
      rw [hsame.sizes, hsame.regions]
      exact h.regions.erase base
    chained :=
      { linked := hchained.linked
        nodup := hchained.nodup
        unique := hchained.unique
        isSlab := fun w x hx => by
          obtain ⟨hx', hnot⟩ := (hiff w x).1 hx
          exact (hslab x).2 ⟨h.chained.isSlab w x hx', hnot⟩ }
    cover := fun x hx => by
      obtain ⟨hx', hnot⟩ := (hslab x).1 hx
      obtain ⟨w, hw⟩ := h.cover x hx'
      exact ⟨w, (hiff w x).2 ⟨hw, hnot⟩⟩
    slots := fun w x hx => by
      rw [hsame.sizes, hsame.slots]
      exact h.slots w x ((hiff w x).1 hx).1
    first := fun b hb' => by
      rw [hsame.regions, h.regions.nodup.mem_erase_iff] at hb'
      rw [hsame.sizes, hsame.refcount]
      -- the other regions keep their empty slabs, and so their counts
      obtain ⟨hcount, hpos⟩ := h.first b hb'.2
      refine ⟨hcount.trans (SlabSizes.inUse_congr fun x hx => ?_), hpos⟩
      rw [hiff .empty x]
      refine ⟨fun hx' => ⟨hx', fun hbad => ?_⟩, fun hx' => hx'.1⟩
      exact hb'.1 (h.regions.eq_of_inRegion hb'.2 hb hx hbad)
    rest := fun b hb' x hx hne => by
      rw [hsame.regions] at hb'
      rw [hsame.sizes] at hx
      rw [hsame.refcount, hsame.page]
      exact h.rest b (List.mem_of_mem_erase hb') x hx hne }

/-- The last slot in use of a region is given back, and the region with it. -/
theorem slabFree_region (h : SlabInv st L) (hused : UsedSlot st a i) (hmem : a ∈ L .partly)
    (hone : oneUsedSlot (st.hdr a).slots st.sch.emptySlotmask = true) (hb : base ∈ st.regions)
    (hin : st.sch.InRegion base a) (hrefcount : (st.hdr base).refcount = 1) :
    ∃ st', (slabFree (st.sch.item a i)).Returns st st' () ∧
      SlabInv st' (Zalloc.released st.sch.toSlabSizes L base a) ∧ Freed st st' a i ∧
      st'.regions = st.regions.erase base ∧ LastSlot st base a i ∧
      ∀ w x, x ∈ Zalloc.released st.sch.toSlabSizes L base a w ↔
        x ∈ L w ∧ ¬ st.sch.InRegion base x := by
  obtain ⟨hslab, hi, -⟩ := id hused
  have hpartly := h.slots .partly a hmem
  have hbase := h.isSlab_base hb
  have hempty : ∀ x, st.sch.InRegion base x → x ≠ a → x ∈ L .empty := fun x hx hne =>
    h.mem_empty_of_refcount hused hb hin hrefcount hx hne
  have hnot := h.not_mem_empty hused
  obtain ⟨n, hn⟩ := h.sized.slabsize_dvd
  -- the slab itself is taken out of the partial ones
  obtain ⟨st₁, hret₁, hchained₁, hsame₁⟩ := h.chained.takeOut hmem
  have hL₁ : Function.update L .partly ((L .partly).erase a) .empty = L .empty :=
    Function.update_of_ne (by decide) ..
  -- then the other ones of its region are taken out of the empty ones
  have hstart : Releasing st₁ (Function.update L .partly ((L .partly).erase a)) base
      (base + 0 * st₁.sch.slabsize) false st₁ := by
    rw [Nat.zero_mul]
    exact Releasing.start hchained₁
  obtain ⟨st₂, found, hret₂, h₂⟩ := hstart.returns_loop (n := n) (a := a)
    (hsame₁.sizes.symm ▸ h.sized) (hchained₁.nodup .empty) (by rwa [hL₁, hsame₁.sizes])
    (by rwa [hL₁]) (by rwa [hsame₁.sizes]) (Nat.zero_le n)
  obtain ⟨st₃, hret₃, hchained₃, hsame₃⟩ :=
    h₂.returns_popEmptyIf (h.regions.pos base hb) hchained₁
  have hsame := hsame₁.trans hsame₃
  rw [hsame₁.sizes, Nat.zero_mul, Nat.add_zero] at hret₂
  rw [hsame₁.sizes] at hchained₃
  -- the region has no other slot in use
  have hlast : LastSlot st base a i := by
    intro x j hx hxin
    have hxa : x = a := by
      by_contra hne
      exact h.not_mem_empty hx (hempty x hxin hne)
    obtain ⟨-, hj, hbit⟩ := hx
    rw [hxa, h.testBit_eq_of_oneUsedSlot hused hone hj, Bool.not_eq_false', decide_eq_true_iff]
      at hbit
    exact ⟨hxa, hbit⟩
  refine ⟨{ st₃ with regions := st₃.regions.erase base }, h.returns_slabFree hused ?_,
    h.released hmem hb hin hempty hsame hchained₃, ⟨hsame.sizes, fun x j => ?_⟩, ?_, hlast,
    fun w x => h.mem_released hmem hin hempty⟩
  · rw [if_neg hpartly.2.1, if_pos hone]
    refine (h.returns_pageOf hb hin hslab rfl rfl).bind ?_
    refine (returns_getField _ hbase).bind ?_
    rw [if_pos hrefcount]
    refine hret₁.bind ?_
    refine (h.returns_pageOf hb hin
      (hsame₁.isSlab_iff.2 hslab) (hsame₁.refcount a) (hsame₁.page a)).bind ?_
    refine hret₂.bind ?_
    refine hret₃.bind ?_
    refine (Prog.returns_require ?_).bind (Prog.returns_modify _ _)
    rwa [hsame.regions]
  · have hslot : (st₃.hdr x).slots = (st.hdr x).slots := hsame.slots x
    rw [UsedSlot, SlabState.IsSlab]
    dsimp only
    rw [hsame.sizes, hsame.regions, h.mem_erase_regions hb, hslot]
    constructor
    · rintro ⟨⟨hx, hxnot⟩, hj, hbit⟩
      refine ⟨⟨hx, hj, hbit⟩, ?_⟩
      rintro ⟨rfl, -⟩
      exact hxnot hin
    · rintro ⟨⟨hx, hj, hbit⟩, hne⟩
      exact ⟨⟨hx, fun hxin => hne (hlast x j ⟨hx, hj, hbit⟩ hxin)⟩, hj, hbit⟩
  · show st₃.regions.erase base = st.regions.erase base
    rw [hsame.regions]

/-! ## The regions that stay -/

/-- A slab that is not empty has a slot in use. -/
theorem exists_usedSlot (h : SlabInv st L) (hx : st.IsSlab x) (hnot : x ∉ L .empty) :
    ∃ j, UsedSlot st x j := by
  obtain ⟨w, hw⟩ := h.cover x hx
  cases w with
  | partly =>
    obtain ⟨-, -, j, hj, hbit⟩ := (holds_partly_iff h.sized).1 (h.slots .partly x hw)
    exact ⟨j, hx, hj, hbit⟩
  | empty => exact absurd hw hnot
  | full =>
    have htwo := h.sized.two_le
    exact ⟨0, hx, by omega, ((holds_full_iff h.sized).1 (h.slots .full x hw)).2 0 (by omega)⟩

/-- A full slab has another slot in use. -/
theorem not_lastSlot_full (h : SlabInv st L) (hmem : a ∈ L .full) (hin : st.sch.InRegion base a) :
    ¬ LastSlot st base a i := by
  intro hlast
  have htwo := h.sized.two_le
  have hslab := h.chained.isSlab .full a hmem
  have hbits := ((holds_full_iff h.sized).1 (h.slots .full a hmem)).2
  have hzero := (hlast a 0 ⟨hslab, by omega, hbits 0 (by omega)⟩ hin).2
  have hone := (hlast a 1 ⟨hslab, by omega, hbits 1 (by omega)⟩ hin).2
  omega

/-- The slab itself has another slot in use. -/
theorem not_lastSlot_more (h : SlabInv st L) (ha : st.IsSlab a) (hin : st.sch.InRegion base a)
    (hmore : ¬ oneUsedSlot (st.hdr a).slots st.sch.emptySlotmask = true) :
    ¬ LastSlot st base a i := by
  intro hlast
  refine hmore ((oneUsedSlot_iff h.sized).2 fun j hj k hk hbj hbk => ?_)
  rw [(hlast a j ⟨ha, hj, hbj⟩ hin).2, (hlast a k ⟨ha, hk, hbk⟩ hin).2]

/-- The region has another slab in use. -/
theorem not_lastSlot_count (h : SlabInv st L) (hused : UsedSlot st a i) (hb : base ∈ st.regions)
    (hin : st.sch.InRegion base a) (hrefcount : (st.hdr base).refcount ≠ 1) :
    ¬ LastSlot st base a i := by
  intro hlast
  apply hrefcount
  rw [(h.first base hb).1]
  refine SlabSizes.inUse_eq_one hin (h.not_mem_empty hused) fun x hx hnot => ?_
  obtain ⟨j, hj⟩ := h.exists_usedSlot ⟨base, hb, hx⟩ hnot
  exact (hlast x j hj hx).1

/-! ## The call -/

/-- `slab_free` returns, keeps the invariant, and gives back the slot. The region is given back if
the slot was its last one in use; then the slabs of the other regions stay in their lists. -/
theorem slabFree_regions (h : SlabInv st L) (hused : UsedSlot st a i) (hb : base ∈ st.regions)
    (hin : st.sch.InRegion base a) :
    ∃ st' L', (Zalloc.slabFree (st.sch.item a i)).Returns st st' () ∧ SlabInv st' L' ∧
      Freed st st' a i ∧
      (LastSlot st base a i → st'.regions = st.regions.erase base ∧
        ∀ w x, x ∈ L' w ↔ x ∈ L w ∧ ¬ st.sch.InRegion base x) ∧
      (¬ LastSlot st base a i → st'.regions = st.regions) := by
  -- a used slot is in a partial or a full slab
  obtain ⟨w, hmem⟩ := h.cover a hused.1
  cases w with
  | partly =>
    by_cases hone : oneUsedSlot (st.hdr a).slots st.sch.emptySlotmask = true
    · by_cases hrefcount : (st.hdr base).refcount = 1
      · obtain ⟨st', hret, hinv, hfreed, hregions, hlast, hlists⟩ :=
          h.slabFree_region hused hmem hone hb hin hrefcount
        exact ⟨st', _, hret, hinv, hfreed, fun _ => ⟨hregions, hlists⟩, fun hno => absurd hlast hno⟩
      · obtain ⟨st', L', hret, hinv, hfreed, hregions⟩ :=
          h.slabFree_last hused hmem hone hb hin hrefcount
        exact ⟨st', L', hret, hinv, hfreed,
          fun hlast => absurd hlast (h.not_lastSlot_count hused hb hin hrefcount), fun _ => hregions⟩
    · obtain ⟨st', L', hret, hinv, hfreed, hregions⟩ := h.slabFree_more hused hmem hone
      exact ⟨st', L', hret, hinv, hfreed,
        fun hlast => absurd hlast (h.not_lastSlot_more hused.1 hin hone), fun _ => hregions⟩
  | empty => exact absurd hmem (h.not_mem_empty hused)
  | full =>
    obtain ⟨st', L', hret, hinv, hfreed, hregions⟩ := h.slabFree_full hused hmem
    exact ⟨st', L', hret, hinv, hfreed,
      fun hlast => absurd hlast (h.not_lastSlot_full hmem hin), fun _ => hregions⟩

/-- `slab_free` returns, keeps the invariant, and gives back the slot. -/
theorem slabFree (h : SlabInv st L) (hused : UsedSlot st a i) :
    ∃ st' L', (Zalloc.slabFree (st.sch.item a i)).Returns st st' () ∧ SlabInv st' L' ∧
      Freed st st' a i := by
  obtain ⟨base, hb, hin⟩ := id hused.1
  obtain ⟨st', L', hret, hinv, hfreed, -⟩ := h.slabFree_regions hused hb hin
  exact ⟨st', L', hret, hinv, hfreed⟩

end SlabInv

end Zalloc
