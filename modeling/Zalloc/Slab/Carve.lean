import Zalloc.Slab.AllocSpec

/-!
# A new region

When there is neither a partial nor an empty slab, `slab_alloc` maps a region, takes the first slot
of its first slab and links the other slabs into the list of empty ones.

## Main definitions

* `restOf S base k`: the `k` slabs behind the first one.
* `FirstSlab st base st'`: the region is mapped, and the first slab has been written.
* `Carving st base k st'`: the first slab and `k` slabs behind it have been written.

## Main results

* `Carving.step`, `Carving.returns_loop`: one slab more, and all of them.
* `SlabInv.slabAlloc_region`: the invariant with the new region.
* `SlabInv.slabAlloc`: `slab_alloc` returns, keeps the invariant, and takes a slot, or it returns
  `NULL` and nothing has changed.
-/

set_option autoImplicit false

namespace Zalloc

/-- The `k` slabs of size `S` behind the first one. -/
def restOf (S base k : ℕ) : List ℕ := (List.range k).map fun i => base + (i + 1) * S

section Rest

variable {S base k x : ℕ}

theorem mem_restOf : x ∈ restOf S base k ↔ ∃ i < k, x = base + (i + 1) * S := by
  simp [restOf, eq_comm]

/-- The first slab is not one of those behind it. -/
theorem base_not_mem_restOf (hS : 0 < S) : base ∉ restOf S base k := by
  intro hmem
  obtain ⟨i, -, heq⟩ := mem_restOf.1 hmem
  rw [Nat.succ_mul] at heq
  omega

theorem restOf_ne_nil (hk : k ≠ 0) : restOf S base k ≠ [] := by
  intro hnil
  have hlen := congrArg List.length hnil
  rw [restOf, List.length_map, List.length_range, List.length_nil] at hlen
  exact hk hlen

/-- The next slab is not one of those before it. -/
theorem not_mem_restOf (hS : 0 < S) : base + (k + 1) * S ∉ restOf S base k := by
  intro hmem
  obtain ⟨i, hi, heq⟩ := mem_restOf.1 hmem
  have hki := Nat.eq_of_mul_eq_mul_right hS (Nat.add_left_cancel heq)
  omega

theorem restOf_succ : restOf S base (k + 1) = restOf S base k ++ [base + (k + 1) * S] := by
  rw [restOf, List.range_succ, List.map_append]
  rfl

theorem nodup_restOf (hS : 0 < S) : (restOf S base k).Nodup := by
  refine List.Nodup.map (fun i j heq => ?_) List.nodup_range
  have hmul : (i + 1) * S = (j + 1) * S := Nat.add_left_cancel heq
  have hij := Nat.eq_of_mul_eq_mul_right hS hmul
  omega

end Rest

/-- The region at `base` is mapped and its first slab is written; outside of it everything is as it
was in `st`. -/
structure FirstSlab (st : SlabState) (base : ℕ) (st' : SlabState) : Prop where
  /-- The sizes are the same. -/
  sizes : st'.sch.toSlabSizes = st.sch.toSlabSizes
  /-- The region is mapped. -/
  regions : st'.regions = base :: st.regions
  /-- The first slab is the head of the partial slabs. -/
  partly : st'.sch.head .partly = base
  /-- The full slabs have the same head. -/
  full : st'.sch.head .full = st.sch.head .full
  /-- The other regions are untouched. -/
  frame : ∀ x, ¬ st.sch.InRegion base x → st'.hdr x = st.hdr x
  /-- The first slab is not linked. -/
  links : st'.nextOf base = 0 ∧ st'.prevOf base = 0
  /-- The first slab has one slot in use. -/
  first : (st'.hdr base).refcount = 1 ∧ (st'.hdr base).slots = st.sch.initialSlotmask

/-- The first slab of the region at `base` and `k` slabs behind it have been written, and linked as
far as that. -/
structure Carving (st : SlabState) (base k : ℕ) (st' : SlabState) : Prop extends
    FirstSlab st base st' where
  /-- The second slab is the head of the empty slabs. -/
  empty : st'.sch.head .empty = if k = 0 then 0 else base + st.sch.slabsize
  /-- The slabs behind the first one are linked to each other. -/
  segment : k ≠ 0 → Links.Segment 0 st'.nextOf st'.prevOf 0 (base + st.sch.slabsize)
    (restOf st.sch.slabsize base k) (base + k * st.sch.slabsize)
    (st'.nextOf (base + k * st.sch.slabsize))
  /-- They are empty. -/
  rest : ∀ x ∈ restOf st.sch.slabsize base k, (st'.hdr x).refcount = 0 ∧
    (st'.hdr x).page = base ∧ (st'.hdr x).slots = st.sch.emptySlotmask

/-! ## Writing a header -/

section Write

variable {st st' : SlabState} {a v : ℕ}

theorem setHdr_setHdr (k k' : SlabHeader) : (st.setHdr a k).setHdr a k' = st.setHdr a k' := by
  rw [SlabState.setHdr, SlabState.setHdr]
  exact congrArg (fun hdr => { st with hdr }) (Function.update_idem k k' st.hdr)

/-- One more field of a header is written. -/
theorem returns_setField_setHdr (f : SlabHeader → SlabHeader) (k : SlabHeader) (h : st.IsSlab a) :
    (setField f a).Returns (st.setHdr a k) (st.setHdr a (f k)) () := by
  have hslab : (st.setHdr a k).IsSlab a := h
  have hret := returns_setField f hslab
  rwa [setHdr_self, setHdr_setHdr] at hret

theorem returns_initEmpty (h : st.IsSlab a) (base prev : ℕ) :
    (initEmpty st.sch.toSlabSizes base a prev).Returns st
      (st.setHdr a ⟨prev, st.nextOf a, st.sch.emptySlotmask, 0, base⟩) () :=
  (returns_setField _ h).bind ((returns_setField_setHdr _ _ h).bind
    ((returns_setField_setHdr _ _ h).bind (returns_setField_setHdr _ _ h)))

theorem returns_initFirst (h : st.IsSlab a) :
    (initFirst st.sch.toSlabSizes a).Returns st
      (st.setHdr a ⟨0, 0, st.sch.initialSlotmask, 1, (st.hdr a).page⟩) () :=
  (returns_setField _ h).bind ((returns_setField_setHdr _ _ h).bind
    ((returns_setField_setHdr _ _ h).bind (returns_setField_setHdr _ _ h)))

end Write

/-! ## The loop -/

section Loop

variable {st st' : SlabState} {base a k n : ℕ}

namespace FirstSlab

theorem isSlab (h : FirstSlab st base st') {x : ℕ} (hx : st.sch.InRegion base x) :
    st'.IsSlab x := by
  refine ⟨base, ?_, ?_⟩
  · rw [h.regions]
    exact List.mem_cons_self ..
  · rw [h.sizes]
    exact hx

/-- The region is mapped, and its first slab is written. -/
theorem start {contents : ℕ → SlabHeader} {st₁ : SlabState} (hsized : Sized st.sch.toSlabSizes)
    (hst₁ : st₁ = (((st.setHead .partly 0).mapRegion ⟨base, contents⟩).setHead .partly base)) :
    ∃ st₂, (initFirst st.sch.toSlabSizes base).Returns st₁ st₂ () ∧ FirstSlab st base st₂ ∧
      st₂.sch.head .empty = st.sch.head .empty := by
  have hin := hsized.inRegion_base base
  have hsizes₁ : st₁.sch.toSlabSizes = st.sch.toSlabSizes := by
    rw [hst₁]
    rfl
  have hslab₁ : st₁.IsSlab base := by
    rw [hst₁]
    exact ⟨base, List.mem_cons_self .., hin⟩
  -- the heads of the other lists are not written
  have hhead₁ : ∀ w ≠ .partly, st₁.sch.head w = st.sch.head w := by
    intro w hw
    rw [hst₁, head_setHead_of_ne hw]
    show (st.setHead .partly 0).sch.head w = st.sch.head w
    exact head_setHead_of_ne hw
  have hret₂ := returns_initFirst hslab₁
  rw [hsizes₁] at hret₂
  refine ⟨_, hret₂, ⟨hsizes₁, ?_, ?_, hhead₁ .full (by decide), fun x hx => ?_, ⟨?_, ?_⟩, ?_, ?_⟩,
    hhead₁ .empty (by decide)⟩
  · rw [hst₁]
    rfl
  · rw [hst₁]
    exact head_setHead_self
  · have hxb : x ≠ base := by
      rintro rfl
      exact hx hin
    rw [setHdr_of_ne hxb, hst₁]
    exact if_neg hx
  · exact congrArg SlabHeader.next setHdr_self
  · exact congrArg SlabHeader.prev setHdr_self
  · rw [setHdr_self]
  · rw [setHdr_self]

/-- Another slab of the region is written. -/
theorem setHdr (h : FirstSlab st base st') (ha : st.sch.InRegion base a) (hne : base ≠ a)
    (k : SlabHeader) : FirstSlab st base (st'.setHdr a k) := by
  have hbase : (st'.setHdr a k).hdr base = st'.hdr base := setHdr_of_ne hne
  refine ⟨h.sizes, h.regions, h.partly, h.full, fun x hx => ?_, ⟨?_, ?_⟩, ?_⟩
  · have hxa : x ≠ a := by
      rintro rfl
      exact hx ha
    rw [setHdr_of_ne hxa, h.frame x hx]
  · exact (congrArg SlabHeader.next hbase).trans h.links.1
  · exact (congrArg SlabHeader.prev hbase).trans h.links.2
  · rw [hbase]
    exact h.first

/-- The head of the empty slabs is written. -/
theorem setHead_empty (h : FirstSlab st base st') (a : ℕ) :
    FirstSlab st base (st'.setHead .empty a) := by
  refine ⟨h.sizes, h.regions, ?_, ?_, h.frame, h.links, h.first⟩
  · rw [head_setHead_of_ne (by decide), h.partly]
  · rw [head_setHead_of_ne (by decide), h.full]

end FirstSlab

/-- One slab more is written and linked behind the last one. -/
theorem Carving.step (h : Carving st base k st') (hsized : Sized st.sch.toSlabSizes)
    (hbase : 0 < base) (hk : k ≠ 0) (hlt : (k + 1) * st.sch.slabsize < st.sch.pagesPerAlloc) :
    ∃ st'', (carveBody st.sch.toSlabSizes base (base + st.sch.pagesPerAlloc)
        (base + k * st.sch.slabsize, base + k * st.sch.slabsize)).Returns st' st''
        (.inl (base + (k + 1) * st.sch.slabsize, base + (k + 1) * st.sch.slabsize)) ∧
      Carving st base (k + 1) st'' := by
  have hS := hsized.slabsize_pos
  have hmul : (k + 1) * st.sch.slabsize = k * st.sch.slabsize + st.sch.slabsize := Nat.succ_mul _ _
  have hkS : st.sch.slabsize ≤ k * st.sch.slabsize :=
    Nat.le_mul_of_pos_left _ (Nat.pos_of_ne_zero hk)
  have hlast : st.sch.InRegion base (base + k * st.sch.slabsize) := inRegion_add_mul (by omega)
  have hcurr : st.sch.InRegion base (base + (k + 1) * st.sch.slabsize) := inRegion_add_mul hlt
  have hrest : base + (k + 1) * st.sch.slabsize ∉ restOf st.sch.slabsize base k :=
    not_mem_restOf hS
  -- `q` is the last slab so far, and `a` is the new one
  generalize hq : base + k * st.sch.slabsize = q at hlast
  generalize ha : base + (k + 1) * st.sch.slabsize = a at hcurr hrest
  have hqa : q ≠ a := by omega
  have hbq : base ≠ q := by omega
  have hba : base ≠ a := by omega
  obtain ⟨st₁, hst₁⟩ : ∃ st₁, st₁ = st'.setHdr q { st'.hdr q with next := a } := ⟨_, rfl⟩
  have hret₁ : (setNext q a).Returns st' st₁ () := by
    rw [hst₁]
    exact returns_setField _ (h.isSlab hlast)
  have hfirst₁ : FirstSlab st base st₁ := by
    rw [hst₁]
    exact h.setHdr hlast hbq _
  have hsame₁ : SameData st' st₁ := by
    rw [hst₁]
    exact ⟨rfl, rfl, setHdr_field rfl, setHdr_field rfl, setHdr_field rfl⟩
  have hret₂ := returns_initEmpty (hfirst₁.isSlab hcurr) base q
  rw [hfirst₁.sizes] at hret₂
  obtain ⟨st₂, hst₂⟩ : ∃ st₂, st₂ = st₁.setHdr a ⟨q, st₁.nextOf a, st.sch.emptySlotmask, 0, base⟩ :=
    ⟨_, rfl⟩
  rw [← hst₂] at hret₂
  have hfirst₂ : FirstSlab st base st₂ := by
    rw [hst₂]
    exact hfirst₁.setHdr hcurr hba _
  -- the links of the two slabs
  have hnext : st₂.nextOf = Function.update st'.nextOf q a := by
    have h₁ : st₁.nextOf = Function.update st'.nextOf q a := by
      rw [hst₁]
      exact setHdr_field_update
    have h₂ : st₂.nextOf = Function.update st₁.nextOf a (st₁.nextOf a) := by
      rw [hst₂]
      exact setHdr_field_update
    rw [h₂, Function.update_eq_self, h₁]
  have hprev : st₂.prevOf = Function.update st'.prevOf a q := by
    have h₁ : st₁.prevOf = st'.prevOf := by
      rw [hst₁]
      exact funext (setHdr_field rfl)
    rw [← h₁, hst₂]
    exact setHdr_field_update
  refine ⟨st₂, ?_, hfirst₂, ?_, fun _ => ?_, fun x hx => ?_⟩
  · -- the address of the loop is advanced before it is tested
    have hadd : q + st.sch.slabsize = a := by omega
    have hend : a ≠ base + st.sch.pagesPerAlloc := by omega
    unfold carveBody
    dsimp only
    rw [hadd, if_pos hend]
    exact hret₁.bind (hret₂.bind (Prog.returns_pure _ _))
  · rw [if_neg (Nat.succ_ne_zero k), hst₂, hst₁]
    show st'.sch.head .empty = base + st.sch.slabsize
    rw [h.empty, if_neg hk]
  · have hsegment := h.segment hk
    rw [hq] at hsegment
    rw [ha, restOf_succ, ha, hnext, hprev]
    exact hsegment.snoc (restOf_ne_nil hk) (nodup_restOf hS) hrest (by omega)
  · rw [restOf_succ, ha, List.mem_append, List.mem_singleton] at hx
    by_cases hxa : x = a
    · rw [hxa, hst₂, setHdr_self]
      exact ⟨rfl, rfl, rfl⟩
    · -- only a link of the slabs before it has changed
      rw [hst₂, setHdr_of_ne hxa, hsame₁.refcount, hsame₁.page, hsame₁.slots]
      exact h.rest x (hx.resolve_right hxa)

/-- The loop writes all slabs of the region. -/
theorem Carving.returns_loop (hsized : Sized st.sch.toSlabSizes) (hbase : 0 < base)
    (hn : st.sch.pagesPerAlloc = st.sch.slabsize * (n + 1)) (h : Carving st base k st')
    (hk : k ≠ 0) (hkn : k ≤ n) :
    ∃ st'', (Prog.loop (carveBody st.sch.toSlabSizes base (base + st.sch.pagesPerAlloc))
        (base + k * st.sch.slabsize, base + k * st.sch.slabsize)).Returns st' st''
        (base + n * st.sch.slabsize) ∧ Carving st base n st'' := by
  have hS := hsized.slabsize_pos
  -- the induction is on the number of slabs that are still to be written
  induction hkn using Nat.decreasingInduction generalizing st' with
  | self =>
    refine ⟨st', Prog.Returns.loop_exit ?_, h⟩
    unfold carveBody
    dsimp only
    rw [if_neg]
    · exact Prog.returns_pure _ _
    · rw [not_not, hn, Nat.mul_comm _ (n + 1), Nat.succ_mul, Nat.add_assoc]
  | of_succ m hm ih =>
    have hlt : (m + 1) * st.sch.slabsize < st.sch.pagesPerAlloc := by
      rw [hn, Nat.mul_comm _ (n + 1)]
      exact Nat.mul_lt_mul_of_pos_right (by omega) hS
    obtain ⟨st₁, hbody, h₁⟩ := h.step hsized hbase hk hlt
    obtain ⟨st₂, hloop, h₂⟩ := ih h₁ (Nat.succ_ne_zero m)
    exact ⟨st₂, hbody.loop_next hloop, h₂⟩

/-- The second slab is written; it becomes the head of the empty slabs. -/
theorem FirstSlab.second (h : FirstSlab st base st') (hsized : Sized st.sch.toSlabSizes)
    (hbase : 0 < base) (hlt : st.sch.slabsize < st.sch.pagesPerAlloc) :
    ∃ st₁ st₂, (initEmpty st.sch.toSlabSizes base (base + st.sch.slabsize) 0).Returns st' st₁ () ∧
      (setHead .empty (base + st.sch.slabsize)).Returns st₁ st₂ () ∧ Carving st base 1 st₂ := by
  have hS := hsized.slabsize_pos
  have hin : st.sch.InRegion base (base + 1 * st.sch.slabsize) := inRegion_add_mul (by omega)
  rw [Nat.one_mul] at hin
  have hrest : restOf st.sch.slabsize base 1 = [base + st.sch.slabsize] := by
    rw [restOf, List.range_one, List.map_singleton, Nat.zero_add, Nat.one_mul]
  generalize ha : base + st.sch.slabsize = a at hin hrest
  have hret₁ := returns_initEmpty (h.isSlab hin) base 0
  rw [h.sizes] at hret₁
  have hfirst₁ := h.setHdr hin (show base ≠ a by omega)
    ⟨0, st'.nextOf a, st.sch.emptySlotmask, 0, base⟩
  refine ⟨_, _, hret₁, (returns_setHead _ .empty a).1, hfirst₁.setHead_empty a, ?_, fun _ => ?_,
    fun x hx => ?_⟩
  · rw [head_setHead_self, if_neg Nat.one_ne_zero, ha]
  · -- a list of one slab
    rw [hrest, Nat.one_mul, ha]
    refine ⟨rfl, by omega, ?_, rfl, rfl⟩
    exact congrArg SlabHeader.prev setHdr_self
  · -- the second slab is the only one behind the first
    rw [hrest, List.mem_singleton] at hx
    have hself : ((st'.setHdr a ⟨0, st'.nextOf a, st.sch.emptySlotmask, 0, base⟩).setHead .empty
        a).hdr a = ⟨0, st'.nextOf a, st.sch.emptySlotmask, 0, base⟩ := setHdr_self
    rw [hx, hself]
    exact ⟨rfl, rfl, rfl⟩

/-- The last slab is linked to nothing. -/
theorem Carving.close (h : Carving st base k st') (hsized : Sized st.sch.toSlabSizes)
    (hk : k ≠ 0) (hlt : k * st.sch.slabsize < st.sch.pagesPerAlloc) :
    ∃ st'', (setNext (base + k * st.sch.slabsize) 0).Returns st' st'' () ∧
      Carving st base k st'' ∧
      Links.Linked 0 st''.nextOf st''.prevOf (st''.sch.head .empty)
        (restOf st.sch.slabsize base k) := by
  have hS := hsized.slabsize_pos
  have hkS : st.sch.slabsize ≤ k * st.sch.slabsize :=
    Nat.le_mul_of_pos_left _ (Nat.pos_of_ne_zero hk)
  have hlast : st.sch.InRegion base (base + k * st.sch.slabsize) := inRegion_add_mul hlt
  have hset := (h.segment hk).set_next (restOf_ne_nil hk) (nodup_restOf hS) 0
  have hempty := h.empty
  rw [if_neg hk] at hempty
  generalize hq : base + k * st.sch.slabsize = q at hlast hset
  obtain ⟨st'', hst''⟩ : ∃ st'', st'' = st'.setHdr q { st'.hdr q with next := 0 } := ⟨_, rfl⟩
  have hret : (setNext q 0).Returns st' st'' () := by
    rw [hst'']
    exact returns_setField _ (h.isSlab hlast)
  have hfirst : FirstSlab st base st'' := by
    rw [hst'']
    exact h.setHdr hlast (by omega) _
  have hsame : SameData st' st'' := by
    rw [hst'']
    exact ⟨rfl, rfl, setHdr_field rfl, setHdr_field rfl, setHdr_field rfl⟩
  have hnext : st''.nextOf = Function.update st'.nextOf q 0 := by
    rw [hst'']
    exact setHdr_field_update
  have hprev : st''.prevOf = st'.prevOf := by
    rw [hst'']
    exact funext (setHdr_field rfl)
  have hhead : st''.sch.head .empty = base + st.sch.slabsize := by
    rw [hst'']
    exact hempty
  have hclosed : Links.Segment 0 st''.nextOf st''.prevOf 0 (base + st.sch.slabsize)
      (restOf st.sch.slabsize base k) q 0 := by
    rw [hnext, hprev]
    exact hset
  refine ⟨st'', hret, ⟨hfirst, ?_, fun _ => ?_, fun x hx => ?_⟩, ?_⟩
  · rw [hhead, if_neg hk]
  · rw [hq, show st''.nextOf q = 0 by rw [hnext, Function.update_self]]
    exact hclosed
  · -- only a link has changed
    rw [hsame.refcount, hsame.page, hsame.slots]
    exact h.rest x hx
  · rw [hhead]
    exact ⟨q, hclosed⟩

/-- The slabs behind the first one are linked into the list of empty slabs. -/
theorem FirstSlab.returns_carveRest (h : FirstSlab st base st') (hsized : Sized st.sch.toSlabSizes)
    (hempty : st'.sch.head .empty = 0) (hbase : 0 < base)
    (hn : st.sch.pagesPerAlloc = st.sch.slabsize * (n + 1)) :
    ∃ st'', (carveRest st.sch.toSlabSizes base).Returns st' st'' () ∧ Carving st base n st'' ∧
      Links.Linked 0 st''.nextOf st''.prevOf (st''.sch.head .empty)
        (restOf st.sch.slabsize base n) := by
  have hS := hsized.slabsize_pos
  unfold carveRest
  dsimp only
  by_cases hn0 : n = 0
  · -- a region with one slab
    subst hn0
    refine ⟨st', ?_, ⟨h, hempty, fun hne => absurd rfl hne, List.forall_mem_nil _⟩, ?_⟩
    · rw [if_neg]
      · exact Prog.returns_pure _ _
      · rw [not_not, hn, Nat.zero_add, Nat.mul_one]
    · rw [hempty]
      exact Links.Linked.nil 0 _ _
  · have hmul : st.sch.slabsize * (n + 1) = n * st.sch.slabsize + st.sch.slabsize := by
      rw [Nat.mul_comm, Nat.succ_mul]
    have hnS : st.sch.slabsize ≤ n * st.sch.slabsize :=
      Nat.le_mul_of_pos_left _ (Nat.pos_of_ne_zero hn0)
    obtain ⟨st₁, st₂, hret₁, hret₂, h₂⟩ := h.second hsized hbase (by omega)
    obtain ⟨st₃, hloop, h₃⟩ := Carving.returns_loop hsized hbase hn h₂ Nat.one_ne_zero (by omega)
    obtain ⟨st₄, hret₄, h₄, hlinked⟩ := h₃.close hsized hn0 (by omega)
    rw [Nat.one_mul] at hloop
    refine ⟨st₄, ?_, h₄, hlinked⟩
    rw [if_pos (by omega)]
    exact hret₁.bind (hret₂.bind (hloop.bind hret₄))

end Loop

/-! ## The invariant -/

/-- The lists after a new region has been cut into slabs. -/
def carved (L : SlabList → List ℕ) (S base n : ℕ) : SlabList → List ℕ
  | .partly => [base]
  | .empty => restOf S base n
  | .full => L .full

namespace SlabInv

variable {st st' : SlabState} {L : SlabList → List ℕ} {base n x : ℕ}

/-- The slabs of the new region. -/
theorem inRegion_iff (h : SlabInv st L)
    (hn : st.sch.pagesPerAlloc = st.sch.slabsize * (n + 1)) :
    st.sch.InRegion base x ↔ x = base ∨ x ∈ restOf st.sch.slabsize base n := by
  have hS := h.sized.slabsize_pos
  constructor
  · -- a slab is a multiple of the slab size behind the base
    rintro ⟨hlo, hhi, q, hq⟩
    cases q with
    | zero => exact .inl (by omega)
    | succ q =>
      right
      have hlt : st.sch.slabsize * (q + 1) < st.sch.slabsize * (n + 1) := by omega
      have hqn := Nat.lt_of_mul_lt_mul_left hlt
      exact mem_restOf.2 ⟨q, by omega, by rw [Nat.mul_comm]; omega⟩
  · rintro (rfl | hx)
    · exact h.sized.inRegion_base x
    · obtain ⟨i, hi, rfl⟩ := mem_restOf.1 hx
      refine inRegion_add_mul ?_
      rw [hn, Nat.mul_comm]
      exact Nat.mul_lt_mul_of_pos_left (by omega) hS

/-- The mapped slabs are not in the new region. -/
theorem not_inRegion {contents : ℕ → SlabHeader} (hfresh : FreshRegion st (some ⟨base, contents⟩))
    (hx : st.IsSlab x) : ¬ st.sch.InRegion base x := by
  rintro ⟨hlo, hhi, -⟩
  obtain ⟨b, hb, hlo', hhi', -⟩ := hx
  rcases hfresh.2.2.2 b hb with hle | hle
  · dsimp only at hle
    omega
  · dsimp only at hle
    omega

/-- The lists after a new region has been cut into slabs. -/
theorem chained_carved (h : SlabInv st L) {contents : ℕ → SlabHeader}
    (hfresh : FreshRegion st (some ⟨base, contents⟩))
    (hn : st.sch.pagesPerAlloc = st.sch.slabsize * (n + 1)) (hc : Carving st base n st')
    (hlinked : Links.Linked 0 st'.nextOf st'.prevOf (st'.sch.head .empty)
      (restOf st.sch.slabsize base n)) : Chained st' (carved L st.sch.slabsize base n) := by
  have hbase : 0 < base := hfresh.2.1
  have hS := h.sized.slabsize_pos
  have hfull : ∀ x ∈ L .full, ¬ st.sch.InRegion base x := fun x hx =>
    not_inRegion hfresh (h.chained.isSlab .full x hx)
  -- the slabs of the other two lists are those of the new region
  have hnew : ∀ w x, x ∈ carved L st.sch.slabsize base n w → w ≠ .full →
      st.sch.InRegion base x := by
    intro w x hx hw
    rw [h.inRegion_iff hn]
    cases w with
    | partly => exact .inl (List.mem_singleton.1 hx)
    | empty => exact .inr hx
    | full => exact absurd rfl hw
  have hbr : base ∉ restOf st.sch.slabsize base n := base_not_mem_restOf hS
  refine ⟨fun w => ?_, fun w => ?_, fun w w' x hx hx' => ?_, fun w x hx => ?_⟩
  · cases w with
    | partly =>
      rw [hc.partly]
      exact ⟨base, rfl, by omega, hc.links.2, rfl, hc.links.1.symm⟩
    | empty => exact hlinked
    | full =>
      -- the full slabs are outside of it, and nothing is written there
      rw [hc.full]
      refine (h.chained.linked .full).congr fun x hx => ?_
      have hsame := hc.frame x (hfull x hx)
      exact ⟨congrArg SlabHeader.next hsame, congrArg SlabHeader.prev hsame⟩
  · cases w with
    | partly => exact List.nodup_singleton base
    | empty => exact nodup_restOf hS
    | full => exact h.chained.nodup .full
  · -- the full slabs are in other regions, and the first slab is not one of those behind it
    cases w with
    | partly =>
      cases w' with
      | partly => rfl
      | empty => exact absurd (List.mem_singleton.1 hx ▸ hx') hbr
      | full => exact absurd (hnew .partly x hx (by decide)) (hfull x hx')
    | empty =>
      cases w' with
      | partly => exact absurd (List.mem_singleton.1 hx' ▸ hx) hbr
      | empty => rfl
      | full => exact absurd (hnew .empty x hx (by decide)) (hfull x hx')
    | full =>
      cases w' with
      | partly => exact absurd (hnew .partly x hx' (by decide)) (hfull x hx)
      | empty => exact absurd (hnew .empty x hx' (by decide)) (hfull x hx)
      | full => rfl
  · by_cases hw : w = .full
    · subst hw
      obtain ⟨b, hb, hin⟩ := h.chained.isSlab .full x hx
      refine ⟨b, ?_, ?_⟩
      · rw [hc.regions]
        exact List.mem_cons_of_mem _ hb
      · rw [hc.sizes]
        exact hin
    · exact hc.isSlab (hnew w x hx hw)

/-- The regions with a new one. -/
theorem regionsOk_cons (h : SlabInv st L) {contents : ℕ → SlabHeader}
    (hfresh : FreshRegion st (some ⟨base, contents⟩)) :
    RegionsOk st.sch.toSlabSizes (base :: st.regions) := by
  obtain ⟨hdvd, hpos, hle, hapart⟩ := hfresh
  dsimp only at hdvd hpos hle hapart
  have hppa := h.sized.pagesPerAlloc_pos
  refine ⟨List.nodup_cons.2 ⟨fun hmem => ?_, h.regions.nodup⟩, fun b hb => ?_, fun b hb => ?_,
    fun b hb => ?_, fun b hb b' hb' hne => ?_⟩
  · -- a region would have to be apart from itself
    rcases hapart base hmem with hbad | hbad <;> omega
  · rcases List.mem_cons.1 hb with rfl | hb
    · exact hdvd
    · exact h.regions.aligned b hb
  · rcases List.mem_cons.1 hb with rfl | hb
    · exact hpos
    · exact h.regions.pos b hb
  · rcases List.mem_cons.1 hb with rfl | hb
    · exact hle
    · exact h.regions.le b hb
  · rcases List.mem_cons.1 hb with rfl | hold
    · rcases List.mem_cons.1 hb' with rfl | hold'
      · exact absurd rfl hne
      · exact (hapart b' hold').symm
    · rcases List.mem_cons.1 hb' with rfl | hold'
      · exact hapart b hold
      · exact h.regions.apart b hold b' hold' hne

/-- The invariant with a new region. -/
theorem carved (h : SlabInv st L) (hpart : L .partly = []) (hempty : L .empty = [])
    {contents : ℕ → SlabHeader} (hfresh : FreshRegion st (some ⟨base, contents⟩))
    (hn : st.sch.pagesPerAlloc = st.sch.slabsize * (n + 1)) (hc : Carving st base n st')
    (hlinked : Links.Linked 0 st'.nextOf st'.prevOf (st'.sch.head .empty)
      (restOf st.sch.slabsize base n)) :
    SlabInv st' (Zalloc.carved L st.sch.slabsize base n) where
  sized := by
    rw [hc.sizes]
    exact h.sized
  regions := by
    rw [hc.sizes, hc.regions]
    exact h.regionsOk_cons hfresh
  chained := h.chained_carved hfresh hn hc hlinked
  cover x := by
    rintro ⟨b, hb, hin⟩
    rw [hc.regions] at hb
    rw [hc.sizes] at hin
    rcases List.mem_cons.1 hb with rfl | hb
    · rcases (h.inRegion_iff hn).1 hin with rfl | hrest
      · exact ⟨.partly, List.mem_singleton_self x⟩
      · exact ⟨.empty, hrest⟩
    · -- the other regions have full slabs only
      obtain ⟨w, hw⟩ := h.cover x ⟨b, hb, hin⟩
      cases w with
      | partly =>
        rw [hpart] at hw
        cases hw
      | empty =>
        rw [hempty] at hw
        cases hw
      | full => exact ⟨.full, hw⟩
  slots w x hx := by
    rw [hc.sizes]
    cases w with
    | partly =>
      rw [List.mem_singleton.1 hx, hc.first.2]
      exact holds_initialSlotmask h.sized
    | empty => exact (hc.rest x hx).2.2
    | full =>
      rw [hc.frame x (not_inRegion hfresh (h.chained.isSlab .full x hx))]
      exact h.slots .full x hx
  first b hb := by
    rw [hc.regions] at hb
    rw [hc.sizes]
    rcases List.mem_cons.1 hb with rfl | hb
    · -- only the first slab is in use
      rw [hc.first.1]
      refine ⟨?_, Nat.one_pos⟩
      rw [SlabSizes.inUse, eq_comm, Finset.card_eq_one]
      refine ⟨b, ?_⟩
      ext x
      rw [Finset.mem_filter, SlabSizes.mem_slabs, Finset.mem_singleton, h.inRegion_iff hn]
      constructor
      · rintro ⟨hx, hnot⟩
        exact hx.resolve_right hnot
      · rintro rfl
        exact ⟨.inl rfl, base_not_mem_restOf h.sized.slabsize_pos⟩
    · -- the counts of the other regions are as before
      have hslab := h.isSlab_base hb
      rw [hc.frame b (not_inRegion hfresh hslab)]
      obtain ⟨hcount, hpos⟩ := h.first b hb
      refine ⟨hcount.trans (SlabSizes.inUse_congr fun x hx => ?_), hpos⟩
      have hnot := not_inRegion hfresh ⟨b, hb, hx⟩
      rw [hempty]
      refine ⟨fun hmem => absurd hmem List.not_mem_nil, fun hmem => absurd ?_ hnot⟩
      exact (h.inRegion_iff hn).2 (.inr hmem)
  rest b hb x hx hne := by
    rw [hc.regions] at hb
    rw [hc.sizes] at hx
    rcases List.mem_cons.1 hb with rfl | hb
    · obtain ⟨hzero, hpage, -⟩ := hc.rest x (((h.inRegion_iff hn).1 hx).resolve_left hne)
      exact ⟨hzero, hpage⟩
    · rw [hc.frame x (not_inRegion hfresh ⟨b, hb, hx⟩)]
      exact h.rest b hb x hx hne

/-- Only the first slot of the new region is in use. -/
theorem allocated_carved (h : SlabInv st L) {contents : ℕ → SlabHeader}
    (hfresh : FreshRegion st (some ⟨base, contents⟩))
    (hn : st.sch.pagesPerAlloc = st.sch.slabsize * (n + 1)) (hc : Carving st base n st') :
    Allocated st st' base 0 := by
  have hcount : st'.sch.itemcount = st.sch.itemcount := congrArg SlabSizes.itemcount hc.sizes
  have htwo := h.sized.two_le
  have hin := h.sized.inRegion_base base
  refine ⟨hc.sizes, fun hused => not_inRegion hfresh hused.1 hin, fun x j => ?_⟩
  rw [UsedSlot, UsedSlot, hcount]
  by_cases hx : st.sch.InRegion base x
  · -- a slab of the new region was not there before
    have hnot : ¬ st.IsSlab x := fun hslab => not_inRegion hfresh hslab hx
    have hslab : st'.IsSlab x := hc.isSlab hx
    rcases (h.inRegion_iff hn).1 hx with rfl | hrest
    · rw [hc.first.2]
      constructor
      · rintro ⟨-, hj, hbit⟩
        rw [testBit_initialSlotmask h.sized hj, decide_eq_false_iff_not, not_not] at hbit
        exact .inr ⟨rfl, hbit⟩
      · rintro (⟨hbad, -⟩ | ⟨-, rfl⟩)
        · exact absurd hbad hnot
        · exact ⟨hslab, by omega, by rw [testBit_initialSlotmask h.sized (by omega)]; rfl⟩
    · -- the slabs behind the first one have no slot in use
      have hempty : SlabList.Holds .empty st.sch.toSlabSizes st.sch.emptySlotmask := rfl
      rw [(hc.rest x hrest).2.2]
      constructor
      · rintro ⟨-, hj, hbit⟩
        rw [((holds_empty_iff h.sized).1 hempty).2 j hj] at hbit
        cases hbit
      · rintro (⟨hbad, -⟩ | ⟨rfl, -⟩)
        · exact absurd hbad hnot
        · exact absurd hrest (base_not_mem_restOf h.sized.slabsize_pos)
  · -- outside of the new region nothing has changed
    have hne : x ≠ base := by
      rintro rfl
      exact hx hin
    have hslab : st'.IsSlab x ↔ st.IsSlab x := by
      rw [SlabState.IsSlab, SlabState.IsSlab, hc.regions, hc.sizes]
      simp [hx]
    rw [hslab, hc.frame x hx]
    simp [hne]

/-- A new region is mapped, and its first slot is taken. -/
theorem slabAlloc_region (h : SlabInv st L) (hpart : L .partly = []) (hempty : L .empty = [])
    {contents : ℕ → SlabHeader} (hfresh : FreshRegion st (some ⟨base, contents⟩)) :
    ∃ st' L', (slabAlloc (some ⟨base, contents⟩)).Returns st st' (st.sch.item base 0) ∧
      SlabInv st' L' ∧ Allocated st st' base 0 ∧ st'.regions = base :: st.regions := by
  obtain ⟨q, hq⟩ := h.sized.slabsize_dvd
  have hppa := h.sized.pagesPerAlloc_pos
  obtain ⟨n, rfl⟩ : ∃ n, q = n + 1 := by
    cases q with
    | zero => omega
    | succ n => exact ⟨n, rfl⟩
  have hnone : st.sch.head .partly = 0 := ((h.chained.linked .partly).eq_null_iff).2 hpart
  have hnone' : st.sch.head .empty = 0 := ((h.chained.linked .empty).eq_null_iff).2 hempty
  -- the region is mapped, its first slab is written, then the other ones
  obtain ⟨st₁, hst₁⟩ : ∃ st₁, st₁ = (((st.setHead .partly 0).mapRegion ⟨base, contents⟩).setHead
    .partly base) := ⟨_, rfl⟩
  have hret₁ : (setHead .partly base).Returns
      ((st.setHead .partly 0).mapRegion ⟨base, contents⟩) st₁ () := by
    rw [hst₁]
    exact (returns_setHead _ .partly base).1
  obtain ⟨st₂, hret₂, hfirst₂, hhead₂⟩ := FirstSlab.start h.sized hst₁
  obtain ⟨st₃, hret₃, hc₃, hlinked⟩ :=
    hfirst₂.returns_carveRest h.sized (hhead₂.trans hnone') hfresh.2.1 hq
  refine ⟨st₃, _, ?_, h.carved hpart hempty hfresh hq hc₃ hlinked, h.allocated_carved hfresh hq hc₃,
    hc₃.regions⟩
  refine (Prog.returns_read _ _).bind ?_
  refine (returns_getHead hnone).bind ?_
  rw [if_neg (by simp)]
  refine (returns_getHead hnone').bind ?_
  refine (returns_setHead st .partly 0).1.bind ?_
  rw [if_neg (by simp)]
  refine (Prog.returns_modify _ _).bind ?_
  exact hret₁.bind (hret₂.bind (hret₃.bind (Prog.returns_pure _ _)))

/-- The request for a new region is refused, and nothing has changed. -/
theorem slabAlloc_none (h : SlabInv st L) (hpart : L .partly = []) (hempty : L .empty = []) :
    (Zalloc.slabAlloc none).Returns st st 0 := by
  have hnone : st.sch.head .partly = 0 := ((h.chained.linked .partly).eq_null_iff).2 hpart
  have hnone' : st.sch.head .empty = 0 := ((h.chained.linked .empty).eq_null_iff).2 hempty
  -- the head of the partial list is written twice, and it was `NULL` before
  have hsame : st.setHead .partly 0 = st := by
    rw [← hnone, SlabState.setHead, Function.update_eq_self]
  have hwrite : (setHead .partly 0).Returns st st () := by
    have hret := (returns_setHead st .partly 0).1
    rwa [hsame] at hret
  refine (Prog.returns_read _ _).bind ?_
  refine (returns_getHead hnone).bind ?_
  rw [if_neg (by simp)]
  refine (returns_getHead hnone').bind ?_
  refine hwrite.bind ?_
  rw [if_neg (by simp)]
  exact hwrite.bind (Prog.returns_pure _ _)

/-- `slab_alloc` returns, keeps the invariant, and takes a slot; or no slab has a free slot, there
is no new region, it returns `NULL`, and nothing has changed. -/
theorem slabAlloc (h : SlabInv st L) {answer : Option SlabRegion}
    (hfresh : FreshRegion st answer) :
    (∃ st' L' a i, (Zalloc.slabAlloc answer).Returns st st' (st.sch.item a i) ∧ SlabInv st' L' ∧
      Allocated st st' a i) ∨
    answer = none ∧ L .partly = [] ∧ L .empty = [] ∧
      (Zalloc.slabAlloc answer).Returns st st 0 := by
  -- the lists decide, in the order of the source
  cases hpart : L .partly with
  | cons a l =>
    obtain ⟨st', L', i, hret, hinv, halloc, -⟩ := h.slabAlloc_partly hpart answer
    exact .inl ⟨st', L', a, i, hret, hinv, halloc⟩
  | nil =>
    cases hempty : L .empty with
    | cons a l =>
      obtain ⟨st', L', i, hret, hinv, halloc, -⟩ := h.slabAlloc_empty hpart hempty answer
      exact .inl ⟨st', L', a, i, hret, hinv, halloc⟩
    | nil =>
      cases answer with
      | none => exact .inr ⟨rfl, rfl, rfl, h.slabAlloc_none hpart hempty⟩
      | some region =>
        obtain ⟨st', L', hret, hinv, halloc, -⟩ := h.slabAlloc_region hpart hempty hfresh
        exact .inl ⟨st', L', _, 0, hret, hinv, halloc⟩

end SlabInv

end Zalloc
