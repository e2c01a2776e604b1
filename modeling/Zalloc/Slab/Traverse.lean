import Mathlib.Data.List.Nodup
import Zalloc.Slab.Destroy
import Zalloc.Slab.Run

/-!
# `slab_traverse`

The function walks through the list of the partial slabs and that of the full ones. In a partial
slab a mask is shifted along with the item, in a full slab every item is taken.

## Main definitions

* `usedItems st a`: the items of a slab that are in use.

## Main results

* `returns_traversePartial`, `returns_traverseFull`: what is done with a slab.
* `returns_traverse`: what is done with a list.
* `slabTraverse_live`: in every run, the live items are visited, each of them once.
-/

set_option autoImplicit false

namespace Zalloc

/-- The items of a slab that are in use. -/
def usedItems (st : SlabState) (a : ℕ) : List ℕ :=
  ((List.range st.sch.itemcount).filter fun i => (st.hdr a).slots.testBit i = false).map
    (st.sch.item a)

section

variable {st : SlabState} {a x i : ℕ}

@[simp] theorem mem_usedItems :
    x ∈ usedItems st a ↔
      ∃ i < st.sch.itemcount, (st.hdr a).slots.testBit i = false ∧ st.sch.item a i = x := by
  simp [usedItems, and_assoc]

/-! ## The items of a slab -/

theorem item_zero (z : SlabSizes) (a : ℕ) : z.item a 0 = a + dataOffset := by
  rw [SlabSizes.item, Nat.zero_mul, Nat.add_zero]

theorem item_succ (z : SlabSizes) (a i : ℕ) : z.item a i + z.itemsize = z.item a (i + 1) := by
  rw [SlabSizes.item, SlabSizes.item, Nat.add_mul, Nat.one_mul, Nat.add_assoc]

/-- The last item is behind all slots. -/
theorem item_succ_ne {z : SlabSizes} (hpos : 0 < z.itemsize) {n : ℕ} (hi : i + 1 < n) :
    z.item a (i + 1) ≠ z.item a n := by
  have hlt := Nat.mul_lt_mul_of_pos_right hi hpos
  rw [SlabSizes.item, SlabSizes.item]
  omega

/-- The end of the items of a slab. -/
theorem Sized.itemEnd {z : SlabSizes} (h : Sized z) (a : ℕ) :
    a + dataOffset + u64 (z.itemcount * z.itemsize) = z.item a z.itemcount := by
  obtain ⟨k, hk, hsize⟩ := h.slabsize
  have hfits := h.fits
  have hpow : 2 ^ k ≤ 2 ^ 62 := Nat.pow_le_pow_right Nat.two_pos hk
  rw [SlabSizes.item, u64, Nat.mod_eq_of_lt (by omega)]

/-- From a slot on, the used items of a partial slab are visited. The induction is on the number of
slots behind it. -/
theorem returns_partialItems {z : SlabSizes} (hz : Sized z) (ha : st.IsSlab a) (n : ℕ)
    (hi : i + n + 1 = z.itemcount) (calls : List ℕ) :
    (Prog.loop (partialItemBody z a (z.item a z.itemcount)) (z.item a i, 2 ^ i, calls)).Returns
      st st (calls ++ ((List.range' i (n + 1)).filter
        fun j => (st.hdr a).slots.testBit j = false).map (z.item a)) := by
  induction n generalizing i calls with
  | zero =>
    -- the last slot
    have hend : z.item a i + z.itemsize = z.item a z.itemcount := by
      rw [item_succ, ← hi]
    refine Prog.Returns.loop_exit ((returns_getField _ ha).bind ?_)
    dsimp only
    rw [if_neg (by simpa using hend)]
    simp only [BitMask.and_two_pow_eq_zero_iff]
    refine Prog.returns_pure_iff.2 ⟨rfl, congrArg Sum.inr ?_⟩
    cases hbit : (st.hdr a).slots.testBit i <;> simp [hbit]
  | succ n ih =>
    have hcount := hz.itemcount_le
    have hmask : u64 (2 ^ i <<< 1) = 2 ^ (i + 1) := by
      rw [Nat.shiftLeft_eq, ← Nat.pow_add, u64]
      exact Nat.mod_eq_of_lt (Nat.pow_lt_pow_right (by decide) (by omega))
    have hne : z.item a i + z.itemsize ≠ z.item a z.itemcount := by
      rw [item_succ]
      exact item_succ_ne hz.itemsize_pos (by omega)
    have hbody : (partialItemBody z a (z.item a z.itemcount) (z.item a i, 2 ^ i, calls)).Returns
        st st (.inl (z.item a (i + 1), 2 ^ (i + 1),
          if (st.hdr a).slots.testBit i = false then calls ++ [z.item a i] else calls)) := by
      refine (returns_getField _ ha).bind ?_
      dsimp only
      rw [if_pos hne, hmask, item_succ]
      simp only [BitMask.and_two_pow_eq_zero_iff]
      exact Prog.returns_pure _ _
    refine hbody.loop_next ?_
    have hrest := ih (i := i + 1) (by omega)
      (if (st.hdr a).slots.testBit i = false then calls ++ [z.item a i] else calls)
    rw [List.range'_succ]
    cases hbit : (st.hdr a).slots.testBit i <;> simpa [hbit] using hrest

/-- The used items of a partial slab are visited. -/
theorem returns_traversePartial (hz : Sized st.sch.toSlabSizes) (ha : st.IsSlab a)
    (calls : List ℕ) :
    (traversePartial st.sch.toSlabSizes a calls).Returns st st (calls ++ usedItems st a) := by
  have htwo := hz.two_le
  have hloop := returns_partialItems hz ha (i := 0) (st.sch.itemcount - 1) (by omega) calls
  rw [Nat.sub_add_cancel (by omega), ← List.range_eq_range', item_zero] at hloop
  unfold traversePartial
  dsimp only
  rw [hz.itemEnd]
  exact hloop

/-- From a slot on, the items of a full slab are visited. -/
theorem returns_fullItems {z : SlabSizes} (hz : Sized z) (n : ℕ) (hi : i + n + 1 = z.itemcount)
    (calls : List ℕ) :
    (Prog.loop (fullItemBody z (z.item a z.itemcount)) (z.item a i, calls)).Returns st st
      (calls ++ (List.range' i (n + 1)).map (z.item a)) := by
  induction n generalizing i calls with
  | zero =>
    have hend : z.item a i + z.itemsize = z.item a z.itemcount := by
      rw [item_succ, ← hi]
    refine Prog.Returns.loop_exit ?_
    unfold fullItemBody
    dsimp only
    rw [if_neg (by simpa using hend)]
    exact Prog.returns_pure _ _
  | succ n ih =>
    have hne : z.item a i + z.itemsize ≠ z.item a z.itemcount := by
      rw [item_succ]
      exact item_succ_ne hz.itemsize_pos (by omega)
    have hrest := ih (i := i + 1) (by omega) (calls ++ [z.item a i])
    rw [List.append_assoc] at hrest
    refine Prog.Returns.loop_next ?_ hrest
    unfold fullItemBody
    dsimp only
    rw [if_pos hne, item_succ]
    exact Prog.returns_pure _ _

/-- The items of a full slab are visited, which are all in use. -/
theorem returns_traverseFull (hz : Sized st.sch.toSlabSizes)
    (hfull : SlabList.Holds .full st.sch.toSlabSizes (st.hdr a).slots) (calls : List ℕ) :
    (traverseFull st.sch.toSlabSizes a calls).Returns st st (calls ++ usedItems st a) := by
  have htwo := hz.two_le
  have hloop : (Prog.loop (fullItemBody st.sch.toSlabSizes (st.sch.item a st.sch.itemcount))
      (st.sch.item a 0, calls)).Returns st st
      (calls ++ (List.range' 0 (st.sch.itemcount - 1 + 1)).map (st.sch.item a)) :=
    returns_fullItems hz _ (by omega) calls
  have hall : (List.range st.sch.itemcount).filter
      (fun i => (st.hdr a).slots.testBit i = false) = List.range st.sch.itemcount := by
    refine List.filter_eq_self.2 fun i hi => ?_
    exact decide_eq_true (((holds_full_iff hz).1 hfull).2 i (List.mem_range.1 hi))
  rw [Nat.sub_add_cancel (by omega), ← List.range_eq_range', item_zero] at hloop
  unfold traverseFull
  dsimp only
  rw [hz.itemEnd, usedItems, hall]
  exact hloop

/-! ## The slabs of a list -/

/-- A list is walked through; `f` are the items that are visited in a slab. -/
theorem returns_traverse {items : ℕ → List ℕ → SlabProg (List ℕ)} {f : ℕ → List ℕ} {l : List ℕ}
    (hpath : Links.Path st.nextOf a l 0) (hslab : ∀ x ∈ l, st.IsSlab x) (hne : ∀ x ∈ l, x ≠ 0)
    (hitems : ∀ x ∈ l, ∀ calls, (items x calls).Returns st st (calls ++ f x)) (calls : List ℕ) :
    (Prog.loop (traverseBody items) (a, calls)).Returns st st (calls ++ l.flatMap f) := by
  induction l generalizing a calls with
  | nil =>
    obtain rfl : a = 0 := hpath
    rw [List.flatMap_nil, List.append_nil]
    exact Prog.Returns.loop_exit (Prog.returns_pure _ _)
  | cons b l ih =>
    obtain ⟨rfl, hrest⟩ := hpath
    have hmem : a ∈ a :: l := List.mem_cons_self ..
    have hnext := ih hrest (fun x hx => hslab x (List.mem_cons_of_mem _ hx))
      (fun x hx => hne x (List.mem_cons_of_mem _ hx))
      (fun x hx => hitems x (List.mem_cons_of_mem _ hx)) (calls ++ f a)
    rw [List.append_assoc] at hnext
    rw [List.flatMap_cons]
    refine Prog.Returns.loop_next ?_ hnext
    unfold traverseBody
    dsimp only
    rw [if_pos (hne a hmem)]
    refine (hitems a hmem calls).bind ?_
    exact (returns_getField _ (hslab a hmem)).bind (Prog.returns_pure _ _)

end

namespace SlabInv

variable {st : SlabState} {L : SlabList → List ℕ} {a x : ℕ}

theorem isSlab_of_mem (h : SlabInv st L) (ha : a ∈ L .partly ++ L .full) : st.IsSlab a := by
  rcases List.mem_append.1 ha with ha | ha
  · exact h.chained.isSlab _ a ha
  · exact h.chained.isSlab _ a ha

/-- `slab_traverse` visits the used items of the partial slabs, and then those of the full ones. -/
theorem slabTraverse (h : SlabInv st L) :
    Zalloc.slabTraverse.Returns st st ((L .partly ++ L .full).flatMap (usedItems st)) := by
  have hlist : ∀ w (items : ℕ → List ℕ → SlabProg (List ℕ)),
      (∀ a ∈ L w, ∀ calls, (items a calls).Returns st st (calls ++ usedItems st a)) →
      ∀ calls, (Prog.loop (traverseBody items) (st.sch.head w, calls)).Returns st st
        (calls ++ (L w).flatMap (usedItems st)) := fun w items hitems =>
    returns_traverse (h.chained.linked w).path (h.chained.isSlab w)
      (fun a ha => h.chained.ne_zero ha) hitems
  rw [List.flatMap_append]
  refine (Prog.returns_read _ _).bind ((returns_getHead rfl).bind ?_)
  refine (hlist .partly _ (fun a ha => ?_) []).bind ?_
  · exact returns_traversePartial h.sized (h.chained.isSlab _ a ha)
  rw [List.nil_append]
  refine (returns_getHead rfl).bind (hlist .full _ (fun a ha => ?_) _)
  exact returns_traverseFull h.sized (h.slots .full a ha)

/-- The items that are visited are those in use: an empty slab has none. -/
theorem mem_traversed_iff (h : SlabInv st L) :
    x ∈ (L .partly ++ L .full).flatMap (usedItems st) ↔ UsedItem st x := by
  rw [List.mem_flatMap]
  constructor
  · rintro ⟨a, ha, hx⟩
    obtain ⟨i, hi, hbit, rfl⟩ := mem_usedItems.1 hx
    exact ⟨a, i, ⟨h.isSlab_of_mem ha, hi, hbit⟩, rfl⟩
  · rintro ⟨a, i, hused, rfl⟩
    refine ⟨a, ?_, mem_usedItems.2 ⟨i, hused.2.1, hused.2.2, rfl⟩⟩
    obtain ⟨w, hw⟩ := h.cover a hused.1
    cases w with
    | partly => exact List.mem_append_left _ hw
    | empty => exact absurd hw (h.not_mem_empty hused)
    | full => exact List.mem_append_right _ hw

/-- No item is visited twice. -/
theorem nodup_traversed (h : SlabInv st L) :
    ((L .partly ++ L .full).flatMap (usedItems st)).Nodup := by
  have hdvd : ∀ a ∈ L .partly ++ L .full, st.sch.slabsize ∣ a := fun a ha =>
    h.dvd (h.isSlab_of_mem ha)
  have hlists : (L .partly ++ L .full).Nodup :=
    h.nodup_append.sublist ((List.Sublist.refl _).append (List.sublist_append_right _ _))
  rw [List.nodup_flatMap]
  constructor
  · -- the items of a slab are those of different slots
    intro a ha
    refine (List.nodup_range.filter _).map_on fun i hi j hj heq => ?_
    rw [List.mem_filter, List.mem_range] at hi hj
    exact (h.sized.item_inj (hdvd a ha) (hdvd a ha) hi.1 hj.1 heq).2
  · -- an item has one slab
    refine hlists.pairwise_of_forall_ne fun a ha b hb hne x hx hx' => hne ?_
    obtain ⟨i, hi, -, rfl⟩ := mem_usedItems.1 hx
    obtain ⟨j, hj, -, heq⟩ := mem_usedItems.1 hx'
    exact (h.sized.item_inj (hdvd a ha) (hdvd b hb) hi hj heq.symm).1

end SlabInv

/-- In every run, `slab_traverse` returns and has visited every live item once and nothing else. -/
theorem slabTraverse_live (ceilLog2 : CeilLog2) {itemsize : ℕ} (hlo : 1 ≤ itemsize)
    (hhi : itemsize ≤ 2 ^ 56) :
    ∃ sch, slabInit ceilLog2 itemsize = some sch ∧ ∀ hdr c,
      Runs.Reach SlabStep (fun c op => op.Fresh c) (slabStart sch hdr) c →
        ∃ calls, slabTraverse.Returns c.st c.st calls ∧ calls.Nodup ∧
          ∀ x, x ∈ calls ↔ x ∈ c.live := by
  obtain ⟨sch, hinit, hsized, hitemsize, hhead⟩ := sized_slabInit ceilLog2 hlo hhi
  refine ⟨sch, hinit, fun hdr c hreach => ?_⟩
  obtain ⟨L, h⟩ := reach_slabReady hsized hitemsize hhead hreach
  refine ⟨_, h.inv.slabTraverse, h.inv.nodup_traversed, fun x => ?_⟩
  rw [h.inv.mem_traversed_iff, h.live x]

/-- The only item of a chain is visited. -/
theorem slabTraverse_live_oneItem :
    ∃ calls, slabTraverse.Returns oneItem oneItem calls ∧ ∀ x, x ∈ calls ↔ x = 2 ^ 20 + 40 := by
  obtain ⟨sch, hinit, h⟩ := slabTraverse_live exactCeilLog2 (show 1 ≤ 8192 by decide) (by decide)
  obtain rfl : pairs = sch := Option.some.inj (slabInit_pairs.symm.trans hinit)
  obtain ⟨calls, hret, -, hmem⟩ := h _ _ reach_oneItem
  exact ⟨calls, hret, fun x => (hmem x).trans List.mem_singleton⟩

end Zalloc
