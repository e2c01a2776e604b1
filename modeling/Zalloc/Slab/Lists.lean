import Zalloc.Foundations.LinkedList
import Zalloc.Slab.Slots

/-!
# The three lists of a chain

The headers link the slabs into three lists. Here are the effects of the list surgery of `slab.c` on
them. None of it touches the fields `slots`, `refcount` and `page`.

## Main definitions

* `Chained st L`: the three lists of the chain have the nodes `L`.
* `SameData st st'`: two states differ in links and heads only.

## Main results

* `Chained.popFront`, `Chained.pushFront`, `Chained.unlink`, `Chained.detach`: the surgery returns,
  and what the lists are afterwards.
-/

set_option autoImplicit false

namespace Zalloc

/-! ## Accesses -/

namespace SlabState

/-- The field `next` of every header. -/
def nextOf (st : SlabState) (a : ℕ) : ℕ := (st.hdr a).next

/-- The field `prev` of every header. -/
def prevOf (st : SlabState) (a : ℕ) : ℕ := (st.hdr a).prev

end SlabState

/-- Two states differ in links and heads only. -/
structure SameData (st st' : SlabState) : Prop where
  /-- The sizes are the same. -/
  sizes : st'.sch.toSlabSizes = st.sch.toSlabSizes
  /-- The regions are the same. -/
  regions : st'.regions = st.regions
  /-- The slots are the same. -/
  slots : ∀ a, (st'.hdr a).slots = (st.hdr a).slots
  /-- The reference counts are the same. -/
  refcount : ∀ a, (st'.hdr a).refcount = (st.hdr a).refcount
  /-- The first slabs are the same. -/
  page : ∀ a, (st'.hdr a).page = (st.hdr a).page

section Access

variable {st st' st'' : SlabState} {a n v : ℕ} {w : SlabList}

theorem SameData.refl (st : SlabState) : SameData st st :=
  ⟨rfl, rfl, fun _ => rfl, fun _ => rfl, fun _ => rfl⟩

theorem SameData.trans (h₁ : SameData st st') (h₂ : SameData st' st'') : SameData st st'' :=
  ⟨h₂.sizes.trans h₁.sizes, h₂.regions.trans h₁.regions, fun a => (h₂.slots a).trans (h₁.slots a),
    fun a => (h₂.refcount a).trans (h₁.refcount a), fun a => (h₂.page a).trans (h₁.page a)⟩

/-- The slabs depend on the sizes and the regions. -/
theorem isSlab_congr (hsizes : st'.sch.toSlabSizes = st.sch.toSlabSizes)
    (hregions : st'.regions = st.regions) : st'.IsSlab a ↔ st.IsSlab a := by
  rw [SlabState.IsSlab, SlabState.IsSlab, hsizes, hregions]

theorem SameData.isSlab_iff (h : SameData st st') : st'.IsSlab a ↔ st.IsSlab a :=
  isSlab_congr h.sizes h.regions

/-- The head of a list is read. -/
theorem returns_getHead (h : st.sch.head w = a) : (getHead w).Returns st st a :=
  Prog.returns_read_iff.2 ⟨rfl, h.symm⟩

/-- A header that can be accessed can be read. -/
theorem returns_getField {α : Type} (f : SlabHeader → α) (h : st.IsSlab a) :
    (getField f a).Returns st st (f (st.hdr a)) :=
  Prog.Returns.bind (Prog.returns_require h) (Prog.returns_read _ _)

/-- A header that can be accessed can be written. -/
theorem returns_setField (f : SlabHeader → SlabHeader) (h : st.IsSlab a) :
    (setField f a).Returns st (st.setHdr a (f (st.hdr a))) () :=
  Prog.Returns.bind (Prog.returns_require h) (Prog.returns_modify _ _)

theorem setHdr_of_ne {x : ℕ} {k : SlabHeader} (hx : x ≠ a) : (st.setHdr a k).hdr x = st.hdr x := by
  show Function.update st.hdr a k x = st.hdr x
  exact Function.update_of_ne hx k st.hdr

theorem setHdr_self {k : SlabHeader} : (st.setHdr a k).hdr a = k := by
  show Function.update st.hdr a k a = k
  exact Function.update_self a k st.hdr

/-- A field that is not written stays as it is. -/
theorem setHdr_field {α : Type} {f : SlabHeader → α} {k : SlabHeader} (hf : f k = f (st.hdr a))
    (x : ℕ) : f ((st.setHdr a k).hdr x) = f (st.hdr x) := by
  by_cases hx : x = a
  · rw [hx, setHdr_self, hf]
  · rw [setHdr_of_ne hx]

/-- A field that is written. -/
theorem setHdr_field_update {f : SlabHeader → ℕ} {k : SlabHeader} :
    (fun x => f ((st.setHdr a k).hdr x)) = Function.update (fun x => f (st.hdr x)) a (f k) := by
  ext x
  by_cases hx : x = a
  · rw [hx, setHdr_self, Function.update_self]
  · rw [setHdr_of_ne hx, Function.update_of_ne hx]

/-- `slab->next = v`. -/
theorem returns_setNext (h : st.IsSlab a) (v : ℕ) :
    ∃ st', (setNext a v).Returns st st' () ∧ st'.nextOf = Function.update st.nextOf a v ∧
      st'.prevOf = st.prevOf ∧ st'.sch = st.sch ∧ SameData st st' :=
  ⟨_, returns_setField _ h, setHdr_field_update, funext (setHdr_field rfl), rfl, rfl, rfl,
    setHdr_field rfl, setHdr_field rfl, setHdr_field rfl⟩

/-- `slab->prev = v`. -/
theorem returns_setPrev (h : st.IsSlab a) (v : ℕ) :
    ∃ st', (setPrev a v).Returns st st' () ∧ st'.nextOf = st.nextOf ∧
      st'.prevOf = Function.update st.prevOf a v ∧ st'.sch = st.sch ∧ SameData st st' :=
  ⟨_, returns_setField _ h, funext (setHdr_field rfl), setHdr_field_update, rfl, rfl, rfl,
    setHdr_field rfl, setHdr_field rfl, setHdr_field rfl⟩

/-- `if (n != NULL) n->prev = v`. -/
theorem returns_setPrevIf (h : n ≠ 0 → st.IsSlab n) (v : ℕ) :
    ∃ st', (setPrevIf n v).Returns st st' () ∧ st'.nextOf = st.nextOf ∧
      st'.prevOf = Links.setIf 0 st.prevOf n v ∧ st'.sch = st.sch ∧ SameData st st' := by
  unfold setPrevIf
  by_cases hn : n = 0
  · rw [if_neg (by simpa using hn), hn, Links.setIf_null]
    exact ⟨st, Prog.returns_pure _ _, rfl, rfl, rfl, .refl st⟩
  · rw [if_pos hn, Links.setIf_of_ne _ _ hn]
    exact returns_setPrev (h hn) v

/-- A head is written. -/
theorem returns_setHead (st : SlabState) (w : SlabList) (a : ℕ) :
    (setHead w a).Returns st (st.setHead w a) () ∧ SameData st (st.setHead w a) :=
  ⟨Prog.returns_modify _ _, rfl, rfl, fun _ => rfl, fun _ => rfl, fun _ => rfl⟩

theorem head_setHead_of_ne {w' : SlabList} (h : w' ≠ w) :
    (st.setHead w a).sch.head w' = st.sch.head w' := by
  show Function.update st.sch.head w a w' = st.sch.head w'
  exact Function.update_of_ne h a st.sch.head

theorem head_setHead_self : (st.setHead w a).sch.head w = a := by
  show Function.update st.sch.head w a w = a
  exact Function.update_self w a st.sch.head

/-- The head of a list is taken out. Only the slabs behind it are written. -/
theorem returns_popFront {l : List ℕ}
    (hlinked : Links.Linked 0 st.nextOf st.prevOf (st.sch.head w) (a :: l))
    (hnodup : (a :: l).Nodup) (hslab : ∀ x ∈ a :: l, st.IsSlab x) :
    ∃ st', (popFront w).Returns st st' () ∧
      Links.Linked 0 st'.nextOf st'.prevOf (st'.sch.head w) l ∧ SameData st st' ∧
      (∀ w' ≠ w, st'.sch.head w' = st.sch.head w') ∧ st'.nextOf = st.nextOf ∧
      ∀ x, x ∉ l → st'.prevOf x = st.prevOf x := by
  have hhead : st.sch.head w = a := hlinked.eq_headD
  have hpop := hlinked.popFront hnodup
  -- the second slab, if there is one
  have hnext : st.nextOf a ≠ 0 → st.nextOf a ∈ l := fun hne => hpop.head_mem hne
  obtain ⟨hset, hsame₁⟩ := returns_setHead st w (st.nextOf a)
  have hslab' : st.nextOf a ≠ 0 → (st.setHead w (st.nextOf a)).IsSlab (st.nextOf a) := fun hne =>
    hsame₁.isSlab_iff.2 (hslab _ (List.mem_cons_of_mem _ (hnext hne)))
  obtain ⟨st', hret, hnextOf, hprevOf, hsch, hsame⟩ := returns_setPrevIf hslab' 0
  refine ⟨st', ?_, ?_, hsame₁.trans hsame, fun w' hw => ?_, hnextOf, fun x hx => ?_⟩
  · -- the head is read, then its successor, then both are written
    refine (returns_getHead hhead).bind ?_
    exact (returns_getField _ (hslab a (List.mem_cons_self ..))).bind (hset.bind hret)
  · rw [hnextOf, hprevOf, hsch, head_setHead_self]
    exact hpop
  · rw [hsch, head_setHead_of_ne hw]
  · rw [hprevOf]
    -- only the new head is written
    by_cases h0 : st.nextOf a = 0
    · rw [h0, Links.setIf_null]
      rfl
    · refine Links.setIf_apply_of_ne _ _ ?_
      rintro rfl
      exact hx (hnext h0)

end Access

/-! ## Lists -/

/-- The lists after a slab has been moved from the list `w` to the front of the list `w'`. -/
def moved (L : SlabList → List ℕ) (w w' : SlabList) (a : ℕ) : SlabList → List ℕ :=
  let L₁ := Function.update L w ((L w).erase a)
  Function.update L₁ w' (a :: L₁ w')

section Moved

variable {L : SlabList → List ℕ} {w w' v : SlabList} {a x : ℕ}

theorem self_mem_moved : a ∈ moved L w w' a w' := by
  rw [moved, Function.update_self]
  exact List.mem_cons_self ..

/-- The other slabs stay where they are. -/
theorem mem_moved (hx : x ≠ a) : x ∈ moved L w w' a v ↔ x ∈ L v := by
  -- taking out `a` moves nothing else
  have herase : ∀ u, x ∈ Function.update L w ((L w).erase a) u ↔ x ∈ L u := by
    intro u
    by_cases hu : u = w
    · rw [hu, Function.update_self]
      exact List.mem_erase_of_ne hx
    · rw [Function.update_of_ne hu]
  dsimp only [moved]
  by_cases hv : v = w'
  · rw [hv, Function.update_self, List.mem_cons, herase w']
    simp [hx]
  · rw [Function.update_of_ne hv, herase v]

/-- The other lists stay as they are. -/
theorem moved_of_ne (hw : v ≠ w) (hw' : v ≠ w') : moved L w w' a v = L v := by
  dsimp only [moved]
  rw [Function.update_of_ne hw', Function.update_of_ne hw]

theorem moved_source (hw : w ≠ w') : moved L w w' a w = (L w).erase a := by
  dsimp only [moved]
  rw [Function.update_of_ne hw, Function.update_self]

theorem moved_target (hw : w' ≠ w) : moved L w w' a w' = a :: L w' := by
  dsimp only [moved]
  rw [Function.update_self, Function.update_of_ne hw]

end Moved

/-- The three lists of the chain have the nodes `L`, which are different slabs. -/
structure Chained (st : SlabState) (L : SlabList → List ℕ) : Prop where
  /-- The slabs of a list are linked. -/
  linked : ∀ w, Links.Linked 0 st.nextOf st.prevOf (st.sch.head w) (L w)
  /-- A list has no slab twice. -/
  nodup : ∀ w, (L w).Nodup
  /-- A slab is in one list only. -/
  unique : ∀ w w' a, a ∈ L w → a ∈ L w' → w = w'
  /-- The members of the lists are slabs. -/
  isSlab : ∀ w, ∀ a ∈ L w, st.IsSlab a

namespace Chained

variable {st st' : SlabState} {L : SlabList → List ℕ} {w w' : SlabList} {a x : ℕ} {l : List ℕ}

theorem ne_zero (h : Chained st L) (ha : a ∈ L w) : a ≠ 0 := (h.linked w).ne_null a ha

/-- A list changes, and the nodes of the other ones keep their links. -/
theorem update (h : Chained st L) (hsame : SameData st st')
    (hhead : ∀ w' ≠ w, st'.sch.head w' = st.sch.head w')
    (hlinked : Links.Linked 0 st'.nextOf st'.prevOf (st'.sch.head w) l) (hnodup : l.Nodup)
    (hmem : ∀ x ∈ l, st.IsSlab x ∧ ∀ w', x ∈ L w' → w' = w)
    (hother : ∀ w' ≠ w, ∀ x ∈ L w', st'.nextOf x = st.nextOf x ∧ st'.prevOf x = st.prevOf x) :
    Chained st' (Function.update L w l) where
  linked w' := by
    by_cases hw : w' = w
    · rw [hw, Function.update_self]
      exact hlinked
    · rw [Function.update_of_ne hw, hhead w' hw]
      exact (h.linked w').congr (hother w' hw)
  nodup w' := by
    by_cases hw : w' = w
    · rwa [hw, Function.update_self]
    · rw [Function.update_of_ne hw]
      exact h.nodup w'
  unique w₁ w₂ x h₁ h₂ := by
    by_cases hw₁ : w₁ = w
    · by_cases hw₂ : w₂ = w
      · rw [hw₁, hw₂]
      · rw [hw₁, Function.update_self] at h₁
        rw [Function.update_of_ne hw₂] at h₂
        exact absurd ((hmem x h₁).2 w₂ h₂) hw₂
    · by_cases hw₂ : w₂ = w
      · rw [hw₂, Function.update_self] at h₂
        rw [Function.update_of_ne hw₁] at h₁
        exact absurd ((hmem x h₂).2 w₁ h₁) hw₁
      · rw [Function.update_of_ne hw₁] at h₁
        rw [Function.update_of_ne hw₂] at h₂
        exact h.unique w₁ w₂ x h₁ h₂
  isSlab w' x hx := by
    rw [hsame.isSlab_iff]
    by_cases hw : w' = w
    · rw [hw, Function.update_self] at hx
      exact (hmem x hx).1
    · rw [Function.update_of_ne hw] at hx
      exact h.isSlab w' x hx

/-- The members of a part of a list. -/
theorem mem_part (h : Chained st L) (hsub : ∀ x ∈ l, x ∈ L w) :
    ∀ x ∈ l, st.IsSlab x ∧ ∀ w', x ∈ L w' → w' = w :=
  fun x hx => ⟨h.isSlab w x (hsub x hx), fun w' hx' => h.unique w' w x hx' (hsub x hx)⟩

/-- Writing to a node of a list does not change the nodes of another one. -/
theorem ne_of_mem (h : Chained st L) (hw : w' ≠ w) (hx : x ∈ L w') (ha : a ∈ L w) : x ≠ a := by
  rintro rfl
  exact hw (h.unique w' w x hx ha)

/-- The lists depend on the heads and on the links of their nodes. -/
theorem congr (h : Chained st L) (hsch : st'.sch = st.sch) (hregions : st'.regions = st.regions)
    (hlinks : ∀ w, ∀ x ∈ L w, st'.nextOf x = st.nextOf x ∧ st'.prevOf x = st.prevOf x) :
    Chained st' L where
  linked w := by
    rw [hsch]
    exact (h.linked w).congr (hlinks w)
  nodup := h.nodup
  unique := h.unique
  isSlab w a ha := by
    rw [isSlab_congr (congrArg SlabChain.toSlabSizes hsch) hregions]
    exact h.isSlab w a ha

/-! ## Surgery -/

/-- The head of a list is taken out. -/
theorem popFront (h : Chained st L) (hL : L w = a :: l) :
    ∃ st', (Zalloc.popFront w).Returns st st' () ∧ Chained st' (Function.update L w l) ∧
      SameData st st' ∧ st'.prevOf a = 0 := by
  have hlinked := h.linked w
  have hnodup := h.nodup w
  have hslab := h.isSlab w
  rw [hL] at hlinked hnodup hslab
  have hsub : ∀ x ∈ l, x ∈ L w := fun x hx => by
    rw [hL]
    exact List.mem_cons_of_mem _ hx
  obtain ⟨st', hret, hpop, hsame, hhead, hnext, hprev⟩ := returns_popFront hlinked hnodup hslab
  refine ⟨st', hret, ?_, hsame, ?_⟩
  · refine h.update hsame hhead hpop (List.nodup_cons.1 hnodup).2 (h.mem_part hsub)
      fun w' hw x hx => ⟨by rw [hnext], hprev x fun hx' => ?_⟩
    exact hw (h.unique w' w x hx (hsub x hx'))
  · rw [hprev a (List.nodup_cons.1 hnodup).1]
    exact hlinked.prev_head

/-- A slab that is in no list is put in front of one. -/
theorem pushFront (h : Chained st L) (ha : st.IsSlab a) (h0 : a ≠ 0) (hnot : ∀ w, a ∉ L w)
    (hprev : st.prevOf a = 0) :
    ∃ st', (Zalloc.pushFront w a).Returns st st' () ∧
      Chained st' (Function.update L w (a :: L w)) ∧ SameData st st' := by
  have hlinked := h.linked w
  have hpush := hlinked.pushFront (h.nodup w) (hnot w) h0 hprev
  -- the old head, if there is one
  have hhead : st.sch.head w ≠ 0 → st.sch.head w ∈ L w := fun hne => hlinked.head_mem hne
  obtain ⟨st₁, hret₁, hnext₁, hprev₁, hsch₁, hsame₁⟩ := returns_setNext ha (st.sch.head w)
  obtain ⟨st₂, hret₂, hnext₂, hprev₂, hsch₂, hsame₂⟩ := returns_setPrevIf
    (fun hne => hsame₁.isSlab_iff.2 (h.isSlab w _ (hhead hne))) a
  obtain ⟨hret₃, hsame₃⟩ := returns_setHead st₂ w a
  have hsame := (hsame₁.trans hsame₂).trans hsame₃
  have hnext : (st₂.setHead w a).nextOf = Function.update st.nextOf a (st.sch.head w) :=
    hnext₂.trans hnext₁
  have hprev' : (st₂.setHead w a).prevOf = Links.setIf 0 st.prevOf (st.sch.head w) a := by
    rw [← hprev₁]
    exact hprev₂
  refine ⟨st₂.setHead w a, ?_, ?_, hsame⟩
  · refine (Prog.returns_read _ _).bind ?_
    exact hret₁.bind (hret₂.bind hret₃)
  · refine h.update hsame (fun w' hw => ?_) ?_ (List.nodup_cons.2 ⟨hnot w, h.nodup w⟩) ?_
      fun w' hw x hx => ?_
    · rw [head_setHead_of_ne hw, hsch₂, hsch₁]
    · rw [head_setHead_self, hnext, hprev']
      exact hpush
    · intro x hx
      rcases List.mem_cons.1 hx with rfl | hx
      · exact ⟨ha, fun w' hx' => absurd hx' (hnot w')⟩
      · exact h.mem_part (fun _ hy => hy) x hx
    · -- a slab of another list is neither the new one nor the old head
      have hxa : x ≠ a := by
        rintro rfl
        exact hnot w' hx
      rw [hnext, hprev']
      refine ⟨Function.update_of_ne hxa _ _, ?_⟩
      by_cases hnull : st.sch.head w = 0
      · rw [hnull, Links.setIf_null]
      · exact Links.setIf_apply_of_ne _ _ (h.ne_of_mem hw hx (hhead hnull))

/-- A slab other than the head is taken out. -/
theorem unlink (h : Chained st L) (ha : a ∈ L w) (hne : a ≠ st.sch.head w) :
    ∃ st', (Zalloc.unlink a).Returns st st' () ∧
      Chained st' (Function.update L w ((L w).erase a)) ∧ SameData st st' ∧ st'.sch = st.sch := by
  have hlinked := h.linked w
  have hnodup := h.nodup w
  have herase := hlinked.erase hnodup ha hne
  have hslab := h.isSlab w a ha
  -- a slab that is not the head has another one before it
  obtain ⟨hpmem, hpne, -⟩ := hlinked.prev_mem hnodup ha hne
  have hnmem : st.nextOf a ≠ 0 → st.nextOf a ∈ L w := fun hn =>
    (hlinked.next_mem ha).resolve_left hn
  obtain ⟨st₁, hret₁, hnext₁, hprev₁, hsch₁, hsame₁⟩ :=
    returns_setNext (h.isSlab w _ hpmem) (st.nextOf a)
  have hslab₁ : st₁.IsSlab a := hsame₁.isSlab_iff.2 hslab
  -- the slab itself still has its links
  have hnexta : st₁.nextOf a = st.nextOf a := by
    rw [hnext₁, Function.update_of_ne (Ne.symm hpne)]
  have hpreva : st₁.prevOf a = st.prevOf a := by rw [hprev₁]
  obtain ⟨st₂, hret₂, hnext₂, hprev₂, hsch₂, hsame₂⟩ := returns_setPrevIf
    (fun hn => hsame₁.isSlab_iff.2 (h.isSlab w _ (hnmem hn))) (st.prevOf a)
  have hsame := hsame₁.trans hsame₂
  have hsch : st₂.sch = st.sch := hsch₂.trans hsch₁
  have hnext : st₂.nextOf = Function.update st.nextOf (st.prevOf a) (st.nextOf a) :=
    hnext₂.trans hnext₁
  have hprev : st₂.prevOf = Links.setIf 0 st.prevOf (st.nextOf a) (st.prevOf a) := by
    rw [hprev₂, hprev₁]
  refine ⟨st₂, ?_, ?_, hsame, hsch⟩
  · refine (returns_getField _ hslab).bind ?_
    have hread : (getField SlabHeader.next a).Returns st st (st.nextOf a) :=
      returns_getField _ hslab
    refine hread.bind ?_
    refine hret₁.bind ?_
    unfold setPrevIf at hret₂
    by_cases hnull : st.nextOf a = 0
    · rw [if_neg (by simpa using hnull)]
      rwa [if_neg (by simpa using hnull)] at hret₂
    · rw [if_pos hnull]
      rw [if_pos hnull] at hret₂
      refine (returns_getField _ hslab₁).bind ?_
      refine (returns_getField _ hslab₁).bind ?_
      have hcall : setPrev (st₁.nextOf a) (st₁.prevOf a) = setPrev (st.nextOf a) (st.prevOf a) := by
        rw [hnexta, hpreva]
      exact hcall ▸ hret₂
  · refine h.update hsame (fun w' _ => by rw [hsch]) ?_ (hnodup.erase a)
      (h.mem_part fun x hx => List.mem_of_mem_erase hx) fun w' hw x hx => ?_
    · rw [hsch, hnext, hprev]
      exact herase
    · rw [hnext, hprev]
      refine ⟨Function.update_of_ne (h.ne_of_mem hw hx hpmem) _ _, ?_⟩
      by_cases hnull : st.nextOf a = 0
      · rw [hnull, Links.setIf_null]
      · exact Links.setIf_apply_of_ne _ _ (h.ne_of_mem hw hx (hnmem hnull))

/-- A slab that has been taken out of its list is in no list. -/
theorem not_mem_erase (h : Chained st L) (ha : a ∈ L w) (w' : SlabList) :
    a ∉ Function.update L w ((L w).erase a) w' := by
  by_cases hw : w' = w
  · rw [hw, Function.update_self]
    exact (h.nodup w).not_mem_erase
  · rw [Function.update_of_ne hw]
    exact fun ha' => hw (h.unique w' w a ha' ha)

/-- The head of a list is taken out. -/
theorem popFront_of_eq (h : Chained st L) (ha : a ∈ L w) (hhead : a = st.sch.head w) :
    ∃ st', (Zalloc.popFront w).Returns st st' () ∧
      Chained st' (Function.update L w ((L w).erase a)) ∧ SameData st st' ∧ st'.prevOf a = 0 := by
  obtain ⟨l, hL⟩ := (h.linked w).eq_cons (hhead ▸ ha)
  rw [← hhead] at hL
  obtain ⟨st', hret, hchained, hsame, hprev⟩ := h.popFront hL
  refine ⟨st', hret, ?_, hsame, hprev⟩
  rwa [hL, List.erase_cons_head]

/-- A slab is taken out of its list. -/
theorem takeOut (h : Chained st L) (ha : a ∈ L w) :
    ∃ st', (Zalloc.takeOut w a).Returns st st' () ∧
      Chained st' (Function.update L w ((L w).erase a)) ∧ SameData st st' := by
  have hread : (getHead w).Returns st st (st.sch.head w) := returns_getHead rfl
  by_cases hhead : a = st.sch.head w
  · obtain ⟨st', hret, hchained, hsame, -⟩ := h.popFront_of_eq ha hhead
    refine ⟨st', hread.bind ?_, hchained, hsame⟩
    rwa [if_neg fun hne => hne hhead]
  · obtain ⟨st', hret, hchained, hsame, -⟩ := h.unlink ha hhead
    refine ⟨st', hread.bind ?_, hchained, hsame⟩
    rwa [if_pos hhead]

/-- A slab is taken out of its list, and its link backwards is cut. -/
theorem detach (h : Chained st L) (ha : a ∈ L w) :
    ∃ st', (Zalloc.detach w a).Returns st st' () ∧
      Chained st' (Function.update L w ((L w).erase a)) ∧ SameData st st' ∧ st'.prevOf a = 0 := by
  have hread : (getHead w).Returns st st (st.sch.head w) := returns_getHead rfl
  by_cases hhead : a = st.sch.head w
  · obtain ⟨st', hret, hchained, hsame, hprev⟩ := h.popFront_of_eq ha hhead
    refine ⟨st', hread.bind ?_, hchained, hsame, hprev⟩
    rwa [if_neg fun hne => hne hhead]
  · obtain ⟨st₁, hret₁, hchained, hsame₁, -⟩ := h.unlink ha hhead
    obtain ⟨st', hret, hnext, hprev, hsch, hsame⟩ :=
      returns_setPrev (hsame₁.isSlab_iff.2 (h.isSlab w a ha)) 0
    refine ⟨st', hread.bind ?_, ?_, hsame₁.trans hsame, ?_⟩
    · rw [if_pos hhead]
      exact hret₁.bind hret
    · -- the slab is in no list any more
      refine hchained.congr hsch hsame.regions fun w' x hx => ⟨by rw [hnext], ?_⟩
      have hxa : x ≠ a := by
        rintro rfl
        exact h.not_mem_erase ha w' hx
      rw [hprev, Function.update_of_ne hxa]
    · rw [hprev, Function.update_self]

/-- A slab that has been taken out of its list is put in front of another one. -/
theorem pushFront_moved (h : Chained st' (Function.update L w ((L w).erase a)))
    (hnot : ∀ v, a ∉ Function.update L w ((L w).erase a) v) (ha : st'.IsSlab a) (h0 : a ≠ 0)
    (hprev : st'.prevOf a = 0) (w' : SlabList) :
    ∃ st'', (Zalloc.pushFront w' a).Returns st' st'' () ∧ Chained st'' (moved L w w' a) ∧
      SameData st' st'' :=
  h.pushFront ha h0 hnot hprev

/-- A slab that is in no list becomes the only partial one. -/
theorem setPartly {st' : SlabState} (h : Chained st L) (ha : st.IsSlab a) (h0 : a ≠ 0)
    (hnot : ∀ w, a ∉ L w) (hsame : SameData st st')
    (hhead : ∀ w ≠ .partly, st'.sch.head w = st.sch.head w) (hpartly : st'.sch.head .partly = a)
    (hnext : st'.nextOf = Function.update st.nextOf a 0) (hprev : st'.prevOf = st.prevOf)
    (hfirst : st.prevOf a = 0) : Chained st' (Function.update L .partly [a]) := by
  refine h.update hsame hhead ⟨a, hpartly, h0, ?_, rfl, ?_⟩ (List.nodup_singleton a) (fun x hx => ?_)
    fun w hw x hx => ⟨?_, ?_⟩
  · rw [hprev]
    exact hfirst
  · rw [hnext, Function.update_self]
  · rw [List.mem_singleton.1 hx]
    exact ⟨ha, fun w hw => absurd hw (hnot w)⟩
  · have hxa : x ≠ a := by
      rintro rfl
      exact hnot w hx
    rw [hnext, Function.update_of_ne hxa]
  · rw [hprev]

/-- The first empty slab becomes the only partial one. -/
theorem takeEmpty (h : Chained st L) (hpart : L .partly = []) (hL : L .empty = a :: l) :
    ∃ st₂ st₃, (Zalloc.popFront .empty).Returns (st.setHead .partly a) st₂ () ∧
      (setNext a 0).Returns st₂ st₃ () ∧ SameData st st₃ ∧
      Chained st₃ (moved L .empty .partly a) := by
  have hmem : a ∈ L .empty := by
    rw [hL]
    exact List.mem_cons_self ..
  have hlinked := h.linked .empty
  have hnodup := h.nodup .empty
  have hslab := h.isSlab .empty
  rw [hL] at hlinked hnodup hslab
  have ha := hslab a (List.mem_cons_self ..)
  -- the head of the partial list is ahead of its list for a while
  obtain ⟨-, hsame₁⟩ := returns_setHead st .partly a
  have hlinked₁ : Links.Linked 0 (st.setHead .partly a).nextOf (st.setHead .partly a).prevOf
      ((st.setHead .partly a).sch.head .empty) (a :: l) := by
    rw [head_setHead_of_ne (by decide)]
    exact hlinked
  obtain ⟨st₂, hret₂, hpop, hsame₂, hhead₂, hnext₂, hprev₂⟩ :=
    returns_popFront hlinked₁ hnodup fun x hx => hsame₁.isSlab_iff.2 (hslab x hx)
  have hsame := hsame₁.trans hsame₂
  have hprev : ∀ x, x ∉ l → st₂.prevOf x = st.prevOf x := hprev₂
  obtain ⟨st₃, hret₃, hnext₃, hprev₃, hsch₃, hsame₃⟩ := returns_setNext (hsame.isSlab_iff.2 ha) 0
  refine ⟨st₂, st₃, hret₂, hret₃, hsame.trans hsame₃, ?_⟩
  -- the empty list alone, with the head of the partial list put back
  obtain ⟨-, hsame₀⟩ := returns_setHead st₂ .partly 0
  have hempty : Chained (st₂.setHead .partly 0) (Function.update L .empty l) := by
    refine h.update (hsame.trans hsame₀) (fun w hw => ?_) ?_ (List.nodup_cons.1 hnodup).2
      (h.mem_part fun x hx => ?_) fun w hw x hx => ⟨?_, ?_⟩
    · by_cases hwp : w = .partly
      · rw [hwp, head_setHead_self]
        exact ((h.linked .partly).eq_null_iff.2 hpart).symm
      · rw [head_setHead_of_ne hwp, hhead₂ w hw, head_setHead_of_ne hwp]
    · rw [head_setHead_of_ne (by decide)]
      exact hpop
    · rw [hL]
      exact List.mem_cons_of_mem _ hx
    · show st₂.nextOf x = st.nextOf x
      rw [hnext₂]
      rfl
    · refine hprev x fun hx' => hw (h.unique w .empty x hx ?_)
      rw [hL]
      exact List.mem_cons_of_mem _ hx'
  -- the partial list was empty, so it has one slab now
  have hpart' : Function.update L .empty l .partly = [] := by
    rw [Function.update_of_ne (by decide), hpart]
  have hmoved : moved L .empty .partly a =
      Function.update (Function.update L .empty l) .partly [a] := by
    rw [moved, hL, List.erase_cons_head, hpart']
  have hback : SameData (st₂.setHead .partly 0) st₃ :=
    ⟨hsame₃.sizes, hsame₃.regions, hsame₃.slots, hsame₃.refcount, hsame₃.page⟩
  have hnot : ∀ w, a ∉ Function.update L .empty l w := by
    intro w
    have hno := h.not_mem_erase hmem w
    rwa [hL, List.erase_cons_head] at hno
  rw [hmoved]
  refine hempty.setPartly (hsame₀.isSlab_iff.2 (hsame.isSlab_iff.2 ha)) (h.ne_zero hmem) hnot hback
    (fun w hw => ?_) ?_ hnext₃ hprev₃ ?_
  · rw [hsch₃, head_setHead_of_ne hw]
  · rw [hsch₃, hhead₂ .partly (by decide), head_setHead_self]
  · exact (hprev a (List.nodup_cons.1 hnodup).1).trans hlinked.prev_head

end Chained

end Zalloc
