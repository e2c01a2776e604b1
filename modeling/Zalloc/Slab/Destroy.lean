import Zalloc.Slab.Release

/-!
# `slab_destroy`

The function walks through the three lists and links the first slabs of the regions, which are those
with a reference count. It does so in the lists themselves: the link of a slab is written after it
has been followed. Then the regions are given back, one after the other.

## Main definitions

* `Collecting st st' P pages`: the first slabs `P` have been found and linked.

## Main results

* `Collecting.step`, `Collecting.returns_loop`, `Collecting.returns_collect`: one slab more, one
  list more, and all lists.
* `SlabInv.slabDestroy`: `slab_destroy` returns, and gives back every region once.
-/

set_option autoImplicit false

namespace Zalloc

/-- From the state `st` on, the first slabs `P` have been found and linked, all but the last one;
`pages` is `pages_head` and `pages_tail`. -/
structure Collecting (st st' : SlabState) (P : List ℕ) (pages : ℕ × ℕ) : Prop where
  /-- The data is the same. -/
  same : SameData st st'
  /-- The other slabs are linked as before. -/
  rest : ∀ x, x ∉ P → st'.nextOf x = st.nextOf x
  /-- The slabs that have been found are slabs. -/
  isSlab : ∀ x ∈ P, st.IsSlab x
  /-- None of them is `NULL`. -/
  ne_zero : ∀ x ∈ P, x ≠ 0
  /-- They are linked from the head to the tail. -/
  linked : P = [] ∧ pages.1 = 0 ∨
    ∃ Q, P = Q ++ [pages.2] ∧ Links.Path st'.nextOf pages.1 Q pages.2

section Collect

variable {st st' : SlabState} {P l : List ℕ} {pages : ℕ × ℕ} {slab : ℕ}

theorem Collecting.start (st : SlabState) : Collecting st st [] (0, 0) where
  same := .refl st
  rest _ _ := rfl
  isSlab := List.forall_mem_nil _
  ne_zero := List.forall_mem_nil _
  linked := .inl ⟨rfl, rfl⟩

/-- A slab is looked at. -/
theorem Collecting.step (h : Collecting st st' P pages) (hnodup : P.Nodup) (hnot : slab ∉ P)
    (hslab : st.IsSlab slab) (hne : slab ≠ 0) :
    ∃ st'' pages', (collectBody (slab, pages)).Returns st' st''
        (.inl (st.nextOf slab, pages')) ∧
      Collecting st st'' (P ++ [slab].filter fun x => (st.hdr x).refcount ≠ 0) pages' := by
  obtain ⟨pagesHead, pagesTail⟩ := pages
  have hslab' : st'.IsSlab slab := h.same.isSlab_iff.2 hslab
  have hcount : (getField SlabHeader.refcount slab).Returns st' st' (st.hdr slab).refcount := by
    rw [← h.same.refcount]
    exact returns_getField _ hslab'
  -- the slab still has its link
  have hnext : (getField SlabHeader.next slab).Returns st' st' (st.nextOf slab) := by
    rw [← h.rest slab hnot]
    exact returns_getField _ hslab'
  unfold collectBody
  dsimp only
  rw [if_pos hne]
  by_cases hrefcount : (st.hdr slab).refcount = 0
  · -- not the first slab of its region
    refine ⟨st', (pagesHead, pagesTail), hcount.bind ?_, ?_⟩
    · rw [if_neg (by simpa using hrefcount)]
      exact hnext.bind (Prog.returns_pure _ _)
    · rw [List.filter_cons_of_neg (by simpa using hrefcount), List.filter_nil, List.append_nil]
      exact h
  · have hmem : ∀ x, x ∈ P ++ [slab] ↔ x ∈ P ∨ x = slab := fun x => by
      rw [List.mem_append, List.mem_singleton]
    have hisSlab : ∀ x ∈ P ++ [slab], st.IsSlab x := fun x hx =>
      ((hmem x).1 hx).elim (h.isSlab x) fun heq => heq ▸ hslab
    have hne_zero : ∀ x ∈ P ++ [slab], x ≠ 0 := fun x hx =>
      ((hmem x).1 hx).elim (h.ne_zero x) fun heq => heq ▸ hne
    rw [List.filter_cons_of_pos (by simpa using hrefcount), List.filter_nil]
    rcases h.linked with ⟨rfl, hnull⟩ | ⟨Q, rfl, hpath⟩
    · -- the first one that is found
      refine ⟨st', (slab, slab), hcount.bind ?_, h.same, fun x hx => h.rest x (by simp), hisSlab,
        hne_zero, .inr ⟨[], rfl, rfl⟩⟩
      rw [if_pos hrefcount]
      refine hnext.bind ?_
      rw [if_pos hnull]
      exact Prog.returns_pure _ _
    · -- it is linked behind the last one
      have htail : pagesTail ∈ Q ++ [pagesTail] :=
        List.mem_append_right _ (List.mem_singleton_self _)
      have hhead : pagesHead ≠ 0 := by
        refine h.ne_zero pagesHead ?_
        exact (Links.Path.append_singleton_iff.2 ⟨hpath, rfl⟩).head_mem (by simp)
      obtain ⟨st'', hret, hnext'', -, -, hsame⟩ :=
        returns_setNext (h.same.isSlab_iff.2 (h.isSlab pagesTail htail)) slab
      have hlast : pagesTail ∉ Q := fun hmem =>
        (List.nodup_append.1 hnodup).2.2 _ hmem _ (List.mem_singleton_self _) rfl
      refine ⟨st'', (pagesHead, slab), hcount.bind ?_, h.same.trans hsame, fun x hx => ?_, hisSlab,
        hne_zero, .inr ⟨_, rfl, ?_⟩⟩
      · rw [if_pos hrefcount]
        refine hnext.bind ?_
        rw [if_neg hhead]
        exact hret.bind (Prog.returns_pure _ _)
      · have hx' : x ∉ Q ++ [pagesTail] := fun hmem => hx (List.mem_append_left _ hmem)
        rw [hnext'', Function.update_of_ne, h.rest x hx']
        rintro rfl
        exact hx' htail
      · rw [hnext'']
        exact hpath.snoc hlast slab

/-- The loop looks at all slabs of a list. -/
theorem Collecting.returns_loop (h : Collecting st st' P pages)
    (hpath : Links.Path st.nextOf slab l 0)
    (hnodup : (P ++ l).Nodup) (hslab : ∀ x ∈ l, st.IsSlab x) (hne : ∀ x ∈ l, x ≠ 0) :
    ∃ st'' pages', (Prog.loop collectBody (slab, pages)).Returns st' st'' pages' ∧
      Collecting st st'' (P ++ l.filter fun x => (st.hdr x).refcount ≠ 0) pages' := by
  induction l generalizing st' P pages slab with
  | nil =>
    obtain rfl : slab = 0 := hpath
    refine ⟨st', pages, Prog.Returns.loop_exit (Prog.returns_pure _ _), ?_⟩
    rw [List.filter_nil, List.append_nil]
    exact h
  | cons a l ih =>
    obtain ⟨rfl, hrest⟩ := hpath
    obtain ⟨hP, -, hdisj⟩ := List.nodup_append.1 hnodup
    have hnot : slab ∉ P := fun hmem => hdisj _ hmem _ (List.mem_cons_self ..) rfl
    obtain ⟨st₁, pages₁, hbody, h₁⟩ :=
      h.step hP hnot (hslab slab (List.mem_cons_self ..)) (hne slab (List.mem_cons_self ..))
    have hsub : List.Sublist (P ++ ([slab].filter fun x => (st.hdr x).refcount ≠ 0) ++ l)
        (P ++ slab :: l) := by
      rw [List.append_assoc]
      exact (List.Sublist.refl P).append (List.filter_sublist.append (List.Sublist.refl l))
    obtain ⟨st₂, pages₂, hloop, h₂⟩ := ih h₁ hrest (hnodup.sublist hsub)
      (fun x hx => hslab x (List.mem_cons_of_mem _ hx))
      fun x hx => hne x (List.mem_cons_of_mem _ hx)
    refine ⟨st₂, pages₂, hbody.loop_next hloop, ?_⟩
    rwa [List.append_assoc, ← List.filter_append] at h₂

/-- All lists are looked at. -/
theorem Collecting.returns_collect (lists : List (ℕ × List ℕ)) (h : Collecting st st' P pages)
    (hpath : ∀ x ∈ lists, Links.Path st.nextOf x.1 x.2 0)
    (hnodup : (P ++ lists.flatMap Prod.snd).Nodup)
    (hslab : ∀ x ∈ lists.flatMap Prod.snd, st.IsSlab x)
    (hne : ∀ x ∈ lists.flatMap Prod.snd, x ≠ 0) :
    ∃ st'' pages', (collect (lists.map Prod.fst) pages).Returns st' st'' pages' ∧
      Collecting st st''
        (P ++ (lists.flatMap Prod.snd).filter fun x => (st.hdr x).refcount ≠ 0) pages' := by
  induction lists generalizing st' P pages with
  | nil =>
    refine ⟨st', pages, Prog.returns_pure _ _, ?_⟩
    rw [List.flatMap_nil, List.filter_nil, List.append_nil]
    exact h
  | cons x lists ih =>
    rw [List.flatMap_cons] at hnodup hslab hne ⊢
    rw [← List.append_assoc] at hnodup
    obtain ⟨st₁, pages₁, hloop, h₁⟩ := h.returns_loop (hpath x (List.mem_cons_self ..))
      (List.nodup_append.1 hnodup).1 (fun y hy => hslab y (List.mem_append_left _ hy))
      fun y hy => hne y (List.mem_append_left _ hy)
    have hsub : List.Sublist
        (P ++ (x.2.filter fun y => (st.hdr y).refcount ≠ 0) ++ lists.flatMap Prod.snd)
        (P ++ x.2 ++ lists.flatMap Prod.snd) :=
      ((List.Sublist.refl P).append List.filter_sublist).append (List.Sublist.refl _)
    obtain ⟨st₂, pages₂, hcollect, h₂⟩ := ih h₁
      (fun y hy => hpath y (List.mem_cons_of_mem _ hy)) (hnodup.sublist hsub)
      (fun y hy => hslab y (List.mem_append_right _ hy))
      fun y hy => hne y (List.mem_append_right _ hy)
    refine ⟨st₂, pages₂, hloop.bind hcollect, ?_⟩
    rwa [List.append_assoc, ← List.filter_append] at h₂

end Collect

/-! ## The regions are given back -/

/-- The regions are given back in the order of the links. A link is read as long as its region is
mapped. -/
theorem returns_destroy {st : SlabState} {l : List ℕ} {page : ℕ} (released : List ℕ)
    (hz : Sized st.sch.toSlabSizes) (hpath : Links.Path st.nextOf page l 0)
    (hperm : l.Perm st.regions) (hl : l ≠ []) (hne : ∀ x ∈ l, x ≠ 0) :
    ∃ st', (Prog.loop destroyBody (page, released)).Returns st st' (released ++ l) ∧
      st'.regions = [] := by
  induction l generalizing st released page with
  | nil => exact absurd rfl hl
  | cons a l ih =>
    obtain ⟨rfl, hrest⟩ := hpath
    have hmem : page ∈ st.regions := hperm.subset (List.mem_cons_self ..)
    have hslab : st.IsSlab page := ⟨page, hmem, hz.inRegion_base page⟩
    have hperm' : l.Perm (st.regions.erase page) := by
      rw [← List.erase_cons_head (a := page) (l := l)]
      exact hperm.erase page
    have hread : (getField SlabHeader.next page).Returns st st (st.nextOf page) :=
      returns_getField _ hslab
    have hrelease : (releaseRegion page).Returns st
        { st with regions := st.regions.erase page } () := by
      refine (Prog.returns_require ?_).bind (Prog.returns_modify _ _)
      exact hmem
    by_cases hlast : l = []
    · -- the last region
      subst hlast
      have hend : st.nextOf page = 0 := hrest
      refine ⟨{ st with regions := st.regions.erase page }, Prog.Returns.loop_exit ?_,
        hperm'.symm.eq_nil⟩
      refine hread.bind (hrelease.bind ?_)
      dsimp only
      rw [if_neg (by simpa using hend)]
      exact Prog.returns_pure _ _
    · have hnext : st.nextOf page ≠ 0 :=
        hne _ (List.mem_cons_of_mem _ (hrest.head_mem hlast))
      obtain ⟨st', hloop, hregions⟩ : ∃ st', (Prog.loop destroyBody (st.nextOf page,
          released ++ [page])).Returns { st with regions := st.regions.erase page } st'
            (released ++ [page] ++ l) ∧ st'.regions = [] :=
        ih (released ++ [page]) hz hrest hperm' hlast fun x hx =>
          hne x (List.mem_cons_of_mem _ hx)
      rw [List.append_assoc] at hloop
      refine ⟨st', Prog.Returns.loop_next (hread.bind (hrelease.bind ?_)) hloop, hregions⟩
      dsimp only
      rw [if_pos hnext]
      exact Prog.returns_pure _ _

/-- When all lists have been looked at, the regions are given back. -/
theorem Collecting.returns_finish {st st' : SlabState} {P : List ℕ} {pages : ℕ × ℕ}
    (h : Collecting st st' P pages) (hz : Sized st.sch.toSlabSizes) (hnodup : P.Nodup)
    (hperm : P.Perm st.regions) :
    ∃ st'', (if pages.1 ≠ 0 then do
        setNext pages.2 0
        Prog.loop destroyBody (pages.1, [])
      else pure [] : SlabProg (List ℕ)).Returns st' st'' P ∧ st''.regions = [] := by
  have hregions : st'.regions = st.regions := h.same.regions
  rcases h.linked with ⟨rfl, hnull⟩ | ⟨Q, rfl, hpath⟩
  · -- there is no region
    refine ⟨st', ?_, hregions.trans hperm.symm.eq_nil⟩
    rw [if_neg (by simpa using hnull)]
    exact Prog.returns_pure _ _
  · have htail : pages.2 ∈ Q ++ [pages.2] := List.mem_append_right _ (List.mem_singleton_self _)
    have hlast : pages.2 ∉ Q := fun hmem =>
      (List.nodup_append.1 hnodup).2.2 _ hmem _ (List.mem_singleton_self _) rfl
    obtain ⟨st₁, hret₁, hnext₁, -, -, hsame₁⟩ :=
      returns_setNext (h.same.isSlab_iff.2 (h.isSlab _ htail)) 0
    have hpath₁ : Links.Path st₁.nextOf pages.1 (Q ++ [pages.2]) 0 := by
      rw [hnext₁]
      exact hpath.snoc hlast 0
    have hsized₁ : Sized st₁.sch.toSlabSizes := by
      rw [hsame₁.sizes, h.same.sizes]
      exact hz
    rw [← hregions, ← hsame₁.regions] at hperm
    obtain ⟨st₂, hret₂, hdone⟩ :=
      returns_destroy [] hsized₁ hpath₁ hperm (by simp) h.ne_zero
    refine ⟨st₂, ?_, hdone⟩
    rw [if_pos (h.ne_zero _ (hpath₁.head_mem (by simp)))]
    exact hret₁.bind hret₂

namespace SlabInv

variable {st : SlabState} {L : SlabList → List ℕ}

/-- The three lists have different slabs. -/
theorem nodup_append (h : SlabInv st L) : (L .partly ++ (L .empty ++ L .full)).Nodup := by
  have hapart : ∀ w w', w ≠ w' → ∀ x ∈ L w, ∀ y ∈ L w', x ≠ y := by
    rintro w w' hne x hx _ hy rfl
    exact hne (h.chained.unique w w' x hx hy)
  refine List.nodup_append.2 ⟨h.chained.nodup _, List.nodup_append.2 ⟨h.chained.nodup _,
    h.chained.nodup _, hapart _ _ (by decide)⟩, fun x hx y hy => ?_⟩
  rcases List.mem_append.1 hy with hy | hy
  · exact hapart .partly .empty (by decide) x hx y hy
  · exact hapart .partly .full (by decide) x hx y hy

/-- The slabs of the three lists. -/
theorem mem_append_iff {x : ℕ} : x ∈ L .partly ++ (L .empty ++ L .full) ↔ ∃ w, x ∈ L w := by
  rw [List.mem_append, List.mem_append]
  constructor
  · rintro (hx | hx | hx)
    · exact ⟨_, hx⟩
    · exact ⟨_, hx⟩
    · exact ⟨_, hx⟩
  · rintro ⟨w, hx⟩
    cases w with
    | partly => exact .inl hx
    | empty => exact .inr (.inl hx)
    | full => exact .inr (.inr hx)

/-- The slabs with a reference count are the first ones of the regions. -/
theorem perm_regions (h : SlabInv st L) :
    ((L .partly ++ (L .empty ++ L .full)).filter fun x => (st.hdr x).refcount ≠ 0).Perm
      st.regions := by
  refine (List.perm_ext_iff_of_nodup (h.nodup_append.filter _) h.regions.nodup).2 fun x => ?_
  rw [List.mem_filter, mem_append_iff, decide_eq_true_iff]
  constructor
  · rintro ⟨⟨w, hw⟩, hrefcount⟩
    obtain ⟨base, hb, hin⟩ := h.chained.isSlab w x hw
    by_contra hnot
    -- another slab than the first one has no reference count
    refine hrefcount (h.rest base hb x hin ?_).1
    rintro rfl
    exact hnot hb
  · exact fun hb => ⟨h.cover x (h.isSlab_base hb), (h.first x hb).2.ne'⟩

/-- `slab_destroy` returns, and gives back every region once. -/
theorem slabDestroy (h : SlabInv st L) :
    ∃ st' released, Zalloc.slabDestroy.Returns st st' released ∧ released.Perm st.regions ∧
      st'.regions = [] := by
  have hlists : [(st.sch.head .partly, L .partly), (st.sch.head .empty, L .empty),
      (st.sch.head .full, L .full)].flatMap Prod.snd = L .partly ++ (L .empty ++ L .full) := by
    simp
  have hslab : ∀ x ∈ L .partly ++ (L .empty ++ L .full), st.IsSlab x := fun x hx => by
    obtain ⟨w, hw⟩ := mem_append_iff.1 hx
    exact h.chained.isSlab w x hw
  have hne : ∀ x ∈ L .partly ++ (L .empty ++ L .full), x ≠ 0 := fun x hx => by
    obtain ⟨w, hw⟩ := mem_append_iff.1 hx
    exact h.chained.ne_zero hw
  rw [← hlists] at hslab hne
  -- the first slabs of the regions are linked, then the regions are given back
  obtain ⟨st₁, pages, hret₁, h₁⟩ := Collecting.returns_collect
    [(st.sch.head .partly, L .partly), (st.sch.head .empty, L .empty),
      (st.sch.head .full, L .full)] (Collecting.start st) (by simp [(h.chained.linked _).path])
    (by
      rw [hlists]
      exact h.nodup_append) hslab hne
  rw [hlists, List.nil_append] at h₁
  obtain ⟨st₂, hret₂, hdone⟩ :=
    h₁.returns_finish h.sized (h.nodup_append.filter _) h.perm_regions
  refine ⟨st₂, _, ?_, h.perm_regions, hdone⟩
  refine (Prog.returns_read _ _).bind ?_
  refine (Prog.returns_read _ _).bind ?_
  refine (Prog.returns_read _ _).bind ?_
  exact hret₁.bind hret₂

end SlabInv

end Zalloc
