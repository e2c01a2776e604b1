import Zalloc.Nvmalloc.Inv

/-!
# The search for a gap

The positions in the lists are hints. A hint leads to the gap that it is in or at the end of, if
there is one. The hints are taken out of the lists, from the list for the request on, until one of
them leads to a gap that is large enough; the other ones are lost. In the gap, the headers are
checked, and a header is written for the rest.

## Main definitions

* `Found bits zone p a n`: the hint `p` leads to the gap of `n` units at `a`, or nowhere.
* `Searched st k first lists`: the lists after hints have been taken out.
* `Miss`, `Hit`, `Ends`: how the search ends.

## Main results

* `returns_hintLoop`: the hints of one list.
* `returns_headerLoop`, `returns_splitRest`: the headers of the gap.
* `NvShape.search_ends`: the whole search.
-/

set_option autoImplicit false

namespace Zalloc

/-! ## Hints -/

/-- The hint `p` leads to the gap of `n` units at `a`, or nowhere if `n` is zero. -/
structure Found (bits : ℕ → Bool) (zone p a n : ℕ) : Prop where
  /-- What is found is a gap. -/
  gap : 0 < n → IsGap bits zone a n ∧ baseSize * a ≤ p ∧ p ≤ baseSize * (a + n)
  /-- A gap to which the hint points is found. -/
  unique : ∀ b m, IsGap bits zone b m → baseSize * b ≤ p → p ≤ baseSize * (b + m) → b = a ∧ m = n

section Hints

variable {st : NvState} {i k : ℕ} {l : List ℕ}

/-- The scans find the gap. -/
theorem NvShape.returns_scan (h : NvShape st) (u : ℕ) :
    ∃ f b, (isFreeForward (baseSize * u)).Returns st st f ∧
      (isFreeBackward (baseSize * u)).Returns st st b ∧
      b ≤ u ∧ u + f ≤ max u st.zone ∧ (0 < b → u ≤ st.zone) ∧
      Found st.bit st.zone (baseSize * u) (u - b) (b + f) := by
  have hlt := h.bitmapSize_lt
  obtain ⟨f, hforward, hf⟩ := returns_isFreeForward h.freeZone h.zone_le (by omega) u
  have hfle : u + f ≤ max u st.zone := by
    by_cases hf0 : f = 0
    · omega
    · have hle := hf.add_le (by omega)
      omega
  by_cases hu : u ≤ st.zone
  · obtain ⟨b, hbackward, hb⟩ := returns_isFreeBackward h.freeZone h.zone_le (by omega) hu
    have hble := hb.le
    refine ⟨f, b, hforward, hbackward, hble, hfle, fun _ => hu, fun hpos => ⟨?_, ?_, ?_⟩,
      fun c m hgap h₁ h₂ => ?_⟩
    · exact isGap_of_scan hb hf hu hpos
    · simp only [baseSize]
      omega
    · simp only [baseSize]
      omega
    · -- a gap at the position makes one of the scans find something
      simp only [baseSize] at h₁ h₂
      have hle := hgap.le
      have hpos : 0 < b + f := by
        by_cases hend : u < c + m
        · have hone := hf.le_of_clear (show u + 1 ≤ st.zone by omega) fun v hv hv' =>
            hgap.clear v (by omega) (by omega)
          omega
        · have hgapPos := hgap.pos
          have hone := hb.le_of_clear (show 1 ≤ u by omega) fun v hv hv' =>
            hgap.clear v (by omega) (by omega)
          omega
      exact hgap.eq_of_touch (u := u) (isGap_of_scan hb hf hu hpos) (by omega) (by omega)
        (by omega) (by omega)
  · -- behind the free zone nothing is found
    have hf0 : f = 0 := by omega
    have hgt : st.freeZone < baseSize * u := by
      rw [h.freeZone]
      simp only [baseSize]
      omega
    refine ⟨f, 0, hforward, returns_isFreeBackward_of_gt hgt, Nat.zero_le _, hfle,
      fun hpos => absurd hpos (Nat.lt_irrefl 0), fun hpos => by omega, fun c m hgap h₁ h₂ => ?_⟩
    have hle := hgap.le
    simp only [baseSize] at h₂
    omega

/-- A hint is taken out of a list. -/
theorem NvShape.tail (h : NvShape st) {p : ℕ} (hl : st.freeLists i = p :: l) :
    NvShape { st with freeLists := Function.update st.freeLists i l } := by
  refine ⟨h.freeZone, h.zone_le, h.endAddress, h.bitmapSize_lt, fun j q hq => h.hints j q ?_⟩
  by_cases hj : j = i
  · subst hj
    have hq' : q ∈ Function.update st.freeLists j l j := hq
    rw [Function.update_self] at hq'
    rw [hl]
    exact List.mem_cons_of_mem _ hq'
  · have hq' : q ∈ Function.update st.freeLists i l j := hq
    rwa [Function.update_of_ne hj] at hq'

theorem returns_getFreeList (hi : i ≤ nrSizes) :
    (getFreeList i).Returns st st (st.freeLists i) := by
  refine Prog.Returns.bind (Prog.returns_require ⟨by omega, by omega⟩) ?_
  exact Prog.returns_read _ _

/-- One hint is taken out of a list. -/
theorem NvShape.returns_hintBody (h : NvShape st) (hi : i ≤ nrSizes) {p : ℕ}
    (hl : st.freeLists i = p :: l) (actualSize : ℕ) :
    ∃ a n location, Found st.bit st.zone p a n ∧ (0 < n → location = baseSize * a) ∧
      (hintBody i actualSize ()).Returns st
        { st with freeLists := Function.update st.freeLists i l }
        (if baseSize * n < actualSize ∧ l ≠ [] then .inl ()
          else .inr (location, baseSize * n)) := by
  let st₁ : NvState := { st with freeLists := Function.update st.freeLists i l }
  have hshape₁ : NvShape st₁ := h.tail hl
  obtain ⟨u, rfl⟩ := h.hints i p (by rw [hl]; exact List.mem_cons_self ..)
  obtain ⟨f, b, hforward, hbackward, hb, hf, hbpos, hfound⟩ := hshape₁.returns_scan u
  have hzone : st₁.zone = st.zone := rfl
  have hle := h.zone_le
  have hlt := h.bitmapSize_lt
  rw [hzone] at hf hbpos
  -- no size wraps
  have hfsize : u32 (f * baseSize) = baseSize * f := by
    rw [Nat.mul_comm, u32_eq]
    simp only [baseSize]
    omega
  have hbsize : u32 (b * baseSize) = baseSize * b := by
    rw [Nat.mul_comm, u32_eq]
    simp only [baseSize]
    omega
  have htotal : u32 (u32 (f * baseSize) + u32 (b * baseSize)) = baseSize * (b + f) := by
    rw [hfsize, hbsize, ← Nat.mul_add, Nat.add_comm, u32_eq]
    simp only [baseSize]
    omega
  refine ⟨u - b, b + f, u64Sub (baseSize * u) (u32 (b * baseSize)), hfound, fun hpos => ?_, ?_⟩
  · have hu : u ≤ st.zone := by omega
    rw [hbsize]
    simp only [u64Sub, baseSize]
    omega
  · have hpop : (popFreeList i).Returns st st₁ (baseSize * u) := by
      refine (returns_getFreeList hi).bind ?_
      rw [hl]
      exact (Prog.returns_modify _ _).bind (Prog.returns_pure _ _)
    have hread : (getFreeList i).Returns st₁ st₁ l := by
      have hlist : st₁.freeLists i = l := Function.update_self ..
      rw [← hlist]
      exact returns_getFreeList hi
    refine hpop.bind (hforward.bind (hbackward.bind (hread.bind ?_)))
    rw [htotal]
    split_ifs with hmore
    · exact Prog.returns_pure _ _
    · exact Prog.returns_pure _ _

/-- The hints of one list are taken out, up to one that leads to a gap of `k` units. -/
theorem NvShape.returns_hintLoop (h : NvShape st) (hi : i ≤ nrSizes) (hl : st.freeLists i = l)
    (hne : l ≠ []) (k : ℕ) :
    ∃ D p l' a n location, l = D ++ p :: l' ∧
      (∀ d ∈ D, ∃ a n, Found st.bit st.zone d a n ∧ n < k) ∧ Found st.bit st.zone p a n ∧
      (0 < n → location = baseSize * a) ∧ (k ≤ n ∨ l' = []) ∧
      (Prog.loop (hintBody i (baseSize * k)) ()).Returns st
        { st with freeLists := Function.update st.freeLists i l' } (location, baseSize * n) := by
  induction l generalizing st with
  | nil => exact absurd rfl hne
  | cons p l ih =>
    obtain ⟨a, n, location, hfound, hloc, hbody⟩ := h.returns_hintBody hi hl (baseSize * k)
    by_cases hmore : baseSize * n < baseSize * k ∧ l ≠ []
    · -- the hint is lost
      rw [if_pos hmore] at hbody
      have hlt : n < k := by
        simp only [baseSize] at hmore
        omega
      let st₁ : NvState := { st with freeLists := Function.update st.freeLists i l }
      have hshape₁ : NvShape st₁ := h.tail hl
      obtain ⟨D, p', l', a', n', location', rfl, hD, hfound', hloc', hend, hloop⟩ :=
        ih hshape₁ (Function.update_self ..) hmore.2
      refine ⟨p :: D, p', l', a', n', location', rfl, fun d hd => ?_, hfound', hloc', hend, ?_⟩
      · rcases List.mem_cons.1 hd with rfl | hd
        · exact ⟨a, n, hfound, hlt⟩
        · exact hD d hd
      · have hlists : Function.update st₁.freeLists i l' = Function.update st.freeLists i l' :=
          Function.update_idem ..
        rw [hlists] at hloop
        exact hbody.loop_next hloop
    · rw [if_neg hmore] at hbody
      refine ⟨[], p, l, a, n, location, rfl, List.forall_mem_nil _, hfound, hloc, ?_,
        hbody.loop_exit⟩
      by_contra hno
      simp only [baseSize] at hmore
      refine hmore ⟨?_, fun hnil => hno (.inr hnil)⟩
      by_contra hge
      exact hno (.inl (by omega))

end Hints

/-! ## Headers -/

section Headers

variable {st : NvState} {a k m n : ℕ} {exactFit : Bool}

/-- Nothing is wrong, so nothing is printed. -/
theorem returns_reportIf_of_not {wrong : Prop} [Decidable wrong] (h : ¬ wrong) {r : Report} :
    (reportIf wrong r).Returns st st () := by
  rw [reportIf, if_neg h]
  exact Prog.returns_pure _ _

/-- The headers from one in the gap to its end are right. The test for the border at `k` does not
miss what it has seen. -/
theorem NvShape.returns_headerLoop (h : NvShape st) (hle : a + n ≤ st.zone) (hm : m ≤ n)
    (htiled : Tiled (FreeTile st.mem) (a + (n - m)) (a + n))
    (hexact : exactFit = true → Tiled (FreeTile st.mem) (a + k) (a + n)) :
    ∃ e, (Prog.loop (headerBody (baseSize * n) (baseSize * k))
        (baseSize * m, baseSize * (a + (n - m)), exactFit)).Returns st st e ∧
      (e = true → Tiled (FreeTile st.mem) (a + k) (a + n)) := by
  have hzone := h.zone_le
  have hlt := h.bitmapSize_lt
  -- the induction is on the number of units that are left
  induction m using Nat.strong_induction_on generalizing exactFit with
  | _ m ih =>
    by_cases hm0 : m = 0
    · subst hm0
      exact ⟨exactFit, Prog.Returns.loop_exit (Prog.returns_pure _ _), hexact⟩
    · obtain ⟨t, htile, hpos, hrest⟩ := htiled.eq_cons (by omega)
      have htle := hrest.le
      have hsize : baseSize * t < 2 ^ 32 := by
        simp only [baseSize]
        omega
      have hhdr : (getHeaderSize (baseSize * (a + (n - m)))).Returns st st
          (-crcCompute (baseSize * (a + (n - m))) (baseSize * t)) := by
        rw [FreeTile] at htile
        rw [← htile]
        refine returns_getHeaderSize ?_
        rw [h.endAddress]
        simp only [baseSize]
        omega
      have hneg : 0 < crcCompute (baseSize * (a + (n - m))) (baseSize * t) :=
        crcCompute_pos hsize (Nat.mul_pos (by decide) hpos)
      have hnext : u32Sub (baseSize * m) (baseSize * t) = baseSize * (m - t) := by
        simp only [u32Sub, baseSize] at hsize ⊢
        omega
      have hptr : baseSize * (a + (n - m)) + baseSize * t = baseSize * (a + (n - (m - t))) := by
        rw [← Nat.mul_add, show a + (n - m) + t = a + (n - (m - t)) by omega]
      have hdone : u32Sub (baseSize * n) (baseSize * (m - t)) = baseSize * k ↔
          a + (n - m) + t = a + k := by
        simp only [u32Sub, baseSize] at hsize ⊢
        omega
      rw [show a + (n - m) + t = a + (n - (m - t)) by omega] at hrest hdone
      have hexact' : (exactFit ||
          decide (u32Sub (baseSize * n) (baseSize * (m - t)) = baseSize * k)) = true →
          Tiled (FreeTile st.mem) (a + k) (a + n) := by
        rw [Bool.or_eq_true, decide_eq_true_iff, hdone]
        rintro (hold | heq)
        · exact hexact hold
        · rwa [← heq]
      obtain ⟨e, hloop, he⟩ := ih (m - t) (by omega) (by omega) hrest hexact'
      refine ⟨e, Prog.Returns.loop_next ?_ hloop, he⟩
      unfold headerBody
      dsimp only
      rw [if_pos (by simp only [baseSize]; omega)]
      refine hhdr.bind ((returns_reportIf_of_not (by omega)).bind ?_)
      rw [Int.neg_neg, crcGetSize_crcCompute hsize, if_neg fun hne => hne rfl, hnext, hptr]
      exact Prog.returns_pure _ _

theorem returns_appendFreeList {st : NvState} {i : ℕ} (hi : i ≤ nrSizes) (position : ℕ) :
    (appendFreeList i position).Returns st
      { st with freeLists := Function.update st.freeLists i (st.freeLists i ++ [position]) } () :=
  (returns_getFreeList hi).bind (Prog.returns_modify _ _)

/-- The lists after the rest of a gap has been given a hint. -/
def withRest (lists : ℕ → List ℕ) (a n k : ℕ) : ℕ → List ℕ :=
  if k < n then
    Function.update lists (bucketOf (n - k)) (lists (bucketOf (n - k)) ++ [baseSize * (a + k)])
  else lists

/-- The rest of a gap is given a header, unless it has one, and a hint. -/
theorem NvShape.returns_splitRest (h : NvShape st) (hle : a + n ≤ st.zone) (hk : k ≤ n)
    (hexact : exactFit = true → Tiled (FreeTile st.mem) (a + k) (a + n)) :
    ∃ mem, (splitRest (baseSize * a) (baseSize * n) (baseSize * k) exactFit).Returns st
        { st with mem, freeLists := withRest st.freeLists a n k } () ∧
      (∀ x, k = n ∨ x ≠ baseSize * (a + k) → mem x = st.mem x) ∧
      Tiled (FreeTile mem) (a + k) (a + n) := by
  have hzone := h.zone_le
  have hlt := h.bitmapSize_lt
  unfold splitRest withRest
  by_cases hkn : k = n
  · -- there is no rest
    subst hkn
    refine ⟨st.mem, ?_, fun _ _ => rfl, .nil _⟩
    rw [if_neg (Nat.lt_irrefl _), if_neg (Nat.lt_irrefl _)]
    exact Prog.returns_pure _ _
  · have hlarge : baseSize * n > baseSize * k := by
      simp only [baseSize]
      omega
    have hsize : baseSize * n - baseSize * k = baseSize * (n - k) := (Nat.mul_sub ..).symm
    have hsmall : baseSize * (n - k) < 2 ^ 32 := by
      simp only [baseSize]
      omega
    have hbucket := getBestFit_mul (n := n - k) (by omega)
    rw [if_pos hlarge, if_pos (show k < n by omega), ← Nat.mul_add, hsize, hbucket]
    cases hfit : exactFit with
    | true =>
      refine ⟨st.mem, ?_, fun _ _ => rfl, hexact hfit⟩
      rw [writeRest, if_neg (by simp)]
      exact Prog.Returns.bind (Prog.returns_pure _ _) (returns_appendFreeList bucketOf_le _)
    | false =>
      refine ⟨Function.update st.mem (baseSize * (a + k))
        (BitVec.ofInt 64 (-crcCompute (baseSize * (a + k)) (baseSize * (n - k)))), ?_,
        fun x hx => Function.update_of_ne (hx.resolve_left hkn) _ _, ?_⟩
      · rw [writeRest, if_pos (by simp), ← Nat.mul_add, hsize]
        refine Prog.Returns.bind (returns_setHeaderSize ?_ _)
          (returns_appendFreeList bucketOf_le _)
        rw [h.endAddress]
        simp only [baseSize]
        omega
      · have htile : FreeTile (Function.update st.mem (baseSize * (a + k))
            (BitVec.ofInt 64 (-crcCompute (baseSize * (a + k)) (baseSize * (n - k)))))
            (a + k) (n - k) := by
          rw [FreeTile, Function.update_self]
          exact toInt_neg_crcCompute hsmall
        rw [show a + n = a + k + (n - k) by omega]
        exact .single htile (by omega)

end Headers

/-! ## All lists -/

/-- The lists after hints have been taken out, from the list `first` on, that lead to less than `k`
units. -/
def Searched (st : NvState) (k first : ℕ) (lists : ℕ → List ℕ) : Prop :=
  ∀ j, ∃ D, st.freeLists j = D ++ lists j ∧
    ∀ d ∈ D, first ≤ j ∧ ∃ a n, Found st.bit st.zone d a n ∧ n < k

section Search

variable {st : NvState} {lists : ℕ → List ℕ} {first i k : ℕ} {D l : List ℕ}

theorem Searched.refl (st : NvState) (k first : ℕ) : Searched st k first st.freeLists :=
  fun _ => ⟨[], rfl, List.forall_mem_nil _⟩

/-- More hints are taken out of one list. -/
theorem Searched.update (h : Searched st k first lists) (hi : first ≤ i) (hl : lists i = D ++ l)
    (hD : ∀ d ∈ D, ∃ a n, Found st.bit st.zone d a n ∧ n < k) :
    Searched st k first (Function.update lists i l) := by
  intro j
  obtain ⟨D', hD', hall⟩ := h j
  by_cases hj : j = i
  · subst hj
    refine ⟨D' ++ D, ?_, fun d hd => ?_⟩
    · rw [hD', hl, Function.update_self, List.append_assoc]
    · rcases List.mem_append.1 hd with hd | hd
      · exact hall d hd
      · exact ⟨hi, hD d hd⟩
  · refine ⟨D', ?_, hall⟩
    rw [hD', Function.update_of_ne hj]

/-- A hint that is left was there before. -/
theorem Searched.mem (h : Searched st k first lists) {j p : ℕ} (hp : p ∈ lists j) :
    p ∈ st.freeLists j := by
  obtain ⟨D', hD', -⟩ := h j
  rw [hD']
  exact List.mem_append_right _ hp

theorem Searched.shape (hs : Searched st k first lists) (h : NvShape st) :
    NvShape { st with freeLists := lists } :=
  ⟨h.freeZone, h.zone_le, h.endAddress, h.bitmapSize_lt, fun j p hp => h.hints j p (hs.mem hp)⟩

/-- No hint is left from the list `first` on. -/
structure Miss (st : NvState) (k first : ℕ) (lists : ℕ → List ℕ) : Prop where
  /-- The hints that have been taken out were of no use. -/
  searched : Searched st k first lists
  /-- The lists are empty. -/
  empty : ∀ j, first ≤ j → j ≤ nrSizes → lists j = []

/-- A hint has led to the gap of `n` units at `a`, which has room for `k`. The rest of it has a
header and a hint. -/
structure Hit (st : NvState) (k first a n : ℕ) (mem : ℕ → BitVec 64) (lists : ℕ → List ℕ) :
    Prop where
  /-- The hint, the hints before it, and the lists. -/
  found : ∃ lists' j p l, Searched st k first lists' ∧ first ≤ j ∧ j ≤ nrSizes ∧
    lists' j = p :: l ∧ Found st.bit st.zone p a n ∧
    lists = withRest (Function.update lists' j l) a n k
  /-- The gap has room. -/
  le : k ≤ n
  /-- At most the header of the rest has been written. -/
  keeps : ∀ x, k = n ∨ x ≠ baseSize * (a + k) → mem x = st.mem x
  /-- The headers of the rest. -/
  tiled : Tiled (FreeTile mem) (a + k) (a + n)

/-- A list without hints is skipped. -/
theorem returns_findBody_nil (hle : i ≤ nrSizes) (hnil : lists i = []) (actualSize : ℕ) :
    (findBody actualSize i).Returns { st with freeLists := lists } { st with freeLists := lists }
      (.inl ((i + 1 : ℕ) : ℤ)) := by
  have hread : (getFreeList i).Returns { st with freeLists := lists } { st with freeLists := lists }
      [] := by
    rw [← hnil]
    exact returns_getFreeList hle
  unfold findBody
  rw [if_pos (by omega)]
  refine hread.bind ?_
  rw [if_pos rfl]
  exact Prog.returns_pure _ _

/-- All hints of the list `i` are of no use. -/
theorem returns_findBody_fail (hle : i ≤ nrSizes) (hne : lists i ≠ []) {n location : ℕ}
    (hlt : n < k)
    (hhints : (Prog.loop (hintBody i (baseSize * k)) ()).Returns { st with freeLists := lists }
      { st with freeLists := Function.update lists i [] } (location, baseSize * n)) :
    (findBody (baseSize * k) i).Returns { st with freeLists := lists }
      { st with freeLists := Function.update lists i [] } (.inl i) := by
  unfold findBody
  rw [if_pos (by omega)]
  refine (returns_getFreeList hle).bind ?_
  rw [if_neg hne]
  refine hhints.bind ?_
  dsimp only
  rw [if_neg (by simp only [baseSize]; omega)]
  exact Prog.returns_pure _ _

/-- A hint of the list `i` leads to a gap that is large enough. -/
theorem NvShape.returns_findBody_hit (h : NvShape st)
    (htiled : ∀ a n, IsGap st.bit st.zone a n → Tiled (FreeTile st.mem) a (a + n)) (hk : 0 < k)
    (hi : first ≤ i) (hle : i ≤ nrSizes) (hs : Searched st k first lists) {p a n location : ℕ}
    (hl : lists i = D ++ p :: l) (hD : ∀ d ∈ D, ∃ a n, Found st.bit st.zone d a n ∧ n < k)
    (hfound : Found st.bit st.zone p a n) (hloc : 0 < n → location = baseSize * a) (hlarge : k ≤ n)
    (hhints : (Prog.loop (hintBody i (baseSize * k)) ()).Returns { st with freeLists := lists }
      { st with freeLists := Function.update lists i l } (location, baseSize * n)) :
    ∃ mem lists', Hit st k first a n mem lists' ∧
      (findBody (baseSize * k) i).Returns { st with freeLists := lists }
        { st with mem, freeLists := lists' } (.inr (some (baseSize * a))) := by
  have hgap := (hfound.gap (by omega)).1
  have hne : lists i ≠ [] := by
    rw [hl]
    simp
  have hs' := hs.update hi hl hD
  have hlists : Function.update (Function.update lists i (p :: l)) i l =
      Function.update lists i l := Function.update_idem ..
  -- the hint itself is taken out, too
  let st₁ : NvState := { st with freeLists := Function.update lists i l }
  have hshape₁ : NvShape st₁ := by
    have htail := (hs'.shape h).tail (i := i) (p := p) (l := l) (Function.update_self ..)
    dsimp only at htail
    rwa [hlists] at htail
  have hstart : Tiled (FreeTile st₁.mem) (a + (n - n)) (a + n) := by
    rw [Nat.sub_self]
    exact htiled a n hgap
  obtain ⟨e, hheaders, he⟩ := hshape₁.returns_headerLoop (k := k) hgap.le le_rfl hstart
    fun hno => absurd hno Bool.false_ne_true
  obtain ⟨mem, hsplit, hmem, hrest⟩ := hshape₁.returns_splitRest hgap.le hlarge he
  refine ⟨mem, _, ⟨⟨_, i, p, l, hs', hi, hle, Function.update_self .., hfound, rfl⟩, hlarge, hmem,
    hrest⟩, ?_⟩
  rw [hlists]
  unfold findBody
  rw [if_pos (by omega)]
  refine (returns_getFreeList hle).bind ?_
  rw [if_neg hne]
  refine hhints.bind ?_
  rw [Nat.sub_self, Nat.add_zero] at hheaders
  rw [hloc (by omega)]
  dsimp only
  rw [if_pos (Nat.mul_le_mul_left _ hlarge)]
  refine hheaders.bind ?_
  exact hsplit.bind (Prog.returns_pure _ _)

/-- How the search ends that goes on at list `i`: with no hint left from the list `first` on, or with
a gap that has room. -/
inductive Ends (st : NvState) (k first i : ℕ) (lists : ℕ → List ℕ) : Prop
  | miss {lists' : ℕ → List ℕ} (hmiss : Miss st k first lists')
      (hret : (Prog.loop (findBody (baseSize * k)) i).Returns { st with freeLists := lists }
        { st with freeLists := lists' } none) : Ends st k first i lists
  | hit {a n : ℕ} {mem : ℕ → BitVec 64} {lists' : ℕ → List ℕ} (hhit : Hit st k first a n mem lists')
      (hret : (Prog.loop (findBody (baseSize * k)) i).Returns { st with freeLists := lists }
        { st with mem, freeLists := lists' } (some (baseSize * a))) : Ends st k first i lists

/-- An iteration that finds nothing does not change how the search ends. -/
theorem Ends.of_next {i' : ℕ} {lists' : ℕ → List ℕ} (h : Ends st k first i' lists')
    (hbody : (findBody (baseSize * k) i).Returns { st with freeLists := lists }
      { st with freeLists := lists' } (.inl (i' : ℤ))) : Ends st k first i lists := by
  cases h with
  | miss hmiss hret => exact .miss hmiss (hbody.loop_next hret)
  | hit hhit hret => exact .hit hhit (hbody.loop_next hret)

/-- The search ends. -/
theorem NvShape.search_ends (h : NvShape st)
    (htiled : ∀ a n, IsGap st.bit st.zone a n → Tiled (FreeTile st.mem) a (a + n)) (hk : 0 < k)
    (hi : first ≤ i) (hs : Searched st k first lists)
    (hempty : ∀ j, first ≤ j → j < i → j ≤ nrSizes → lists j = []) : Ends st k first i lists := by
  -- the induction is on the number of lists that are left
  induction hd : nrSizes + 1 - i generalizing i lists with
  | zero =>
    refine .miss ⟨hs, fun j h₁ h₂ => hempty j h₁ (by omega) h₂⟩ (Prog.Returns.loop_exit ?_)
    unfold findBody
    rw [if_neg (by omega)]
    exact Prog.returns_pure _ _
  | succ d ih =>
    have hle : i ≤ nrSizes := by omega
    -- when the list has no hint left, it is the turn of the next one
    have hnext : ∀ {lists : ℕ → List ℕ}, Searched st k first lists → lists i = [] →
        (∀ j, first ≤ j → j < i → j ≤ nrSizes → lists j = []) → Ends st k first i lists := by
      intro lists hs hnil hempty
      refine (ih (by omega) hs (fun j h₁ h₂ h₃ => ?_) (by omega)).of_next
        (returns_findBody_nil hle hnil _)
      by_cases hj : j = i
      · rw [hj, hnil]
      · exact hempty j h₁ (by omega) h₃
    by_cases hnil : lists i = []
    · exact hnext hs hnil hempty
    · obtain ⟨D, p, l, a, n, location, hl, hD, hfound, hloc, hend, hhints⟩ :=
        (hs.shape h).returns_hintLoop hle rfl hnil k
      have hl' : lists i = D ++ p :: l := hl
      by_cases hlarge : k ≤ n
      · obtain ⟨mem, lists', hhit, hbody⟩ :=
          h.returns_findBody_hit htiled hk hi hle hs hl' hD hfound
          hloc hlarge hhints
        exact .hit hhit hbody.loop_exit
      · -- the whole list was of no use
        obtain rfl : l = [] := hend.resolve_left hlarge
        have hs' : Searched st k first (Function.update lists i []) := by
          refine hs.update (D := D ++ [p]) hi (by rw [hl', List.append_nil]) fun d hd => ?_
          rcases List.mem_append.1 hd with hd | hd
          · exact hD d hd
          · rw [List.mem_singleton.1 hd]
            exact ⟨a, n, hfound, by omega⟩
        refine (hnext hs' (Function.update_self ..) fun j h₁ h₂ h₃ => ?_).of_next
          (returns_findBody_fail hle hnil (by omega) hhints)
        rw [Function.update_of_ne (by omega)]
        exact hempty j h₁ h₂ h₃

end Search

end Zalloc
