import Zalloc.Nvmalloc.Reserve

/-!
# The release of a block

The first block of the don't-allocate list is released when its time has come: its bits are
cleared, and then it is the free space around it that matters. If that reaches the free zone, the
free zone is moved back. Otherwise the block gets a header for the free space from its start on,
and the whole gap gets a hint.

## Main definitions

* `MadeFree st st'`: a block has been made free.
* `HeadAt st w`: the first block of the list can be read.
* `Ticked st now waiting st' waiting'`: what `incrementTime` does.

## Main results

* `NvInv.pop`: the first block is taken from the list.
* `NvInv.merge`, `NvInv.refill`: the invariant after the bits have been cleared.
* `NvInv.ticks`: what `incrementTime` does.
-/

set_option autoImplicit false

open BitArray

namespace Zalloc

section

variable {st : NvState} {live : List NvBlock} {waiting rest : List Waiting} {w : Waiting}
  {k now p s u : ℕ} {bitmap : ℕ → ℕ} {lists : ℕ → List ℕ}

/-! ## The list -/

/-- Two waiting blocks start at different offsets. -/
theorem NvInv.location_ne {w' : Waiting} {transit : List NvBlock}
    (h : NvInv st transit live (w :: rest)) (hw' : w' ∈ rest) : w.location ≠ w'.location := by
  intro heq
  have hapart := (List.pairwise_append.1 (List.pairwise_append.1 h.occupied.apart).2.1).2.1
  have hpos := h.occupied.pos _ (NvInv.mem_waiting (List.mem_cons_self ..))
  have hpos' := h.occupied.pos _ (NvInv.mem_waiting (List.mem_cons_of_mem w hw'))
  rcases (List.pairwise_cons.1 hapart).1 w'.toNvBlock (List.mem_map_of_mem hw') with hle | hle
  · omega
  · omega

/-- The first block is taken from the list. -/
theorem NvInv.pop (h : NvInv st [] live (w :: rest)) :
    st.dontAllocateListHead = w.location ∧ ∃ head tail,
      NvInv { st with dontAllocateListHead := head, dontAllocateListTail := tail } [w.toNvBlock]
        live rest ∧
      (popDNAList w.location).Returns st
        { st with dontAllocateListHead := head, dontAllocateListTail := tail } () := by
  have hocc : Occupied st ([w.toNvBlock] ++ (live ++ rest.map Waiting.toNvBlock)) :=
    h.occupied.perm List.perm_middle
  have hmove : ∀ head tail,
      Queue { st with dontAllocateListHead := head, dontAllocateListTail := tail } rest →
      NvInv { st with dontAllocateListHead := head, dontAllocateListTail := tail } [w.toNvBlock]
        live rest := fun head tail hqueue =>
    ⟨⟨h.shape.freeZone, h.shape.zone_le, h.shape.endAddress, h.shape.bitmapSize_lt, h.shape.hints⟩,
      ⟨hocc.aligned, hocc.pos, hocc.inside, hocc.apart, hocc.bits, hocc.top⟩, h.tiled, h.liveHeader,
      fun w' hw' => h.waitingHeader w' (List.mem_cons_of_mem w hw'), hqueue⟩
  obtain ⟨Q, w', heq, htail, hpath⟩ := h.queue.resolve_left fun hno => List.cons_ne_nil w rest hno.1
  cases Q with
  | nil =>
    -- it is the only one
    obtain ⟨rfl, rfl⟩ := List.cons.inj heq
    refine ⟨hpath, nilOffset, nilOffset, hmove _ _ (.inl ⟨rfl, rfl, rfl⟩), ?_⟩
    refine (Prog.returns_read _ _).bind ?_
    rw [if_pos htail.symm]
    exact Prog.returns_modify _ _
  | cons q Q =>
    obtain ⟨rfl, hrest⟩ := List.cons.inj heq
    obtain ⟨hhead, hpath⟩ := hpath
    have hne : w.location ≠ st.dontAllocateListTail := by
      rw [htail]
      refine h.location_ne ?_
      rw [hrest]
      exact List.mem_append_right _ (List.mem_singleton_self _)
    refine ⟨hhead, nextOffset st.mem w.location, st.dontAllocateListTail,
      hmove _ _ (.inr ⟨Q, w', hrest, htail, hpath⟩), ?_⟩
    obtain ⟨hsize, hend, -⟩ := h.bounds (NvInv.mem_waiting (List.mem_cons_self ..))
    refine (Prog.returns_read _ _).bind ?_
    rw [if_neg hne]
    exact (returns_getHeaderNext (by omega)).bind (Prog.returns_modify _ _)

/-- A block can be taken from the list when its link can be read. -/
theorem returns_popDNAList {a : ℕ} (h : a + 16 ≤ st.endAddress) :
    ∃ head tail, (popDNAList a).Returns st
      { st with dontAllocateListHead := head, dontAllocateListTail := tail } () := by
  by_cases hlast : a = st.dontAllocateListTail
  · refine ⟨nilOffset, nilOffset, (Prog.returns_read _ _).bind ?_⟩
    rw [if_pos hlast]
    exact Prog.returns_modify _ _
  · refine ⟨nextOffset st.mem a, st.dontAllocateListTail, (Prog.returns_read _ _).bind ?_⟩
    rw [if_neg hlast]
    exact (returns_getHeaderNext h).bind (Prog.returns_modify _ _)

/-! ## The bits -/

/-- The units of a block in transit are in use, and below the free zone. -/
theorem NvInv.unit_transit (h : NvInv st [⟨baseSize * u, baseSize * k⟩] live waiting) :
    0 < k ∧ u + k ≤ st.zone ∧ st.bit u = true := by
  have hmem : (⟨baseSize * u, baseSize * k⟩ : NvBlock) ∈
      [⟨baseSize * u, baseSize * k⟩] ++ (live ++ waiting.map Waiting.toNvBlock) :=
    NvInv.mem_transit (List.mem_singleton_self _)
  obtain ⟨u', k', hu, hk, hpos, hle⟩ := h.occupied.units h.shape hmem
  simp only [baseSize] at hu hk
  obtain rfl : u = u' := by omega
  obtain rfl : k = k' := by omega
  exact ⟨hpos, hle, h.occupied.bit_of_covers h.shape hmem
    ((NvBlock.covers_iff rfl rfl).2 ⟨le_rfl, by omega⟩)⟩

/-- A block is made free, and the free zone is moved back behind the last unit in use. -/
theorem NvInv.merge (h : NvInv st [⟨baseSize * u, baseSize * k⟩] live waiting)
    (hbit : BitArray.bit bitmap = fill st.bit u k false) (hto : ClearTo (fill st.bit u k false) u p)
    (hfrom : ClearFrom (fill st.bit u k false) st.zone u s) (hend : u + s = st.zone) :
    NvInv { st with bitmap, freeZone := baseSize * (u - p) } [] live waiting ∧
      ∀ a n, IsGap (BitArray.bit bitmap) (u - p) a n → IsGap st.bit st.zone a n := by
  obtain ⟨hk, hle, -⟩ := h.unit_transit
  have hks : k ≤ s := hfrom.le_of_clear hle fun v h₁ h₂ => fill_of_mem h₁ h₂
  have hple := hto.le
  have hzoneLe := h.shape.zone_le
  have hgap := isGap_of_scan hto hfrom (by omega) (by omega)
  have hzone : NvState.zone { st with bitmap, freeZone := baseSize * (u - p) } = u - p := unit_eq
  have hshape : NvShape { st with bitmap, freeZone := baseSize * (u - p) } := by
    refine ⟨?_, ?_, h.shape.endAddress, h.shape.bitmapSize_lt, h.shape.hints⟩
    · rw [hzone]
    · rw [hzone]
      show u - p ≤ 8 * st.bitmapSize
      omega
  -- the gaps that are left have been gaps before, and the block is not in them
  have hgaps : ∀ a n, IsGap (BitArray.bit bitmap) (u - p) a n →
      IsGap st.bit st.zone a n ∧ a + n < u - p := by
    intro a n hnew
    rw [hbit] at hnew
    obtain ⟨hnew', hlt⟩ := hgap.of_retreat (by omega) hnew
    rcases isGap_of_clear hk hle hto hfrom hnew' with ⟨rfl, rfl⟩ | ⟨hold, -⟩
    · omega
    · exact ⟨hold, hlt⟩
  refine ⟨⟨hshape, ?_, fun a n hnew => ?_, h.liveHeader, h.waitingHeader, h.queue⟩,
    fun a n hnew => (hgaps a n hnew).1⟩
  · refine h.occupied.free h.shape hshape hbit rfl (fun v h₁ h₂ => ?_) ?_
    · rw [hzone] at h₁
      show BitArray.bit bitmap v = false
      rw [hbit]
      exact hgap.clear v h₁ (by omega)
    · rw [hzone]
      show u - p = 0 ∨ BitArray.bit bitmap (u - p - 1) = true
      rw [hbit]
      exact hgap.left
  · rw [hzone] at hnew
    exact h.tiled a n (hgaps a n hnew).1

/-- A block with a header for the free space from its start on is made free. -/
theorem NvInv.refill (h : NvInv st [⟨baseSize * u, baseSize * k⟩] live waiting)
    (hbit : BitArray.bit bitmap = fill st.bit u k false) (hto : ClearTo (fill st.bit u k false) u p)
    (hfrom : ClearFrom (fill st.bit u k false) st.zone u s) (hend : u + s < st.zone)
    (htile : FreeTile st.mem u s) (hints : ∀ i, ∀ q ∈ lists i, baseSize ∣ q) :
    NvInv { st with bitmap, freeLists := lists } [] live waiting ∧
      ∀ a n, IsGap (BitArray.bit bitmap) st.zone a n →
        IsGap st.bit st.zone a n ∨ a = u - p ∧ n = p + s := by
  obtain ⟨hk, hle, hset⟩ := h.unit_transit
  have hks : k ≤ s := hfrom.le_of_clear hle fun v h₁ h₂ => fill_of_mem h₁ h₂
  have hple := hto.le
  have hshape : NvShape { st with bitmap, freeLists := lists } :=
    ⟨h.shape.freeZone, h.shape.zone_le, h.shape.endAddress, h.shape.bitmapSize_lt, hints⟩
  have hgaps : ∀ a n, IsGap (BitArray.bit bitmap) st.zone a n →
      IsGap st.bit st.zone a n ∨ a = u - p ∧ n = p + s := by
    intro a n hnew
    rw [hbit] at hnew
    exact (isGap_of_clear hk hle hto hfrom hnew).symm.imp_left And.left
  refine ⟨⟨hshape, ?_, fun a n hnew => ?_, h.liveHeader, h.waitingHeader, h.queue⟩, hgaps⟩
  · refine h.occupied.free h.shape hshape hbit rfl (fun v (h₁ : st.zone ≤ v) h₂ => by omega) ?_
    -- the block does not end at the free zone
    show st.zone = 0 ∨ BitArray.bit bitmap (st.zone - 1) = true
    refine h.occupied.top.imp id fun htop => ?_
    rw [hbit, fill_of_not_mem (by omega)]
    exact htop
  · rcases hgaps a n hnew with hold | ⟨rfl, rfl⟩
    · exact h.tiled a n hold
    · rw [show u - p + (p + s) = u + s by omega]
      refine Tiled.append (b := u) ?_ (.single htile (by omega))
      by_cases hp : p = 0
      · rw [hp, Nat.sub_zero]
        exact .nil u
      · have hfront := h.tiled (u - p) p (isGap_before_clear hset (by omega) hto (by omega))
        rwa [show u - p + p = u by omega] at hfront

/-! ## `incrementTime` -/

/-- A block has been made free. -/
structure MadeFree (st st' : NvState) : Prop where
  /-- The free zone is the same, or has been moved back. -/
  freeZone_le : st'.freeZone ≤ st.freeZone
  /-- The arena is the same. -/
  endAddress : st'.endAddress = st.endAddress
  /-- A gap was there before, or has a hint. -/
  gaps : ∀ a n, IsGap st'.bit st'.zone a n →
    IsGap st.bit st.zone a n ∨ baseSize * a ∈ st'.freeLists (bucketOf n)
  /-- No hint is lost. -/
  hints : ∀ i, ∀ q ∈ st.freeLists i, q ∈ st'.freeLists i
  /-- The time in the list is the same. -/
  wait : st'.dontAllocateWait = st.dontAllocateWait
  /-- Nothing has been printed. -/
  reports : st'.reports = st.reports
  /-- Nothing has been taken from the list. -/
  released : st'.released = st.released

/-- The lists after a gap has been given its hints. -/
def withGap (lists : ℕ → List ℕ) (u p s : ℕ) : ℕ → List ℕ :=
  let lists := Function.update lists (bucketOf (p + s)) (lists (bucketOf (p + s)) ++
    [baseSize * (u - p)])
  if s = p + s then lists
  else Function.update lists (bucketOf s) (lists (bucketOf s) ++ [baseSize * u])

/-- The hints of a gap are those of its start and of the block. -/
theorem mem_withGap {i r : ℕ} (hr : r ∈ withGap lists u p s i) :
    r ∈ lists i ∨ r = baseSize * (u - p) ∨ r = baseSize * u := by
  unfold withGap at hr
  split_ifs at hr
  · exact (mem_update_append hr).imp_right .inl
  · rcases mem_update_append hr with hr | rfl
    · exact (mem_update_append hr).imp_right .inl
    · exact .inr (.inr rfl)

theorem mem_withGap_of_mem {i r : ℕ} (hr : r ∈ lists i) : r ∈ withGap lists u p s i := by
  unfold withGap
  split_ifs
  · exact mem_update_of_mem hr
  · exact mem_update_of_mem (mem_update_of_mem hr)

/-- The start of the gap is in the list for its size. -/
theorem start_mem_withGap : baseSize * (u - p) ∈ withGap lists u p s (bucketOf (p + s)) := by
  have hnew : baseSize * (u - p) ∈ Function.update lists (bucketOf (p + s))
      (lists (bucketOf (p + s)) ++ [baseSize * (u - p)]) (bucketOf (p + s)) := by
    rw [Function.update_self]
    exact List.mem_append_right _ (List.mem_singleton_self _)
  unfold withGap
  split_ifs
  · exact hnew
  · exact mem_update_of_mem hnew

/-- A block whose bits have been cleared is merged with the free zone. -/
theorem returns_insertFreeLocation_merge (hp : p ≤ u) (hlt : u + s < 2 ^ 32)
    (hzone : st.freeZone = baseSize * (u + s)) (hs : 0 < s)
    (hend : baseSize * u + 8 ≤ st.endAddress) :
    (insertFreeLocation (baseSize * u) (baseSize * s) (baseSize * (p + s))).Returns st
      { st with
        freeZone := baseSize * (u - p)
        mem := Function.update st.mem (baseSize * u) (BitVec.ofInt 64 0) } () := by
  have hstart : u64Sub (baseSize * u + baseSize * s) (baseSize * (p + s)) = baseSize * (u - p) := by
    simp only [u64Sub, baseSize]
    omega
  refine (Prog.returns_read _ _).bind ?_
  rw [if_pos (by rw [hzone]; simp only [baseSize]; omega), hstart]
  refine (Prog.returns_modify _ _).bind (returns_setHeaderSize ?_ 0)
  exact hend

/-- A block whose bits have been cleared gets a header and hints. -/
theorem returns_insertFreeLocation_gap (hp : p ≤ u) (hlt : u + s < 2 ^ 32)
    (hzone : baseSize * (u + s) < st.freeZone) (hs : 0 < s)
    (hend : baseSize * u + 8 ≤ st.endAddress) :
    (insertFreeLocation (baseSize * u) (baseSize * s) (baseSize * (p + s))).Returns st
      { st with
        mem := Function.update st.mem (baseSize * u)
          (BitVec.ofInt 64 (-crcCompute (baseSize * u) (baseSize * s)))
        freeLists := withGap st.freeLists u p s } () := by
  have hstart : u64Sub (baseSize * u + baseSize * s) (baseSize * (p + s)) = baseSize * (u - p) := by
    simp only [u64Sub, baseSize]
    omega
  refine (Prog.returns_read _ _).bind ?_
  rw [if_neg (by simp only [baseSize] at hzone ⊢; omega), hstart, getBestFit_mul (by omega),
    getBestFit_mul hs]
  refine (returns_setHeaderSize hend _).bind ((returns_appendFreeList bucketOf_le _).bind ?_)
  unfold withGap
  dsimp only
  by_cases hall : s = p + s
  · rw [if_neg (by rw [← hall]; exact fun hno => hno rfl), if_pos hall]
    exact Prog.returns_pure _ _
  · rw [if_pos (fun heq => hall (Nat.eq_of_mul_eq_mul_left (by decide) heq)), if_neg hall]
    exact returns_appendFreeList bucketOf_le _

/-- The header of a block in transit can be written. -/
theorem NvInv.header_transit (h : NvInv st [⟨baseSize * u, baseSize * k⟩] live waiting) :
    baseSize * u + 8 ≤ st.endAddress ∧ ∀ v,
      NvInv { st with mem := Function.update st.mem (baseSize * u) v }
        [⟨baseSize * u, baseSize * k⟩] live waiting := by
  obtain ⟨hk, hle, -⟩ := h.unit_transit
  have hzoneLe := h.shape.zone_le
  have harena := h.shape.endAddress
  refine ⟨?_, fun v => h.write_transit (List.mem_singleton_self _) ⟨le_rfl, ?_⟩ v⟩
  · simp only [baseSize]
    omega
  · simp only [baseSize]
    omega

/-- A block whose bits have been cleared, at the end of the units in use. -/
theorem NvInv.inserts_merge (h : NvInv st [⟨baseSize * u, baseSize * k⟩] live waiting)
    (hbit : BitArray.bit bitmap = fill st.bit u k false) (hto : ClearTo (fill st.bit u k false) u p)
    (hfrom : ClearFrom (fill st.bit u k false) st.zone u s) (hks : k ≤ s) (hend : u + s = st.zone) :
    ∃ st', (insertFreeLocation (baseSize * u) (baseSize * s) (baseSize * (p + s))).Returns
      { st with bitmap } st' () ∧ NvInv st' [] live waiting ∧ MadeFree st st' := by
  obtain ⟨hk, -⟩ := h.unit_transit
  obtain ⟨hword, hwrite⟩ := h.header_transit
  have hzone := h.shape.freeZone
  have hzoneLe := h.shape.zone_le
  have hlt := h.shape.bitmapSize_lt
  let st₁ : NvState := { st with bitmap }
  have hzone₁ : st₁.freeZone = baseSize * (u + s) := by
    rw [hend]
    exact hzone
  obtain ⟨hinv, hgaps⟩ := (hwrite (BitVec.ofInt 64 0)).merge hbit hto hfrom hend
  refine ⟨_, returns_insertFreeLocation_merge hto.le (by omega) hzone₁ (by omega) hword, hinv, ?_,
    rfl, fun a n hgap => .inl (hgaps a n ?_), fun i q hq => hq, rfl, rfl, rfl⟩
  · show baseSize * (u - p) ≤ st.freeZone
    rw [hzone]
    simp only [baseSize]
    omega
  · have hzone' : baseSize * (u - p) / baseSize = u - p := unit_eq
    rw [← hzone']
    exact hgap

/-- A block whose bits have been cleared, in front of other units in use. -/
theorem NvInv.inserts_gap (h : NvInv st [⟨baseSize * u, baseSize * k⟩] live waiting)
    (hbit : BitArray.bit bitmap = fill st.bit u k false) (hto : ClearTo (fill st.bit u k false) u p)
    (hfrom : ClearFrom (fill st.bit u k false) st.zone u s) (hks : k ≤ s) (hend : u + s < st.zone) :
    ∃ st', (insertFreeLocation (baseSize * u) (baseSize * s) (baseSize * (p + s))).Returns
      { st with bitmap } st' () ∧ NvInv st' [] live waiting ∧ MadeFree st st' := by
  obtain ⟨hk, -⟩ := h.unit_transit
  obtain ⟨hword, hwrite⟩ := h.header_transit
  have hzone := h.shape.freeZone
  have hzoneLe := h.shape.zone_le
  have hlt := h.shape.bitmapSize_lt
  let st₁ : NvState := { st with bitmap }
  have hzone₁ : baseSize * (u + s) < st₁.freeZone := by
    show baseSize * (u + s) < st.freeZone
    rw [hzone]
    simp only [baseSize]
    omega
  have htile : FreeTile (Function.update st.mem (baseSize * u)
      (BitVec.ofInt 64 (-crcCompute (baseSize * u) (baseSize * s)))) u s := by
    rw [FreeTile, Function.update_self]
    refine toInt_neg_crcCompute ?_
    simp only [baseSize]
    omega
  have hints : ∀ i, ∀ q ∈ withGap st.freeLists u p s i, baseSize ∣ q := by
    intro i q hq
    rcases mem_withGap hq with hq | rfl | rfl
    · exact h.shape.hints i q hq
    · exact Nat.dvd_mul_right ..
    · exact Nat.dvd_mul_right ..
  obtain ⟨hinv, hgaps⟩ := (hwrite _).refill hbit hto hfrom hend htile hints
  refine ⟨_, returns_insertFreeLocation_gap hto.le (by omega) hzone₁ (by omega) hword, hinv, le_rfl,
    rfl, fun a n hgap => (hgaps a n hgap).imp_right ?_, fun i q hq => mem_withGap_of_mem hq, rfl,
    rfl, rfl⟩
  rintro ⟨rfl, rfl⟩
  exact start_mem_withGap

/-- A block in transit is made free. -/
theorem NvInv.returns_release (h : NvInv st [⟨baseSize * u, baseSize * k⟩] live waiting) :
    ∃ st₁ st' totalSize size,
      (extendFreeLocation (baseSize * u) (baseSize * k)).Returns st st₁ (totalSize, size) ∧
      (insertFreeLocation (baseSize * u) size totalSize).Returns st₁ st' () ∧
      NvInv st' [] live waiting ∧ MadeFree st st' := by
  obtain ⟨hk, hle, -⟩ := h.unit_transit
  obtain ⟨bitmap, p, s, hextend, hbit, hto, hfrom⟩ :=
    returns_extendFreeLocation h.shape.freeZone h.shape.zone_le h.shape.bitmapSize_lt hle
  have hks : k ≤ s := hfrom.le_of_clear hle fun v h₁ h₂ => fill_of_mem h₁ h₂
  have hsle := hfrom.add_le (by omega)
  by_cases hend : u + s = st.zone
  · obtain ⟨st', hinsert, hinv, hfreed⟩ := h.inserts_merge hbit hto hfrom hks hend
    exact ⟨_, st', _, _, hextend, hinsert, hinv, hfreed⟩
  · obtain ⟨st', hinsert, hinv, hfreed⟩ := h.inserts_gap hbit hto hfrom hks (by omega)
    exact ⟨_, st', _, _, hextend, hinsert, hinv, hfreed⟩

/-- What `incrementTime` does to the state and to the don't-allocate list. -/
inductive Ticked (st : NvState) (now : ℕ) : List Waiting → NvState → List Waiting → Prop
  /-- There is no block whose time has come. -/
  | keeps (waiting : List Waiting) : Ticked st now waiting st waiting
  /-- The first block is released. -/
  | releases {w : Waiting} {rest : List Waiting} {head tail : ℕ} {st' : NvState}
      (hdue : u64 (u64 w.timeAdded + st.dontAllocateWait) ≤ now)
      (hfreed : MadeFree { st with
        dontAllocateListHead := head
        dontAllocateListTail := tail
        released := st.released ++ [⟨w.location, w.size, now⟩] } st') :
      Ticked st now (w :: rest) st' rest

/-- The first block of the list can be read. -/
structure HeadAt (st : NvState) (w : Waiting) : Prop where
  /-- It is at the head. -/
  head : st.dontAllocateListHead = w.location
  /-- Its header. -/
  header : WaitingHeader st.mem w
  /-- It is in the arena. -/
  inside : w.location + 32 ≤ st.endAddress
  /-- Its offset and its size fit in 32 bits. -/
  small : w.location + w.size + 1 < 2 ^ 32

theorem HeadAt.ne_nil (h : HeadAt st w) : st.dontAllocateListHead ≠ nilOffset := by
  have hsmall := h.small
  rw [h.head]
  simp only [nilOffset]
  omega

/-- Its time is read. -/
theorem HeadAt.returns_getTimeAdded (h : HeadAt st w) :
    (getTimeAdded w.location).Returns st st (u64 w.timeAdded) := by
  rw [← h.header.2]
  exact Zalloc.returns_getTimeAdded h.inside

/-- The time of the first block has not come. -/
theorem HeadAt.returns_waits (h : HeadAt st w)
    (hdue : ¬ now ≥ u64 (u64 w.timeAdded + st.dontAllocateWait)) :
    (incrementTime now).Returns st st () := by
  refine (Prog.returns_read _ _).bind ?_
  rw [if_neg h.ne_nil, h.head]
  refine h.returns_getTimeAdded.bind ((Prog.returns_read _ _).bind ?_)
  rw [if_neg hdue]
  exact Prog.returns_pure _ _

/-- The time of the first block has come. What is left to do is its release. -/
theorem HeadAt.returns_releases (h : HeadAt st w) {st₁ st' : NvState} {head tail totalSize size : ℕ}
    (hdue : now ≥ u64 (u64 w.timeAdded + st.dontAllocateWait))
    (hpop : (popDNAList w.location).Returns st
      { st with dontAllocateListHead := head, dontAllocateListTail := tail } ())
    (hextend : (extendFreeLocation w.location w.size).Returns { st with
      dontAllocateListHead := head
      dontAllocateListTail := tail
      released := st.released ++ [⟨w.location, w.size, now⟩] } st₁ (totalSize, size))
    (hinsert : (insertFreeLocation w.location size totalSize).Returns st₁ st' ()) :
    (incrementTime now).Returns st st' () := by
  have hsmall := h.small
  have hinside := h.inside
  have hsize : w.size + 1 < 2 ^ 32 := by omega
  let st₂ : NvState := { st with dontAllocateListHead := head, dontAllocateListTail := tail }
  have hend₂ : w.location + 8 ≤ st₂.endAddress := by
    show w.location + 8 ≤ st.endAddress
    omega
  -- the header tells the size
  have hhsize : (getHeaderSize w.location).Returns st₂ st₂
      (-crcCompute w.location (w.size + 1)) := by
    rw [← h.header.1]
    exact returns_getHeaderSize hend₂
  have hcrc : crcGetSize (- -crcCompute w.location (w.size + 1)) = w.size + 1 := by
    rw [Int.neg_neg]
    exact crcGetSize_crcCompute hsize
  have hsub : u32Sub (w.size + 1) 1 = w.size := by
    simp only [u32Sub]
    omega
  refine (Prog.returns_read _ _).bind ?_
  rw [if_neg h.ne_nil, h.head]
  refine h.returns_getTimeAdded.bind ((Prog.returns_read _ _).bind ?_)
  rw [if_pos hdue]
  refine hpop.bind (hhsize.bind ?_)
  rw [hcrc]
  refine (returns_reportIf_of_not fun hno => hno rfl).bind ?_
  rw [hsub]
  exact (Prog.returns_modify _ _).bind (hextend.bind hinsert)

/-- When the list is empty nothing is done. -/
theorem returns_incrementTime_nil (h : st.dontAllocateListHead = nilOffset) :
    (incrementTime now).Returns st st () := by
  refine (Prog.returns_read _ _).bind ?_
  rw [if_pos h]
  exact Prog.returns_pure _ _

/-- The first block of the list. -/
theorem NvInv.headAt (h : NvInv st [] live (w :: rest)) : HeadAt st w := by
  have hw : w.toNvBlock ∈ [] ++ (live ++ (w :: rest).map Waiting.toNvBlock) :=
    NvInv.mem_waiting (List.mem_cons_self ..)
  obtain ⟨hsize, hend, hlt⟩ := h.bounds hw
  exact ⟨h.pop.1, h.waitingHeader w (List.mem_cons_self ..), by omega, by omega⟩

/-- `incrementTime` releases a block at most. -/
theorem NvInv.ticks (h : NvInv st [] live waiting) (now : ℕ) :
    ∃ st' waiting', Ticked st now waiting st' waiting' ∧ NvInv st' [] live waiting' ∧
      (incrementTime now).Returns st st' () := by
  cases waiting with
  | nil => exact ⟨st, [], .keeps [], h, returns_incrementTime_nil h.queue.nil.1⟩
  | cons w rest =>
    by_cases hdue : now ≥ u64 (u64 w.timeAdded + st.dontAllocateWait)
    · obtain ⟨-, head, tail, hinv₁, hpop⟩ := h.pop
      obtain ⟨u, k, hu, hk, -⟩ :=
        h.occupied.units h.shape (NvInv.mem_waiting (List.mem_cons_self ..))
      let st₂ : NvState := { st with
        dontAllocateListHead := head
        dontAllocateListTail := tail
        released := st.released ++ [⟨w.location, w.size, now⟩] }
      have hinv₂ : NvInv st₂ [⟨baseSize * u, baseSize * k⟩] live rest := by
        rw [← hu, ← hk]
        exact hinv₁.congr rfl rfl rfl rfl rfl h.shape.hints rfl rfl
      obtain ⟨st₃, st', totalSize, size, hextend, hinsert, hinv', hfreed⟩ := hinv₂.returns_release
      rw [← hu, ← hk] at hextend
      rw [← hu] at hinsert
      exact ⟨st', rest, .releases hdue hfreed, hinv',
        h.headAt.returns_releases hdue hpop hextend hinsert⟩
    · exact ⟨st, w :: rest, .keeps _, h, h.headAt.returns_waits hdue⟩

/-! ## What is kept -/

namespace Ticked

variable {st' : NvState} {waiting' : List Waiting}

theorem freeZone_le (h : Ticked st now waiting st' waiting') : st'.freeZone ≤ st.freeZone := by
  cases h with
  | keeps => exact le_rfl
  | releases _ hfreed => exact hfreed.freeZone_le

theorem endAddress (h : Ticked st now waiting st' waiting') : st'.endAddress = st.endAddress := by
  cases h with
  | keeps => rfl
  | releases _ hfreed => exact hfreed.endAddress

theorem reports (h : Ticked st now waiting st' waiting') : st'.reports = st.reports := by
  cases h with
  | keeps => rfl
  | releases _ hfreed => exact hfreed.reports

theorem wait (h : Ticked st now waiting st' waiting') :
    st'.dontAllocateWait = st.dontAllocateWait := by
  cases h with
  | keeps => rfl
  | releases _ hfreed => exact hfreed.wait

end Ticked

end

end Zalloc
