import Zalloc.Nvmalloc.Calls
import Zalloc.Nvmalloc.Writes

/-!
# The words that are left alone

A call writes headers of free pieces, the header of the block that it hands out or that it is given,
and a link in the don't-allocate list. So it leaves every word behind the header of another live
block alone.

## Main definitions

* `KeepsWord x st st'`: the word at `x` is the same, if it has been in the arena.
* `SparesWord x st st'`: moreover the ends of the don't-allocate list are the same.
* `NvBlock.Payload b x`: the word at `x` is behind the header of the block.

## Main results

* `NvInv.keepsWord_nvmalloc`, `NvInv.keepsWord_nvfree`: the words behind the header of another live
  block are left alone.
-/

set_option autoImplicit false

namespace Zalloc

/-! ## Relations -/

/-- The word at `x` is the same, if it has been in the arena, which has not become smaller. -/
structure KeepsWord (x : ℕ) (st st' : NvState) : Prop where
  /-- The arena has not become smaller. -/
  endAddress_le : st.endAddress ≤ st'.endAddress
  /-- The word is the same. -/
  word : x < st.endAddress → st'.mem x = st.mem x

/-- The word at `x` is the same, and so are the ends of the don't-allocate list. -/
structure SparesWord (x : ℕ) (st st' : NvState) : Prop extends KeepsWord x st st' where
  /-- The head of the list. -/
  head : st'.dontAllocateListHead = st.dontAllocateListHead
  /-- The tail of the list. -/
  tail : st'.dontAllocateListTail = st.dontAllocateListTail

section

variable {x a location size totalSize now : ℕ} {index : ℤ} {v : BitVec 64} {grows : Growth}
  {st st' st₁ st₂ : NvState}

theorem KeepsWord.refl (x : ℕ) (st : NvState) : KeepsWord x st st := ⟨le_rfl, fun _ => rfl⟩

theorem KeepsWord.trans (h₁ : KeepsWord x st st₁) (h₂ : KeepsWord x st₁ st₂) : KeepsWord x st st₂ :=
  ⟨h₁.endAddress_le.trans h₂.endAddress_le, fun hx =>
    (h₂.word (hx.trans_le h₁.endAddress_le)).trans (h₁.word hx)⟩

instance : IsPreorder NvState (KeepsWord x) where
  refl := KeepsWord.refl x
  trans _ _ _ := KeepsWord.trans

instance : IsPreorder NvState (SparesWord x) where
  refl st := ⟨.refl x st, rfl, rfl⟩
  trans _ _ _ h₁ h₂ := ⟨h₁.toKeepsWord.trans h₂.toKeepsWord, h₂.head.trans h₁.head,
    h₂.tail.trans h₁.tail⟩

/-- Nothing is written to the memory. -/
theorem spares_of_mem (hend : st'.endAddress = st.endAddress) (hmem : st'.mem = st.mem)
    (hhead : st'.dontAllocateListHead = st.dontAllocateListHead)
    (htail : st'.dontAllocateListTail = st.dontAllocateListTail) : SparesWord x st st' :=
  ⟨⟨hend.ge, fun _ => by rw [hmem]⟩, hhead, htail⟩

/-- Another word is written. -/
theorem spares_update (h : a ≠ x) (v : BitVec 64) (st : NvState) :
    SparesWord x st { st with mem := Function.update st.mem a v } :=
  ⟨⟨le_rfl, fun _ => Function.update_of_ne (Ne.symm h) v st.mem⟩, rfl, rfl⟩

/-! ## `getFreeLocation` -/

/-- The reservation in the free zone. -/
theorem spares_orFreeZone {found : Option ℕ} :
    (orFreeZone size grows found).Grows (SparesWord x) := by
  refine grows_orFreeZone fun st st' hw => ?_
  cases hw with
  | grow newPages => exact ⟨⟨Nat.le_add_right .., grow_mem_of_lt⟩, rfl, rfl⟩
  | zone freeZone => exact spares_of_mem rfl rfl rfl rfl

/-- The bits. -/
theorem spares_changeBits {f : ℕ → ℕ → ℕ} {n : ℕ} {bit : ℕ × ℕ} :
    (changeBits f n bit).Grows (SparesWord x) :=
  grows_changeBits fun _ _ _ => spares_of_mem rfl rfl rfl rfl

/-- A header. -/
theorem spares_setHeaderSize {s : ℤ} (h : a ≠ x) : (setHeaderSize a s).Grows (SparesWord x) :=
  grows_setWord fun st => spares_update h _ st

/-! ## `incrementTime` -/

theorem spares_reportIf {wrong : Prop} [Decidable wrong] {r : Report} :
    (reportIf wrong r).Grows (SparesWord x) := by
  unfold reportIf
  split_ifs
  · exact .modify fun _ => spares_of_mem rfl rfl rfl rfl
  · exact .pure _

theorem spares_appendFreeList : (appendFreeList index a).Grows (SparesWord x) :=
  .bind grows_getFreeList fun _ => .modify fun _ => spares_of_mem rfl rfl rfl rfl

theorem spares_extendFreeLocation : (extendFreeLocation location size).Grows (SparesWord x) :=
  .bind spares_changeBits fun _ => .bind grows_isFreeForward fun _ =>
    .bind grows_isFreeBackward fun _ => .pure _

/-- A block that is released gets a header. -/
theorem spares_insertFreeLocation (h : location ≠ x) :
    (insertFreeLocation location size totalSize).Grows (SparesWord x) := by
  refine .bind (.read _) fun freeZone => ?_
  split_ifs
  · exact .bind (.modify fun _ => spares_of_mem rfl rfl rfl rfl) fun _ => spares_setHeaderSize h
  · exact .bind (spares_setHeaderSize h) fun _ =>
      .bind spares_appendFreeList fun _ => spares_appendFreeList
  · exact .bind (spares_setHeaderSize h) fun _ => .bind spares_appendFreeList fun _ => .pure _

/-- The first block is taken out of the don't-allocate list. -/
theorem keepsWord_popDNAList : (popDNAList location).Grows (KeepsWord x) := by
  refine .bind (.read _) fun tail => ?_
  split_ifs
  · exact .modify fun _ => ⟨le_rfl, fun _ => rfl⟩
  · exact .bind (.bind grows_getWord fun _ => .pure _) fun next =>
      .modify fun _ => ⟨le_rfl, fun _ => rfl⟩

/-- `incrementTime` writes the header of the first block of the list at most. -/
theorem keepsWord_incrementTime (h : (incrementTime now).Returns st st' ())
    (hx : st.dontAllocateListHead ≠ x) : KeepsWord x st st' := by
  obtain ⟨s, location, hread, hrest⟩ := Prog.returns_bind_iff.1 h
  obtain ⟨rfl, rfl⟩ := Prog.returns_read_iff.1 hread
  have hle : ∀ s s' : NvState, SparesWord x s s' → KeepsWord x s s' := fun _ _ h => h.toKeepsWord
  refine Prog.Grows.returns ?_ hrest
  split_ifs
  · exact .pure _
  · refine .bind (.bind grows_getWord fun _ => .pure _) fun timeAdded => ?_
    refine .bind (.read _) fun wait => ?_
    split_ifs
    · refine .bind keepsWord_popDNAList fun _ => .bind grows_getHeaderSize fun hsize => ?_
      refine .bind (spares_reportIf.mono hle) fun _ => .bind ?_ fun _ => ?_
      · exact .modify fun _ => ⟨le_rfl, fun _ => rfl⟩
      · refine .bind (spares_extendFreeLocation.mono hle) fun found => ?_
        exact (spares_insertFreeLocation hx).mono hle
    · exact .pure _

/-! ## `putInDNAList` -/

/-- A block that is freed gets a header, and the last block of the list gets a link. -/
theorem keepsWord_putInDNAList {u : Unit} (h : (putInDNAList location size now).Returns st st' u)
    (hsize : location ≠ x) (htime : location + 24 ≠ x)
    (hlink : st.dontAllocateListTail + 8 ≠ x) : KeepsWord x st st' := by
  obtain ⟨s₁, hsize', h₁, h⟩ := Prog.returns_bind_iff.1 h
  obtain ⟨s₂, _, h₂, h⟩ := Prog.returns_bind_iff.1 h
  obtain ⟨s₃, _, h₃, h⟩ := Prog.returns_bind_iff.1 h
  obtain ⟨s₄, _, h₄, h⟩ := Prog.returns_bind_iff.1 h
  obtain ⟨s₅, tail, h₅, h⟩ := Prog.returns_bind_iff.1 h
  obtain ⟨rfl, rfl⟩ := Prog.returns_read_iff.1 h₅
  -- the tail of the list has not been changed yet
  have hspares : SparesWord x st s₅ := by
    refine trans_of (SparesWord x) (grows_getHeaderSize.returns h₁) ?_
    refine trans_of (SparesWord x) (spares_reportIf.returns h₂) ?_
    refine trans_of (SparesWord x) ((spares_setHeaderSize hsize).returns h₃) ?_
    exact (grows_setWord fun st => spares_update htime _ st).returns h₄
  refine hspares.toKeepsWord.trans (Prog.Grows.returns ?_ h)
  split_ifs
  · exact .modify fun _ => ⟨le_rfl, fun _ => rfl⟩
  · refine .bind ?_ fun _ => .modify fun _ => ⟨le_rfl, fun _ => rfl⟩
    refine grows_setWord fun st => (spares_update ?_ _ st).toKeepsWord
    rw [hspares.tail]
    exact hlink

end

/-! ## Live blocks -/

/-- The word at `x` is behind the header of the block. -/
def NvBlock.Payload (b : NvBlock) (x : ℕ) : Prop := b.location + 8 ≤ x ∧ x < b.location + b.size

section

variable {st st' : NvState} {transit live live' : List NvBlock} {waiting : List Waiting}
  {b b' : NvBlock} {size now added location x y : ℕ} {grows : Growth}

/-- A word of another block. -/
theorem NvBlock.Payload.ne (hx : b.Payload x) (h : b'.Apart b)
    (hy : b'.location ≤ y ∧ y < b'.location + b'.size) : y ≠ x := by
  obtain ⟨hlo, hhi⟩ := hx
  rcases h with hle | hle
  · omega
  · omega

/-- The word is in the arena. -/
theorem NvInv.payload_lt (h : NvInv st transit live waiting) (hb : b ∈ live) (hx : b.Payload x) :
    x < st.endAddress ∧ x < 2 ^ 32 := by
  obtain ⟨-, hend, hlt⟩ := h.bounds (NvInv.mem_live hb)
  obtain ⟨-, hhi⟩ := hx
  omega

/-- It is not the header of a free piece. -/
theorem NvInv.ne_free (h : NvInv st transit live waiting) (hb : b ∈ live) (hx : b.Payload x) {u : ℕ}
    (hu : st.bit u = false) : x ≠ baseSize * u := by
  rintro rfl
  have hcov : b.Covers u := ⟨(Nat.le_add_right ..).trans hx.1, hx.2⟩
  rw [h.occupied.bit_of_covers h.shape (NvInv.mem_live hb) hcov] at hu
  cases hu

/-- It is not in a block of the don't-allocate list. -/
theorem NvInv.ne_waiting (h : NvInv st transit live waiting) (hb : b ∈ live) (hx : b.Payload x)
    {w : Waiting} (hw : w ∈ waiting) {r : ℕ} (hr : r < baseSize) : w.location + r ≠ x := by
  have hapart := (List.pairwise_append.1 (List.pairwise_append.1 h.occupied.apart).2.1).2.2 b hb
    w.toNvBlock (List.mem_map_of_mem hw)
  have hsize := h.occupied.baseSize_le (NvInv.mem_waiting hw)
  exact hx.ne (Or.symm hapart) ⟨Nat.le_add_right .., by omega⟩

/-- It is not the first word of the don't-allocate list, nor the last link. -/
theorem NvInv.ne_ends (h : NvInv st transit live waiting) (hb : b ∈ live) (hx : b.Payload x) :
    st.dontAllocateListHead ≠ x ∧ st.dontAllocateListTail + 8 ≠ x := by
  obtain ⟨-, hlt⟩ := h.payload_lt hb hx
  rcases h.queue with ⟨-, hhead, htail⟩ | ⟨Q, w, hw, htail, hpath⟩
  · rw [hhead, htail]
    simp only [nilOffset]
    omega
  · have hlast : w ∈ waiting := by
      rw [hw]
      exact List.mem_append_right _ (List.mem_singleton_self w)
    refine ⟨?_, ?_⟩
    · cases Q with
      | nil =>
        have hhead : st.dontAllocateListHead = w.location := hpath
        rw [hhead]
        exact h.ne_waiting hb hx hlast (r := 0) (by decide)
      | cons q Q =>
        have hfirst : q ∈ waiting := by
          rw [hw]
          exact List.mem_append_left _ (List.mem_cons_self ..)
        rw [hpath.1]
        exact h.ne_waiting hb hx hfirst (r := 0) (by decide)
    · rw [htail]
      exact h.ne_waiting hb hx hlast (by decide)

/-! ## `nvmalloc` -/

/-- The search writes the header of a free piece at most. -/
theorem NvInv.spares_search (h : NvInv st [] live waiting) (hle : size + 8 ≤ 2 ^ 32 - baseSize)
    (hb : b ∈ live) (hx : b.Payload x) {found : Option ℕ}
    (hret : (nvSearch size).Returns st st' found) : SparesWord x st st' := by
  have hsize : u32 (size + 8) = size + 8 := u32_eq (by simp only [baseSize] at hle; omega)
  have hpos : 0 < size + 8 := by omega
  rw [nvSearch, hsize, search_eq hpos hle] at hret
  cases h.ends hpos with
  | miss _ hloop =>
    obtain ⟨rfl, -⟩ := Prog.returns_unique hret hloop
    exact spares_of_mem rfl rfl rfl rfl
  | @hit a n mem lists hhit hloop =>
    obtain ⟨rfl, -⟩ := Prog.returns_unique hret hloop
    have hgap := hhit.isGap (unitsOf_pos hpos)
    have hkn := hhit.le
    refine ⟨⟨le_rfl, fun _ => hhit.keeps x ?_⟩, rfl, rfl⟩
    by_cases hall : unitsOf (size + 8) = n
    · exact .inl hall
    · exact .inr (h.ne_free hb hx (hgap.clear _ (by omega) (by omega)))

/-- A call of `nvmalloc` leaves the words behind the headers of the live blocks alone. -/
theorem NvInv.keepsWord_nvmalloc (h : NvInv st [] live waiting)
    (hle : size + 8 ≤ 2 ^ 32 - baseSize)
    (hgrow : grows = .granted → st.freeZone + baseSize * blockUnits size > st.endAddress →
      st.endAddress + growth (baseSize * blockUnits size) < 2 ^ 32)
    (hret : (nvmalloc size grows now).Returns st st' (some (location + 8))) (hb : b ∈ live)
    (hx : b.Payload x) : st'.mem x = st.mem x := by
  -- the new block is apart from the live ones
  obtain ⟨_, _, hserved⟩ := h.served hle hgrow hret
  have hapart := (List.pairwise_append.1 hserved.inv₁.occupied.apart).2.1
  have hnew := (List.pairwise_cons.1 hapart).1 b (List.mem_append_left _ hb)
  have hsize := hserved.inv₁.occupied.baseSize_le (NvInv.mem_live (List.mem_cons_self ..))
  have hne : location ≠ x := hx.ne hnew ⟨le_rfl, Nat.lt_add_of_pos_right (by
    simp only [baseSize] at hsize ⊢
    omega)⟩
  obtain ⟨s₁, ⟨found, actualSize⟩, hlocate, hrest⟩ := Prog.returns_bind_iff.1 hret
  have hlocated : SparesWord x st s₁ := by
    obtain ⟨s₂, hit, hsearch, hlocate⟩ := Prog.returns_bind_iff.1 hlocate
    obtain ⟨s₃, freeLocation, hzone, hlocate⟩ := Prog.returns_bind_iff.1 hlocate
    refine trans_of (SparesWord x) (h.spares_search hle hb hx hsearch) ?_
    refine trans_of (SparesWord x) (spares_orFreeZone.returns hzone) (Prog.Grows.returns ?_ hlocate)
    cases freeLocation with
    | none => exact .pure _
    | some location => exact .bind spares_changeBits fun _ => .pure _
  cases found with
  | none => cases (Prog.returns_pure_iff.1 hrest).2
  | some location' =>
    obtain ⟨s₂, _, hheader, hrest⟩ := Prog.returns_bind_iff.1 hrest
    obtain ⟨s₃, _, htime, hrest⟩ := Prog.returns_bind_iff.1 hrest
    obtain ⟨rfl, hloc⟩ := Prog.returns_pure_iff.1 hrest
    obtain rfl := Nat.add_right_cancel (Option.some.inj hloc)
    have hspares : SparesWord x st s₂ :=
      trans_of (SparesWord x) hlocated ((spares_setHeaderSize hne).returns hheader)
    have hticked : KeepsWord x s₂ st' := keepsWord_incrementTime htime (by
      rw [hspares.head]
      exact (h.ne_ends hb hx).1)
    exact (hspares.toKeepsWord.trans hticked).word (h.payload_lt hb hx).1

/-! ## `nvfree` -/

/-- A call of `nvfree` for a live block appends it to the don't-allocate list, and then calls
`incrementTime`. -/
theorem NvInv.nvfree_parts (h : NvInv st [] live waiting) (hb : b ∈ live) {r : ℤ}
    (hret : (nvfree (b.location + 8) added now).Returns st st' r) :
    ∃ st₁, (putInDNAList b.location b.size added).Returns st st₁ () ∧
      (incrementTime now).Returns st₁ st' () := by
  have hheader := h.liveHeader b hb
  obtain ⟨hsize, hend, hlt⟩ := h.bounds (NvInv.mem_live hb)
  -- the header is that of the block
  have hlocation : u64Sub (b.location + 8) 8 = b.location := by
    simp only [u64Sub]
    omega
  have hhsize : (getHeaderSize b.location).Returns st st (crcCompute b.location b.size) := by
    rw [← hheader]
    exact returns_getHeaderSize (by omega)
  have hpos : 0 < crcCompute b.location b.size := crcCompute_pos (by omega) (by omega)
  have hcrc : crcGetSize (crcCompute b.location b.size) = b.size := crcGetSize_crcCompute (by omega)
  unfold Zalloc.nvfree at hret
  rw [hlocation] at hret
  obtain ⟨s₁, hsize', h₁, hret⟩ := Prog.returns_bind_iff.1 hret
  obtain ⟨rfl, rfl⟩ := Prog.returns_unique hhsize h₁
  rw [if_neg (by omega), hcrc, if_neg fun hno => hno rfl] at hret
  obtain ⟨s₂, _, h₂, hret⟩ := Prog.returns_bind_iff.1 hret
  obtain ⟨s₃, _, h₃, hret⟩ := Prog.returns_bind_iff.1 hret
  obtain ⟨rfl, -⟩ := Prog.returns_pure_iff.1 hret
  exact ⟨s₂, h₂, h₃⟩

/-- A call of `nvfree` for a live block leaves the words behind the headers of the others alone. -/
theorem NvInv.keepsWord_nvfree (h : NvInv st [] live waiting) (hperm : live.Perm (b' :: live'))
    {r : ℤ} (hret : (nvfree (b'.location + 8) added now).Returns st st' r) (hb : b ∈ live')
    (hx : b.Payload x) : st'.mem x = st.mem x := by
  have hb' : b' ∈ live := hperm.mem_iff.2 (List.mem_cons_self ..)
  have hsize := h.occupied.baseSize_le (NvInv.mem_live hb')
  have htaken := h.take_live hperm
  obtain ⟨mem, head, tail, hinv, hput⟩ :=
    htaken.returns_putInDNAList (h.liveHeader b' hb') added
  obtain ⟨st₁, h₁, h₂⟩ := h.nvfree_parts hb' hret
  obtain ⟨rfl, -⟩ := Prog.returns_unique hput h₁
  -- the block is apart from the other live ones
  have hnew := (List.pairwise_append.1 htaken.occupied.apart).2.2 b' (List.mem_singleton_self b') b
    (List.mem_append_left _ hb)
  have hword : ∀ r < baseSize, b'.location + r ≠ x := fun r hr =>
    hx.ne hnew ⟨Nat.le_add_right .., by omega⟩
  have hfreed : KeepsWord x st _ := keepsWord_putInDNAList h₁ (hword 0 (by decide))
    (hword 24 (by decide)) (htaken.ne_ends hb hx).2
  have hticked := keepsWord_incrementTime h₂ (hinv.ne_ends hb hx).1
  exact (hfreed.trans hticked).word (htaken.payload_lt hb hx).1

end

end Zalloc
