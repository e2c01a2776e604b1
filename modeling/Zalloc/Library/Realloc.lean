import Zalloc.Buddy.Request
import Zalloc.Buddy.Visible
import Zalloc.Library.Init

/-!
# Reallocation

`realloc` takes a new block, copies as many bytes as both blocks were asked for, and gives the old
block back. The copy stays inside the blocks as long as no block is smaller than what it was asked
for. The conversion to `float` can make it so: a request for `2 ^ 24 + 1` bytes gets a block of
`2 ^ 24` bytes.

## Main definitions

* `LiveBlock l p`: the tree of the library has a used leaf for the pointer `p`.

## Main results

* `realloc_correct`: `realloc` keeps the bytes of the block, and changes no other block.
-/

set_option autoImplicit false

namespace Zalloc

/-! ## Live blocks -/

/-- The tree of the library has a used leaf for the pointer. -/
def LiveBlock (l : Lib) (p : Handed) : Prop :=
  ∃ b n, l.buddy = some b ∧ Visible b.tree n ∧ b.tree n = ⟨p.pages, p.used, .used⟩ ∧
    p.addr = l.memblock + pageSize * firstPage pageLevel n ∧ p.pages = pageCount pageLevel n

/-- A block for less than `2 ^ 24` bytes is as large as what was asked for. -/
theorem le_allocSize {s : ℕ} (h : s < 2 ^ 24) : s ≤ pageSize * allocSize s := by
  -- below `2 ^ 24` the conversion to `float` is exact
  have hceil : s ≤ pageSize * ceilPages s := by
    rw [ceilPages, roundToBits_of_lt h, pageSize]
    omega
  exact hceil.trans (Nat.mul_le_mul_left _ (ceilPages_le_allocSize s))

section Ready

variable {base s r ptr : ℕ} {b : Buddy} {c c' : LConfig} {blocks : List Block} {t : PTree ℕ}

/-- The used leaves are those of the live pointers. -/
theorem Ready.liveBlock_iff (h : Ready base b c blocks t) {p : Handed} :
    LiveBlock c.lib p ↔ p ∈ c.live := by
  -- the tree is well formed, so its used leaves are the blocks
  have hlive := h.inv.wellFormed.live_iff
  rw [h.live, List.mem_map]
  constructor
  · rintro ⟨b', n, hb', hv, htree, haddr, hpages⟩
    obtain rfl : b = b' := Option.some.inj (h.buddy.symm.trans hb')
    refine ⟨⟨pageSize * firstPage pageLevel n, p.pages, p.used⟩, (hlive _).2 ⟨n, hv, htree, rfl,
      hpages⟩, ?_⟩
    rw [h.memblock] at haddr
    rw [handed, ← haddr]
  · rintro ⟨x, hx, rfl⟩
    obtain ⟨n, hv, htree, hoffset, hpages⟩ := (hlive x).1 hx
    exact ⟨b, n, h.buddy, hv, htree, by rw [h.memblock, ← hoffset, handed], hpages⟩

/-- What `realloc` leaves behind when both ranges of the copy lie inside their blocks: the copy has
`n` bytes, none of them if there is no old block. -/
theorem Ready.realloc_of_large (h : Ready base b c blocks t) (o₁ o₂ o₃ : Outcome)
    (hroom : HasRoom pageLevel blocks (allocSize s))
    (hptr : ptr = 0 ∨ ∃ p ∈ c.live, p.addr = ptr)
    (hlarge : ptr ≠ 0 → ∀ p ∈ c.live, p.used ≤ pageSize * p.pages)
    (hcopy : ∀ p ∈ c.live, p.addr = ptr → min s p.used ≤ pageSize * allocSize s) :
    ∃ off l n, (realloc o₁ o₂ o₃ ptr s).Returns c.lib l (base + off) ∧
      off + pageSize * allocSize s ≤ 2 ^ 31 ∧
      (∀ x ∈ blocks, off + pageSize * allocSize s ≤ x.offset ∨ x.stop ≤ off) ∧
      IsReady base ⟨l, ⟨base + off, allocSize s, s⟩ :: giveBack ptr c.live⟩ ∧
      l.mem = c.lib.mem.copy (base + off) ptr n ∧ n ≤ pageSize * allocSize s ∧
      (ptr = 0 → n = 0) ∧ ∀ p ∈ c.live, p.addr = ptr → n = min s p.used := by
  have hbase := h.base_pos
  rcases hptr with rfl | ⟨p, hp, rfl⟩
  · -- without an old block `realloc` is a request
    obtain ⟨l, b', off, t', hret, hready, hmem⟩ := h.malloc o₁ hroom
    have hne : base + off ≠ 0 := by omega
    rw [handOut, if_neg hne] at hready
    refine ⟨off, l, 0, ?_, hready.stop_le (List.mem_cons_self ..),
      fun x hx => hready.disjoint_head hx, ?_, ?_, Nat.zero_le _, fun _ => rfl,
      fun p hp hnull => ?_⟩
    · refine returns_realloc_iff.2 ⟨l, hret, ?_⟩
      rw [if_neg (by simp)]
    · rw [h.giveBack_zero]
      exact ⟨b', _, t', hready⟩
    · rw [Memory.copy_zero, hmem]
    · exact absurd hnull (h.addr_ne_zero hp)
  · have hnull := h.addr_ne_zero hp
    obtain ⟨off, hstop, hdisj, -, hexists⟩ := h.returns_realloc o₁ o₂ o₃ hroom hp
    have hp' := hp
    rw [h.live] at hp'
    obtain ⟨x, hx, rfl⟩ := List.mem_map.1 hp'
    have hxstop := h.stop_le hx
    have hused := hlarge hnull _ hp
    have hmin := hcopy _ hp rfl
    simp only [Block.stop] at hxstop
    simp only [handed] at hused hmin
    -- both ranges of the copy are mapped
    have hsrc : c.lib.mem.Mapped (handed base x).addr (min s x.used) :=
      h.mapped.sub (Nat.le_add_right base _) (by simp only [handed]; omega)
    have hdst : c.lib.mem.Mapped (base + off) (min s x.used) :=
      h.mapped.sub (Nat.le_add_right base _) (by omega)
    obtain ⟨l, b', t', hret, hready, hmem⟩ := hexists hsrc hdst
    refine ⟨off, l, min s x.used, hret, hstop, hdisj, ⟨b', _, t', hready⟩, hmem, hmin,
      fun h0 => absurd h0 hnull, fun q hq heq => ?_⟩
    rw [h.eq_of_addr_eq hq hp heq, handed]

end Ready

/-! ## Runs -/

section Run

variable {c : LConfig}

/-- After a successful initialisation, in a run all of whose requests are served, let `ptr` be
`NULL` or live and let there be room for `s` bytes. If no live block is smaller than what it was
asked for, and the new one is not smaller than what is copied, then `realloc` returns a block of
the mapping for `s` bytes that starts with the bytes of the old block. The old block is given back,
and the other live blocks are as before. -/
theorem realloc_correct {o : Outcome} {st : Lib} {m : Mapping} (hinit : st.isInit = false)
    (hmmap : ReachesMmap o st) (hm : o.mapping = some m)
    (hreach : Runs.Reach LStep AllServed ⟨init_ o st, []⟩ c) {ptr s : ℕ}
    (hptr : ptr = 0 ∨ ∃ p, LiveBlock c.lib p ∧ p.addr = ptr)
    (hroom : HasRoom pageLevel (blocksOf c) (allocSize s))
    (hlarge : ptr ≠ 0 → ∀ p, LiveBlock c.lib p → p.used ≤ pageSize * p.pages)
    (hcopy : ∀ p, LiveBlock c.lib p → p.addr = ptr → min s p.used ≤ pageSize * allocSize s)
    (o₁ o₂ o₃ : Outcome) :
    (∀ p, LiveBlock c.lib p ↔ p ∈ c.live) ∧
    ∃ l r, (realloc o₁ o₂ o₃ ptr s).Returns c.lib l r ∧
      m.base ≤ r ∧ r + pageSize * allocSize s ≤ m.base + 2 ^ 31 ∧
      (∀ p, LiveBlock l p ↔
        p = ⟨r, allocSize s, s⟩ ∨ LiveBlock c.lib p ∧ p.addr ≠ ptr) ∧
      (∀ o' p, LiveBlock l p → (buddyGetSize o' p.addr).Returns l l p.used) ∧
      (∀ p, LiveBlock c.lib p → p.addr = ptr →
        ∀ i < min s p.used, l.mem (r + i) = c.lib.mem (p.addr + i)) ∧
      (∀ p, LiveBlock c.lib p → p.addr ≠ ptr →
        ∀ i < p.used, l.mem (p.addr + i) = c.lib.mem (p.addr + i)) := by
  obtain ⟨b₀, hstart⟩ := ready_init hinit hmmap hm
  obtain ⟨b, blocks, t, h⟩ := IsReady.reach ⟨b₀, [], .free, hstart⟩ hreach
  simp only [h.liveBlock_iff] at hptr hlarge hcopy ⊢
  rw [h.blocksOf_eq] at hroom
  obtain ⟨off, l, n, hret, hstop, hdisj, ⟨b', blocks', t', h'⟩, hmem, hn, hn0, hnp⟩ :=
    h.realloc_of_large o₁ o₂ o₃ hroom hptr hlarge hcopy
  have hlive : ∀ p, LiveBlock l p ↔
      p = ⟨m.base + off, allocSize s, s⟩ ∨ p ∈ c.live ∧ p.addr ≠ ptr := by
    intro p
    rw [h'.liveBlock_iff, List.mem_cons, giveBack, List.mem_filter, decide_eq_true_iff]
  refine ⟨fun _ => trivial, l, m.base + off, hret, Nat.le_add_right _ _, by omega, hlive,
    fun o' p hp => h'.getSize o' (h'.liveBlock_iff.1 hp), ?_, ?_⟩
  · -- the copied bytes
    intro p hp heq i hi
    rw [hmem, heq]
    exact Memory.copy_add (by rwa [hnp p hp heq])
  · -- the bytes of the other blocks lie outside the new one
    intro p hp hne i hi
    rw [hmem]
    apply Memory.copy_of_disjoint
    rw [h.live] at hp
    obtain ⟨x, hx, rfl⟩ := List.mem_map.1 hp
    by_cases h0 : ptr = 0
    · have hzero := hn0 h0
      omega
    · have hused := hlarge h0 _ (h.live ▸ hp)
      have hx' := hdisj x hx
      simp only [Block.stop] at hx'
      simp only [handed] at hused hi ⊢
      omega

end Run

/-! ## Two reallocations -/

/-- The first page is reallocated for as many bytes. -/
theorem realloc_correct_onePage :
    (∀ p, LiveBlock onePage.lib p ↔ p ∈ onePage.live) ∧
    ∃ l r, (realloc mappedFile mappedFile mappedFile 4096 4096).Returns onePage.lib l r ∧
      4096 ≤ r ∧ r + pageSize * allocSize 4096 ≤ 4096 + 2 ^ 31 ∧
      (∀ p, LiveBlock l p ↔
        p = ⟨r, allocSize 4096, 4096⟩ ∨ LiveBlock onePage.lib p ∧ p.addr ≠ 4096) ∧
      (∀ o' p, LiveBlock l p → (buddyGetSize o' p.addr).Returns l l p.used) ∧
      (∀ p, LiveBlock onePage.lib p → p.addr = 4096 →
        ∀ i < min 4096 p.used, l.mem (r + i) = onePage.lib.mem (p.addr + i)) ∧
      (∀ p, LiveBlock onePage.lib p → p.addr ≠ 4096 →
        ∀ i < p.used, l.mem (p.addr + i) = onePage.lib.mem (p.addr + i)) := by
  obtain ⟨b, blocks, t, h⟩ := isReady_onePage
  have hlive : ∀ p, LiveBlock onePage.lib p ↔ p = ⟨4096, 1, 4096⟩ := by
    intro p
    rw [h.liveBlock_iff]
    exact List.mem_singleton
  -- the second page is free
  have hroom : HasRoom pageLevel (blocksOf onePage) (allocSize 4096) := by
    rw [blocksOf, h.memblock, allocSize_page]
    exact ⟨1, by decide, by decide⟩
  exact realloc_correct rfl reachesMmap_mappedFile rfl reach_onePage_of_served
    (.inr ⟨_, (hlive _).2 rfl, rfl⟩) hroom
    (by
      intro _ p hp
      rw [(hlive p).1 hp]
      decide)
    (by
      intro p hp _
      rw [(hlive p).1 hp]
      exact (min_le_left _ _).trans (le_allocSize (by decide)))
    mappedFile mappedFile mappedFile

/-- A mapping with a byte `1` at offset `2 ^ 25`. -/
def marked : Mapping := { zeroed with contents := fun x => if x = 2 ^ 25 then 1 else 0 }

/-- The file is large enough, and its mapping is the marked one. -/
def markedFile : Outcome := { mappedFile with mapping := some marked }

/-- After a request for `2 ^ 24 + 1` bytes. -/
def afterShort : Lib := ((buddyXmalloc markedFile (2 ^ 24 + 1)).exec 64 bare).state

/-- After another one for `2 ^ 25` bytes. -/
def afterLong : Lib := ((buddyXmalloc markedFile (2 ^ 25)).exec 64 afterShort).state

/-- After the reallocation of the second block for `10` bytes. -/
def afterMove : Lib :=
  ((realloc markedFile markedFile markedFile (4096 + 2 ^ 25) 10).exec 64 afterLong).state

/-- Two blocks are handed out, the first of them one byte short, and the second one is reallocated,
for which there is room. The last byte of the first block changes. -/
theorem realloc_overwrites :
    (buddyXmalloc markedFile (2 ^ 24 + 1)).Returns bare afterShort 4096 ∧
    (buddyXmalloc markedFile (2 ^ 25)).Returns afterShort afterLong (4096 + 2 ^ 25) ∧
    HasRoom pageLevel [⟨0, 2 ^ 12, 2 ^ 24 + 1⟩, ⟨2 ^ 25, 2 ^ 13, 2 ^ 25⟩] (allocSize 10) ∧
    (realloc markedFile markedFile markedFile (4096 + 2 ^ 25) 10).Returns afterLong afterMove
      (4096 + 2 ^ 24) ∧
    (∃ l, (buddyGetSize markedFile 4096).Returns afterLong l (2 ^ 24 + 1)) ∧
    afterLong.mem (4096 + 2 ^ 24) = some 0 ∧ afterMove.mem (4096 + 2 ^ 24) = some 1 := by
  refine ⟨Prog.returns_of_value? (n := 64) (by decide +kernel),
    Prog.returns_of_value? (n := 64) (by decide +kernel), ?_,
    Prog.returns_of_value? (n := 64) (by decide +kernel), ?_, by decide +kernel,
    by decide +kernel⟩
  · rw [show allocSize 10 = 1 by decide]
    exact ⟨2 ^ 12, by decide, by decide⟩
  · exact ⟨_, Prog.returns_of_value? (n := 64) (by decide +kernel)⟩

end Zalloc
