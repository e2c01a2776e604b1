import Zalloc.Buddy.Capacity
import Zalloc.Library.Realloc

/-!
# Arrays

`calloc` asks for `num * size` bytes, computed modulo `2 ^ 64`, and sets as many bytes of the block
to zero. The block can be too small, because the product has wrapped or because the conversion to
`float` has rounded it down, and a request for which there is no room is not answered with `NULL`.

## Main definitions

* `CallocCorrect o base c num size`: what a call of `calloc` should do.

## Main results

* `calloc_iff`: the calls that do it.
-/

set_option autoImplicit false

namespace Zalloc

/-- `calloc` returns `NULL` and changes neither the tree nor the memory, or it returns a block of
the mapping, apart from every live block, that holds `num * size` bytes and begins with as many
zeros, and changes no byte of a live block. -/
def CallocCorrect (o : Outcome) (base : ℕ) (c : LConfig) (num size : ℕ) : Prop :=
  ∃ l r, (calloc o num size).Returns c.lib l r ∧
    (r = 0 ∧ l.buddy = c.lib.buddy ∧ l.mem = c.lib.mem ∨
      ∃ p, LiveBlock l p ∧ p.addr = r ∧
        base ≤ r ∧ r + pageSize * p.pages ≤ base + 2 ^ 31 ∧
        (∀ q, LiveBlock c.lib q →
          r + pageSize * p.pages ≤ q.addr ∨ q.addr + pageSize * q.pages ≤ r) ∧
        num * size ≤ pageSize * p.pages ∧ (∀ i < num * size, l.mem (r + i) = some 0) ∧
        ∀ q, LiveBlock c.lib q →
          LiveBlock l q ∧ ∀ i < pageSize * q.pages, l.mem (q.addr + i) = c.lib.mem (q.addr + i))

section

variable {base s num size : ℕ} {b : Buddy} {c : LConfig} {blocks : List Block} {t : PTree ℕ}
  {o : Outcome}

/-- A request for which there is room is for less than `2 ^ 32` pages. -/
theorem allocSize_lt {live : List Block} (h : HasRoom pageLevel live (allocSize s)) :
    allocSize s < 2 ^ 32 := by
  obtain ⟨j, hj, hsize⟩ := h.exists_eq_two_pow (by decide)
  rw [hsize]
  exact Nat.pow_lt_pow_right (by decide) (by unfold pageLevel at hj; omega)

/-- A used leaf has at least one page. -/
theorem LiveBlock.pages_pos {l : Lib} {p : Handed} (h : LiveBlock l p) : 0 < p.pages := by
  obtain ⟨-, n, -, -, -, -, hpages⟩ := h
  rw [hpages]
  exact Nat.two_pow_pos _

/-- What is not served correctly for lack of room: the answer lies outside of the mapping, and it is
`NULL` only if the tree has changed. -/
theorem Ready.malloc_no_room (h : Ready base b c blocks t) (hbase : pageSize ≤ base)
    (hno : ¬ HasRoom pageLevel blocks (allocSize s)) {l : Lib} {r : ℕ}
    (hret : (buddyXmalloc o s).Returns c.lib l r) :
    (r < base ∨ base + 2 ^ 31 ≤ r) ∧ (r = 0 → l.buddy ≠ c.lib.buddy) := by
  obtain ⟨m, pos, hm, rfl, rfl⟩ := (returns_buddyXmalloc_iff (h.buddy_init o)).1 hret
  have hle := h.base_le
  rw [init_of_isInit h.isInit, h.memblock, h.buddy]
  by_cases hlarge : 2 ^ pageLevel < allocSize s
  · -- the request is refused, and the answer is the byte in front of the mapping
    have hrefuse : (buddyAlloc s).Returns ⟨b, []⟩ ⟨b, []⟩ u64Max :=
      buddyAlloc_of_lt (by rwa [h.inv.level])
    obtain ⟨rfl, rfl⟩ := Prog.returns_unique hm hrefuse
    have hwrap : u64 (base + u64Max) = base - 1 := by
      simp only [u64, u64Max, pageSize] at hbase ⊢
      omega
    rw [hwrap]
    rw [pageSize] at hbase
    exact ⟨.inl (by omega), fun hzero => by omega⟩
  · -- the offset lies behind the mapping
    obtain ⟨hlo, hhi, hne⟩ := h.inv.alloc_past (by decide) hno (Nat.not_lt.1 hlarge) hm
    simp only [pageSize, pageLevel] at hlo
    refine ⟨?_, fun _ heq => hne (Option.some.inj heq)⟩
    simp only [u64]
    omega

/-- What `calloc` does when there is room: it sets bytes of a new block, and it returns if the block
holds them. -/
theorem Ready.returns_calloc (h : Ready base b c blocks t) (o : Outcome)
    (hs : u64 (num * size) = s) (hroom : HasRoom pageLevel blocks (allocSize s)) :
    ∃ off, off + pageSize * allocSize s ≤ 2 ^ 31 ∧
      (∀ x ∈ blocks, off + pageSize * allocSize s ≤ x.offset ∨ x.stop ≤ off) ∧
      (∀ l r, (calloc o num size).Returns c.lib l r → r = base + off ∧
        l.mem = c.lib.mem.fill (base + off) s 0 ∧
        IsReady base ⟨l, ⟨base + off, allocSize s, s⟩ :: c.live⟩) ∧
      (s ≤ pageSize * allocSize s → ∃ l, (calloc o num size).Returns c.lib l (base + off)) := by
  obtain ⟨l₁, b₁, off, t₁, hret, hready, hmem⟩ := h.malloc o hroom
  have hbase := h.base_pos
  rw [handOut, if_neg (by omega)] at hready
  have hstop : off + pageSize * allocSize s ≤ 2 ^ 31 := hready.stop_le (List.mem_cons_self ..)
  rw [← hs] at hret
  refine ⟨off, hstop, fun x hx => hready.disjoint_head hx, fun l r hret' => ?_, fun hlarge => ?_⟩
  · obtain ⟨l', hxm, -, rfl⟩ := returns_calloc_iff.1 hret'
    obtain ⟨rfl, rfl⟩ := Prog.returns_unique hxm hret
    rw [hs, hmem]
    exact ⟨rfl, rfl, b₁, _, t₁, hready.setMem (hmem ▸ hready.mapped.fill _ _ 0)⟩
  · have hmapped : l₁.mem.Mapped (base + off) s :=
      hready.mapped.sub (Nat.le_add_right base off) (by omega)
    exact ⟨_, returns_calloc_iff.2 ⟨l₁, hret, by rwa [hs], rfl⟩⟩

/-- After a successful initialisation, in a run all of whose requests are served, `calloc` does what
it should exactly if the product does not wrap, there is room for it, and the conversion to `float`
does not round it down to a power of two. -/
theorem calloc_iff {o₀ : Outcome} {st : Lib} {m : Mapping} (hinit : st.isInit = false)
    (hmmap : ReachesMmap o₀ st) (hm : o₀.mapping = some m)
    (hreach : Runs.Reach LStep AllServed ⟨init_ o₀ st, []⟩ c) (o : Outcome) (num size : ℕ) :
    CallocCorrect o m.base c num size ↔
      num * size < 2 ^ 64 ∧ HasRoom pageLevel (blocksOf c) (allocSize (num * size)) ∧
        ¬ RoundsDown (num * size) := by
  obtain ⟨b₀, hstart⟩ := ready_init hinit hmmap hm
  obtain ⟨b, blocks, t, h⟩ := IsReady.reach ⟨b₀, [], .free, hstart⟩ hreach
  have hbase : pageSize ≤ m.base := Nat.le_of_dvd m.base_pos m.aligned
  rw [h.blocksOf_eq]
  constructor
  · rintro ⟨l, r, hret, hcorrect⟩
    obtain ⟨l₁, hxm, -, rfl⟩ := returns_calloc_iff.1 hret
    have hroom : HasRoom pageLevel blocks (allocSize (u64 (num * size))) := by
      by_contra hno
      obtain ⟨hout, hnull⟩ := h.malloc_no_room hbase hno hxm
      rcases hcorrect with ⟨hzero, hbuddy, -⟩ | ⟨p, hp, -, hlo, hhi, -⟩
      · exact hnull hzero hbuddy
      · have hpos := hp.pages_pos
        rw [pageSize] at hhi
        omega
    obtain ⟨off, hstop, -, hany, -⟩ := h.returns_calloc o rfl hroom
    obtain ⟨rfl, -, b', blocks', t', h'⟩ := hany _ r hret
    rcases hcorrect with ⟨hzero, -⟩ | ⟨p, hp, haddr, -, -, -, hlarge, -⟩
    · rw [pageSize] at hbase
      omega
    · -- the new block is the only one at its address
      have hlive := h'.liveBlock_iff.1 hp
      obtain rfl := h'.eq_of_addr_eq hlive (List.mem_cons_self ..) haddr
      have hlt : num * size < 2 ^ 64 := by
        have hsize : num * size ≤ pageSize * allocSize (u64 (num * size)) := hlarge
        omega
      have hu64 : u64 (num * size) = num * size := Nat.mod_eq_of_lt hlt
      rw [hu64] at hroom hlarge
      exact ⟨hlt, hroom, (le_mul_allocSize_iff (allocSize_lt hroom)).1 hlarge⟩
  · rintro ⟨hlt, hroom, hround⟩
    obtain ⟨off, hstop, hdisj, hany, hexists⟩ := h.returns_calloc o (Nat.mod_eq_of_lt hlt) hroom
    have hlarge := (le_mul_allocSize_iff (allocSize_lt hroom)).2 hround
    obtain ⟨l, hret⟩ := hexists hlarge
    obtain ⟨-, hmem, b', blocks', t', h'⟩ := hany _ _ hret
    -- the blocks are apart from the new one in the mapping, and so are the pointers
    have hapart : ∀ q, LiveBlock c.lib q →
        m.base + off + pageSize * allocSize (num * size) ≤ q.addr ∨
          q.addr + pageSize * q.pages ≤ m.base + off := by
      intro q hq
      have hq' := h.liveBlock_iff.1 hq
      rw [h.live] at hq'
      obtain ⟨x, hx, rfl⟩ := List.mem_map.1 hq'
      have hx' := hdisj x hx
      simp only [Block.stop] at hx'
      simp only [handed]
      omega
    refine ⟨l, _, hret, .inr ⟨_, h'.liveBlock_iff.2 (List.mem_cons_self ..), rfl,
      Nat.le_add_right _ _, by simp only; omega, hapart, hlarge, fun i hi => ?_,
      fun q hq => ⟨?_, fun i hi => ?_⟩⟩⟩
    · rw [hmem]
      exact Memory.fill_add hi
    · exact h'.liveBlock_iff.2 (List.mem_cons_of_mem _ (h.liveBlock_iff.1 hq))
    · rw [hmem]
      apply Memory.fill_of_disjoint
      have hq := hapart q hq
      omega

end

/-! ## A product that wraps -/

/-- After a request for one page, one for `1 * 4096` bytes. -/
theorem calloc_iff_onePage :
    CallocCorrect mappedFile 4096 onePage 1 4096 ↔
      1 * 4096 < 2 ^ 64 ∧ HasRoom pageLevel (blocksOf onePage) (allocSize (1 * 4096)) ∧
        ¬ RoundsDown (1 * 4096) :=
  calloc_iff rfl reachesMmap_mappedFile rfl reach_onePage_of_served mappedFile 1 4096

/-- An array of `2 ^ 32` elements of `2 ^ 32` bytes is given one page. -/
theorem not_callocCorrect_wrapped :
    (∃ l, (calloc mappedFile (2 ^ 32) (2 ^ 32)).Returns (init_ mappedFile bare) l 4096) ∧
      ¬ CallocCorrect mappedFile 4096 ⟨init_ mappedFile bare, []⟩ (2 ^ 32) (2 ^ 32) := by
  have hret : (calloc mappedFile (2 ^ 32) (2 ^ 32)).Returns (init_ mappedFile bare) _ 4096 :=
    Prog.returns_of_value? (n := 64) (by decide +kernel)
  refine ⟨⟨_, hret⟩, ?_⟩
  rintro ⟨l, r, hret', hcorrect⟩
  have hr : r = 4096 := (Prog.returns_unique hret' hret).2
  subst hr
  -- no block of the mapping is that large
  rcases hcorrect with ⟨hzero, -⟩ | ⟨p, -, -, -, hhi, -, hlarge, -⟩
  · omega
  · omega

end Zalloc
