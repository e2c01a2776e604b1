import Zalloc.Buddy.Missed
import Zalloc.Library.Calloc

/-!
# Aligned requests

`posix_memalign` does not look at the alignment that it is asked for. The address is that of the
mapping plus the offset of the block, which is a multiple of the size of the block; the address of
the mapping is a multiple of the page size only.

## Main definitions

* `MemalignCorrect o c align len`: what a call of `posix_memalign` should do.

## Main results

* `posixMemalign_iff`: the calls that do it.
-/

set_option autoImplicit false

namespace Zalloc

/-- Whenever `posix_memalign` returns `0`, it has stored a multiple of `align` that is the start of a
live block for `len` bytes, and `memalign` returns the same. -/
def MemalignCorrect (o : Outcome) (c : LConfig) (align len : ℕ) : Prop :=
  ∀ l res, (posixMemalign o align len).Returns c.lib l (0, res) →
    ∃ ptr, res = some ptr ∧ align ∣ ptr ∧ (∃ p, LiveBlock l p ∧ p.addr = ptr ∧ p.used = len) ∧
      (memalign o align len).Returns c.lib l ptr

section

variable {align base len r : ℕ} {b : Buddy} {c : LConfig} {blocks : List Block} {t : PTree ℕ}
  {o : Outcome} {st st' : Lib}

/-! ## Calls -/

/-- `posix_memalign` stores what `malloc` returns. -/
theorem returns_posixMemalign (h : (buddyXmalloc o len).Returns st st' r) (hr : r ≠ 0) :
    (posixMemalign o align len).Returns st st' (0, some r) := by
  refine Prog.Returns.bind h ?_
  rw [if_neg hr]
  exact Prog.returns_pure _ _

theorem of_returns_posixMemalign {res : Option ℕ}
    (h : (posixMemalign o align len).Returns st st' (0, res)) :
    ∃ r, r ≠ 0 ∧ res = some r ∧ (buddyXmalloc o len).Returns st st' r := by
  obtain ⟨st₁, r, hret, h⟩ := Prog.returns_bind_iff.1 h
  split_ifs at h with hr
  · cases (Prog.returns_pure_iff.1 h).2
  · obtain ⟨rfl, hpair⟩ := Prog.returns_pure_iff.1 h
    exact ⟨r, hr, congrArg Prod.snd hpair, hret⟩

/-- `memalign` returns what `posix_memalign` stores. -/
theorem returns_memalign (h : (posixMemalign o align len).Returns st st' (0, some r)) :
    (memalign o align len).Returns st st' r :=
  Prog.Returns.bind h (Prog.returns_pure _ _)

/-- The property is one of the answer of `buddy_xmalloc`. -/
theorem memalignCorrect_iff :
    MemalignCorrect o c align len ↔ ∀ l r, (buddyXmalloc o len).Returns c.lib l r → r ≠ 0 →
      align ∣ r ∧ ∃ p, LiveBlock l p ∧ p.addr = r ∧ p.used = len := by
  constructor
  · intro h l r hret hr
    obtain ⟨ptr, hptr, halign, hlive, -⟩ := h l _ (returns_posixMemalign hret hr)
    obtain rfl := Option.some.inj hptr
    exact ⟨halign, hlive⟩
  · intro h l res hret
    obtain ⟨r, hr, rfl, hxm⟩ := of_returns_posixMemalign hret
    obtain ⟨halign, hlive⟩ := h l r hxm hr
    exact ⟨r, rfl, halign, hlive, returns_memalign hret⟩

/-! ## Answers -/

/-- A live block starts in the mapping. -/
theorem LiveBlock.bounds {l : Lib} {p : Handed} (hp : LiveBlock l p) (hb : l.buddy = some b)
    (hrep : Represents b.tree pageLevel 0 t) (hn : t.Normal) :
    l.memblock ≤ p.addr ∧ p.addr < l.memblock + 2 ^ 31 := by
  obtain ⟨b', n, hb', hv, -, haddr, -⟩ := hp
  obtain rfl := Option.some.inj (hb.symm.trans hb')
  obtain ⟨k, a, t', hpart⟩ := VisibleFrom.part hv hrep (NodeAt.root pageLevel) hn
  have hle := hpart.at_node.le
  have hpos := Nat.two_pow_pos k
  rw [haddr, hpart.at_node.firstPage_eq]
  simp only [pageSize, pageLevel] at hle ⊢
  omega

/-- The answer to a request that does not exceed the arena, if anything is free. -/
theorem Ready.xmalloc_fit (h : Ready base b c blocks t) (o : Outcome)
    (hle : allocSize len ≤ 2 ^ pageLevel) (hfull : ¬ IsFull pageLevel blocks) :
    ∃ l k i, LargestFit pageLevel blocks (allocSize len) k i ∧
      (buddyXmalloc o len).Returns c.lib l (u64 (base + fitOffset pageLevel (allocSize len) k i)) ∧
      (2 ^ k < allocSize len →
        2 ^ 31 ≤ fitOffset pageLevel (allocSize len) k i ∧
          fitOffset pageLevel (allocSize len) k i < 2 ^ 64) ∧
      ∀ p, LiveBlock l p → base ≤ p.addr ∧ p.addr < base + 2 ^ 31 := by
  obtain ⟨m, k, i, t', hfit, hret, hrep, hn⟩ := h.inv.alloc_fit (by decide) hle hfull
  have hinit := init_of_isInit h.isInit o
  refine ⟨{ c.lib with buddy := some m.self }, k, i, hfit, ?_, fun hlt => ?_, fun p hp => ?_⟩
  · refine (returns_buddyXmalloc_iff (h.buddy_init o)).2 ⟨m, _, hret, by rw [hinit], ?_⟩
    rw [hinit, h.memblock]
  · -- there is no room for the request itself
    have hno : ¬ HasRoom pageLevel blocks (allocSize len) := by
      intro hroom
      obtain ⟨j, hj, hsize⟩ := hroom.exists_eq_two_pow (by decide)
      rw [hsize] at hlt hroom hfit
      exact hfit.largest j ((Nat.pow_lt_pow_iff_right (by decide)).1 hlt) le_rfl hroom
    obtain ⟨hlo, hhi, -⟩ := h.inv.alloc_past (by decide) hno hle hret
    exact ⟨hlo, hhi⟩
  · have hbounds := hp.bounds rfl hrep hn
    rwa [h.memblock] at hbounds

/-- Where there is room, the new block is live. -/
theorem Ready.xmalloc_room (h : Ready base b c blocks t) {l : Lib}
    (hroom : HasRoom pageLevel blocks (allocSize len))
    (hret : (buddyXmalloc o len).Returns c.lib l r) :
    r ≠ 0 ∧ ∃ p, LiveBlock l p ∧ p.addr = r ∧ p.used = len := by
  have hserved : Served c len := by
    rw [Served, h.blocksOf_eq]
    exact .inl hroom
  obtain ⟨hne, -, b', blocks', t', h'⟩ := h.isReady_malloc hserved hret
  exact ⟨hne, _, h'.liveBlock_iff.2 (List.mem_cons_self ..), rfl, rfl⟩

/-- When there is no room, the answer is no block, unless it is `NULL`. -/
theorem Ready.memalignCorrect_missed {k i : ℕ} (h : Ready base b c blocks t) {l : Lib}
    (hret : (buddyXmalloc o len).Returns c.lib l
      (u64 (base + fitOffset pageLevel (allocSize len) k i)))
    (hlo : 2 ^ 31 ≤ fitOffset pageLevel (allocSize len) k i)
    (hhi : fitOffset pageLevel (allocSize len) k i < 2 ^ 64)
    (hlive : ∀ p, LiveBlock l p → base ≤ p.addr ∧ p.addr < base + 2 ^ 31) :
    MemalignCorrect o c align len ↔
      base + fitOffset pageLevel (allocSize len) k i = 2 ^ 64 := by
  have hbase := h.base_pos
  have hle := h.base_le
  rw [memalignCorrect_iff]
  constructor
  · intro hcorrect
    by_contra hne
    obtain ⟨-, p, hp, haddr, -⟩ := hcorrect l _ hret (by simp only [u64]; omega)
    have hbounds := hlive p hp
    rw [haddr] at hbounds
    simp only [u64] at hbounds
    omega
  · intro hwrap l' r hret' hr
    have hzero : u64 (2 ^ 64) = 0 := by decide
    rw [(Prog.returns_unique hret' hret).2, hwrap, hzero] at hr
    exact absurd rfl hr

/-- Where there is room, it is the alignment of the first free range that matters. -/
theorem Ready.memalignCorrect_room {k i : ℕ} (h : Ready base b c blocks t) {l : Lib}
    (hfit : LargestFit pageLevel blocks (allocSize len) k i) (heq : 2 ^ k = allocSize len)
    (hret : (buddyXmalloc o len).Returns c.lib l
      (u64 (base + fitOffset pageLevel (allocSize len) k i))) :
    MemalignCorrect o c align len ↔ align ∣ base + pageSize * (i * allocSize len) := by
  have hend := hfit.free.1
  have hroom : HasRoom pageLevel blocks (allocSize len) := by
    rw [← heq]
    exact ⟨i, hfit.free⟩
  have hlt : pageSize * (i * allocSize len) < 2 ^ 31 := by
    have hpos := Nat.two_pow_pos k
    rw [Nat.succ_mul, heq] at hend
    rw [heq] at hpos
    simp only [pageSize, pageLevel] at hend ⊢
    omega
  have haddr : u64 (base + fitOffset pageLevel (allocSize len) k i) =
      base + pageSize * (i * allocSize len) := by
    rw [← heq, fitOffset_self hfit.le_level, heq, h.u64_addr hlt]
  rw [haddr] at hret
  rw [memalignCorrect_iff]
  constructor
  · intro hcorrect
    exact (hcorrect l _ hret (h.xmalloc_room hroom hret).1).1
  · intro halign l' r hret' hr
    obtain ⟨-, rfl⟩ := Prog.returns_unique hret' hret
    exact ⟨halign, (h.xmalloc_room hroom hret').2⟩

/-- A request that exceeds the arena is answered with the byte in front of the mapping. -/
theorem Ready.not_memalignCorrect_refused (h : Ready base b c blocks t) (hbase : pageSize ≤ base)
    (hlarge : 2 ^ pageLevel < allocSize len) : ¬ MemalignCorrect o c align len := by
  intro hcorrect
  have hinit := init_of_isInit h.isInit o
  have hle := h.base_le
  have hrefuse : (buddyAlloc len).Returns ⟨b, []⟩ ⟨b, []⟩ u64Max :=
    buddyAlloc_of_lt (by rwa [h.inv.level])
  have hret : (buddyXmalloc o len).Returns c.lib { c.lib with buddy := some b } (base - 1) := by
    refine (returns_buddyXmalloc_iff (h.buddy_init o)).2 ⟨_, _, hrefuse, by rw [hinit], ?_⟩
    rw [hinit, h.memblock]
    simp only [u64, u64Max, pageSize] at hbase ⊢
    omega
  rw [pageSize] at hbase
  obtain ⟨-, p, hp, haddr, -⟩ := memalignCorrect_iff.1 hcorrect _ _ hret (by omega)
  have hbounds := (hp.bounds rfl h.inv.rep h.inv.normal).1
  rw [haddr] at hbounds
  have hmem : c.lib.memblock = base := h.memblock
  simp only [hmem] at hbounds
  omega

/-- After a successful initialisation, in a run all of whose requests are served, `posix_memalign`
and `memalign` do what they should exactly if

* nothing is free, and the call never returns, or
* there is room, and the alignment divides the address of the first free range, or
* there is no room, and the address that is computed instead wraps around to `NULL`. -/
theorem posixMemalign_iff {o₀ : Outcome} {m : Mapping} (hinit : st.isInit = false)
    (hmmap : ReachesMmap o₀ st) (hm : o₀.mapping = some m)
    (hreach : Runs.Reach LStep AllServed ⟨init_ o₀ st, []⟩ c) (o : Outcome) (align len : ℕ) :
    MemalignCorrect o c align len ↔ allocSize len ≤ 2 ^ pageLevel ∧
      (IsFull pageLevel (blocksOf c) ∨
        ∃ k i, LargestFit pageLevel (blocksOf c) (allocSize len) k i ∧
          (2 ^ k = allocSize len ∧ align ∣ m.base + pageSize * (i * allocSize len) ∨
            2 ^ k < allocSize len ∧
              m.base + fitOffset pageLevel (allocSize len) k i = 2 ^ 64)) := by
  obtain ⟨b₀, hstart⟩ := ready_init hinit hmmap hm
  obtain ⟨b, blocks, t, h⟩ := IsReady.reach ⟨b₀, [], .free, hstart⟩ hreach
  have hbase : pageSize ≤ m.base := Nat.le_of_dvd m.base_pos m.aligned
  rw [h.blocksOf_eq]
  by_cases hle : allocSize len ≤ 2 ^ pageLevel
  · by_cases hfull : IsFull pageLevel blocks
    · -- the call never returns
      refine iff_of_true (memalignCorrect_iff.2 fun l r hret _ => ?_) ⟨hle, .inl hfull⟩
      obtain ⟨m', pos, hm', -, -⟩ := (returns_buddyXmalloc_iff (h.buddy_init o)).1 hret
      refine absurd hm' (buddyAlloc_of_full (m := ⟨b, []⟩) h.inv.rep (h.inv.isFull_iff.1 hfull) ?_)
      rwa [h.inv.level]
    · obtain ⟨l, k, i, hfit, hret, hpast, hlive⟩ := h.xmalloc_fit o hle hfull
      rcases hfit.le.eq_or_lt with heq | hlt
      · rw [h.memalignCorrect_room hfit heq hret]
        refine ⟨fun halign => ⟨hle, .inr ⟨k, i, hfit, .inl ⟨heq, halign⟩⟩⟩, ?_⟩
        rintro ⟨-, hno | ⟨k', i', hfit', ⟨-, halign⟩ | ⟨hlt, -⟩⟩⟩
        · exact absurd hno hfull
        · obtain ⟨-, rfl⟩ := hfit.unique hfit'
          exact halign
        · obtain ⟨rfl, -⟩ := hfit.unique hfit'
          exact absurd heq hlt.ne
      · obtain ⟨hlo, hhi⟩ := hpast hlt
        rw [h.memalignCorrect_missed hret hlo hhi hlive]
        refine ⟨fun hwrap => ⟨hle, .inr ⟨k, i, hfit, .inr ⟨hlt, hwrap⟩⟩⟩, ?_⟩
        rintro ⟨-, hno | ⟨k', i', hfit', ⟨heq, -⟩ | ⟨-, hwrap⟩⟩⟩
        · exact absurd hno hfull
        · obtain ⟨rfl, -⟩ := hfit.unique hfit'
          exact absurd heq hlt.ne
        · obtain ⟨rfl, rfl⟩ := hfit.unique hfit'
          exact hwrap
  · exact iff_of_false (h.not_memalignCorrect_refused hbase (by omega)) fun hno => hle hno.1

end

/-! ## Two pages at an odd page -/

/-- After a request for one page, one for an aligned page. -/
theorem posixMemalign_iff_onePage :
    MemalignCorrect mappedFile onePage 4096 4096 ↔ allocSize 4096 ≤ 2 ^ pageLevel ∧
      (IsFull pageLevel (blocksOf onePage) ∨
        ∃ k i, LargestFit pageLevel (blocksOf onePage) (allocSize 4096) k i ∧
          (2 ^ k = allocSize 4096 ∧ 4096 ∣ 4096 + pageSize * (i * allocSize 4096) ∨
            2 ^ k < allocSize 4096 ∧
              4096 + fitOffset pageLevel (allocSize 4096) k i = 2 ^ 64)) :=
  posixMemalign_iff rfl reachesMmap_mappedFile rfl reach_onePage_of_served mappedFile 4096 4096

/-- The first request of all is for two pages with the alignment of two pages, as for a slab, and
the mapping starts at an odd page. -/
theorem not_memalignCorrect_twoPages :
    (∃ l, (posixMemalign mappedFile 8192 8192).Returns (init_ mappedFile bare) l (0, some 4096)) ∧
      ¬ MemalignCorrect mappedFile ⟨init_ mappedFile bare, []⟩ 8192 8192 := by
  have hret : (posixMemalign mappedFile 8192 8192).Returns (init_ mappedFile bare) _
      (0, some 4096) := Prog.returns_of_value? (n := 64) (by decide +kernel)
  refine ⟨⟨_, hret⟩, fun hcorrect => ?_⟩
  obtain ⟨ptr, hptr, halign, -⟩ := hcorrect _ _ hret
  obtain rfl := Option.some.inj hptr
  exact absurd halign (by decide)

end Zalloc
