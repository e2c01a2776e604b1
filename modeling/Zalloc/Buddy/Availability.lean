import Zalloc.Buddy.FirstFit
import Zalloc.Buddy.Contract
import Zalloc.Foundations.PartitionTree.Load

/-!
# When there is room

Live blocks can be scattered so that much of the arena is free and there is still no room for a
request. This depends on the history. What does not depend on it is how bad it can get: a block
spoils at most the naturally aligned range of the requested size that it lies in.

## Main definitions

* `taken p live`: the pages that the live blocks take from requests for `p` pages.
* `Light L c op`: the live blocks leave something to the request.
* `Uniform L j c op`: the request is for `2 ^ j` pages.

## Main results

* `light_alloc`: in every run of light requests, a light request is answered with a new block.
* `uniform_alloc_iff`: in every run of requests of one size, a request is answered exactly if fewer
  blocks than fit into the arena are live.
-/

set_option autoImplicit false

namespace Zalloc

/-- The pages that the live blocks take from requests for `p` pages: a block that is smaller spoils
as many. -/
def taken (p : ℕ) (live : List Block) : ℕ := (live.map fun b => max p b.pages).sum

/-- The live blocks leave something to a request that does not exceed the arena. In an arena of
eight pages, a release is one that does not climb past the root. -/
def Light (L : ℕ) (c : Config) : Op → Prop
  | .alloc s => allocSize s ≤ 2 ^ L ∧ taken (allocSize s) c.live < 2 ^ L
  | .free o => Allowed L c (.free o)

/-- Requests are for `2 ^ j` pages. In an arena of eight pages, a release is one that does not climb
past the root. -/
def Uniform (L j : ℕ) (c : Config) : Op → Prop
  | .alloc s => allocSize s = 2 ^ j
  | .free o => Allowed L c (.free o)

section

variable {L j s : ℕ} {c c' : Config} {t : PTree ℕ} {op : Op}

theorem blockOf_injective : Function.Injective blockOf := by
  rintro ⟨a, i, p⟩ ⟨b, k, q⟩ heq
  simp only [blockOf, Block.mk.injEq, pageSize] at heq
  obtain ⟨hstart, horder, rfl⟩ := heq
  obtain rfl := Nat.pow_right_injective le_rfl horder
  rw [Extent.mk.injEq]
  exact ⟨by omega, rfl, rfl⟩

/-- The live blocks are the blocks of the partition, in some order. -/
theorem Inv.perm (h : Inv L c t) : c.live.Perm ((t.blocks L 0).map blockOf) := by
  refine (List.perm_ext_iff_of_nodup h.nodup.of_map ?_).2 fun b => ?_
  · exact PTree.nodup_blocks.map blockOf_injective
  · rw [h.live b, List.mem_map]

/-- What the live blocks take is the load of the partition. -/
theorem Inv.taken_eq (h : Inv L c t) (j : ℕ) :
    taken (2 ^ j) c.live = PTree.load j (t.blocks L 0) := by
  have hmax : ∀ i, max (2 ^ j) (2 ^ i) = 2 ^ max j i := fun i =>
    (pow_right_mono₀ (by decide : 1 ≤ 2)).map_max.symm
  rw [taken, (h.perm.map _).sum_eq, List.map_map, PTree.load]
  exact congrArg List.sum (List.map_congr_left fun e _ => hmax e.order)

/-- Where the live blocks leave something, there is room. -/
theorem Inv.hasRoom_of_taken_lt (h : Inv L c t) (hj : j ≤ L) (hlt : taken (2 ^ j) c.live < 2 ^ L) :
    HasRoom L c.live (2 ^ j) := by
  obtain ⟨m, rfl⟩ := Nat.exists_eq_add_of_le hj
  rw [h.taken_eq] at hlt
  obtain ⟨pos, t', hins⟩ := PTree.insert_of_load_lt (p := 0) h.normal h.heightLE hlt
  have hfree := (PTree.insert_first_fit (a := 0) h.normal h.heightLE hins).1
  refine ⟨pos, ?_, h.not_occupied_iff.2 hfree⟩
  have hpos := PTree.insert_pos_lt hins
  calc (pos + 1) * 2 ^ j ≤ 2 ^ m * 2 ^ j := Nat.mul_le_mul_right _ hpos
    _ = 2 ^ (j + m) := by rw [← pow_add, Nat.add_comm]

/-- A light step is allowed: its request finds room. -/
theorem Inv.fits_of_light (h : Inv L c t) (hL : L ≤ 29) (hok : Light L c (.alloc s)) :
    HasRoom L c.live (allocSize s) := by
  obtain ⟨hle, hlt⟩ := hok
  have hpow : 2 ^ L < 2 ^ 32 := Nat.pow_lt_pow_right (by decide) (by omega)
  obtain ⟨j, hj⟩ := exists_allocSize_eq_two_pow (hle.trans_lt hpow)
  rw [hj] at hle hlt ⊢
  exact h.hasRoom_of_taken_lt ((Nat.pow_le_pow_iff_right (by decide)).1 hle) hlt

theorem Inv.allowed_of_light (h : Inv L c t) (hL : L ≤ 29) (hok : Light L c op) :
    Allowed L c op := by
  cases op with
  | alloc s => exact .inr (.inl (h.fits_of_light hL hok))
  | free o => exact hok

/-- In every run of light requests, in any order with releases, a light request is answered with a
new block, and the other blocks stay. -/
theorem light_alloc {lib : Bool} {memory : ℕ → Node} {self : Buddy} (hL : L ≤ 29)
    (hnew : buddyNew lib memory (L + 12) = some self)
    (hreach : Runs.Reach (Step levelByte) (Light L) ⟨self, []⟩ c)
    (hlight : allocSize s ≤ 2 ^ L ∧ taken (allocSize s) c.live < 2 ^ L) :
    ∃ m o, (buddyAlloc s).Returns ⟨c.self, []⟩ m o ∧ o ≠ u64Max ∧
      o + pageSize * allocSize s ≤ pageSize * 2 ^ L ∧
      (∀ b ∈ c.live, o + pageSize * allocSize s ≤ b.offset ∨ b.stop ≤ o) ∧
      ∀ b, UsedLeaf L m.self b ↔ b = ⟨o, allocSize s, s⟩ ∨ b ∈ c.live := by
  obtain ⟨t, h⟩ := hreach.invariant (I := fun c => ∃ t, Inv L c t) ⟨.free, buddyNew_inv hnew⟩ <| by
    rintro c op c' ⟨t, h⟩ hok hs
    exact h.step hL (h.allowed_of_light hL hok) hs
  obtain ⟨m, j, pos, t', -, hsize, -, hret, hinv⟩ := h.alloc hL (h.fits_of_light hL hlight)
  refine ⟨m, _, hret, pageSize_mul_ne _, hinv.stop_le (List.mem_cons_self ..), fun b hb => ?_,
    fun b => ?_⟩
  · -- the new block is none of the others
    have hnodup := hinv.nodup
    rw [List.map_cons, List.nodup_cons] at hnodup
    exact hinv.disjoint (List.mem_cons_self ..) (List.mem_cons_of_mem _ hb) fun heq =>
      hnodup.1 (List.mem_map.2 ⟨b, hb, heq.symm⟩)
  · exact hinv.usedLeaf_iff.trans List.mem_cons

/-! ## Requests of one size -/

/-- Blocks of one size take what their number says. -/
theorem taken_of_uniform {live : List Block} (h : ∀ b ∈ live, b.pages = 2 ^ j) (i : ℕ)
    (hi : i ≤ j) : taken (2 ^ i) live = live.length * 2 ^ j := by
  have hpow : 2 ^ i ≤ 2 ^ j := Nat.pow_le_pow_right Nat.two_pos hi
  have hmap : (live.map fun b => max (2 ^ i) b.pages) = live.map fun _ => 2 ^ j :=
    List.map_congr_left fun b hb => by rw [h b hb, max_eq_right hpow]
  rw [taken, hmap, List.map_const', List.sum_replicate_nat]

/-- Blocks of one size fill the arena, or they leave room for one more. -/
theorem Inv.uniform_cases (h : Inv L c t) (hj : j ≤ L) (hpages : ∀ b ∈ c.live, b.pages = 2 ^ j) :
    c.live.length < 2 ^ (L - j) ∧ HasRoom L c.live (2 ^ j) ∨
      c.live.length = 2 ^ (L - j) ∧ IsFull L c.live := by
  have hsplit : 2 ^ (L - j) * 2 ^ j = 2 ^ L := by rw [← pow_add, Nat.sub_add_cancel hj]
  have hvolume : c.live.length * 2 ^ j ≤ 2 ^ L := by
    rw [← taken_of_uniform hpages 0 (Nat.zero_le j), h.taken_eq]
    exact PTree.load_zero_le
  rw [← hsplit] at hvolume
  have hle := Nat.le_of_mul_le_mul_right hvolume (Nat.two_pow_pos j)
  rcases Nat.lt_or_eq_of_le hle with hlt | heq
  · refine .inl ⟨hlt, h.hasRoom_of_taken_lt hj ?_⟩
    rw [taken_of_uniform hpages j le_rfl, ← hsplit]
    exact Nat.mul_lt_mul_of_pos_right hlt (Nat.two_pow_pos j)
  · refine .inr ⟨heq, h.isFull_iff.2 ((PTree.full_iff_load (a := 0) h.heightLE).2 ?_)⟩
    rw [← h.taken_eq, taken_of_uniform hpages 0 (Nat.zero_le j), heq, hsplit]

/-- The invariant of a run of requests for `2 ^ j` pages. -/
theorem Inv.step_uniform (h : Inv L c t) (hL : L ≤ 29) (hj : j ≤ L)
    (hpages : ∀ b ∈ c.live, b.pages = 2 ^ j) (hok : Uniform L j c op)
    (hs : Step levelByte c op c') :
    (∃ t', Inv L c' t') ∧ ∀ b ∈ c'.live, b.pages = 2 ^ j := by
  have hallowed : Allowed L c op := by
    cases op with
    | free o => exact hok
    | alloc s =>
      have hsize : allocSize s = 2 ^ j := hok
      rw [Allowed, hsize]
      rcases h.uniform_cases hj hpages with ⟨-, hroom⟩ | ⟨-, hfull⟩
      · exact .inr (.inl hroom)
      · exact .inr (.inr hfull)
  refine ⟨h.step hL hallowed hs, ?_⟩
  cases hs with
  | alloc hret =>
    have hsize : allocSize _ = 2 ^ j := hok
    split_ifs
    · exact hpages
    · exact List.forall_mem_cons.2 ⟨hsize, hpages⟩
  | free hb hret => exact fun b' hb' => hpages b' (List.mem_of_mem_filter hb')

/-- In every run of requests for `2 ^ j` pages, in any order with releases, a request is answered
exactly if fewer blocks are live than fit into the arena. The answer is then a new block. -/
theorem uniform_alloc_iff {lib : Bool} {memory : ℕ → Node} {self : Buddy} (hL : L ≤ 29)
    (hj : j ≤ L) (hnew : buddyNew lib memory (L + 12) = some self)
    (hreach : Runs.Reach (Step levelByte) (Uniform L j) ⟨self, []⟩ c)
    (hsize : allocSize s = 2 ^ j) :
    ((∃ m o, (buddyAlloc s).Returns ⟨c.self, []⟩ m o) ↔ c.live.length < 2 ^ (L - j)) ∧
      ∀ m o, (buddyAlloc s).Returns ⟨c.self, []⟩ m o →
        o ≠ u64Max ∧ o + pageSize * 2 ^ j ≤ pageSize * 2 ^ L ∧
          ∀ b ∈ c.live, o + pageSize * 2 ^ j ≤ b.offset ∨ b.stop ≤ o := by
  obtain ⟨⟨t, h⟩, hpages⟩ := hreach.invariant
    (I := fun c => (∃ t, Inv L c t) ∧ ∀ b ∈ c.live, b.pages = 2 ^ j)
    ⟨⟨.free, buddyNew_inv hnew⟩, List.forall_mem_nil _⟩ fun c op c' hI hok hs => by
      obtain ⟨⟨t, h⟩, hpages⟩ := hI
      exact h.step_uniform hL hj hpages hok hs
  rcases h.uniform_cases hj hpages with ⟨hlt, hroom⟩ | ⟨heq, hfull⟩
  · -- there is room for one more
    rw [← hsize] at hroom
    obtain ⟨m, i, pos, t', -, -, -, hret, hinv⟩ := h.alloc hL hroom
    refine ⟨⟨fun _ => hlt, fun _ => ⟨m, _, hret⟩⟩, fun m' o' hret' => ?_⟩
    obtain ⟨rfl, rfl⟩ := Prog.returns_unique hret' hret
    have hstop := hinv.stop_le (List.mem_cons_self ..)
    rw [Block.stop, hsize] at hstop
    refine ⟨pageSize_mul_ne _, hstop, fun b hb => ?_⟩
    have hnodup := hinv.nodup
    rw [List.map_cons, List.nodup_cons] at hnodup
    have hdisj := hinv.disjoint (List.mem_cons_self ..) (List.mem_cons_of_mem _ hb) fun heq =>
      hnodup.1 (List.mem_map.2 ⟨b, hb, heq.symm⟩)
    rwa [Block.stop, hsize] at hdisj
  · -- the search of a full arena never ends
    have hle : allocSize s ≤ 2 ^ c.self.level := by
      rw [hsize, h.level]
      exact Nat.pow_le_pow_right Nat.two_pos hj
    have hnot : ∀ m o, ¬ (buddyAlloc s).Returns ⟨c.self, []⟩ m o := fun m o =>
      buddyAlloc_of_full (m := ⟨c.self, []⟩) h.rep (h.isFull_iff.1 hfull) hle
    refine ⟨⟨?_, fun hlt => by omega⟩, fun m o hret => absurd hret (hnot m o)⟩
    rintro ⟨m, o, hret⟩
    exact absurd hret (hnot m o)

end

/-! ## Two pages -/

/-- The second page of an arena of two is left to a request for one page. -/
theorem light_alloc_page : ∃ m o, (buddyAlloc 4096).Returns ⟨oneBlock.self, []⟩ m o ∧ o ≠ u64Max ∧
    o + pageSize * allocSize 4096 ≤ pageSize * 2 ^ 1 ∧
    (∀ b ∈ oneBlock.live, o + pageSize * allocSize 4096 ≤ b.offset ∨ b.stop ≤ o) ∧
    ∀ b, UsedLeaf 1 m.self b ↔ b = ⟨o, allocSize 4096, 4096⟩ ∨ b ∈ oneBlock.live := by
  have hlight : ∀ live : List Block, taken 1 live < 2 →
      allocSize 4096 ≤ 2 ^ 1 ∧ taken (allocSize 4096) live < 2 ^ 1 := by
    rw [allocSize_page]
    exact fun _ h => ⟨by decide, h⟩
  exact light_alloc (by decide) buddyNew_twoPages (reach_oneBlock (hlight [] (by decide)))
    (hlight oneBlock.live (by decide))

/-- One of two pages is taken, so that another request for a page is answered. -/
theorem uniform_alloc_iff_page :
    ((∃ m o, (buddyAlloc 4096).Returns ⟨oneBlock.self, []⟩ m o) ↔
      oneBlock.live.length < 2 ^ (1 - 0)) ∧
    ∀ m o, (buddyAlloc 4096).Returns ⟨oneBlock.self, []⟩ m o →
      o ≠ u64Max ∧ o + pageSize * 2 ^ 0 ≤ pageSize * 2 ^ 1 ∧
        ∀ b ∈ oneBlock.live, o + pageSize * 2 ^ 0 ≤ b.offset ∨ b.stop ≤ o := by
  have hok : Uniform 1 0 ⟨twoPages, []⟩ (.alloc 4096) := allocSize_page
  exact uniform_alloc_iff (by decide) (Nat.zero_le 1) buddyNew_twoPages (reach_oneBlock hok)
    allocSize_page

end Zalloc
