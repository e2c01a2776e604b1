import Zalloc.Foundations.PartitionTree.Basic

/-!
# First-fit insertion into a binary partition

`PTree.insert p m t` puts a block with tag `p` at depth `m` of `t`, as far left as possible, and
cuts free leaves on the way down. It returns the position of the block among the `2 ^ m` ranges
at that depth, with the new partition.

Throughout, `j` is the order of the new block, so a partition with room for depth `m` has height
`j + m`.

## Main results

* `PTree.mem_blocks_insert`: the new partition has the old blocks and the new one.
* `PTree.insert_first_fit`: the position is the leftmost range that meets no block.
* `PTree.insert_eq_none`: insertion fails only if every range at that depth meets a block.
* `PTree.exists_insert`: a partition that is not full takes a block at some depth.
-/

set_option autoImplicit false

namespace PTree

variable {α : Type}

/-- Put a block with tag `p` at depth `m`, as far left as possible. -/
def insert (p : α) : ℕ → PTree α → Option (ℕ × PTree α)
  | 0, free => some (0, block p)
  | 0, _ => none
  | m + 1, free => (insert p m free).map fun x => (x.1, node x.2 free)
  | _ + 1, block _ => none
  | m + 1, node l r =>
    match insert p m l with
    | some x => some (x.1, node x.2 r)
    | none => (insert p m r).map fun x => (2 ^ m + x.1, node l x.2)

@[simp] theorem insert_zero_free (p : α) : insert p 0 free = some (0, block p) := rfl
@[simp] theorem insert_block (p q : α) (m : ℕ) : insert p m (block q) = none := by cases m <;> rfl
@[simp] theorem insert_zero_node (p : α) (l r : PTree α) : insert p 0 (node l r) = none := rfl
@[simp] theorem insert_succ_free (p : α) (m : ℕ) :
    insert p (m + 1) free = (insert p m free).map fun x => (x.1, node x.2 free) := rfl

/-- A successful insertion below a cut goes to the left half if that has room, else to the
right half. -/
theorem insert_node_cases {p : α} {m i : ℕ} {l r t' : PTree α}
    (h : insert p (m + 1) (node l r) = some (i, t')) :
    (∃ l', insert p m l = some (i, l') ∧ t' = node l' r) ∨
      (insert p m l = none ∧ ∃ i' r', insert p m r = some (i', r') ∧ i = 2 ^ m + i' ∧
        t' = node l r') := by
  rw [insert] at h
  cases hl : insert p m l with
  | some x =>
    simp only [hl, Option.some.injEq, Prod.mk.injEq] at h
    obtain ⟨rfl, rfl⟩ := h
    exact .inl ⟨x.2, rfl, rfl⟩
  | none =>
    simp only [hl, Option.map_eq_some_iff, Prod.mk.injEq, Prod.exists] at h
    obtain ⟨i', r', hr, rfl, rfl⟩ := h
    exact .inr ⟨rfl, i', r', hr, rfl, rfl⟩

theorem insert_node_eq_none_iff {p : α} {m : ℕ} {l r : PTree α} :
    insert p (m + 1) (node l r) = none ↔ insert p m l = none ∧ insert p m r = none := by
  rw [insert]
  cases insert p m l <;> simp

/-- A free leaf takes a block at any depth. -/
theorem exists_insert_free (p : α) (m : ℕ) : ∃ t', insert p m free = some (0, t') := by
  induction m with
  | zero => exact ⟨block p, rfl⟩
  | succ m ih =>
    obtain ⟨t', ht⟩ := ih
    exact ⟨node t' free, by simp [ht]⟩

/-- A full partition takes no block. -/
theorem insert_eq_none_of_full {p : α} {m : ℕ} {t : PTree α} (h : t.full = true) :
    insert p m t = none := by
  induction t generalizing m with
  | free => simp at h
  | block q => simp
  | node l r ihl ihr =>
    rw [full_node, Bool.and_eq_true] at h
    cases m with
    | zero => simp
    | succ m => exact insert_node_eq_none_iff.2 ⟨ihl h.1, ihr h.2⟩

/-! ## The new partition -/

theorem insert_ne_free {p : α} {m i : ℕ} {t t' : PTree α} (h : insert p m t = some (i, t')) :
    t' ≠ free := by
  rintro rfl
  cases m with
  | zero => cases t <;> simp [insert] at h
  | succ m =>
    cases t with
    | free => simp at h
    | block q => simp at h
    | node l r =>
      obtain ⟨l', -, h⟩ | ⟨-, i', r', -, -, h⟩ := insert_node_cases h <;> cases h

/-- An insertion changes the partition. -/
theorem insert_ne {p : α} {m i : ℕ} {t t' : PTree α} (h : insert p m t = some (i, t')) :
    t' ≠ t := by
  induction m generalizing t i t' with
  | zero =>
    cases t with
    | free =>
      obtain ⟨-, rfl⟩ : 0 = i ∧ block p = t' := by simpa using h
      simp
    | block q => simp at h
    | node l r => simp at h
  | succ m ih =>
    cases t with
    | free => exact insert_ne_free h
    | block q => simp at h
    | node l r =>
      rcases insert_node_cases h with ⟨l', hl, rfl⟩ | ⟨-, i', r', hr, -, rfl⟩
      · simpa using ih hl
      · simpa using ih hr

theorem Normal.insert {p : α} {m i : ℕ} {t t' : PTree α} (hn : t.Normal)
    (h : insert p m t = some (i, t')) : t'.Normal := by
  induction m generalizing t i t' with
  | zero =>
    cases t with
    | free =>
      obtain ⟨rfl, rfl⟩ : 0 = i ∧ block p = t' := by simpa using h
      simp
    | block q => simp at h
    | node l r => simp at h
  | succ m ih =>
    cases t with
    | free =>
      simp only [insert_succ_free, Option.map_eq_some_iff, Prod.mk.injEq, Prod.exists] at h
      obtain ⟨i', l', hl, -, rfl⟩ := h
      -- the half with the new block is not free
      exact ⟨fun hf => insert_ne_free hl hf.1, ih normal_free hl, normal_free⟩
    | block q => simp at h
    | node l r =>
      obtain ⟨-, hnl, hnr⟩ := hn
      obtain ⟨l', hl, rfl⟩ | ⟨-, i', r', hr, -, rfl⟩ := insert_node_cases h
      · exact ⟨fun hf => insert_ne_free hl hf.1, ih hnl hl, hnr⟩
      · exact ⟨fun hf => insert_ne_free hr hf.2, hnl, ih hnr hr⟩

theorem insert_pos_lt {p : α} {m i : ℕ} {t t' : PTree α} (h : insert p m t = some (i, t')) :
    i < 2 ^ m := by
  induction m generalizing t i t' with
  | zero =>
    cases t with
    | free =>
      obtain ⟨rfl, -⟩ : 0 = i ∧ block p = t' := by simpa using h
      simp
    | block q => simp at h
    | node l r => simp at h
  | succ m ih =>
    have hpow : 2 ^ (m + 1) = 2 ^ m + 2 ^ m := by ring
    cases t with
    | free =>
      simp only [insert_succ_free, Option.map_eq_some_iff, Prod.mk.injEq, Prod.exists] at h
      obtain ⟨i', l', hl, rfl, -⟩ := h
      have := ih hl
      omega
    | block q => simp at h
    | node l r =>
      obtain ⟨l', hl, -⟩ | ⟨-, i', r', hr, rfl, -⟩ := insert_node_cases h
      · have := ih hl
        omega
      · have := ih hr
        omega

/-- The first unit of the range at position `2 ^ m + i` of a range is that of the range at
position `i` of its right half. -/
theorem start_right (a i j m : ℕ) :
    a + (2 ^ m + i) * 2 ^ j = a + 2 ^ (j + m) + i * 2 ^ j := by
  rw [pow_add]
  ring

/-- Insertion adds exactly the new block. -/
theorem mem_blocks_insert {p : α} {m i j a : ℕ} {t t' : PTree α} (hk : t.HeightLE (j + m))
    (h : insert p m t = some (i, t')) (e : Extent α) :
    e ∈ blocks (j + m) a t' ↔ e = ⟨a + i * 2 ^ j, j, p⟩ ∨ e ∈ blocks (j + m) a t := by
  induction m generalizing t i t' a with
  | zero =>
    cases t with
    | free =>
      obtain ⟨rfl, rfl⟩ : 0 = i ∧ block p = t' := by simpa using h
      simp
    | block q => simp at h
    | node l r => simp at h
  | succ m ih =>
    cases t with
    | free =>
      simp only [insert_succ_free, Option.map_eq_some_iff, Prod.mk.injEq, Prod.exists] at h
      obtain ⟨i', l', hl, rfl, rfl⟩ := h
      simpa [← Nat.add_assoc] using ih (a := a) (heightLE_free _) hl
    | block q => simp at h
    | node l r =>
      -- the blocks of the other half stay
      rw [← Nat.add_assoc, blocks_node, List.mem_append]
      obtain ⟨l', hl, rfl⟩ | ⟨-, i', r', hr, rfl, rfl⟩ := insert_node_cases h
      · rw [blocks_node, List.mem_append, ih hk.1 hl, or_assoc]
      · rw [blocks_node, List.mem_append, ih hk.2 hr, start_right, or_left_comm]

/-! ## First fit -/

/-- Some block meets the range at position `i` among the ranges of order `j` that start at `a`. -/
def Occupied (j k a i : ℕ) (t : PTree α) : Prop :=
  ∃ e ∈ blocks k a t, e.Meets (a + i * 2 ^ j) (a + (i + 1) * 2 ^ j)

theorem occupied_left {j m a i : ℕ} {l r : PTree α} (hi : i < 2 ^ m) :
    Occupied j (j + m + 1) a i (node l r) ↔ Occupied j (j + m) a i l := by
  have hle : (i + 1) * 2 ^ j ≤ 2 ^ (j + m) := by
    rw [pow_add, Nat.mul_comm]
    exact Nat.mul_le_mul_left _ hi
  constructor
  · rintro ⟨e, he, hm⟩
    rcases List.mem_append.mp he with he | he
    · exact ⟨e, he, hm⟩
    · have h1 := (blocks_bounds he).1
      have h2 := hm.1
      omega
  · rintro ⟨e, he, hm⟩
    exact ⟨e, List.mem_append_left _ he, hm⟩

theorem occupied_right {j m a i : ℕ} {l r : PTree α} :
    Occupied j (j + m + 1) a (2 ^ m + i) (node l r) ↔
      Occupied j (j + m) (a + 2 ^ (j + m)) i r := by
  unfold Occupied
  rw [Nat.add_assoc (2 ^ m) i 1, start_right, start_right]
  constructor
  · rintro ⟨e, he, hm⟩
    rcases List.mem_append.mp he with he | he
    · have h1 := (blocks_bounds he).2
      have h2 := hm.2
      omega
    · exact ⟨e, he, hm⟩
  · rintro ⟨e, he, hm⟩
    exact ⟨e, List.mem_append_right _ he, hm⟩

/-- Insertion fails only if every range of the new block's order meets a block. -/
theorem insert_eq_none {p : α} {m j a : ℕ} {t : PTree α} (hn : t.Normal)
    (hk : t.HeightLE (j + m)) (h : insert p m t = none) (i : ℕ) (hi : i < 2 ^ m) :
    Occupied j (j + m) a i t := by
  induction m generalizing t a i with
  | zero =>
    -- the only range is the whole one, which is not free
    obtain rfl : i = 0 := by simpa using hi
    have ht : t ≠ free := by
      rintro rfl
      simp at h
    obtain ⟨e, he⟩ := hn.exists_block a hk ht
    obtain ⟨hstart, hstop⟩ := blocks_bounds he
    have := e.start_lt_stop
    refine ⟨e, he, ?_, ?_⟩ <;> simp only [Nat.add_zero] at * <;> omega
  | succ m ih =>
    cases t with
    | free =>
      obtain ⟨t', ht⟩ := exists_insert_free p (m + 1)
      rw [ht] at h
      cases h
    | block q =>
      -- every range lies in the block
      have hpos := Nat.two_pow_pos j
      have hle : (i + 1) * 2 ^ j ≤ 2 ^ (j + (m + 1)) := by
        rw [pow_add, Nat.mul_comm]
        exact Nat.mul_le_mul_left _ hi
      refine ⟨⟨a, j + (m + 1), q⟩, by simp, ?_, ?_⟩
      · exact Nat.lt_add_of_pos_right (Nat.mul_pos (Nat.succ_pos i) hpos)
      · rw [Extent.stop_mk]
        rw [Nat.add_mul] at hle
        omega
    | node l r =>
      obtain ⟨-, hnl, hnr⟩ := hn
      obtain ⟨hl, hr⟩ := insert_node_eq_none_iff.1 h
      -- neither half has room, and the range lies in one of them
      by_cases hlt : i < 2 ^ m
      · exact (occupied_left hlt).2 (ih hnl hk.1 hl i hlt)
      · obtain ⟨i', rfl⟩ := Nat.exists_eq_add_of_le (Nat.not_lt.1 hlt)
        have hi' : i' < 2 ^ m := by
          rw [pow_succ] at hi
          omega
        exact occupied_right.2 (ih hnr hk.2 hr i' hi')

/-- The position of the new block is the leftmost one whose range meets no block. -/
theorem insert_first_fit {p : α} {m i j a : ℕ} {t t' : PTree α} (hn : t.Normal)
    (hk : t.HeightLE (j + m)) (h : insert p m t = some (i, t')) :
    ¬ Occupied j (j + m) a i t ∧ ∀ i' < i, Occupied j (j + m) a i' t := by
  induction m generalizing t i t' a with
  | zero =>
    cases t with
    | free =>
      obtain ⟨rfl, -⟩ : 0 = i ∧ block p = t' := by simpa using h
      simp [Occupied]
    | block q => simp at h
    | node l r => simp at h
  | succ m ih =>
    cases t with
    | free =>
      simp only [insert_succ_free, Option.map_eq_some_iff, Prod.mk.injEq, Prod.exists] at h
      -- a free leaf takes the block at its start
      obtain ⟨i', l', hl, rfl, -⟩ := h
      obtain ⟨t'', ht⟩ := exists_insert_free p m
      obtain ⟨rfl, -⟩ : 0 = i' ∧ t'' = l' := by simpa [ht] using hl
      simp [Occupied]
    | block q => simp at h
    | node l r =>
      obtain ⟨-, hnl, hnr⟩ := hn
      obtain ⟨l', hl, rfl⟩ | ⟨hl, i', r', hr, rfl, rfl⟩ := insert_node_cases h
      · have hlt := insert_pos_lt hl
        obtain ⟨hfree, hfirst⟩ := ih (a := a) hnl hk.1 hl
        refine ⟨(occupied_left hlt).not.2 hfree, fun i' hi' => ?_⟩
        exact (occupied_left (hi'.trans hlt)).2 (hfirst i' hi')
      · -- the left half has no room, so all its ranges are occupied
        obtain ⟨hfree, hfirst⟩ := ih (a := a + 2 ^ (j + m)) hnr hk.2 hr
        refine ⟨occupied_right.not.2 hfree, fun x hx => ?_⟩
        by_cases hlt : x < 2 ^ m
        · exact (occupied_left hlt).2 (insert_eq_none hnl hk.1 hl x hlt)
        · obtain ⟨x', rfl⟩ := Nat.exists_eq_add_of_le (Nat.not_lt.1 hlt)
          exact occupied_right.2 (hfirst x' (by omega))

/-! ## Room at the greatest depth -/

/-- A partition that is not full takes a block at its greatest depth. -/
theorem exists_insert {p : α} {k : ℕ} {t : PTree α} (hk : t.HeightLE k) (h : t.full = false) :
    (insert p k t).isSome := by
  induction t generalizing k with
  | free =>
    obtain ⟨t', ht⟩ := exists_insert_free p k
    simp [ht]
  | block q => simp at h
  | node l r ihl ihr =>
    cases k with
    | zero => exact absurd hk (heightLE_node_zero l r)
    | succ k =>
      rw [Option.isSome_iff_ne_none, Ne, insert_node_eq_none_iff]
      rintro ⟨hl, hr⟩
      -- one of the halves is not full, and it takes the block
      rw [full_node, Bool.and_eq_false_iff] at h
      rcases h with h | h
      · simpa [hl] using ihl hk.1 h
      · simpa [hr] using ihr hk.2 h

end PTree
