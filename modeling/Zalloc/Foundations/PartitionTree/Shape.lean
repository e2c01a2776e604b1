import Zalloc.Foundations.PartitionTree.Insert
import Zalloc.Foundations.PartitionTree.Remove

/-!
# The shape of a binary partition

Two partitions have the same shape if they differ at most in the tags of their blocks. Insertion,
lookup and removal do not look at the tags, so they give the same positions in partitions of the
same shape, and keep the shapes the same.

## Main definitions

* `PTree.SameShape t t'`: the partitions differ at most in their tags.

## Main results

* `PTree.sameShape_of_blocks`: normal partitions into the same ranges have the same shape.
* `PTree.SameShape.insert`, `PTree.SameShape.find`, `PTree.SameShape.remove`: the operations do not
  depend on the tags.
-/

set_option autoImplicit false

namespace PTree

variable {α β : Type}

/-! ## Replacing the tags -/

@[simp] theorem map_eq_free_iff {f : α → β} {t : PTree α} : t.map f = free ↔ t = free := by
  cases t <;> simp [map]

@[simp] theorem full_map (f : α → β) (t : PTree α) : (t.map f).full = t.full := by
  induction t with
  | free => rfl
  | block p => rfl
  | node l r ihl ihr => simp [map, ihl, ihr]

theorem Normal.map (f : α → β) {t : PTree α} (h : t.Normal) : (t.map f).Normal := by
  induction t with
  | free => trivial
  | block p => trivial
  | node l r ihl ihr =>
    obtain ⟨hsplit, hl, hr⟩ := h
    exact ⟨by simpa using hsplit, ihl hl, ihr hr⟩

theorem HeightLE.map (f : α → β) {k : ℕ} {t : PTree α} (h : t.HeightLE k) :
    (t.map f).HeightLE k := by
  induction t generalizing k with
  | free => simp [PTree.map]
  | block p => simp [PTree.map]
  | node l r ihl ihr =>
    cases k with
    | zero => exact h
    | succ k => exact ⟨ihl h.1, ihr h.2⟩

theorem blocks_map (f : α → β) (k a : ℕ) (t : PTree α) :
    blocks k a (t.map f) = (blocks k a t).map fun e => ⟨e.start, e.order, f e.tag⟩ := by
  induction t generalizing k a with
  | free => simp [map]
  | block p => simp [map]
  | node l r ihl ihr =>
    cases k with
    | zero => simp [map, blocks]
    | succ k => simp [map, ihl, ihr]

/-- The position and the shape after an insertion do not depend on the tags. -/
theorem insert_map (f : α → β) (p : α) (m : ℕ) (t : PTree α) :
    insert (f p) m (t.map f) = (insert p m t).map fun x => (x.1, x.2.map f) := by
  induction m generalizing t with
  | zero => cases t <;> rfl
  | succ m ih =>
    cases t with
    | free =>
      have h := ih free
      rw [map] at h
      simp only [map, insert_succ_free, h, Option.map_map]
      rfl
    | block q => rfl
    | node l r =>
      -- the left half has room in both partitions, or in neither
      simp only [map, insert, ih]
      cases insert p m l with
      | some x => rfl
      | none => simp [Function.comp_def, map]

theorem find_map (f : α → β) (k a x : ℕ) (t : PTree α) :
    find k a (t.map f) x = (find k a t x).map fun e => ⟨e.start, e.order, f e.tag⟩ := by
  induction t generalizing k a with
  | free => simp [map]
  | block p => simp [map]
  | node l r ihl ihr =>
    cases k with
    | zero => simp [map, find]
    | succ k =>
      simp only [map, find_node, ihl, ihr]
      split_ifs <;> rfl

theorem merge_map (f : α → β) (l r : PTree α) : merge (l.map f) (r.map f) = (merge l r).map f := by
  by_cases h : l = free ∧ r = free
  · obtain ⟨rfl, rfl⟩ := h
    rfl
  · rw [merge_eq_node h, merge_eq_node (by simpa using h)]
    rfl

theorem remove_map (f : α → β) (k a x : ℕ) (t : PTree α) :
    remove k a (t.map f) x = (remove k a t x).map f := by
  induction t generalizing k a with
  | free => simp [map]
  | block p => simp [map]
  | node l r ihl ihr =>
    cases k with
    | zero => simp [map, remove]
    | succ k =>
      simp only [map, remove_node, ihl, ihr, merge_map]
      split_ifs <;> rfl

/-! ## Shapes -/

/-- The partitions differ at most in the tags of their blocks. -/
def SameShape (t t' : PTree α) : Prop := t.map (fun _ => ()) = t'.map (fun _ => ())

/-- Normal partitions into the same ranges have the same shape. -/
theorem sameShape_of_blocks {k : ℕ} (a : ℕ) {t t' : PTree α} (hn : t.Normal) (hn' : t'.Normal)
    (hk : t.HeightLE k) (hk' : t'.HeightLE k)
    (h : ∀ x j, (∃ e ∈ blocks k a t, e.start = x ∧ e.order = j) ↔
      ∃ e ∈ blocks k a t', e.start = x ∧ e.order = j) : SameShape t t' := by
  refine eq_of_blocks (a := a) (hn.map _) (hn'.map _) (hk.map _) (hk'.map _) fun e => ?_
  rw [blocks_map, blocks_map, List.mem_map, List.mem_map]
  obtain ⟨x, j, u⟩ := e
  simpa using h x j

namespace SameShape

variable {t t' : PTree α}

theorem symm (h : SameShape t t') : SameShape t' t := Eq.symm h

theorem full_eq (h : SameShape t t') : t.full = t'.full := by
  rw [← full_map (fun _ => ()) t, h, full_map]

theorem eq_free_iff (h : SameShape t t') : t = free ↔ t' = free := by
  rw [← map_eq_free_iff (f := fun _ => ()), h, map_eq_free_iff]

/-- Insertion takes the same position. -/
theorem insert_some {p : α} {m i : ℕ} {t₁ : PTree α} (h : SameShape t t')
    (hins : insert p m t = some (i, t₁)) :
    ∃ t₁', insert p m t' = some (i, t₁') ∧ SameShape t₁ t₁' := by
  have hmap := insert_map (fun _ => ()) p m t
  rw [h, insert_map (fun _ => ()) p m t', hins] at hmap
  obtain ⟨⟨i', t₁'⟩, hins', heq⟩ := Option.map_eq_some_iff.1 hmap
  obtain ⟨rfl, hshape⟩ := Prod.mk.inj heq
  exact ⟨t₁', hins', hshape.symm⟩

theorem insert_none {p : α} {m : ℕ} (h : SameShape t t') (hins : insert p m t = none) :
    insert p m t' = none := by
  have hmap := insert_map (fun _ => ()) p m t
  rw [h, insert_map (fun _ => ()) p m t', hins] at hmap
  exact Option.map_eq_none_iff.1 hmap

/-- Lookup finds the same range. -/
theorem find_some {k a x : ℕ} {e : Extent α} (h : SameShape t t') (hfind : find k a t x = some e) :
    ∃ e', find k a t' x = some e' ∧ e'.start = e.start ∧ e'.order = e.order := by
  have hmap := find_map (fun _ => ()) k a x t
  rw [h, find_map, hfind] at hmap
  obtain ⟨e', hfind', heq⟩ := Option.map_eq_some_iff.1 hmap
  obtain ⟨hstart, horder, -⟩ := Extent.mk.inj heq
  exact ⟨e', hfind', hstart, horder⟩

theorem remove (h : SameShape t t') (k a x : ℕ) :
    SameShape (PTree.remove k a t x) (PTree.remove k a t' x) := by
  have hmap := remove_map (fun _ => ()) k a x t
  rw [h, remove_map] at hmap
  exact hmap.symm

theorem node_left {l l' r r' : PTree α} (h : SameShape (node l r) (node l' r')) : SameShape l l' :=
  (node.inj h).1

theorem node_right {l l' r r' : PTree α} (h : SameShape (node l r) (node l' r')) :
    SameShape r r' :=
  (node.inj h).2

/-- A partition with the shape of a cut one is cut. -/
theorem exists_node {l r : PTree α} (h : SameShape (node l r) t') : ∃ l' r', t' = node l' r' := by
  cases t' with
  | free => cases h
  | block p => cases h
  | node l' r' => exact ⟨l', r', rfl⟩

end SameShape

end PTree
