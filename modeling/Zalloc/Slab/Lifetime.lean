import Zalloc.Slab.Contract
import Zalloc.Slab.Destroy

/-!
# The lifetime of the regions

A region is mapped by `slab_alloc`. It is given back by the call of `slab_free` for its last live
item, or else by `slab_destroy`.

## Main definitions

* `ItemOf st base x`: the item at `x` is in a slab of the region at `base`.
* `Lifetime c L`: what the two functions do with the regions; the lists have the nodes `L`.

## Main results

* `slabChain_lifetime`: this holds in every run.
-/

set_option autoImplicit false

namespace Zalloc

/-- There is an item at `x` in a slab of the region at `base`. -/
def ItemOf (st : SlabState) (base x : ℕ) : Prop :=
  ∃ a i, st.sch.InRegion base a ∧ i < st.sch.itemcount ∧ x = st.sch.item a i

/-- What `slab_free` and `slab_destroy` do with the regions of a chain whose lists have the nodes
`L`. -/
structure Lifetime (c : SlabConfig) (L : SlabList → List ℕ) : Prop where
  /-- A live item is in a region. With the last live item of the region, the region is given back:
  then its slabs are in none of the lists, and the other slabs are in the same lists as before. With
  any other item no region is given back. -/
  free : ∀ addr ∈ c.live, ∃ base ∈ c.st.regions, ItemOf c.st base addr ∧
    ∃ st' L', (slabFree addr).Returns c.st st' () ∧ ChainOk st' L' ∧
      ((∀ x ∈ c.live, ItemOf c.st base x → x = addr) → st'.regions = c.st.regions.erase base ∧
        ∀ w a, a ∈ L' w ↔ a ∈ L w ∧ ¬ c.st.sch.InRegion base a) ∧
      ((∃ x ∈ c.live, ItemOf c.st base x ∧ x ≠ addr) → st'.regions = c.st.regions)
  /-- Every region that is still mapped is given back once, and no header of an unmapped region is
  accessed. -/
  destroy : (∃ st' released, slabDestroy.Returns c.st st' released ∧ released.Nodup ∧
      (∀ base, base ∈ released ↔ base ∈ c.st.regions) ∧ st'.regions = []) ∧
    ∀ st', ¬ slabDestroy.Aborts c.st st'

section

variable {L : SlabList → List ℕ} {itemsize a i base : ℕ} {c : SlabConfig}

/-- A slot is the last one in use of its region exactly if its item is the last live one. -/
theorem SlabReady.lastSlot_iff (h : SlabReady itemsize c L) (hused : UsedSlot c.st a i)
    (hb : base ∈ c.st.regions) :
    LastSlot c.st base a i ↔ ∀ x ∈ c.live, ItemOf c.st base x → x = c.st.sch.item a i := by
  constructor
  · rintro hlast x hx ⟨b, j, hin, hj, rfl⟩
    obtain ⟨b', j', hused', heq⟩ := (h.live _).1 hx
    -- the live item is that of the slot
    obtain ⟨rfl, rfl⟩ := h.inv.sized.item_inj (h.inv.dvd ⟨base, hb, hin⟩) (h.inv.dvd hused'.1) hj
      hused'.2.1 heq
    obtain ⟨rfl, rfl⟩ := hlast b j hused' hin
    rfl
  · intro hlast b j hused' hin
    have hitem := hlast _ ((h.live _).2 hused'.usedItem) ⟨b, j, hin, hused'.2.1, rfl⟩
    exact h.inv.item_inj hused' hused hitem

/-- The invariant implies that the regions live as long as they should. -/
theorem SlabReady.lifetime (h : SlabReady itemsize c L) : Lifetime c L where
  free addr hmem := by
    obtain ⟨a, i, hused, rfl⟩ := (h.live addr).1 hmem
    obtain ⟨base, hb, hin⟩ := id hused.1
    obtain ⟨st', L', hret, hinv, -, hlast, hother⟩ := h.inv.slabFree_regions hused hb hin
    rw [h.lastSlot_iff hused hb] at hlast hother
    refine ⟨base, hb, ⟨a, i, hin, hused.2.1, rfl⟩, st', L', hret, hinv.chainOk, hlast, ?_⟩
    rintro ⟨x, hx, hitem, hne⟩
    exact hother fun hall => hne (hall x hx hitem)
  destroy := by
    obtain ⟨st', released, hret, hperm, hdone⟩ := h.inv.slabDestroy
    refine ⟨⟨st', released, hret, ?_, fun base => hperm.mem_iff, hdone⟩,
      fun _ => Prog.not_aborts_of_returns hret⟩
    exact hperm.nodup_iff.2 h.inv.regions.nodup

end

end Zalloc
