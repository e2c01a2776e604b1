import Mathlib.Data.Nat.Init
import Mathlib.Logic.Function.Basic

/-!
# Byte-addressed memory

A memory gives the byte at each address, or nothing where no memory is mapped.

## Main definitions

* `Memory.Mapped mem a n`: the `n` bytes from address `a` on are mapped.
* `Memory.map`, `Memory.unmap`, `Memory.copy`, `Memory.fill`, `Memory.store`: the memory after a
  mapping has been established, after it has been given up, after a copy, after a range has been
  filled, after bytes have been stored.

## Main results

* `Memory.copy_add`: the copy has the bytes of the source.
* `Memory.copy_of_disjoint`: bytes outside the destination are kept.
-/

set_option autoImplicit false

/-- The byte at each address, if memory is mapped there. -/
abbrev Memory := ℕ → Option UInt8

namespace Memory

/-- The `n` bytes from address `a` on are mapped. -/
def Mapped (mem : Memory) (a n : ℕ) : Prop := ∀ i < n, (mem (a + i)).isSome

instance (mem : Memory) (a n : ℕ) : Decidable (mem.Mapped a n) :=
  inferInstanceAs (Decidable (∀ i < n, (mem (a + i)).isSome))

/-- The memory after `n` bytes with the given contents have been mapped at `a`. -/
def map (mem : Memory) (a n : ℕ) (contents : ℕ → UInt8) : Memory :=
  fun x => if a ≤ x ∧ x < a + n then some (contents (x - a)) else mem x

/-- The memory after the `n` bytes from `a` on have been given up. -/
def unmap (mem : Memory) (a n : ℕ) : Memory :=
  fun x => if a ≤ x ∧ x < a + n then none else mem x

/-- The memory after `n` bytes have been copied from `src` to `dst`. -/
def copy (mem : Memory) (dst src n : ℕ) : Memory :=
  fun x => if dst ≤ x ∧ x < dst + n then mem (src + (x - dst)) else mem x

/-- The memory after `n` bytes from `dst` on have been set to `value`. -/
def fill (mem : Memory) (dst n : ℕ) (value : UInt8) : Memory :=
  fun x => if dst ≤ x ∧ x < dst + n then some value else mem x

/-- The memory after some bytes have been stored from `dst` on. -/
def store (mem : Memory) (dst : ℕ) (bytes : List UInt8) : Memory :=
  fun x => if dst ≤ x ∧ x < dst + bytes.length then bytes[x - dst]? else mem x

section

variable {mem : Memory} {a x n dst src i : ℕ}

theorem mapped_map (contents : ℕ → UInt8) : (mem.map a n contents).Mapped a n := by
  intro i hi
  have hin : a ≤ a + i ∧ a + i < a + n := by omega
  simp only [map, if_pos hin, Option.isSome_some]

theorem unmap_of_mem (hle : a ≤ x) (hlt : x < a + n) : mem.unmap a n x = none := if_pos ⟨hle, hlt⟩

/-- A part of a mapped range is mapped. -/
theorem Mapped.sub (h : mem.Mapped a n) {m : ℕ} (hle : a ≤ x) (hstop : x + m ≤ a + n) :
    mem.Mapped x m := by
  intro i hi
  have hmem := h (x - a + i) (by omega)
  rwa [show a + (x - a + i) = x + i by omega] at hmem

/-- The copy has the bytes of the source. -/
theorem copy_add (hi : i < n) : mem.copy dst src n (dst + i) = mem (src + i) := by
  have hin : dst ≤ dst + i ∧ dst + i < dst + n := by omega
  rw [copy, if_pos hin, Nat.add_sub_cancel_left]

/-- Bytes outside the destination are kept. -/
theorem copy_of_disjoint (h : x < dst ∨ dst + n ≤ x) : mem.copy dst src n x = mem x :=
  if_neg (by omega)

theorem copy_zero : mem.copy dst src 0 = mem :=
  funext fun _ => copy_of_disjoint (by omega)

/-- The bytes that have been set. -/
theorem fill_add {value : UInt8} (hi : i < n) : mem.fill dst n value (dst + i) = some value :=
  if_pos (by omega)

/-- The other bytes are kept. -/
theorem fill_of_disjoint {value : UInt8} (h : x < dst ∨ dst + n ≤ x) :
    mem.fill dst n value x = mem x :=
  if_neg (by omega)

/-- Setting bytes that are mapped maps no others. -/
theorem fill_eq_none {value : UInt8} (h : mem x = none) (hmapped : mem.Mapped dst n) :
    mem.fill dst n value x = none := by
  rw [fill_of_disjoint, h]
  by_contra hin
  have hx := hmapped (x - dst) (by omega)
  rw [show dst + (x - dst) = x by omega, h] at hx
  cases hx

/-- A copy from mapped memory unmaps nothing. -/
theorem Mapped.copy (h : mem.Mapped a n) {m : ℕ} (hsrc : mem.Mapped src m) :
    (mem.copy dst src m).Mapped a n := by
  intro i hi
  by_cases hin : dst ≤ a + i ∧ a + i < dst + m
  · rw [Memory.copy, if_pos hin]
    exact hsrc _ (by omega)
  · rw [Memory.copy, if_neg hin]
    exact h i hi

/-- Setting bytes unmaps nothing. -/
theorem Mapped.fill (h : mem.Mapped a n) (dst m : ℕ) (value : UInt8) :
    (mem.fill dst m value).Mapped a n := by
  intro i hi
  by_cases hin : dst ≤ a + i ∧ a + i < dst + m
  · rw [Memory.fill, if_pos hin, Option.isSome_some]
  · rw [Memory.fill, if_neg hin]
    exact h i hi

/-- The bytes that have been stored. -/
theorem store_add {bytes : List UInt8} (hi : i < bytes.length) :
    mem.store dst bytes (dst + i) = some bytes[i] := by
  have hin : dst ≤ dst + i ∧ dst + i < dst + bytes.length := by omega
  rw [store, if_pos hin, Nat.add_sub_cancel_left, List.getElem?_eq_getElem hi]

/-- Storing bytes unmaps nothing. -/
theorem Mapped.store (h : mem.Mapped a n) (dst : ℕ) (bytes : List UInt8) :
    (mem.store dst bytes).Mapped a n := by
  intro i hi
  by_cases hin : dst ≤ a + i ∧ a + i < dst + bytes.length
  · rw [Memory.store, if_pos hin, List.getElem?_eq_getElem (by omega), Option.isSome_some]
  · rw [Memory.store, if_neg hin]
    exact h i hi

/-- Setting a byte unmaps nothing. -/
theorem Mapped.update (h : mem.Mapped a n) (x : ℕ) (value : UInt8) :
    Mapped (Function.update mem x (some value)) a n := by
  intro i hi
  by_cases hx : a + i = x
  · rw [hx, Function.update_self, Option.isSome_some]
  · rw [Function.update_of_ne hx]
    exact h i hi

end

end Memory
