import Mathlib.Data.Nat.Init
import Mathlib.Algebra.Order.Group.Nat

/-!
# Complete binary trees in arrays

The children of position `i` of an array are the positions `2 * i + 1` and `2 * i + 2`. Counted
from one, a position and its children are `i`, `2 * i` and `2 * i + 1`, so the ancestors of a
position are its prefixes in binary.

## Main definitions

* `InSubtree i n`: position `n` is `i` or below it.
* `AgreeOff i f g`: the arrays `f` and `g` differ at most in the subtree of `i`.

## Main results

* `InSubtree.disjoint`: the subtrees of two siblings have no common position.
* `AgreeOff.left`, `AgreeOff.right`: a change in one half leaves the parent and the other half.
-/

set_option autoImplicit false

/-- Position `n` is position `i` or lies below it. -/
def InSubtree (i n : ℕ) : Prop := ∃ d, (n + 1) / 2 ^ d = i + 1

namespace InSubtree

variable {i n : ℕ}

theorem refl (i : ℕ) : InSubtree i i := ⟨0, by simp⟩

theorem le (h : InSubtree i n) : i ≤ n := by
  obtain ⟨d, hd⟩ := h
  have := Nat.div_le_self (n + 1) (2 ^ d)
  omega

theorem of_left (h : InSubtree (2 * i + 1) n) : InSubtree i n := by
  obtain ⟨d, hd⟩ := h
  refine ⟨d + 1, ?_⟩
  rw [pow_succ, ← Nat.div_div_eq_div_mul, hd]
  omega

theorem of_right (h : InSubtree (2 * i + 2) n) : InSubtree i n := by
  obtain ⟨d, hd⟩ := h
  refine ⟨d + 1, ?_⟩
  rw [pow_succ, ← Nat.div_div_eq_div_mul, hd]
  omega

private theorem not_of_le {d e : ℕ} (hle : d ≤ e) (hd : (n + 1) / 2 ^ d = 2 * i + 2)
    (he : (n + 1) / 2 ^ e = 2 * i + 3) : False := by
  obtain ⟨c, rfl⟩ := Nat.exists_eq_add_of_le hle
  rw [pow_add, ← Nat.div_div_eq_div_mul, hd] at he
  have := Nat.div_le_self (2 * i + 2) (2 ^ c)
  omega

/-- The subtrees of two siblings have no common position. -/
theorem disjoint (hl : InSubtree (2 * i + 1) n) (hr : InSubtree (2 * i + 2) n) : False := by
  obtain ⟨d, hd⟩ := hl
  obtain ⟨e, he⟩ := hr
  rcases Nat.le_total d e with h | h
  · exact not_of_le h hd he
  · obtain ⟨c, rfl⟩ := Nat.exists_eq_add_of_le h
    rw [pow_add, ← Nat.div_div_eq_div_mul, he] at hd
    rcases Nat.eq_zero_or_pos c with rfl | hc
    · simp at hd
    · -- one more halving already leaves less than `2 * i + 2`
      obtain ⟨c', rfl⟩ : ∃ c', c = c' + 1 := ⟨c - 1, by omega⟩
      rw [pow_succ', ← Nat.div_div_eq_div_mul] at hd
      have := Nat.div_le_self ((2 * i + 2 + 1) / 2) (2 ^ c')
      omega

end InSubtree

/-- The arrays `f` and `g` differ at most in the subtree of position `i`. -/
def AgreeOff {α : Type} (i : ℕ) (f g : ℕ → α) : Prop := ∀ n, ¬ InSubtree i n → g n = f n

namespace AgreeOff

variable {α : Type} {i : ℕ} {f g h : ℕ → α}

theorem refl (i : ℕ) (f : ℕ → α) : AgreeOff i f f := fun _ _ => rfl

theorem trans (h₁ : AgreeOff i f g) (h₂ : AgreeOff i g h) : AgreeOff i f h :=
  fun n hn => (h₂ n hn).trans (h₁ n hn)

theorem of_left (h : AgreeOff (2 * i + 1) f g) : AgreeOff i f g :=
  fun n hn => h n fun hs => hn hs.of_left

theorem of_right (h : AgreeOff (2 * i + 2) f g) : AgreeOff i f g :=
  fun n hn => h n fun hs => hn hs.of_right

/-- A change in the left half leaves the parent. -/
theorem left_parent (h : AgreeOff (2 * i + 1) f g) : g i = f i :=
  h i fun hs => by have := hs.le; omega

/-- A change in the right half leaves the parent. -/
theorem right_parent (h : AgreeOff (2 * i + 2) f g) : g i = f i :=
  h i fun hs => by have := hs.le; omega

/-- A change in the left half leaves the right half. -/
theorem left_right (h : AgreeOff (2 * i + 1) f g) (n : ℕ) (hn : InSubtree (2 * i + 2) n) :
    g n = f n :=
  h n fun hs => hs.disjoint hn

/-- A change in the right half leaves the left half. -/
theorem right_left (h : AgreeOff (2 * i + 2) f g) (n : ℕ) (hn : InSubtree (2 * i + 1) n) :
    g n = f n :=
  h n fun hs => hn.disjoint hs

theorem update (f : ℕ → α) (i : ℕ) (a : α) : AgreeOff i f (Function.update f i a) :=
  fun n hn => Function.update_of_ne (fun h : n = i => hn (h.symm ▸ InSubtree.refl n)) a f

end AgreeOff
