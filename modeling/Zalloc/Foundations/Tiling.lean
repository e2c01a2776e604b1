import Mathlib.Data.Nat.Init

/-!
# Tilings of a range

A range of units is cut into pieces, one after the other. Which pieces there are is told by a
relation; in an allocator, by the headers at the start of the pieces.

## Main definitions

* `Tiled tile a b`: pieces of the relation `tile` lead from `a` to `b`.

## Main results

* `Tiled.append`: two tilings, one after the other.
* `Tiled.congr`: a tiling depends on the pieces in its range only.
-/

set_option autoImplicit false

/-- Pieces lead from `a` to `b`; `tile a n` says that there is a piece of `n` units at `a`. -/
inductive Tiled (tile : ℕ → ℕ → Prop) : ℕ → ℕ → Prop
  /-- No piece. -/
  | nil (a : ℕ) : Tiled tile a a
  /-- A piece and the ones behind it. -/
  | cons {a b n : ℕ} (h : tile a n) (hpos : 0 < n) (hrest : Tiled tile (a + n) b) : Tiled tile a b

namespace Tiled

variable {tile tile' : ℕ → ℕ → Prop} {a b c n : ℕ}

theorem le (h : Tiled tile a b) : a ≤ b := by
  induction h with
  | nil => exact Nat.le_refl _
  | cons _ _ _ ih => omega

theorem single (h : tile a n) (hpos : 0 < n) : Tiled tile a (a + n) := .cons h hpos (.nil _)

/-- Two tilings, one after the other. -/
theorem append (h₁ : Tiled tile a b) (h₂ : Tiled tile b c) : Tiled tile a c := by
  induction h₁ with
  | nil => exact h₂
  | cons h hpos _ ih => exact .cons h hpos (ih h₂)

/-- A tiling depends on the pieces in its range only. -/
theorem congr (h : Tiled tile a b) (hsame : ∀ u n, a ≤ u → u < b → tile u n → tile' u n) :
    Tiled tile' a b := by
  induction h with
  | nil a => exact .nil a
  | @cons a b n h hpos hrest ih =>
    have hle := hrest.le
    exact .cons (hsame a n (Nat.le_refl a) (by omega) h) hpos
      (ih fun u m hu hub => hsame u m (by omega) hub)

/-- A range that is not empty starts with a piece. -/
theorem eq_cons (h : Tiled tile a b) (hne : a ≠ b) :
    ∃ n, tile a n ∧ 0 < n ∧ Tiled tile (a + n) b := by
  cases h with
  | nil => exact absurd rfl hne
  | cons h hpos hrest => exact ⟨_, h, hpos, hrest⟩

end Tiled
