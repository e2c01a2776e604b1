import Mathlib.Data.Nat.Init
import Mathlib.Algebra.Order.Group.Int
import Mathlib.Algebra.Order.Group.Nat

/-!
# Machine words

A `uint64_t` or `uint32_t` is a natural number, and its arithmetic is arithmetic on `ℕ` that is
reduced wherever it can wrap.
-/

set_option autoImplicit false

namespace Zalloc

/-- Reduction to `uint64_t`. -/
def u64 (x : ℕ) : ℕ := x % 2 ^ 64

/-- `(uint64_t) -1`. -/
def u64Max : ℕ := 2 ^ 64 - 1

/-- Subtraction in `uint64_t`. -/
def u64Sub (x y : ℕ) : ℕ := (x + 2 ^ 64 - y) % 2 ^ 64

/-- Reduction to `uint32_t`. -/
def u32 (x : ℕ) : ℕ := x % 2 ^ 32

/-- `(uint32_t) -1`. -/
def u32Max : ℕ := 2 ^ 32 - 1

/-- Subtraction in `uint32_t`. -/
def u32Sub (x y : ℕ) : ℕ := (x + 2 ^ 32 - y) % 2 ^ 32

/-- The conversion of a `uint64_t` to `int`. -/
def toInt (x : ℕ) : ℤ := if x % 2 ^ 32 < 2 ^ 31 then x % 2 ^ 32 else (x % 2 ^ 32 : ℤ) - 2 ^ 32

end Zalloc
