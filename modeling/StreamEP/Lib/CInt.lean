import Mathlib.Data.Int.ModEq
import Mathlib.Tactic.Ring

/-!
# Machine integers

Sizes are computed in the signed types of the program.  A signed result that its type
does not hold has no defined value, so such a computation is in `Option` and passes
every result through `int32` or `int64`.  All operands here are natural numbers: no
intermediate sum exceeds its final value, and no intermediate product does unless a
factor is zero, so one check of a whole expression is the check of each of its steps.

For a host assertion the question is what the machine lets through.  There products wrap
(`wrap32`), and what is added to a `sizeof` is taken modulo `2 ^ 64` (`sizeT`).
-/

namespace StreamEP.CInt

/-- A value of the 32-bit signed type. -/
def int32 (n : ℕ) : Option ℕ := if n < 2 ^ 31 then some n else none

/-- A value of the 64-bit signed type. -/
def int64 (n : ℕ) : Option ℕ := if n < 2 ^ 63 then some n else none

variable {n v : ℕ} {α : Type}

@[simp]
theorem int32_eq_some : int32 n = some v ↔ n < 2 ^ 31 ∧ n = v := by
  unfold int32
  split <;> simp_all

@[simp]
theorem int64_eq_some : int64 n = some v ↔ n < 2 ^ 63 ∧ n = v := by
  unfold int64
  split <;> simp_all

/-- A computation goes on exactly when its first result is held. -/
@[simp]
theorem int32_bind_eq_some {f : ℕ → Option α} {a : α} :
    (int32 n).bind f = some a ↔ n < 2 ^ 31 ∧ f n = some a := by
  unfold int32
  split <;> simp_all

@[simp]
theorem int64_bind_eq_some {f : ℕ → Option α} {a : α} :
    (int64 n).bind f = some a ↔ n < 2 ^ 63 ∧ f n = some a := by
  unfold int64
  split <;> simp_all

/-! ### What the machine leaves of an overflow -/

/-- The 32 low bits of a product, read as a signed number. -/
def wrap32 (x : ℤ) : ℤ := x.bmod (2 ^ 32)

/-- Conversion to the unsigned 64-bit type. -/
def sizeT (x : ℤ) : ℤ := x % 2 ^ 64

theorem wrap32_of_lt {n : ℕ} (held : n < 2 ^ 31) : wrap32 n = n := by
  unfold wrap32
  rw [Int.bmod_eq_of_le] <;> omega

theorem sizeT_of_lt {n : ℕ} (held : n < 2 ^ 64) : sizeT n = n := by
  unfold sizeT
  exact Int.emod_eq_of_lt (Int.natCast_nonneg n) (by exact_mod_cast held)

end StreamEP.CInt
