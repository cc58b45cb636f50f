import Mathlib.Data.Int.Order.Basic
import Mathlib.Tactic.Linarith

/-!
# Signed words with checked arithmetic

Products, sums and left shifts of two's-complement words that stop where the exact result
leaves the range of the word.  When such a computation gives a result, no step of it has
wrapped, and the low half of the result follows from the low halves of the operands alone.

Each operation has a lemma for the direction in which it is used: from the exact value lying in
the range to the result being that of the words (`mul_eq_some`, `add_eq_some`,
`shiftLeft_eq_some`).  The second part is about words that hold a narrower unsigned value, as
they do when a hash of 32 bits is computed in words of 64: the value is the unsigned one, shifts
to the right are logical, and masking is taking the narrower word.
-/

namespace StreamEP.CheckedWord

variable {w : ℕ}

/-- `a * b`, unless it leaves the signed range -/
def mul (a b : BitVec w) : Option (BitVec w) := if a.smulOverflow b then none else some (a * b)

/-- `a + b`, unless it leaves the signed range -/
def add (a b : BitVec w) : Option (BitVec w) := if a.saddOverflow b then none else some (a + b)

/-- `a << k`, unless it leaves the signed range -/
def shiftLeft (a : BitVec w) (k : ℕ) : Option (BitVec w) :=
  if -2 ^ (w - 1) ≤ a.toInt * 2 ^ k ∧ a.toInt * 2 ^ k < 2 ^ (w - 1) then some (a <<< k) else none

section

variable {a b : BitVec w} {k : ℕ}

/-- A product within the range is the product of the words. -/
theorem mul_eq_some (low : -2 ^ (w - 1) ≤ a.toInt * b.toInt)
    (high : a.toInt * b.toInt < 2 ^ (w - 1)) : mul a b = some (a * b) := by
  unfold mul BitVec.smulOverflow
  rw [if_neg]
  simp only [Bool.or_eq_true, decide_eq_true_eq, not_or, not_le, not_lt]
  exact ⟨high, low⟩

/-- A sum within the range is the sum of the words. -/
theorem add_eq_some (low : -2 ^ (w - 1) ≤ a.toInt + b.toInt)
    (high : a.toInt + b.toInt < 2 ^ (w - 1)) : add a b = some (a + b) := by
  unfold add BitVec.saddOverflow
  rw [if_neg]
  simp only [Bool.or_eq_true, decide_eq_true_eq, not_or, not_le, not_lt]
  exact ⟨high, low⟩

/-- A product that was checked has the exact value. -/
theorem toInt_mul (low : -2 ^ (w - 1) ≤ a.toInt * b.toInt)
    (high : a.toInt * b.toInt < 2 ^ (w - 1)) : (a * b).toInt = a.toInt * b.toInt := by
  apply BitVec.toInt_mul_of_not_smulOverflow
  unfold BitVec.smulOverflow
  simp only [Bool.or_eq_true, decide_eq_true_eq, not_or, not_le, not_lt]
  exact ⟨high, low⟩

theorem shiftLeft_eq_some (low : -2 ^ (w - 1) ≤ a.toInt * 2 ^ k)
    (high : a.toInt * 2 ^ k < 2 ^ (w - 1)) : shiftLeft a k = some (a <<< k) :=
  if_pos ⟨low, high⟩

end

/-! ### Words that hold a narrower unsigned value -/

variable {n : ℕ} (x : BitVec n)

/-- A narrower unsigned word is its own value in the wider signed word. -/
theorem toInt_setWidth (wider : n < w) : (x.setWidth w).toInt = x.toNat := by
  have small : x.toNat < 2 ^ n := x.isLt
  have double : 2 * 2 ^ n ≤ 2 ^ w := by
    rw [← Nat.pow_succ']
    exact Nat.pow_le_pow_right (by decide) wider
  rw [BitVec.toInt_eq_toNat_of_lt] <;> rw [BitVec.toNat_setWidth_of_le wider.le]
  omega

/-- The arithmetic shift of the wider word is the logical shift of the narrower one. -/
theorem sshiftRight_setWidth (wider : n < w) (k : ℕ) :
    (x.setWidth w).sshiftRight k = (x >>> k).setWidth w := by
  have msb : (x.setWidth w).msb = false := by
    rw [BitVec.msb_setWidth, BitVec.getLsbD_of_ge x _ (by omega), Bool.and_false]
  rw [BitVec.sshiftRight_eq_of_msb_false msb, BitVec.setWidth_ushiftRight wider.le]

/-- Keeping the low bits of a word is taking the narrower word and back. -/
theorem and_mask (z : BitVec w) (narrower : n ≤ w) :
    z &&& BitVec.ofNat w (2 ^ n - 1) = (z.setWidth n).setWidth w := by
  apply BitVec.eq_of_toNat_eq
  have mask : 2 ^ n - 1 < 2 ^ w :=
    lt_of_lt_of_le (Nat.sub_lt (Nat.two_pow_pos n) one_pos)
      (Nat.pow_le_pow_right (by decide) narrower)
  rw [BitVec.toNat_and, BitVec.toNat_ofNat, Nat.mod_eq_of_lt mask, Nat.and_two_pow_sub_one_eq_mod,
    BitVec.toNat_setWidth_of_le narrower, BitVec.toNat_setWidth]

end StreamEP.CheckedWord
