import Mathlib.Data.Nat.Init
import Mathlib.Algebra.Order.Group.Nat
import Mathlib.Algebra.Order.Ring.Int

/-!
# Counters that wrap

A counter that only grows is kept modulo `2 ^ w`.  As long as two values of it are less
than half the modulus apart, their signed difference (`diff`) is the true one, so the
later of the two can be told (`advance`) on either side of a wrap.

The true values are natural numbers and a word is `BitVec.ofNat` of one of them; the lemmas go
from a bound on the numbers to what is computed with the words.  Without a bound there is still
`diff_le`: the difference of a later and an earlier value is never read as more than it is.
-/

namespace WrapCounter

variable {w : ℕ}

/-- The difference of two counter words, read as a signed number. -/
def diff (cur prev : BitVec w) : ℤ := (cur - prev).toInt

/-- Replace a word by one that is ahead of it. -/
def advance (old cur : BitVec w) : BitVec w := if 0 < diff cur old then cur else old

/-- Half the modulus. -/
theorem two_pow_half (pos : 0 < w) : 2 ^ w = 2 * 2 ^ (w - 1) := by
  obtain ⟨v, rfl⟩ := Nat.exists_eq_add_of_lt pos
  rw [Nat.zero_add, Nat.add_sub_cancel, pow_succ, Nat.mul_comm]

/-- **Counters less than half the modulus apart have their true difference.** -/
theorem diff_ofNat (pos : 0 < w) {cur prev : ℕ} (ahead : cur < prev + 2 ^ (w - 1))
    (behind : prev ≤ cur + 2 ^ (w - 1)) :
    diff (BitVec.ofNat w cur) (BitVec.ofNat w prev) = (cur : ℤ) - prev := by
  rw [diff, BitVec.toInt_sub, BitVec.toInt_ofNat', BitVec.toInt_ofNat', Int.bmod_sub_bmod,
    Int.sub_bmod_bmod]
  have half := two_pow_half pos
  generalize 2 ^ (w - 1) = h at half ahead behind
  generalize 2 ^ w = m at half
  exact Int.bmod_eq_of_le_mul_two (by omega) (by omega)

/-- The difference is never read as more than it is. -/
theorem diff_le {cur prev : ℕ} (le : prev ≤ cur) :
    diff (BitVec.ofNat w cur) (BitVec.ofNat w prev) ≤ (cur : ℤ) - prev := by
  rw [diff, BitVec.toInt_sub, BitVec.toInt_ofNat', BitVec.toInt_ofNat', Int.bmod_sub_bmod,
    Int.sub_bmod_bmod]
  obtain ⟨gap, rfl⟩ := Nat.exists_eq_add_of_le le
  rw [Nat.cast_add, add_sub_cancel_left, Int.bmod_def]
  have mod_le : (gap : ℤ) % (2 ^ w : ℕ) ≤ gap := by
    exact_mod_cast Nat.mod_le gap (2 ^ w)
  split_ifs <;> omega

/-- The later of two such counters is kept. -/
theorem advance_ofNat (pos : 0 < w) {old cur : ℕ} (ahead : cur < old + 2 ^ (w - 1))
    (behind : old ≤ cur + 2 ^ (w - 1)) :
    advance (BitVec.ofNat w old) (BitVec.ofNat w cur) = BitVec.ofNat w (max old cur) := by
  rw [advance, diff_ofNat pos ahead behind]
  rcases le_total cur old with le | le
  · rw [if_neg (by omega), max_eq_left le]
  · rcases eq_or_lt_of_le le with rfl | lt
    · rw [if_neg (by omega), max_self]
    · rw [if_pos (by omega), max_eq_right le]

/-- Adding to the counter adds to its word. -/
theorem ofNat_add (a b : ℕ) :
    BitVec.ofNat w a + BitVec.ofNat w b = BitVec.ofNat w (a + b) :=
  (BitVec.ofNat_add a b).symm

end WrapCounter
