import Mathlib.Data.List.Count
import Mathlib.Data.Nat.Bitwise

/-!
# Deduplication with a bit mask

A loop that wants to act once per distinct number keeps a mask of the numbers it
has met: bit `d` is tested before acting on `d` and set afterwards.  `firstSeen`
is that loop, and `count_firstSeen` says what it emits.

The mask is a number of any width, and the two expressions that the loop needs of it, testing a
bit and setting one, are `and_bit_eq_zero_iff` and `testBit_or_bit`.  The first mask is arbitrary:
numbers that it holds at the beginning are not emitted.
-/

namespace BitMask

/-- The numbers of the list that the mask does not hold yet, each once. -/
def firstSeen : List ℕ → ℕ → List ℕ
  | [], _ => []
  | d :: ds, mask =>
      if mask &&& (1 <<< d) = 0 then d :: firstSeen ds (mask ||| (1 <<< d))
      else firstSeen ds mask

/-- Testing one bit with `mask & (1 << d)`. -/
theorem and_bit_eq_zero_iff (mask d : ℕ) :
    mask &&& (1 <<< d) = 0 ↔ mask.testBit d = false := by
  rw [Nat.one_shiftLeft, Nat.and_two_pow]
  cases mask.testBit d <;> simp

/-- Setting bit `d` changes that bit only. -/
theorem testBit_or_bit (mask d i : ℕ) :
    (mask ||| (1 <<< d)).testBit i = (mask.testBit i || decide (d = i)) := by
  rw [Nat.testBit_or, Nat.one_shiftLeft, Nat.testBit_two_pow]

/-- Each number of the list is emitted once, unless the mask held it before. -/
theorem count_firstSeen (ds : List ℕ) (mask d : ℕ) :
    (firstSeen ds mask).count d = if d ∈ ds ∧ mask.testBit d = false then 1 else 0 := by
  induction ds generalizing mask with
  | nil => simp [firstSeen]
  | cons d' ds ih =>
      rw [firstSeen]
      by_cases fresh : mask.testBit d' = false
      · rw [if_pos ((and_bit_eq_zero_iff mask d').2 fresh), List.count_cons, ih,
          testBit_or_bit]
        by_cases same : d' = d
        · subst same
          simp [fresh]
        · simp [same, Ne.symm same]
      · rw [if_neg fun h => fresh ((and_bit_eq_zero_iff mask d').1 h), ih]
        by_cases same : d = d'
        · subst same
          simp [fresh]
        · simp [same]

end BitMask
