import Mathlib.Algebra.Order.Sub.Defs
import Mathlib.Algebra.Order.BigOperators.Group.Finset
import Mathlib.Data.Nat.Bitwise
import Mathlib.Tactic.Abel
import StreamEP.Lib.PrefixSum

/-!
# Warp collectives

A warp holds one value per lane, so its registers are a function from lane
numbers.  The shuffles exchange registers between lanes of one warp; every
reduction and every scan below is a fold of shuffles over a list of distances.

* `reduceDown` halves the distance each time and leaves the total in lane 0.
* `reduceXor` is the butterfly and leaves the total in every lane.
* `scanUp` is the Kogge–Stone scan.  After the distances `1, 2, …, 2 ^ (m-1)`
  lane `l` holds the sum of the last `min (2 ^ m) (l + 1)` registers, so it is an
  inclusive scan as soon as `2 ^ m` covers the lane (`scanUp_eq_sum`).
* `stridedSum` is the loop in which lane `l` visits `l, l + 32, l + 64, …`; over
  all lanes it visits every index once (`sum_stridedSum`).

Each collective is proved by induction on the number of distances, from a statement that says
what a lane holds after some of them and not only after all.  Registers are in any commutative
additive monoid; a lane without a partner reads its own register, as the hardware has it.
-/

namespace Warp

open Finset

variable {M : Type*} [AddCommMonoid M]

/-- The number of lanes of a warp. -/
def width : ℕ := 32

/-! ### Shuffles -/

/-- `__shfl_down_sync`: the register `d` lanes up; a lane without such a partner
reads its own. -/
def shflDown (x : ℕ → M) (d lane : ℕ) : M :=
  if lane + d < width then x (lane + d) else x lane

/-- `__shfl_up_sync`: the register `d` lanes down, or the lane's own. -/
def shflUp (x : ℕ → M) (d lane : ℕ) : M :=
  if d ≤ lane then x (lane - d) else x lane

/-- `__shfl_xor_sync`: the register of the butterfly partner. -/
def shflXor (x : ℕ → M) (d lane : ℕ) : M :=
  x (lane ^^^ d)

/-! ### Reductions -/

/-- `x += __shfl_down_sync(x, d)` for each distance of the list. -/
def reduceDown (ds : List ℕ) (x : ℕ → M) : ℕ → M :=
  ds.foldl (fun x d lane => x lane + shflDown x d lane) x

/-- `x = x + __shfl_xor_sync(x, d)` for each distance of the list. -/
def reduceXor (ds : List ℕ) (x : ℕ → M) : ℕ → M :=
  ds.foldl (fun x d lane => x lane + shflXor x d lane) x

/-- The distances `2 ^ (m - 1), …, 2, 1`. -/
def halvings (m : ℕ) : List ℕ := ((List.range m).map (2 ^ ·)).reverse

theorem halvings_succ (m : ℕ) : halvings (m + 1) = 2 ^ m :: halvings m := by
  simp [halvings, List.range_succ]

/-- Lane 0 ends with the sum of the first `2 ^ m` registers. -/
theorem reduceDown_zero (m : ℕ) (fits : 2 ^ m ≤ width) (x : ℕ → M) :
    reduceDown (halvings m) x 0 = ∑ l ∈ range (2 ^ m), x l := by
  induction m generalizing x with
  | zero => simp [reduceDown, halvings]
  | succ m ih =>
      have half : 2 ^ (m + 1) = 2 ^ m + 2 ^ m := by rw [pow_succ, mul_two]
      have unfolded : reduceDown (halvings (m + 1)) x 0 =
          reduceDown (halvings m) (fun lane => x lane + shflDown x (2 ^ m) lane) 0 := by
        rw [halvings_succ]
        rfl
      rw [unfolded, ih (by omega), half, sum_range_add, ← sum_add_distrib]
      refine sum_congr rfl fun l hl => ?_
      have partner : l + 2 ^ m < width := by
        have := mem_range.1 hl
        omega
      rw [shflDown, if_pos partner, Nat.add_comm (2 ^ m) l]

/-- Lane `l` ends with the sum over the butterfly orbit of `l`. -/
theorem reduceXor_apply (m : ℕ) (x : ℕ → M) (l : ℕ) :
    reduceXor (halvings m) x l = ∑ j ∈ range (2 ^ m), x (l ^^^ j) := by
  induction m generalizing x with
  | zero => simp [reduceXor, halvings]
  | succ m ih =>
      have half : 2 ^ (m + 1) = 2 ^ m + 2 ^ m := by rw [pow_succ, mul_two]
      have unfolded : reduceXor (halvings (m + 1)) x l =
          reduceXor (halvings m) (fun lane => x lane + shflXor x (2 ^ m) lane) l := by
        rw [halvings_succ]
        rfl
      rw [unfolded, ih, half, sum_range_add, ← sum_add_distrib]
      refine sum_congr rfl fun j hj => ?_
      have below : j < 2 ^ m := mem_range.1 hj
      have flip : j ^^^ 2 ^ m = 2 ^ m + j := by
        apply Nat.eq_of_testBit_eq
        intro i
        have := Nat.testBit_two_pow_add_eq j m
        rcases lt_trichotomy i m with h | h | h
        · rw [Nat.testBit_xor, Nat.testBit_two_pow_of_ne (by omega),
            Nat.testBit_two_pow_add_gt h]
          simp
        · subst h
          rw [Nat.testBit_xor, Nat.testBit_two_pow_self, Nat.testBit_two_pow_add_eq,
            Nat.testBit_lt_two_pow below]
          rfl
        · have big : 2 ^ m + j < 2 ^ i :=
            calc 2 ^ m + j < 2 ^ (m + 1) := by omega
              _ ≤ 2 ^ i := Nat.pow_le_pow_right (by omega) h
          rw [Nat.testBit_xor, Nat.testBit_two_pow_of_ne (by omega),
            Nat.testBit_lt_two_pow big, Nat.testBit_lt_two_pow (by omega)]
          rfl
      rw [shflXor, Nat.xor_assoc, flip]

/-- The butterfly over the whole warp leaves the total in every lane. -/
theorem reduceXor_eq_sum (x : ℕ → M) {l : ℕ} (hl : l < width) :
    reduceXor [16, 8, 4, 2, 1] x l = ∑ j ∈ range width, x j := by
  have whole := reduceXor_apply 5 x l
  rw [show halvings 5 = [16, 8, 4, 2, 1] from by decide] at whole
  rw [whole]
  have closed : ∀ j ∈ range width, l ^^^ j ∈ range width := fun j hj =>
    mem_range.2 (Nat.xor_lt_two_pow (n := 5) hl (mem_range.1 hj))
  refine sum_nbij' (l ^^^ ·) (l ^^^ ·) closed closed ?_ ?_ fun j _ => rfl
  all_goals
    intro j _
    simp

theorem reduceDown_eq_sum (x : ℕ → M) :
    reduceDown [16, 8, 4, 2, 1] x 0 = ∑ j ∈ range width, x j := by
  have whole := reduceDown_zero 5 (by decide) x
  rwa [show halvings 5 = [16, 8, 4, 2, 1] from by decide] at whole

/-! ### Lane-strided loops -/

/-- `for (i = lane; i < n; i += stride) acc += f i`. -/
def stridedSum (stride n : ℕ) (f : ℕ → M) (lane : ℕ) : M :=
  ((List.range ((n - lane + stride - 1) / stride)).map fun k => f (lane + k * stride)).sum

/-- The lanes of a strided loop share out the whole index range. -/
theorem sum_stridedSum {stride : ℕ} (pos : 0 < stride) (n : ℕ) (f : ℕ → M) :
    ∑ lane ∈ range stride, stridedSum stride n f lane = ∑ i ∈ range n, f i := by
  have lanes : ∀ i ∈ range n, i % stride ∈ range stride := fun i _ =>
    mem_range.2 (Nat.mod_lt i pos)
  rw [← sum_fiberwise_of_maps_to lanes]
  refine sum_congr rfl fun lane hlane => ?_
  have hlane : lane < stride := mem_range.1 hlane
  rw [stridedSum, ← List.sum_toFinset _ (List.nodup_range), List.toFinset_range]
  refine sum_nbij' (fun k => lane + k * stride) (· / stride) ?_ ?_ ?_ ?_ fun _ _ => rfl
  · intro k hk
    have bound : k + 1 ≤ (n - lane + stride - 1) / stride := mem_range.1 hk
    have scaled := (Nat.le_div_iff_mul_le pos).1 bound
    rw [Nat.add_mul, Nat.one_mul] at scaled
    refine mem_filter.2 ⟨mem_range.2 (by omega), ?_⟩
    rw [Nat.add_mul_mod_self_right, Nat.mod_eq_of_lt hlane]
  · intro i hi
    obtain ⟨below, here⟩ := mem_filter.1 hi
    have split := Nat.div_add_mod' i stride
    have := mem_range.1 below
    refine mem_range.2 ((Nat.le_div_iff_mul_le pos).2 ?_)
    rw [Nat.succ_mul]
    omega
  · intro k _
    rw [Nat.add_mul_div_right _ _ pos, Nat.div_eq_of_lt hlane, Nat.zero_add]
  · intro i hi
    have here := (mem_filter.1 hi).2
    have split := Nat.div_add_mod' i stride
    omega

/-! ### The Kogge–Stone scan -/

/-- `y = __shfl_up_sync(x, d); if (lane >= d) x += y` for each distance. -/
def scanUp (ds : List ℕ) (x : ℕ → M) : ℕ → M :=
  ds.foldl (fun x d lane => if d ≤ lane then x lane + shflUp x d lane else x lane) x

/-- The distances `1, 2, …, 2 ^ (m - 1)`. -/
def doublings (m : ℕ) : List ℕ := (List.range m).map (2 ^ ·)

/-- After the distances up to `2 ^ (m - 1)` a lane holds its last
`min (2 ^ m) (lane + 1)` registers, added up. -/
theorem scanUp_window (m : ℕ) (x : ℕ → M) (lane : ℕ) :
    scanUp (doublings m) x lane = ∑ i ∈ range (min (2 ^ m) (lane + 1)), x (lane - i) := by
  induction m generalizing lane with
  | zero => simp [scanUp, doublings]
  | succ m ih =>
      have half : 2 ^ (m + 1) = 2 ^ m + 2 ^ m := by rw [pow_succ, mul_two]
      have last : scanUp (doublings (m + 1)) x lane =
          if 2 ^ m ≤ lane then
            scanUp (doublings m) x lane + shflUp (scanUp (doublings m) x) (2 ^ m) lane
          else scanUp (doublings m) x lane := by
        simp [scanUp, doublings, List.range_succ, List.map_append, List.foldl_append]
      rw [last]
      by_cases reach : 2 ^ m ≤ lane
      · have near : min (2 ^ m) (lane + 1) = 2 ^ m := by omega
        have far : min (2 ^ (m + 1)) (lane + 1) =
            2 ^ m + min (2 ^ m) (lane - 2 ^ m + 1) := by omega
        rw [if_pos reach, shflUp, if_pos reach, ih, ih, near, far, sum_range_add]
        congr 1
        refine sum_congr rfl fun i _ => ?_
        rw [Nat.sub_sub]
      · have same : min (2 ^ (m + 1)) (lane + 1) = min (2 ^ m) (lane + 1) := by omega
        rw [if_neg reach, ih, same]

/-- The scan is inclusive on every lane the distances cover. -/
theorem scanUp_eq_sum {m lane : ℕ} (covered : lane < 2 ^ m) (x : ℕ → M) :
    scanUp (doublings m) x lane = ∑ i ∈ range (lane + 1), x i := by
  rw [scanUp_window, Nat.min_eq_right (by omega), ← sum_range_reflect x (lane + 1)]
  rfl

end Warp
