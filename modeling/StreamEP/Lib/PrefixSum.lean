import Mathlib.Algebra.BigOperators.Intervals
import Mathlib.Algebra.Order.BigOperators.Group.Finset
import Mathlib.Algebra.Order.Group.Nat
import Mathlib.Data.Nat.Count
import Mathlib.Data.Nat.Nth
import Mathlib.Tactic.Ring

/-!
# Prefix sums and the intervals they tile

A family of block sizes `f 0, f 1, …, f (n - 1)`, laid out one after the other,
covers `[0, ∑ f)` without gap or overlap: position `x` lies in exactly one
block.  Every allocator below that hands out storage from a prefix sum rests on
the two halves of that fact, `exists_block` (no gap) and `block_unique` (no
overlap).

**Counting is a prefix sum of zeros and ones.**  `Nat.count p n` numbers the
positions that satisfy `p`, and the numbers it gives to the positions below `n`
are exactly `0, …, count p n - 1` (`exists_count_eq`).

**Blocks as lists.**  When a list is put together block by block, an entry of a block stands
behind all entries of the blocks before it (`getElem?_flatMap_range`).

**Flattening.**  Two-dimensional tables are stored row after row, so sums over
the flat index split into a double sum (`sum_range_mul`).  A flat index determines its row and its
column (`flat_inj`), which is how stores into a table are kept apart.
-/

namespace PrefixSum

open Finset

variable {f : ℕ → ℕ} {n i j x : ℕ}

/-! ### Blocks laid out by an exclusive prefix sum -/

/-- A block ends where the next one starts, so no block passes the total. -/
theorem block_le_total (hi : i < n) :
    ∑ k ∈ range i, f k + f i ≤ ∑ k ∈ range n, f k := by
  rw [← sum_range_succ]
  exact sum_le_sum_of_subset (range_mono hi)

theorem prefix_mono (h : i ≤ j) : ∑ k ∈ range i, f k ≤ ∑ k ∈ range j, f k :=
  sum_le_sum_of_subset (range_mono h)

/-- **No gap.**  Every position below the total lies in some block. -/
theorem exists_block (hx : x < ∑ k ∈ range n, f k) :
    ∃ i < n, ∑ k ∈ range i, f k ≤ x ∧ x < ∑ k ∈ range i, f k + f i := by
  induction n with
  | zero => simp at hx
  | succ n ih =>
      rw [sum_range_succ] at hx
      by_cases h : x < ∑ k ∈ range n, f k
      · obtain ⟨i, hi, hlo, hhi⟩ := ih h
        exact ⟨i, by omega, hlo, hhi⟩
      · exact ⟨n, by omega, by omega, hx⟩

/-- **No overlap.**  Two blocks that share a position are the same block. -/
theorem block_unique
    (hi : ∑ k ∈ range i, f k ≤ x ∧ x < ∑ k ∈ range i, f k + f i)
    (hj : ∑ k ∈ range j, f k ≤ x ∧ x < ∑ k ∈ range j, f k + f j) : i = j := by
  rcases lt_trichotomy i j with h | h | h
  · have := block_le_total (f := f) h
    omega
  · exact h
  · have := block_le_total (f := f) h
    omega

/-! ### Positions numbered by `Nat.count` -/

/-- The count restarted at `a` is the count of the shifted predicate. -/
theorem count_sub_count {p : ℕ → Prop} [DecidablePred p] {a b : ℕ} (h : a ≤ b) :
    Nat.count p b = Nat.count p a + Nat.count (fun k => p (a + k)) (b - a) := by
  rw [← Nat.count_add, Nat.add_sub_cancel' h]

/-- A counted position has a number below the count of everything. -/
theorem count_lt_of_mem {p : ℕ → Prop} [DecidablePred p] (hp : p x) (hx : x < n) :
    Nat.count p x < Nat.count p n :=
  Nat.count_strict_mono hp hx

/-- Every number below the count is the number of exactly one position. -/
theorem exists_count_eq {p : ℕ → Prop} [DecidablePred p] (h : i < Nat.count p n) :
    ∃ x < n, p x ∧ Nat.count p x = i := by
  have finite_lt : ∀ hf : (Set.ofPred p).Finite, i < hf.toFinset.card := fun hf =>
    lt_of_lt_of_le h (Nat.count_le_card hf n)
  exact ⟨Nat.nth p i, Nat.nth_lt_of_lt_count h, Nat.nth_mem i finite_lt,
    Nat.count_nth finite_lt⟩

/-- Counting inside a window is a difference of two counts. -/
theorem count_window {p : ℕ → Prop} [DecidablePred p] {a b : ℕ} (hab : a ≤ b)
    (hbn : b ≤ n) :
    Nat.count (fun k => (a ≤ k ∧ k < b) ∧ p k) n = Nat.count p b - Nat.count p a := by
  have clipped : ∀ m, Nat.count (fun k => (a ≤ k ∧ k < b) ∧ p k) m =
      Nat.count p (min m b) - Nat.count p (min m a) := by
    intro m
    induction m with
    | zero => simp
    | succ m ih =>
        have mono : Nat.count p (min m a) ≤ Nat.count p (min m b) :=
          Nat.count_monotone p (by omega)
        rw [Nat.count_succ, ih]
        by_cases early : m < a
        · rw [if_neg (by omega), Nat.min_eq_left (by omega : m + 1 ≤ b),
            Nat.min_eq_left (by omega : m + 1 ≤ a), Nat.min_eq_left (by omega : m ≤ b),
            Nat.min_eq_left (by omega : m ≤ a)]
          omega
        · by_cases late : b ≤ m
          · rw [if_neg (by omega), Nat.min_eq_right (by omega : b ≤ m + 1),
              Nat.min_eq_right (by omega : a ≤ m + 1), Nat.min_eq_right late,
              Nat.min_eq_right (by omega : a ≤ m)]
            omega
          · rw [Nat.min_eq_left (by omega : m ≤ b), Nat.min_eq_right (by omega : a ≤ m)]
              at mono
            rw [Nat.min_eq_left (by omega : m + 1 ≤ b),
              Nat.min_eq_right (by omega : a ≤ m + 1), Nat.min_eq_left (by omega : m ≤ b),
              Nat.min_eq_right (by omega : a ≤ m), Nat.count_succ,
              Nat.sub_add_comm mono]
            have inside : a ≤ m ∧ m < b := by omega
            simp only [inside, and_self, true_and]
  rw [clipped, Nat.min_eq_right hbn, Nat.min_eq_right (by omega)]

/-- Counting is summing the indicator. -/
theorem count_eq_sum (p : ℕ → Prop) [DecidablePred p] (n : ℕ) :
    Nat.count p n = ∑ k ∈ range n, if p k then 1 else 0 := by
  rw [Nat.count_eq_card_filter_range, card_filter]

/-! ### Blocks as lists -/

/-- Numbering the blocks of a tiling block by block numbers the whole range. -/
theorem flatMap_blocks (f : ℕ → ℕ) (n : ℕ) :
    ((List.range n).flatMap fun i =>
        (List.range (f i)).map fun j => ∑ k ∈ range i, f k + j) =
      List.range (∑ k ∈ range n, f k) := by
  induction n with
  | zero => rfl
  | succ n ih =>
      rw [List.range_succ, List.flatMap_append, ih, sum_range_succ, List.range_add]
      simp

theorem length_flatMap_range {α : Type*} (l : ℕ → List α) (n : ℕ) :
    ((List.range n).flatMap l).length = ∑ k ∈ range n, (l k).length := by
  rw [List.length_flatMap, ← List.sum_toFinset _ List.nodup_range, List.toFinset_range]

/-- A list stands behind those before it. -/
theorem getElem?_flatMap_range {α : Type*} (l : ℕ → List α) {n j i : ℕ} (hj : j < n)
    (hi : i < (l j).length) :
    ((List.range n).flatMap l)[∑ k ∈ range j, (l k).length + i]? = (l j)[i]? := by
  induction n with
  | zero => exact absurd hj (Nat.not_lt_zero j)
  | succ n ih =>
    have length := length_flatMap_range l n
    rw [List.range_succ, List.flatMap_append, List.flatMap_singleton]
    rcases Nat.lt_succ_iff_lt_or_eq.1 hj with before | rfl
    · have block := block_le_total (f := fun k => (l k).length) before
      rw [List.getElem?_append_left (by omega)]
      exact ih before
    · rw [List.getElem?_append_right (by omega), length, Nat.add_sub_cancel_left]

/-! ### Row-major flattening -/

variable {M : Type*} [AddCommMonoid M]

/-- A sum over a row-major table is the sum of its row sums. -/
theorem sum_range_mul (g : ℕ → M) (rows cols : ℕ) :
    ∑ k ∈ range (rows * cols), g k =
      ∑ r ∈ range rows, ∑ c ∈ range cols, g (r * cols + c) := by
  induction rows with
  | zero => simp
  | succ r ih => rw [Nat.succ_mul, sum_range_add, ih, sum_range_succ]

/-- A table listed by columns is, up to the order, the table listed by rows. -/
theorem perm_flatMap_flat {α : Type*} (rows cols parts : ℕ) (f : ℕ → ℕ → List α) :
    ((List.range cols).flatMap fun c => (List.range parts).flatMap fun p =>
        (List.range rows).flatMap fun r => f (r * cols + c) p).Perm
      ((List.range (rows * cols)).flatMap fun x => (List.range parts).flatMap (f x)) := by
  classical
  have counted : ∀ (n : ℕ) (f : ℕ → List α) (a : α),
      ((List.range n).flatMap f).count a = ∑ i ∈ range n, (f i).count a := by
    intro n f a
    rw [List.count_flatMap, ← List.sum_toFinset _ List.nodup_range, List.toFinset_range]
    rfl
  refine List.perm_iff_count.2 fun a => ?_
  simp only [counted]
  refine Eq.symm ?_
  rw [sum_range_mul, sum_comm]
  exact sum_congr rfl fun c _ => sum_comm

/-- A row-major table listed by its flat index is listed row by row. -/
theorem flatMap_range_mul {α : Type*} (f : ℕ → List α) (rows cols : ℕ) :
    (List.range (rows * cols)).flatMap f =
      (List.range rows).flatMap fun r => (List.range cols).flatMap fun c => f (r * cols + c) := by
  induction rows with
  | zero => simp
  | succ r ih =>
    rw [Nat.succ_mul, List.range_add, List.flatMap_append, ih, List.range_succ,
      List.flatMap_append, List.flatMap_singleton, List.flatMap_map]

/-- How often an entry is in a list, as a sum over the list. -/
theorem sum_indicator {α : Type*} [DecidableEq α] (l : List α) (a : α) :
    (l.map fun b => if b = a then 1 else 0).sum = l.count a := by
  induction l with
  | nil => rfl
  | cons b l ih =>
    rw [List.map_cons, List.sum_cons, ih, List.count_cons, Nat.add_comm]
    simp only [beq_iff_eq]

/-- The sum over a list of lists is the sum of their sums. -/
theorem sum_flatMap_range {α : Type*} (f : α → M) (g : ℕ → List α) (n : ℕ) :
    (((List.range n).flatMap g).map f).sum = ∑ i ∈ range n, ((g i).map f).sum := by
  induction n with
  | zero => rfl
  | succ n ih =>
    rw [List.range_succ, List.flatMap_append, List.map_append, List.sum_append, ih,
      List.flatMap_singleton, sum_range_succ]

/-- Indices that list nothing can be left out at the end. -/
theorem flatMap_range_of_le {α : Type*} {f : ℕ → List α} {m n : ℕ} (le : m ≤ n)
    (none : ∀ i, m ≤ i → f i = []) : (List.range n).flatMap f = (List.range m).flatMap f := by
  obtain ⟨k, rfl⟩ := Nat.exists_eq_add_of_le le
  have rest : ((List.range k).map (m + ·)).flatMap f = [] := by
    rw [List.flatMap_eq_nil_iff]
    intro i mem
    obtain ⟨j, -, rfl⟩ := List.mem_map.1 mem
    exact none _ (Nat.le_add_right _ _)
  rw [List.range_add, List.flatMap_append, rest, List.append_nil]

/-- Row and column of a flat index. -/
theorem flat_div {r cols c : ℕ} (hc : c < cols) : (r * cols + c) / cols = r := by
  rw [Nat.mul_comm, Nat.mul_add_div (by omega), Nat.div_eq_of_lt hc, Nat.add_zero]

theorem flat_mod {r cols c : ℕ} (hc : c < cols) : (r * cols + c) % cols = c := by
  rw [Nat.mul_comm, Nat.mul_add_mod, Nat.mod_eq_of_lt hc]

theorem flat_lt {r rows cols c : ℕ} (hr : r < rows) (hc : c < cols) :
    r * cols + c < rows * cols := by
  calc r * cols + c < r * cols + cols := by omega
    _ = (r + 1) * cols := by ring
    _ ≤ rows * cols := Nat.mul_le_mul_right cols hr

/-- A flat index determines its row and its column. -/
theorem flat_inj {r r' cols c c' : ℕ} (hc : c < cols) (hc' : c' < cols) :
    r * cols + c = r' * cols + c' ↔ r = r' ∧ c = c' := by
  constructor
  · intro h
    refine ⟨?_, ?_⟩
    · rw [← flat_div (r := r) hc, h, flat_div hc']
    · rw [← flat_mod (r := r) hc, h, flat_mod hc']
  · rintro ⟨rfl, rfl⟩
    rfl

/-- Flat indices are in the order of rows, then columns. -/
theorem flat_lt_flat {r r' cols c c' : ℕ} (hc : c < cols) (hc' : c' < cols) :
    r * cols + c < r' * cols + c' ↔ r < r' ∨ r = r' ∧ c < c' := by
  rcases lt_trichotomy r r' with before | rfl | after
  · have rows := Nat.mul_le_mul_right cols (Nat.succ_le_of_lt before)
    rw [Nat.succ_mul] at rows
    exact iff_of_true (by omega) (Or.inl before)
  · simp
  · have rows := Nat.mul_le_mul_right cols (Nat.succ_le_of_lt after)
    rw [Nat.succ_mul] at rows
    exact iff_of_false (by omega) (by omega)

end PrefixSum
