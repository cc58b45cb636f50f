import Mathlib.Data.List.Range
import StreamEP.Lib.PrefixSum

/-!
# Counted loops

`for (i = 0; i < n; ++i) s = f s i` is a left fold over `List.range n`.  The
invariant rule `for_invariant` is the one induction such loops need, and
`for_nested` turns a loop over rows and columns into one loop over the flat
index.

When one iteration establishes a fact and the others keep it, `for_cell` has it behind the loop;
no invariant is needed for the iterations before.

**Strides.**  `strided` is what `for (t = start; t < stop; t += step)` goes through, as a list.
Its members are `step` apart, lie in the range, and with the steps of neighbours leave nothing
out (`mem_strided`).
-/

namespace Loop

variable {σ : Type*}

/-- The state after `n` iterations. -/
def for' (n : ℕ) (f : σ → ℕ → σ) (s : σ) : σ := (List.range n).foldl f s

@[simp] theorem for'_zero (f : σ → ℕ → σ) (s : σ) : for' 0 f s = s := rfl

theorem for'_succ (n : ℕ) (f : σ → ℕ → σ) (s : σ) :
    for' (n + 1) f s = f (for' n f s) n := by
  simp [for', List.range_succ]

/-- **Invariant rule.**  What holds before the loop and is preserved by every
iteration holds after it. -/
theorem for_invariant {f : σ → ℕ → σ} {s : σ} (Inv : ℕ → σ → Prop) {n : ℕ}
    (init : Inv 0 s) (step : ∀ i < n, ∀ s, Inv i s → Inv (i + 1) (f s i)) :
    Inv n (for' n f s) := by
  induction n with
  | zero => exact init
  | succ n ih =>
      rw [for'_succ]
      exact step n (Nat.lt_succ_self n) _ (ih fun i hi => step i (by omega))

/-- The second loop starts where the first one stopped. -/
theorem for_add (m n : ℕ) (f : σ → ℕ → σ) (s : σ) :
    for' (m + n) f s = for' n (fun s i => f s (m + i)) (for' m f s) := by
  induction n with
  | zero => rfl
  | succ n ih => rw [← Nat.add_assoc, for'_succ, for'_succ, ih]

/-- Rows and columns are one loop over the flat index. -/
theorem for_nested (rows cols : ℕ) (f : σ → ℕ → σ) (s : σ) :
    for' rows (fun s r => for' cols (fun s c => f s (r * cols + c)) s) s =
      for' (rows * cols) f s := by
  induction rows with
  | zero => simp
  | succ r ih => rw [for'_succ, ih, Nat.succ_mul, for_add]

theorem for_congr {n : ℕ} {f g : σ → ℕ → σ} {s : σ}
    (same : ∀ i < n, ∀ s, f s i = g s i) : for' n f s = for' n g s := by
  induction n with
  | zero => rfl
  | succ n ih =>
      rw [for'_succ, for'_succ, ih fun i hi => same i (by omega), same n (by omega)]

/-- One iteration establishes a fact, the others keep it. -/
theorem for_cell {f : σ → ℕ → σ} (P : σ → Prop) {i n : ℕ} (hi : i < n)
    (sets : ∀ s, P (f s i)) (keeps : ∀ j < n, j ≠ i → ∀ s, P s → P (f s j)) (s : σ) :
    P (for' n f s) := by
  have after := for_invariant (f := f) (s := s) (fun j s => i < j → P s) (n := n)
    (fun none => absurd none (Nat.not_lt_zero i)) (fun j hj s before now => by
      rcases eq_or_ne j i with rfl | other
      · exact sets s
      · exact keeps j hj other s (before (by omega)))
  exact after hi

/-! ### Strides -/

/-- What `for (t = start; t < stop; t += step)` goes through. -/
def strided (start stop step : ℕ) : List ℕ :=
  List.range' start ((stop - start + step - 1) / step) step

section Strided

variable {start stop step t : ℕ}

theorem strided_apart : (strided start stop step).Pairwise fun t t' => t + step ≤ t' := by
  refine List.pairwise_iff_getElem.2 fun i j hi hj lt => ?_
  simp only [strided, List.getElem_range']
  have next := Nat.mul_le_mul_left step (Nat.succ_le_of_lt lt)
  rw [Nat.mul_succ] at next
  omega

theorem strided_sorted (pos : 0 < step) : (strided start stop step).Pairwise (· < ·) :=
  strided_apart.imp fun apart => (Nat.lt_add_of_pos_right pos).trans_le apart

theorem inside_of_mem_strided (mem : t ∈ strided start stop step) : start ≤ t ∧ t < stop := by
  obtain ⟨i, below, rfl⟩ := List.mem_range'.1 mem
  refine ⟨Nat.le_add_right _ _, ?_⟩
  rcases Nat.eq_zero_or_pos step with rfl | pos
  · rw [Nat.div_zero] at below
    exact absurd below (Nat.not_lt_zero i)
  · have fits := (Nat.le_div_iff_mul_le pos).1 (Nat.succ_le_of_lt below)
    rw [Nat.succ_mul, Nat.mul_comm] at fits
    omega

/-- Warps that start next to each other leave nothing out. -/
theorem mem_strided (pos : 0 < step) (lo : start ≤ t) (hi : t < stop) :
    t ∈ strided (start + (t - start) % step) stop step := by
  have split := Nat.mod_add_div (t - start) step
  refine List.mem_range'.2 ⟨(t - start) / step, ?_, by omega⟩
  refine Nat.lt_of_succ_le ((Nat.le_div_iff_mul_le pos).2 ?_)
  rw [Nat.succ_mul, Nat.mul_comm]
  omega

/-- The chunk that a number falls into. -/
theorem chunk_mem_strided (pos : 0 < step) (hi : t < stop) :
    t / step * step ∈ strided 0 stop step := by
  have mem := mem_strided pos (Nat.zero_le (t / step * step))
    ((Nat.div_mul_le_self t step).trans_lt hi)
  rwa [Nat.sub_zero, Nat.mul_mod_left] at mem

end Strided

end Loop
