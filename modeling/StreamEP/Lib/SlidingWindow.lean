import Mathlib.Data.Nat.Init
import Mathlib.Data.Int.Basic
import Mathlib.Order.Bounds.Defs

/-!
# A window over the steps of a sequence

Workers finish the steps of a sequence in any order.  `tail` counts the finished prefix, and
bit `k` of the window is set when the step `k` places behind it is finished; a worker that
is too far ahead waits.

`Tracks` says that tail and window describe a given set of finished steps, and `mark_tracks`
that finishing one more step keeps this.

When the step at the tail is finished, the window is shifted by the run of set bits at its bottom,
and the tail moves on by as much.  Behind the run stands a bit that is not set (`getLsbD_run`), so
the tail is the length of the longest part at the front that is finished (`isGreatest`), and not
only of some part.  The width is any number, and the whole window may be shifted out at once.
-/

/-- The finished prefix, and the finished ones among the next `w` steps. -/
structure SlidingWindow (w : ℕ) where
  tail : ℕ
  bits : BitVec w

namespace SlidingWindow

variable {w : ℕ}

def empty : SlidingWindow w := ⟨0, 0⟩

/-- Length of the run of set bits at the bottom. -/
def run (bits : BitVec w) : ℕ := (~~~bits).ctz.toNat

/-- Finish step `j`; `none` as long as the window does not reach it. -/
def mark (s : SlidingWindow w) (j : ℕ) : Option (SlidingWindow w) :=
  if j - s.tail < w then
    let bits := s.bits ||| 1#w <<< (j - s.tail)
    if j - s.tail = 0 then some ⟨s.tail + run bits, bits >>> run bits⟩
    else some ⟨s.tail, bits⟩
  else none

/-- The finished steps are those of `done`. -/
structure Tracks (s : SlidingWindow w) (done : ℕ → Prop) : Prop where
  below : ∀ j < s.tail, done j
  next : ¬done s.tail
  bits : ∀ k, done (s.tail + k) ↔ s.bits.getLsbD k = true

theorem empty_tracks : (empty : SlidingWindow w).Tracks fun _ => False where
  below _ lt := absurd lt (Nat.not_lt_zero _)
  next := id
  bits k := by simp [empty]

theorem run_le (bits : BitVec w) : run bits ≤ w := by
  have le : (~~~bits).ctz ≤ w := by
    rw [BitVec.ctz_eq_reverse_clz]
    exact BitVec.clz_le
  rw [BitVec.le_def, BitVec.natCast_eq_ofNat, BitVec.toNat_ofNat] at le
  exact Nat.le_trans le (Nat.mod_le _ _)

theorem getLsbD_of_lt_run {bits : BitVec w} {k : ℕ} (lt : k < run bits) :
    bits.getLsbD k = true := by
  have clear : (~~~bits).getLsbD k = false := BitVec.getLsbD_false_of_lt_ctz lt
  rw [BitVec.getLsbD_not, decide_eq_true (Nat.lt_of_lt_of_le lt (run_le bits)),
    Bool.true_and] at clear
  exact (Bool.not_eq_false' _).mp clear

theorem getLsbD_run (bits : BitVec w) : bits.getLsbD (run bits) = false := by
  rcases eq_or_ne (~~~bits) 0#w with full | some
  · -- the run ends at the window's end
    have ge : ¬(~~~bits).ctz < w := fun lt => BitVec.ctz_lt_iff_ne_zero.1 lt full
    rw [BitVec.lt_def, BitVec.natCast_eq_ofNat, BitVec.toNat_ofNat,
      Nat.mod_eq_of_lt Nat.lt_two_pow_self] at ge
    exact BitVec.getLsbD_of_ge _ _ (Nat.le_of_not_lt ge)
  · have set : (~~~bits).getLsbD (run bits) = true := BitVec.getLsbD_true_ctz_of_ne_zero some
    rw [BitVec.getLsbD_not, Bool.and_eq_true] at set
    exact (Bool.not_eq_true' _).mp set.2

/-- A step that is not finished lies behind the finished prefix. -/
theorem Tracks.tail_le {s : SlidingWindow w} {done : ℕ → Prop} (tracks : s.Tracks done) {j : ℕ}
    (new : ¬done j) : s.tail ≤ j :=
  not_lt.1 fun lt => new (tracks.below j lt)

/-- The tail is the length of the longest part at the front that is finished. -/
theorem Tracks.isGreatest {s : SlidingWindow w} {done : ℕ → Prop} (tracks : s.Tracks done) :
    IsGreatest {m | ∀ j < m, done j} s.tail :=
  ⟨tracks.below, fun _ all => not_lt.1 fun beyond => tracks.next (all _ beyond)⟩

/-- **Finishing a step.** -/
theorem mark_tracks {s s' : SlidingWindow w} {done : ℕ → Prop} (tracks : s.Tracks done) {j : ℕ}
    (new : ¬done j) (marks : s.mark j = some s') : s'.Tracks fun k => k = j ∨ done k := by
  have behind := tracks.tail_le new
  simp only [mark, Option.ite_none_right_eq_some] at marks
  obtain ⟨inside, marks⟩ := marks
  have now : ∀ k, (s.tail + k = j ∨ done (s.tail + k)) ↔
      (s.bits ||| 1#w <<< (j - s.tail)).getLsbD k = true := by
    intro k
    rw [BitVec.getLsbD_or, Bool.or_eq_true, ← tracks.bits, ← BitVec.twoPow_eq,
      BitVec.getLsbD_twoPow, Bool.and_eq_true, decide_eq_true_iff, decide_eq_true_iff, or_comm]
    refine or_congr Iff.rfl ⟨fun here => ⟨by omega, by omega⟩, fun ⟨_, same⟩ => by omega⟩
  generalize s.bits ||| 1#w <<< (j - s.tail) = bits at now marks
  split_ifs at marks with bottom
  · obtain rfl := Option.some.inj marks
    -- the run of finished steps at the bottom joins the prefix
    refine ⟨fun k lt => ?_, ?_, fun k => ?_⟩
    · rcases Nat.lt_or_ge k s.tail with before | from_tail
      · exact Or.inr (tracks.below k before)
      · obtain ⟨k, rfl⟩ := Nat.exists_eq_add_of_le from_tail
        exact (now k).2 (getLsbD_of_lt_run (Nat.lt_of_add_lt_add_left lt))
    · dsimp only
      rw [now, getLsbD_run]
      exact Bool.false_ne_true
    · dsimp only
      rw [Nat.add_assoc, now, BitVec.getLsbD_ushiftRight]
  · obtain rfl := Option.some.inj marks
    refine ⟨fun k lt => Or.inr (tracks.below k lt), ?_, now⟩
    rintro (same | done)
    · dsimp only at same
      omega
    · exact tracks.next done

/-- The finished prefix only grows. -/
theorem le_tail_of_mark {s s' : SlidingWindow w} {j : ℕ} (marks : s.mark j = some s') :
    s.tail ≤ s'.tail := by
  simp only [mark, Option.ite_none_right_eq_some] at marks
  obtain ⟨-, marks⟩ := marks
  split_ifs at marks with bottom
  · obtain rfl := Option.some.inj marks
    exact Nat.le_add_right _ _
  · obtain rfl := Option.some.inj marks
    exact Nat.le_refl _

end SlidingWindow
