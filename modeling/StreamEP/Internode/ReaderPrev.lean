import Mathlib.Data.Fin.VecNotation
import Mathlib.Tactic.FinCases
import StreamEP.Internode.RingPhase
import StreamEP.Lib.CasMax
import StreamEP.Lib.WrapCounter

/-!
# Writing the cumulative counters back

The `reader_prev_*` arrays keep, from one iteration to the next, where a link's cumulative
counter stood.  Several warps write the same word back, each with the count it knows.  The
counts wrap, so the warps do not take a maximum of words: `atomicmax_reader_prev_cumulative`
swaps a count in if its signed difference to the word is positive.

As long as the counts lie in half the range ahead of the first word, the difference orders
them by their distance from it, on whichever side of a wrap they are.

The loops of compare-and-swap are those of the library, for any test that says when a value is
ahead of another one; here the test is the sign of a difference of words, and
`ordered_of_window` is the fact the rules ask for.  `reader_prev_is_latest` is what follows:
over any interleaving the word only goes forward, every call returns, and the word that stays is
the furthest count. `word_eq_foldl` says that interleaved calls leave what calls one after the
other leave, which is how the models of whole iterations have the write-back.
-/

namespace StreamEP.Internode

open Finset WrapCounter

variable {ι : Type*}

/-- `static_cast<int32_t>(cur_low - old) > 0` -/
def isAhead (curLow old : BitVec 32) : Bool := decide (0 < diff curLow old)

/-- Calls of `atomicmax_reader_prev_cumulative` on one word, access by access. -/
def readerPrevCalls [DecidableEq ι] (prevAddr : BitVec 32) (curLow : ι → BitVec 32) :
    TransitionSystem (CasMax.State ι (BitVec 32)) (CasMax.Event ι) :=
  CasMax.system isAhead curLow prevAddr

/-- The counts are in the half of the range that starts with the word. -/
def InWindow (prevAddr : BitVec 32) (curLow : ι → BitVec 32) : Prop :=
  ∀ i, (curLow i - prevAddr).toNat < 2 ^ 31

variable {prevAddr : BitVec 32} {curLow : ι → BitVec 32}

/-- In the window the signed difference is that of the distances. -/
theorem diff_eq_sub {u v : BitVec 32} (hu : (u - prevAddr).toNat < 2 ^ 31)
    (hv : (v - prevAddr).toNat < 2 ^ 31) :
    diff u v = ((u - prevAddr).toNat : ℤ) - (v - prevAddr).toNat := by
  have word : ∀ x : BitVec 32, x = BitVec.ofNat 32 (prevAddr.toNat + (x - prevAddr).toNat) := by
    intro x
    rw [BitVec.ofNat_add, BitVec.ofNat_toNat, BitVec.ofNat_toNat, BitVec.setWidth_eq,
      BitVec.setWidth_eq, BitVec.add_comm, BitVec.sub_add_cancel]
  have here := @diff_ofNat 32 (by decide) (prevAddr.toNat + (u - prevAddr).toNat)
    (prevAddr.toNat + (v - prevAddr).toNat) (by omega) (by omega)
  rw [← word u, ← word v] at here
  rw [here]
  omega

section Window

variable (window : InWindow prevAddr curLow)

include window

theorem offset_lt {v : BitVec 32} (occurs : CasMax.Occurs curLow prevAddr v) :
    (v - prevAddr).toNat < 2 ^ 31 := by
  rcases occurs with rfl | ⟨i, rfl⟩
  · rw [BitVec.sub_self]
    decide
  · exact window i

/-- The code's test compares distances. -/
theorem ordered_of_window :
    CasMax.Ordered isAhead curLow prevAddr fun v => (v - prevAddr).toNat where
  ahead_iff i v occurs := by
    rw [isAhead, decide_eq_true_iff, diff_eq_sub (window i) (offset_lt window occurs)]
    omega
  inj v v' _ _ same := by
    have words : v - prevAddr = v' - prevAddr := BitVec.eq_of_toNat_eq same
    rw [← BitVec.sub_add_cancel v prevAddr, words, BitVec.sub_add_cancel]
  least i := by
    rw [BitVec.sub_self]
    exact Nat.zero_le _

end Window

/-- One call after the other, as the model of an iteration has it, keeps the furthest. -/
theorem foldl_furthest (window : InWindow prevAddr curLow) (calls : List ι) {word : BitVec 32}
    (occurs : CasMax.Occurs curLow prevAddr word) :
    let last := (calls.map curLow).foldl atomicmaxReaderPrevCumulative word
    CasMax.Occurs curLow prevAddr last ∧ (word - prevAddr).toNat ≤ (last - prevAddr).toNat ∧
      ∀ i ∈ calls, (curLow i - prevAddr).toNat ≤ (last - prevAddr).toNat := by
  induction calls generalizing word with
  | nil => exact ⟨occurs, le_rfl, fun i mem => absurd mem List.not_mem_nil⟩
  | cons i calls ih =>
      have order := (ordered_of_window window).ahead_iff i word occurs
      have call : CasMax.Occurs curLow prevAddr (atomicmaxReaderPrevCumulative word (curLow i)) ∧
          (word - prevAddr).toNat ≤
            (atomicmaxReaderPrevCumulative word (curLow i) - prevAddr).toNat ∧
          (curLow i - prevAddr).toNat ≤
            (atomicmaxReaderPrevCumulative word (curLow i) - prevAddr).toNat := by
        rw [isAhead, decide_eq_true_iff] at order
        rw [atomicmaxReaderPrevCumulative, advance]
        split_ifs with lead
        · exact ⟨.inr ⟨i, rfl⟩, (order.1 lead).le, le_rfl⟩
        · exact ⟨occurs, le_rfl, not_lt.1 fun less => lead (order.2 less)⟩
      obtain ⟨last, least, others⟩ := ih call.1
      refine ⟨last, call.2.1.trans least, fun j mem => ?_⟩
      rcases List.mem_cons.1 mem with rfl | mem
      · exact call.2.2.trans least
      · exact others j mem

/-- **Interleaved calls leave what calls one after the other leave.** -/
theorem word_eq_foldl [DecidableEq ι] [Fintype ι] (window : InWindow prevAddr curLow)
    {s : CasMax.State ι (BitVec 32)} (reach : (readerPrevCalls prevAddr curLow).Reachable s)
    (returned : ∀ i, s.call i = .returned) {calls : List ι} (all : ∀ i, i ∈ calls) :
    s.word = (calls.map curLow).foldl atomicmaxReaderPrevCumulative prevAddr := by
  have ordered := ordered_of_window window
  obtain ⟨occurs, furthest⟩ := CasMax.word_of_returned ordered reach returned
  obtain ⟨last, start, others⟩ := foldl_furthest window calls (.inl rfl)
  refine ordered.inj _ _ occurs last (le_antisymm ?_ ?_)
  · rcases occurs with same | ⟨i, same⟩
    · rw [same]
      exact start
    · rw [same]
      exact others i (all i)
  · have first : (prevAddr - prevAddr).toNat ≤ (s.word - prevAddr).toNat := by
      rw [BitVec.sub_self]
      exact Nat.zero_le _
    rcases last with same | ⟨i, same⟩
    · rw [same]
      exact first
    · rw [same]
      exact furthest i

/-- **The latest count stays.**  Over any run of the calls the word only goes forward; a call
fails at most once for each other call that succeeds, so it returns after a bounded number of
accesses; and when all have returned, no count is ahead of the word, which is one of the
counts unless none was ahead at the start. -/
theorem reader_prev_is_latest [DecidableEq ι] [Fintype ι] (window : InWindow prevAddr curLow)
    {es : List (CasMax.Event ι)} {s : CasMax.State ι (BitVec 32)}
    (replay : (readerPrevCalls prevAddr curLow).run
      (readerPrevCalls prevAddr curLow).init es = some s) :
    (∀ s', (readerPrevCalls prevAddr curLow).Leads s s' →
      0 ≤ diff s'.word s.word) ∧
    (∀ i, s.failures i ≤ (univ.filter fun j => j ≠ i ∧ 0 < s.swaps j).card ∧ s.swaps i ≤ 1 ∧
      es.countP (·.caller = i) ≤ Fintype.card ι + 1 ∧
      (s.call i ≠ .returned → ∃ e s', CasMax.Event.caller e = i ∧
        (readerPrevCalls prevAddr curLow).step s e = some s')) ∧
    ((∀ i, s.call i = .returned) → (∀ i, 0 ≤ diff s.word (curLow i)) ∧
      ((∀ i, isAhead (curLow i) prevAddr = false) → s.word = prevAddr) ∧
      ((∃ i, isAhead (curLow i) prevAddr = true) → ∃ i, s.word = curLow i)) := by
  have ordered := ordered_of_window window
  have reach : (readerPrevCalls prevAddr curLow).Reachable s := .run .init replay
  have value := offset_lt window (CasMax.inv_of_reachable ordered reach).occurs
  refine ⟨fun s' leads => ?_, fun i => ?_, fun returned => ?_⟩
  · have later : (readerPrevCalls prevAddr curLow).Reachable s' := by
      obtain ⟨es', more⟩ := leads
      exact reach.run more
    have value' := offset_lt window (CasMax.inv_of_reachable ordered later).occurs
    have forward := CasMax.pos_le_of_leads ordered reach leads
    rw [diff_eq_sub value' value]
    omega
  · obtain ⟨once, bound⟩ := CasMax.failures_le ordered reach i
    exact ⟨bound, once, CasMax.countP_caller_le ordered replay i, CasMax.exists_access⟩
  · obtain ⟨occurs, furthest⟩ := CasMax.word_of_returned ordered reach returned
    refine ⟨fun i => ?_, fun none => ?_, ?_⟩
    · have least := furthest i
      rw [diff_eq_sub value (window i)]
      omega
    · rcases occurs with start | ⟨j, same⟩
      · exact start
      · have behind : ¬ (prevAddr - prevAddr).toNat < (curLow j - prevAddr).toNat := fun less =>
          absurd ((ordered.ahead_iff j _ (.inl rfl)).2 less) (by rw [none j]; decide)
        rw [same]
        exact ordered.inj _ _ (.inr ⟨j, rfl⟩) (.inl rfl)
          (le_antisymm (not_lt.1 behind) (ordered.least j))
    · rintro ⟨i, lead⟩
      rcases occurs with start | other
      · have less := (ordered.ahead_iff i _ (.inl rfl)).1 lead
        have least := furthest i
        rw [start] at least
        exact absurd less least.not_gt
      · exact other

/-- Counts on both sides of a wrap; the one that is behind fails and gives up. -/
def latestWins : List (CasMax.Event (Fin 2)) :=
  [.load ⟨0, Nat.two_pos⟩, .load ⟨1, Nat.one_lt_two⟩, .cas ⟨1, Nat.one_lt_two⟩,
    .cas ⟨0, Nat.two_pos⟩]

theorem reader_prev_is_latest_wrapped :
    ∃ s, (readerPrevCalls 0xfffffff0 ![0xfffffffe, 3]).run
        (readerPrevCalls 0xfffffff0 ![0xfffffffe, 3]).init latestWins = some s ∧
      s.word = 3 ∧ s.failures 0 = 1 ∧ ∀ i, 0 ≤ diff s.word (![0xfffffffe, 3] i) := by
  have window : InWindow 0xfffffff0 ![0xfffffffe, 3] := by
    intro i
    fin_cases i <;> decide
  have replay : ∃ s, (readerPrevCalls 0xfffffff0 ![0xfffffffe, 3]).run
      (readerPrevCalls 0xfffffff0 ![0xfffffffe, 3]).init latestWins = some s ∧
      s.word = 3 ∧ s.failures 0 = 1 ∧ s.call 0 = .returned ∧ s.call 1 = .returned :=
    ⟨_, rfl, rfl, rfl, rfl, rfl⟩
  obtain ⟨s, replay, word, failed, first, second⟩ := replay
  have returned : ∀ i, s.call i = .returned := by
    intro i
    fin_cases i
    · exact first
    · exact second
  exact ⟨s, replay, word, failed, ((reader_prev_is_latest window replay).2.2 returned).1⟩

end StreamEP.Internode
