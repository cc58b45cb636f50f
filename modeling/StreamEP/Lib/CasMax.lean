import Mathlib.Algebra.BigOperators.Group.Finset.Basic
import Mathlib.Algebra.Order.BigOperators.Group.Finset
import Mathlib.Data.Fintype.Basic
import StreamEP.Lib.TransitionSystem

/-!
# A maximum by compare-and-swap

Several calls raise one word.  Each has a value `cur`; it reads the word, and as long as its
value is ahead of what it read it tries to swap it in.  A swap fails if the word is not what
the call read last, and tells it what the word is now.

The test for being ahead need not be an order on all words.  It is enough that it agrees
with some position of those words that occur (`Ordered`).  Then the word only goes forward,
every failure of a call is due to another call's success, and when all have returned the
word is the furthest of all.

**The system.**  An event is one access of one call to the word: its first read, or a swap that
it tries.  Everything between two accesses, the test of the loop included, is part of the event
before, so a call stands at its start, before a swap with what it read last, or has returned
(`Call`).  The state counts the failures and the successes of each call.

**The invariant.**  A call that has read a word at some position has failed at most as often as
there are calls that have swapped in a word up to this position (`CallInv`, with `swapped` for
these calls).  A failure shows a word that the call had not seen, which some other call has
swapped in meanwhile, so the set grows with every failure (`swapped_ssubset`).  That bounds the
failures (`failures_le`), and with them the accesses of a call, whatever the others do
(`countP_caller_le`).
-/

namespace CasMax

open Finset

variable {ι V : Type*} [DecidableEq ι]

/-- Where a call stands. -/
inductive Call (V : Type*) where
  | start
  | trying (old : V)
  | returned

/-- The word, the calls, and how often the swaps of each have failed and succeeded. -/
structure State (ι V : Type*) where
  word : V
  call : ι → Call V
  failures : ι → ℕ
  swaps : ι → ℕ

/-- The first read of a call, or a swap that it tries. -/
inductive Event (ι : Type*) where
  | load (i : ι)
  | cas (i : ι)

/-- The call whose access it is. -/
def Event.caller : Event ι → ι
  | .load i | .cas i => i

/-- The test of the loop, on a value just read. -/
def test (ahead : V → V → Bool) (cur old : V) : Call V :=
  if ahead cur old then .trying old else .returned

variable (ahead : V → V → Bool) (cur : ι → V)

/-- One access of a call to the word. -/
def step [DecidableEq V] (s : State ι V) : Event ι → Option (State ι V)
  | .load i =>
      match s.call i with
      | .start => some { s with call := Function.update s.call i (test ahead (cur i) s.word) }
      | _ => none
  | .cas i =>
      match s.call i with
      | .trying old =>
          if s.word = old then
            some { s with
              word := cur i
              call := Function.update s.call i .returned
              swaps := Function.update s.swaps i (s.swaps i + 1) }
          else
            some { s with
              call := Function.update s.call i (test ahead (cur i) s.word)
              failures := Function.update s.failures i (s.failures i + 1) }
      | _ => none

/-- Calls on a word that is `first` at the beginning. -/
def system [DecidableEq V] (first : V) : TransitionSystem (State ι V) (Event ι) where
  init := ⟨first, fun _ => .start, fun _ => 0, fun _ => 0⟩
  step := step ahead cur

/-- A word that occurs: the first one, or the value of a call. -/
def Occurs (first v : V) : Prop := v = first ∨ ∃ i, v = cur i

/-- On words that occur, being ahead is having a greater position. -/
structure Ordered (first : V) (pos : V → ℕ) : Prop where
  ahead_iff : ∀ i v, Occurs cur first v → (ahead (cur i) v = true ↔ pos v < pos (cur i))
  inj : ∀ v v', Occurs cur first v → Occurs cur first v' → pos v = pos v' → v = v'
  least : ∀ i, pos first ≤ pos (cur i)

variable {ahead cur}

/-- What one step does, guards included. -/
theorem step_cases [DecidableEq V] {s s' : State ι V} {e : Event ι}
    (fires : step ahead cur s e = some s') :
    (∃ i, e = .load i ∧ s.call i = .start ∧
      s' = { s with call := Function.update s.call i (test ahead (cur i) s.word) }) ∨
    (∃ i, e = .cas i ∧ s.call i = .trying s.word ∧
      s' = { s with
        word := cur i
        call := Function.update s.call i .returned
        swaps := Function.update s.swaps i (s.swaps i + 1) }) ∨
    (∃ i old, e = .cas i ∧ s.call i = .trying old ∧ s.word ≠ old ∧
      s' = { s with
        call := Function.update s.call i (test ahead (cur i) s.word)
        failures := Function.update s.failures i (s.failures i + 1) }) := by
  cases e with
  | load i =>
      simp only [step] at fires
      split at fires
      · exact .inl ⟨i, rfl, ‹_›, (Option.some.inj fires).symm⟩
      · cases fires
  | cas i =>
      simp only [step] at fires
      split at fires
      · split_ifs at fires with same
        · exact .inr (.inl ⟨i, rfl, same ▸ ‹_›, (Option.some.inj fires).symm⟩)
        · exact .inr (.inr ⟨i, _, rfl, ‹_›, same, (Option.some.inj fires).symm⟩)
      · cases fires

/-! ### The invariant -/

section Inv

variable [Fintype ι]

/-- Calls that have swapped in a value of position at most `p`. -/
def swapped (pos : V → ℕ) (cur : ι → V) (s : State ι V) (p : ℕ) : Finset ι :=
  univ.filter fun j => 0 < s.swaps j ∧ pos (cur j) ≤ p

/-- What is known of call `i`. -/
def CallInv (pos : V → ℕ) (cur : ι → V) (first : V) (s : State ι V) (i : ι) : Call V → Prop
  | .start => s.swaps i = 0 ∧ s.failures i = 0
  | .trying old => s.swaps i = 0 ∧ Occurs cur first old ∧ pos old < pos (cur i) ∧
      pos old ≤ pos s.word ∧ s.failures i ≤ (swapped pos cur s (pos old)).card
  | .returned => s.swaps i ≤ 1 ∧ pos (cur i) ≤ pos s.word ∧
      s.failures i ≤ (univ.filter fun j => j ≠ i ∧ 0 < s.swaps j).card

/-- What holds in every reachable state. -/
structure Inv (pos : V → ℕ) (cur : ι → V) (first : V) (s : State ι V) : Prop where
  word : s.word = first ∨ ∃ j, s.word = cur j ∧ 0 < s.swaps j
  call : ∀ i, CallInv pos cur first s i (s.call i)

variable {pos : V → ℕ} {first : V} {s s' : State ι V}

theorem Inv.occurs (inv : Inv pos cur first s) : Occurs cur first s.word := by
  rcases inv.word with start | ⟨j, value, -⟩
  · exact .inl start
  · exact .inr ⟨j, value⟩

theorem inv_init [DecidableEq V] : Inv pos cur first (system ahead cur first).init :=
  ⟨.inl rfl, fun _ => ⟨rfl, rfl⟩⟩

/-- What is known of a call outlives the steps of the others. -/
theorem CallInv.mono {i : ι} {c : Call V} (inv : CallInv pos cur first s i c)
    (word : pos s.word ≤ pos s'.word) (failures : s'.failures i = s.failures i)
    (own : s'.swaps i = s.swaps i) (swaps : ∀ j, 0 < s.swaps j → 0 < s'.swaps j) :
    CallInv pos cur first s' i c := by
  cases c with
  | start =>
      obtain ⟨none, never⟩ := inv
      exact ⟨own.trans none, failures.trans never⟩
  | trying old =>
      obtain ⟨none, occurs, ahead, behind, bound⟩ := inv
      refine ⟨own.trans none, occurs, ahead, behind.trans word, ?_⟩
      rw [failures]
      refine bound.trans (card_le_card fun j mem => ?_)
      obtain ⟨-, did, upto⟩ := mem_filter.1 mem
      exact mem_filter.2 ⟨mem_univ j, swaps j did, upto⟩
  | returned =>
      obtain ⟨once, reached, bound⟩ := inv
      refine ⟨own.trans_le once, reached.trans word, ?_⟩
      rw [failures]
      refine bound.trans (card_le_card fun j mem => ?_)
      obtain ⟨-, other, did⟩ := mem_filter.1 mem
      exact mem_filter.2 ⟨mem_univ j, other, swaps j did⟩

/-- A call that has not swapped is not among those that have. -/
theorem swapped_subset {i : ι} (none : s.swaps i = 0) (p : ℕ) :
    swapped pos cur s p ⊆ univ.filter fun j => j ≠ i ∧ 0 < s.swaps j := by
  intro j mem
  obtain ⟨-, did, -⟩ := mem_filter.1 mem
  refine mem_filter.2 ⟨mem_univ j, ?_, did⟩
  rintro rfl
  exact absurd none did.ne'

/-- After the test of the loop. -/
theorem callInv_test (ordered : Ordered ahead cur first pos) {i : ι} (none : s.swaps i = 0)
    (occurs : Occurs cur first s.word)
    (bound : s.failures i ≤ (swapped pos cur s (pos s.word)).card) :
    CallInv pos cur first s i (test ahead (cur i) s.word) := by
  rw [test]
  split_ifs with lead
  · exact ⟨none, occurs, (ordered.ahead_iff i _ occurs).1 lead, le_rfl, bound⟩
  · refine ⟨none.trans_le (Nat.zero_le 1), ?_,
      bound.trans (card_le_card (swapped_subset none _))⟩
    exact not_lt.1 fun less => lead ((ordered.ahead_iff i _ occurs).2 less)

/-- A word that a call has not seen yet is the value of another. -/
theorem swapped_ssubset (ordered : Ordered ahead cur first pos) (inv : Inv pos cur first s)
    {old : V} (occurs : Occurs cur first old) (behind : pos old ≤ pos s.word)
    (other : s.word ≠ old) :
    swapped pos cur s (pos old) ⊂ swapped pos cur s (pos s.word) := by
  have less : pos old < pos s.word :=
    behind.lt_of_ne fun same => other (ordered.inj _ _ inv.occurs occurs same.symm)
  have least : pos first ≤ pos old := by
    rcases occurs with rfl | ⟨j, rfl⟩
    · exact le_rfl
    · exact ordered.least j
  refine (ssubset_iff_of_subset fun j mem => ?_).2 ?_
  · obtain ⟨-, did, upto⟩ := mem_filter.1 mem
    exact mem_filter.2 ⟨mem_univ j, did, upto.trans behind⟩
  · rcases inv.word with start | ⟨j, value, did⟩
    · rw [start] at less
      exact absurd less least.not_gt
    · refine ⟨j, mem_filter.2 ⟨mem_univ j, did, value ▸ le_rfl⟩, fun mem => ?_⟩
      obtain ⟨-, -, upto⟩ := mem_filter.1 mem
      rw [value] at less
      exact absurd less upto.not_gt

variable [DecidableEq V]

theorem step_inv (ordered : Ordered ahead cur first pos) (inv : Inv pos cur first s)
    {e : Event ι} (fires : step ahead cur s e = some s') : Inv pos cur first s' := by
  rcases step_cases fires with
    ⟨i, -, start, rfl⟩ | ⟨i, -, trying, rfl⟩ | ⟨i, old, -, trying, other, rfl⟩
  -- the first read of the word
  · have own := inv.call i
    rw [start] at own
    refine ⟨inv.word, fun j => ?_⟩
    dsimp only
    by_cases same : j = i
    · subst same
      rw [Function.update_self]
      exact callInv_test (s := { s with call := _ }) ordered own.1 inv.occurs
        (own.2.trans_le (Nat.zero_le _))
    · rw [Function.update_of_ne same]
      exact inv.call j
  · have own := inv.call i
    rw [trying] at own
    obtain ⟨none, occurs, lead, -, bound⟩ := own
    have grow : ∀ j, 0 < s.swaps j → 0 < Function.update s.swaps i (s.swaps i + 1) j := by
      intro j did
      by_cases same : j = i
      · rw [same, Function.update_self]
        exact Nat.succ_pos _
      · rwa [Function.update_of_ne same]
    -- the swap succeeds, and the word goes forward
    refine ⟨.inr ⟨i, rfl, ?_⟩, fun j => ?_⟩
    · dsimp only
      rw [Function.update_self]
      exact Nat.succ_pos _
    · dsimp only
      by_cases same : j = i
      · subst same
        rw [Function.update_self]
        -- the swap fails: somebody else has swapped since, once for each failure
        refine ⟨?_, le_rfl, bound.trans (card_le_card fun k mem => ?_)⟩
        · dsimp only
          rw [Function.update_self, none]
        · obtain ⟨-, different, did⟩ := mem_filter.1 (swapped_subset none _ mem)
          exact mem_filter.2 ⟨mem_univ k, different, grow k did⟩
      · rw [Function.update_of_ne same]
        exact (inv.call j).mono lead.le rfl (Function.update_of_ne same _ _) grow
  · have own := inv.call i
    rw [trying] at own
    obtain ⟨none, occurs, -, behind, bound⟩ := own
    refine ⟨inv.word, fun j => ?_⟩
    dsimp only
    by_cases same : j = i
    · subst same
      rw [Function.update_self]
      refine callInv_test (s := { s with call := _, failures := _ }) ordered none inv.occurs ?_
      dsimp only
      rw [Function.update_self]
      exact (Nat.succ_le_succ bound).trans
        (card_lt_card (swapped_ssubset ordered inv occurs behind other))
    · rw [Function.update_of_ne same]
      exact (inv.call j).mono le_rfl (Function.update_of_ne same _ _) rfl fun _ did => did

theorem inv_of_reachable (ordered : Ordered ahead cur first pos)
    (reach : (system ahead cur first).Reachable s) : Inv pos cur first s :=
  reach.invariant inv_init fun _ _ _ inv fires => step_inv ordered inv fires

/-! ### The word goes forward -/

theorem pos_le_of_step (inv : Inv pos cur first s) {e : Event ι}
    (fires : step ahead cur s e = some s') : pos s.word ≤ pos s'.word := by
  rcases step_cases fires with
    ⟨i, -, -, rfl⟩ | ⟨i, -, trying, rfl⟩ | ⟨i, old, -, -, -, rfl⟩
  · exact le_rfl
  · have own := inv.call i
    rw [trying] at own
    exact own.2.2.1.le
  · exact le_rfl

/-- **The word never goes back.** -/
theorem pos_le_of_leads (ordered : Ordered ahead cur first pos)
    (reach : (system ahead cur first).Reachable s) (leads : (system ahead cur first).Leads s s') :
    pos s.word ≤ pos s'.word := by
  have keeps : ∀ s₁ e s₂, (Inv pos cur first s₁ ∧ pos s.word ≤ pos s₁.word) →
      (system ahead cur first).step s₁ e = some s₂ →
      (Inv pos cur first s₂ ∧ pos s.word ≤ pos s₂.word) := by
    rintro s₁ e s₂ ⟨inv, least⟩ fires
    exact ⟨step_inv ordered inv fires, least.trans (pos_le_of_step inv fires)⟩
  exact (leads.invariant keeps ⟨inv_of_reachable ordered reach, le_rfl⟩).2

/-! ### Calls return -/

/-- **Every failure is due to another call's success.** -/
theorem failures_le (ordered : Ordered ahead cur first pos)
    (reach : (system ahead cur first).Reachable s) (i : ι) :
    s.swaps i ≤ 1 ∧ s.failures i ≤ (univ.filter fun j => j ≠ i ∧ 0 < s.swaps j).card := by
  have own := (inv_of_reachable ordered reach).call i
  cases call : s.call i with
  | start =>
      rw [call] at own
      exact ⟨own.1.trans_le (Nat.zero_le 1), own.2.trans_le (Nat.zero_le _)⟩
  | trying old =>
      rw [call] at own
      obtain ⟨none, -, -, -, bound⟩ := own
      exact ⟨none.trans_le (Nat.zero_le 1), bound.trans (card_le_card (swapped_subset none _))⟩
  | returned =>
      rw [call] at own
      exact ⟨own.1, own.2.2⟩

end Inv

section Accesses

variable [DecidableEq V] {first : V} {s s' : State ι V}

/-- A call that has not returned can make its next access. -/
theorem exists_access {i : ι} (running : s.call i ≠ .returned) :
    ∃ e s', Event.caller e = i ∧ step ahead cur s e = some s' := by
  cases call : s.call i with
  | start => exact ⟨.load i, _, rfl, by rw [step, call]⟩
  | trying old =>
      by_cases same : s.word = old
      · exact ⟨.cas i, _, rfl, by rw [step, call]; exact if_pos same⟩
      · exact ⟨.cas i, _, rfl, by rw [step, call]; exact if_neg same⟩
  | returned => exact absurd call running

/-- Whether a call has read the word. -/
def Call.reads : Call V → ℕ
  | .start => 0
  | .trying _ | .returned => 1

omit [DecidableEq V] in
@[simp] theorem Call.reads_start : (Call.start : Call V).reads = 0 := rfl

omit [DecidableEq V] in
@[simp] theorem Call.reads_trying (old : V) : (Call.trying old).reads = 1 := rfl

omit [DecidableEq V] in
@[simp] theorem Call.reads_returned : (Call.returned : Call V).reads = 1 := rfl

omit [DecidableEq V] in
@[simp] theorem reads_test (cur old : V) : (test ahead cur old).reads = 1 := by
  rw [test]
  split_ifs <;> rfl

/-- Accesses that a call has made. -/
def accesses (s : State ι V) (i : ι) : ℕ := (s.call i).reads + s.failures i + s.swaps i

/-- Each step is an access of one call. -/
theorem accesses_step {e : Event ι} (fires : step ahead cur s e = some s') (i : ι) :
    accesses s' i = accesses s i + if e.caller = i then 1 else 0 := by
  rcases step_cases fires with
    ⟨j, rfl, start, rfl⟩ | ⟨j, rfl, trying, rfl⟩ | ⟨j, old, rfl, trying, -, rfl⟩
  · by_cases own : i = j
    · subst own
      rw [if_pos (show (Event.load i).caller = i from rfl)]
      simp only [accesses, Function.update_self, reads_test, start, Call.reads_start]
      omega
    · rw [if_neg (show (Event.load j).caller ≠ i from Ne.symm own)]
      simp only [accesses, Function.update_of_ne own, add_zero]
  · by_cases own : i = j
    · subst own
      rw [if_pos (show (Event.cas i).caller = i from rfl)]
      simp only [accesses, Function.update_self, trying, Call.reads_trying, Call.reads_returned]
      omega
    · rw [if_neg (show (Event.cas j).caller ≠ i from Ne.symm own)]
      simp only [accesses, Function.update_of_ne own, add_zero]
  · by_cases own : i = j
    · subst own
      rw [if_pos (show (Event.cas i).caller = i from rfl)]
      simp only [accesses, Function.update_self, reads_test, trying, Call.reads_trying]
      omega
    · rw [if_neg (show (Event.cas j).caller ≠ i from Ne.symm own)]
      simp only [accesses, Function.update_of_ne own, add_zero]

theorem accesses_run {es : List (Event ι)} (replay : (system ahead cur first).run s es = some s')
    (i : ι) : accesses s' i = accesses s i + es.countP (·.caller = i) := by
  induction es generalizing s with
  | nil =>
      cases replay
      rfl
  | cons e es ih =>
      cases fires : (system ahead cur first).step s e with
      | none => simp [TransitionSystem.run, fires] at replay
      | some next =>
          simp only [TransitionSystem.run, fires] at replay
          rw [ih replay, accesses_step fires, List.countP_cons]
          simp only [decide_eq_true_eq]
          omega

variable [Fintype ι] {pos : V → ℕ}

/-- **Every call returns**, whatever the others do: it accesses the word at most once more
than there are calls. -/
theorem countP_caller_le (ordered : Ordered ahead cur first pos) {es : List (Event ι)}
    (replay : (system ahead cur first).run (system ahead cur first).init es = some s) (i : ι) :
    es.countP (·.caller = i) ≤ Fintype.card ι + 1 := by
  have count := accesses_run replay i
  have start : accesses (system ahead cur first).init i = 0 := rfl
  obtain ⟨once, bound⟩ := failures_le ordered (.run .init replay) i
  have others : (univ.filter fun j => j ≠ i ∧ 0 < s.swaps j).card < Fintype.card ι :=
    card_lt_card (filter_ssubset.2 ⟨i, mem_univ i, fun other => other.1 rfl⟩)
  have reads : (s.call i).reads ≤ 1 := by
    cases s.call i with
    | start => exact Nat.zero_le 1
    | trying _ | returned => exact le_rfl
  rw [start, accesses] at count
  omega

/-- **When all calls have returned, the word is the furthest of all.** -/
theorem word_of_returned (ordered : Ordered ahead cur first pos)
    (reach : (system ahead cur first).Reachable s) (returned : ∀ i, s.call i = .returned) :
    Occurs cur first s.word ∧ ∀ i, pos (cur i) ≤ pos s.word := by
  have inv := inv_of_reachable ordered reach
  refine ⟨inv.occurs, fun i => ?_⟩
  have own := inv.call i
  rw [returned i] at own
  exact own.2.1

end Accesses

end CasMax
