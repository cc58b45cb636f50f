import Mathlib.Algebra.BigOperators.Group.Finset.Basic
import Mathlib.Algebra.Order.BigOperators.Group.Finset
import Mathlib.Data.Fintype.BigOperators
import Mathlib.Data.Fintype.Prod
import Mathlib.Tactic.FinCases
import Mathlib.Tactic.Ring
import StreamEP.Lib.TransitionSystem

/-!
# `barrier_block`

Every rank keeps a row of signal cells, one for each rank.  In a barrier, thread `t` of a
rank adds `FINISHED_SUM_TAG` to cell `t` of the own row and subtracts it from the cell that
rank `t` keeps for this rank.  Then the warp polls the own row until no cell is positive.
Cells are never reset: the same row serves every barrier of every call.

**What a cell counts.**  A cell is the tag times a difference of two counts, of additions by its
owner and of subtractions by the peer (`Inv.cell`).  The owner has added for the barrier it is
in, and the difference is positive exactly until the peer has subtracted for that barrier.  A
peer that is a barrier ahead makes it negative, which the sign test does not tell from zero: that
is what lets the row go without a reset.

**The state.**  `State` has the cells, the number of barriers that each rank has entered and
left, and for every thread the phase it is in.  An event is one atomic, one load or one vote of
one rank, and the events of different ranks come in any order, so a run is any interleaving.
The vote `__all_sync` is the only event of a whole warp.  Cells are 32-bit words and additions
wrap as they do on the device.

**Why nothing wraps.**  A rank cannot leave a barrier that another has not entered
(`Inv.left_le`), so the counts behind a cell differ by at most one and the word holds the true
difference (`Inv.cell_le_zero_iff`).  This is the invariant that everything rests on.  A step is
one of two kinds, that of a whole rank (`RankStep`) or that of one thread (`ThreadStep`), and
each kind keeps the invariant by one lemma; `step_kind` sorts the events.

**Getting out.**  A rank all of whose peers have subtracted is `Free`: nobody can take a
subtraction back (`numSubs_mono`), so whatever value a thread has loaded before can cost at most
one failed vote.  `Phase.behind` measures that, and `Free.leads_out` is the induction on it.

The poll has a time limit after which the kernel traps.  The runs here are those without.

`barrier_block_separates` is the result over all runs and all numbers of ranks.
`barrier_block_separates_ahead` is a run in which a rank is a whole barrier ahead of a peer that
has not polled yet.
-/

namespace StreamEP

namespace Barrier

/-- `FINISHED_SUM_TAG` -/
def finishedSumTag : BitVec 32 := 1024

/-- Where a thread of the polling warp stands. -/
inductive Phase where
  | outside
  | entered
  | added
  | polling
  | loaded (value : BitVec 32)
  deriving DecidableEq

namespace Phase

/-- The thread has a value to vote on. -/
def HasValue : Phase → Prop
  | loaded _ => True
  | _ => False

/-- The thread votes for leaving. -/
def VotesLeave : Phase → Prop
  | loaded value => value.toInt ≤ 0
  | _ => False

theorem hasValue_iff {ph : Phase} : ph.HasValue ↔ ∃ value, ph = .loaded value := by
  constructor
  · intro has
    cases ph with
    | loaded value => exact ⟨value, rfl⟩
    | _ => exact has.elim
  · rintro ⟨value, rfl⟩
    trivial

theorem VotesLeave.hasValue {ph : Phase} (leave : ph.VotesLeave) : ph.HasValue := by
  cases ph with
  | loaded value => trivial
  | _ => exact leave.elim

instance : DecidablePred HasValue := fun ph => by
  cases ph <;> unfold HasValue <;> infer_instance

instance : DecidablePred VotesLeave := fun ph => by
  cases ph <;> unfold VotesLeave <;> infer_instance

/-- Additions of the thread in the barrier it is in. -/
def adds : Phase → ℕ
  | outside | entered => 0
  | added | polling | loaded _ => 1

/-- Subtractions of the thread in the barrier it is in. -/
def subs : Phase → ℕ
  | outside | entered | added => 0
  | polling | loaded _ => 1

theorem subs_le_adds (ph : Phase) : ph.subs ≤ ph.adds := by
  cases ph <;> simp [subs, adds]

theorem adds_le_one (ph : Phase) : ph.adds ≤ 1 := by
  cases ph <;> simp [adds]

end Phase

/-- The signal cells of all ranks, at owner and peer, and the threads, at rank and number. -/
structure State (n : ℕ) where
  cell : Fin n × Fin n → BitVec 32
  phase : Fin n × Fin n → Phase
  /-- Barriers the rank has entered, -/
  entered : Fin n → ℕ
  /-- and those it has left. -/
  left : Fin n → ℕ

/-- What a rank or one of its threads does next. -/
inductive Event (n : ℕ) where
  | enter (rank : Fin n)
  | add (rank thread : Fin n)
  | sub (rank thread : Fin n)
  | load (rank thread : Fin n)
  | vote (rank : Fin n)

variable {n : ℕ}

/-- One step of `barrier_block`.  A rank has at most as many peers as a warp has lanes, so
`__all_sync` is over all threads that poll, and the other lanes vote on a zero. -/
def step (s : State n) : Event n → Option (State n)
  | .enter rank =>
      if ∀ t, s.phase (rank, t) = .outside then
        some { s with
          phase := fun p => if p.1 = rank then .entered else s.phase p
          entered := Function.update s.entered rank (s.entered rank + 1) }
      else none
  | .add rank thread =>
      if s.phase (rank, thread) = .entered then
        some { s with
          cell := Function.update s.cell (rank, thread) (s.cell (rank, thread) + finishedSumTag)
          phase := Function.update s.phase (rank, thread) .added }
      else none
  | .sub rank thread =>
      if s.phase (rank, thread) = .added then
        some { s with
          cell := Function.update s.cell (thread, rank) (s.cell (thread, rank) - finishedSumTag)
          phase := Function.update s.phase (rank, thread) .polling }
      else none
  | .load rank thread =>
      if s.phase (rank, thread) = .polling then
        some { s with
          phase := Function.update s.phase (rank, thread) (.loaded (s.cell (rank, thread))) }
      else none
  | .vote rank =>
      if ∀ t, (s.phase (rank, t)).HasValue then
        if ∀ t, (s.phase (rank, t)).VotesLeave then
          some { s with
            phase := fun p => if p.1 = rank then .outside else s.phase p
            left := Function.update s.left rank (s.left rank + 1) }
        else
          some { s with phase := fun p => if p.1 = rank then .polling else s.phase p }
      else none

/-- Cells start at zero. -/
def barrierBlock (n : ℕ) : TransitionSystem (State n) (Event n) where
  init := ⟨fun _ => 0, fun _ => .outside, fun _ => 0, fun _ => 0⟩
  step := step

namespace State

variable (s : State n)

/-- The rank is in a barrier. -/
def Inside (rank : Fin n) : Prop := s.left rank < s.entered rank

/-- Additions that a thread has made to the own row. -/
def numAdds (p : Fin n × Fin n) : ℕ := s.left p.1 + (s.phase p).adds

/-- Subtractions that a thread has made from the row of its peer. -/
def numSubs (p : Fin n × Fin n) : ℕ := s.left p.1 + (s.phase p).subs

theorem numSubs_le_numAdds (p : Fin n × Fin n) : s.numSubs p ≤ s.numAdds p :=
  Nat.add_le_add_left (Phase.subs_le_adds _) _

end State

/-! ### The invariant -/

/-- What holds in every reachable state. -/
structure Inv (s : State n) : Prop where
  outside : ∀ p, s.phase p = .outside → s.entered p.1 = s.left p.1
  inside : ∀ p, s.phase p ≠ .outside → s.entered p.1 = s.left p.1 + 1
  cell : ∀ p, s.cell p = BitVec.ofInt 32 (1024 * ((s.numAdds p : ℤ) - s.numSubs p.swap))
  /-- A rank has left a barrier only after every peer had subtracted for it, -/
  left : ∀ p : Fin n × Fin n, s.left p.1 ≤ s.numSubs p.swap
  /-- and a vote for leaving is about the barrier the rank is in. -/
  votes : ∀ p : Fin n × Fin n, (s.phase p).VotesLeave → s.left p.1 < s.numSubs p.swap

variable {s s' : State n}

theorem inv_init : Inv (barrierBlock n).init where
  outside _ _ := rfl
  inside _ other := absurd rfl other
  cell _ := rfl
  left _ := Nat.zero_le _
  votes _ leave := leave.elim

namespace Inv

variable (inv : Inv s)

include inv

theorem numAdds_le (p : Fin n × Fin n) : s.numAdds p ≤ s.entered p.1 := by
  by_cases out : s.phase p = .outside
  · rw [State.numAdds, out, inv.outside p out]
    exact le_rfl
  · rw [inv.inside p out]
    exact Nat.add_le_add_left (Phase.adds_le_one _) _

theorem entered_le (rank : Fin n) : s.entered rank ≤ s.left rank + 1 := by
  by_cases out : s.phase (rank, rank) = .outside
  · exact (inv.outside (rank, rank) out).le.trans (Nat.le_succ _)
  · exact (inv.inside (rank, rank) out).le

/-- No rank is more than one barrier behind another. -/
theorem left_le (rank peer : Fin n) : s.left rank ≤ s.entered peer :=
  (inv.left (rank, peer)).trans
    ((s.numSubs_le_numAdds (peer, rank)).trans (inv.numAdds_le (peer, rank)))

/-- **What a poll finds.**  The counts are too close for a cell to wrap. -/
theorem cell_le_zero_iff (p : Fin n × Fin n) :
    (s.cell p).toInt ≤ 0 ↔ s.numAdds p ≤ s.numSubs p.swap := by
  have lower := inv.left p
  have upper : s.numAdds p ≤ s.left p.1 + 1 :=
    (inv.numAdds_le p).trans (inv.entered_le p.1)
  have peer : s.numSubs p.swap ≤ s.left p.1 + 2 :=
    calc s.numSubs p.swap
      _ ≤ s.entered p.2 := (s.numSubs_le_numAdds p.swap).trans (inv.numAdds_le p.swap)
      _ ≤ s.left p.2 + 1 := inv.entered_le p.2
      _ ≤ s.entered p.1 + 1 := Nat.add_le_add_right (inv.left_le p.2 p.1) 1
      _ ≤ s.left p.1 + 2 := Nat.add_le_add_right (inv.entered_le p.1) 1
  have own : s.left p.1 ≤ s.numAdds p := Nat.le_add_right _ _
  rw [inv.cell p, BitVec.toInt_ofInt,
    Int.bmod_eq_of_le_mul_two (by omega) (by omega)]
  omega

end Inv

/-! ### What a step does -/

/-- All threads of a rank take a step, which leaves the counts alone. -/
structure RankStep (s s' : State n) (rank : Fin n) (ph : Phase) : Prop where
  cell : s'.cell = s.cell
  phase : ∀ p, s'.phase p = if p.1 = rank then ph else s.phase p
  others : ∀ r, r ≠ rank → s'.entered r = s.entered r ∧ s'.left r = s.left r
  adds : ∀ t, s'.left rank + ph.adds = s.numAdds (rank, t)
  subs : ∀ t, s'.left rank + ph.subs = s.numSubs (rank, t)
  outside : ph = .outside → s'.entered rank = s'.left rank
  inside : ph ≠ .outside → s'.entered rank = s'.left rank + 1
  left : s.left rank ≤ s'.left rank
  peers : ∀ t, s'.left rank ≤ s.numSubs (t, rank)
  quiet : ¬ ph.VotesLeave

/-- One thread takes a step. -/
structure ThreadStep (s s' : State n) (q : Fin n × Fin n) (ph : Phase) : Prop where
  cell : ∀ p, s'.cell p = s.cell p +
    BitVec.ofInt 32 (1024 * ((if p = q then (ph.adds : ℤ) - (s.phase q).adds else 0) -
      if p.swap = q then (ph.subs : ℤ) - (s.phase q).subs else 0))
  phase : s'.phase = Function.update s.phase q ph
  entered : s'.entered = s.entered
  left : s'.left = s.left
  before : s.phase q ≠ .outside
  after : ph ≠ .outside
  subs : (s.phase q).subs ≤ ph.subs
  votes : ph.VotesLeave → s.left q.1 < s.numSubs q.swap

theorem sub_tag (x : BitVec 32) : x - finishedSumTag = x + BitVec.ofInt 32 (-1024) := by
  have neg : -finishedSumTag = BitVec.ofInt 32 (-1024) := by decide
  rw [BitVec.sub_eq_add_neg, neg]

variable {rank thread : Fin n}

theorem step_enter (inv : Inv s) (fires : step s (.enter rank) = some s') :
    RankStep s s' rank .entered := by
  simp only [step] at fires
  split_ifs at fires with out
  obtain rfl := Option.some.inj fires
  refine ⟨rfl, fun _ => rfl, fun r other => ⟨Function.update_of_ne other _ _, rfl⟩,
    fun t => ?_, fun t => ?_, nofun, fun _ => ?_, le_rfl, fun t => inv.left (rank, t), id⟩
  · rw [State.numAdds, out t]
    rfl
  · rw [State.numSubs, out t]
    rfl
  · have entered := inv.outside (rank, rank) (out rank)
    simp only [Function.update_self, entered]

theorem step_add (fires : step s (.add rank thread) = some s') :
    ThreadStep s s' (rank, thread) .added := by
  simp only [step] at fires
  split_ifs at fires with before
  obtain rfl := Option.some.inj fires
  refine ⟨fun p => ?_, rfl, rfl, rfl, before ▸ nofun, nofun, before ▸ le_rfl, (·.elim)⟩
  rw [before]
  dsimp only
  by_cases own : p = (rank, thread)
  · rw [own, Function.update_self, if_pos rfl]
    simp [Phase.adds, Phase.subs, finishedSumTag]
  · rw [Function.update_of_ne own, if_neg own]
    simp [Phase.subs]

theorem step_sub (fires : step s (.sub rank thread) = some s') :
    ThreadStep s s' (rank, thread) .polling := by
  simp only [step] at fires
  split_ifs at fires with before
  obtain rfl := Option.some.inj fires
  refine ⟨fun p => ?_, rfl, rfl, rfl, before ▸ nofun, nofun, before ▸ Nat.zero_le _, (·.elim)⟩
  rw [before]
  dsimp only
  by_cases peer : p = (thread, rank)
  · rw [peer, Function.update_self, if_pos (show (thread, rank).swap = (rank, thread) from rfl),
      sub_tag]
    simp [Phase.adds, Phase.subs]
  · have other : p.swap ≠ (rank, thread) := fun same => peer (Prod.swap_inj.1 same)
    rw [Function.update_of_ne peer, if_neg other]
    simp [Phase.adds]

theorem step_load (inv : Inv s) (fires : step s (.load rank thread) = some s') :
    ThreadStep s s' (rank, thread) (.loaded (s.cell (rank, thread))) := by
  simp only [step] at fires
  split_ifs at fires with before
  obtain rfl := Option.some.inj fires
  refine ⟨fun p => ?_, rfl, rfl, rfl, before ▸ nofun, nofun, before ▸ le_rfl, fun leave => ?_⟩
  · rw [before]
    simp [Phase.adds, Phase.subs]
  · have counts := (inv.cell_le_zero_iff (rank, thread)).1 leave
    rw [State.numAdds, before] at counts
    exact counts

theorem step_vote (inv : Inv s) (fires : step s (.vote rank) = some s') :
    RankStep s s' rank .outside ∨ RankStep s s' rank .polling := by
  simp only [step] at fires
  split_ifs at fires with all leave
  all_goals
    obtain rfl := Option.some.inj fires
    have loaded : ∀ t, ∃ value, s.phase (rank, t) = .loaded value :=
      fun t => Phase.hasValue_iff.1 (all t)
    have counts : ∀ t, s.left rank + 1 = s.numAdds (rank, t) ∧
        s.left rank + 1 = s.numSubs (rank, t) := by
      intro t
      obtain ⟨value, loaded⟩ := loaded t
      rw [State.numAdds, State.numSubs, loaded]
      exact ⟨rfl, rfl⟩
    have entered : s.entered rank = s.left rank + 1 := by
      obtain ⟨value, loaded⟩ := loaded rank
      exact inv.inside (rank, rank) (loaded ▸ nofun)
  · have left : Function.update s.left rank (s.left rank + 1) rank = s.left rank + 1 :=
      Function.update_self _ _ _
    exact .inl ⟨rfl, fun _ => rfl, fun r other => ⟨rfl, Function.update_of_ne other _ _⟩,
      fun t => left.trans (counts t).1, fun t => left.trans (counts t).2,
      fun _ => entered.trans left.symm, absurd rfl, (Nat.le_succ _).trans left.ge,
      fun t => left.trans_le (inv.votes (rank, t) (leave t)), id⟩
  · exact .inr ⟨rfl, fun _ => rfl, fun _ _ => ⟨rfl, rfl⟩, fun t => (counts t).1,
      fun t => (counts t).2, nofun, fun _ => entered, le_rfl, fun t => inv.left (rank, t), id⟩

/-- **What one step does**: it is that of a rank or that of a thread. -/
theorem step_kind (inv : Inv s) {e : Event n} (fires : step s e = some s') :
    (∃ rank ph, RankStep s s' rank ph) ∨ ∃ q ph, ThreadStep s s' q ph := by
  cases e with
  | enter rank => exact .inl ⟨_, _, step_enter inv fires⟩
  | add rank thread => exact .inr ⟨_, _, step_add fires⟩
  | sub rank thread => exact .inr ⟨_, _, step_sub fires⟩
  | load rank thread => exact .inr ⟨_, _, step_load inv fires⟩
  | vote rank =>
    rcases step_vote inv fires with leaves | again
    · exact .inl ⟨_, _, leaves⟩
    · exact .inl ⟨_, _, again⟩

namespace RankStep

variable {rank : Fin n} {ph : Phase} (step : RankStep s s' rank ph)

include step

theorem numAdds_eq (p : Fin n × Fin n) : s'.numAdds p = s.numAdds p := by
  obtain ⟨r, t⟩ := p
  rw [State.numAdds, step.phase]
  by_cases own : r = rank
  · subst own
    rw [if_pos rfl]
    exact step.adds t
  · rw [if_neg own, (step.others r own).2, State.numAdds]

theorem numSubs_eq (p : Fin n × Fin n) : s'.numSubs p = s.numSubs p := by
  obtain ⟨r, t⟩ := p
  rw [State.numSubs, step.phase]
  by_cases own : r = rank
  · subst own
    rw [if_pos rfl]
    exact step.subs t
  · rw [if_neg own, (step.others r own).2, State.numSubs]

theorem inv (inv : Inv s) : Inv s' := by
  refine ⟨?_, ?_, fun p => ?_, ?_, ?_⟩
  · rintro ⟨r, t⟩ out
    rw [step.phase] at out
    by_cases own : r = rank
    · subst own
      exact step.outside ((if_pos rfl).symm.trans out)
    · rw [if_neg own] at out
      obtain ⟨entered, left⟩ := step.others r own
      exact (entered.trans (inv.outside (r, t) out)).trans left.symm
  · rintro ⟨r, t⟩ inside
    rw [step.phase] at inside
    by_cases own : r = rank
    · subst own
      rw [if_pos rfl] at inside
      exact step.inside inside
    · rw [if_neg own] at inside
      obtain ⟨entered, left⟩ := step.others r own
      rw [entered, left]
      exact inv.inside (r, t) inside
  · rw [step.numAdds_eq, step.numSubs_eq, step.cell]
    exact inv.cell p
  · rintro ⟨r, t⟩
    rw [step.numSubs_eq]
    by_cases own : r = rank
    · subst own
      exact step.peers t
    · exact (step.others r own).2.trans_le (inv.left (r, t))
  · rintro ⟨r, t⟩ leave
    rw [step.numSubs_eq]
    rw [step.phase] at leave
    by_cases own : r = rank
    · rw [if_pos own] at leave
      exact absurd leave step.quiet
    · rw [if_neg own] at leave
      exact (step.others r own).2.trans_lt (inv.votes (r, t) leave)

end RankStep

namespace ThreadStep

variable {q : Fin n × Fin n} {ph : Phase} (step : ThreadStep s s' q ph)

include step

theorem phase_cases (p : Fin n × Fin n) :
    p = q ∧ s'.phase p = ph ∨ p ≠ q ∧ s'.phase p = s.phase p := by
  rw [step.phase]
  by_cases own : p = q
  · exact .inl ⟨own, own ▸ Function.update_self _ _ _⟩
  · exact .inr ⟨own, Function.update_of_ne own _ _⟩

theorem phase_self : s'.phase q = ph := by
  rw [step.phase, Function.update_self]

theorem numSubs_le (p : Fin n × Fin n) : s.numSubs p ≤ s'.numSubs p := by
  rw [State.numSubs, State.numSubs, step.left]
  rcases step.phase_cases p with ⟨rfl, new⟩ | ⟨-, old⟩
  · rw [new]
    exact Nat.add_le_add_left step.subs _
  · rw [old]

theorem inv (inv : Inv s) : Inv s' := by
  refine ⟨fun p out => ?_, fun p inside => ?_, fun p => ?_, fun p => ?_, fun p leave => ?_⟩
  · rw [step.entered, step.left]
    rcases step.phase_cases p with ⟨-, new⟩ | ⟨-, old⟩
    · exact absurd (new.symm.trans out) step.after
    · exact inv.outside p (old.symm.trans out)
  · rw [step.entered, step.left]
    rcases step.phase_cases p with ⟨rfl, -⟩ | ⟨-, old⟩
    · exact inv.inside p step.before
    · exact inv.inside p (old ▸ inside)
  · have adds : (s'.numAdds p : ℤ) = s.numAdds p +
        if p = q then (ph.adds : ℤ) - (s.phase q).adds else 0 := by
      rw [State.numAdds, State.numAdds, step.left]
      rcases step.phase_cases p with ⟨rfl, new⟩ | ⟨other, old⟩
      · rw [new, if_pos rfl]
        omega
      · rw [old, if_neg other, add_zero]
    have subs : (s'.numSubs p.swap : ℤ) = s.numSubs p.swap +
        if p.swap = q then (ph.subs : ℤ) - (s.phase q).subs else 0 := by
      rw [State.numSubs, State.numSubs, step.left]
      rcases step.phase_cases p.swap with ⟨same, new⟩ | ⟨other, old⟩
      · rw [new, if_pos same, same]
        omega
      · rw [old, if_neg other, add_zero]
    rw [step.cell p, inv.cell p, ← BitVec.ofInt_add, ← mul_add, adds, subs]
    congr 2
    ring
  · rw [step.left]
    exact (inv.left p).trans (step.numSubs_le p.swap)
  · rw [step.left]
    rcases step.phase_cases p with ⟨rfl, new⟩ | ⟨-, old⟩
    · exact (step.votes (new ▸ leave)).trans_le (step.numSubs_le p.swap)
    · exact (inv.votes p (old ▸ leave)).trans_le (step.numSubs_le p.swap)

end ThreadStep

theorem step_inv (inv : Inv s) {e : Event n} (fires : step s e = some s') : Inv s' := by
  rcases step_kind inv fires with ⟨rank, ph, step⟩ | ⟨q, ph, step⟩
  · exact step.inv inv
  · exact step.inv inv

theorem inv_of_reachable (reach : (barrierBlock n).Reachable s) : Inv s :=
  reach.invariant inv_init fun _ _ _ inv fires => step_inv inv fires

/-- No subtraction is taken back. -/
theorem numSubs_mono (inv : Inv s) {e : Event n} (fires : step s e = some s')
    (p : Fin n × Fin n) : s.numSubs p ≤ s'.numSubs p := by
  rcases step_kind inv fires with ⟨rank, ph, step⟩ | ⟨q, ph, step⟩
  · exact (step.numSubs_eq p).ge
  · exact step.numSubs_le p

/-! ### Getting out of a barrier -/

/-- Atomics that a thread still has to do in the barrier it is in. -/
def Phase.todo : Phase → ℕ
  | entered => 2
  | added => 1
  | outside | polling | loaded _ => 0

theorem Phase.subs_of_todo {ph : Phase} (done : ph.todo = 0) (inside : ph ≠ .outside) :
    ph.subs = 1 := by
  cases ph with
  | outside => exact absurd rfl inside
  | entered | added => cases done
  | polling | loaded _ => rfl

/-- Nobody has to wait for an atomic. -/
theorem exists_atomics_done (inv : Inv s) :
    ∃ s', (barrierBlock n).Leads s s' ∧ (Inv s' ∧ s'.left = s.left ∧ s'.entered = s.entered) ∧
      ∀ p, (s'.phase p).todo = 0 := by
  refine TransitionSystem.exists_leads (fun s => ∑ p, (s.phase p).todo) ?_ ⟨inv, rfl, rfl⟩
  rintro t ⟨inv, left, entered⟩ undone
  obtain ⟨⟨rank, thread⟩, todo⟩ := not_forall.1 undone
  have drop : ∀ (t' : State n) ph, ThreadStep t t' (rank, thread) ph →
      ph.todo < (t.phase (rank, thread)).todo →
      ∑ p, (t'.phase p).todo < ∑ p, (t.phase p).todo := by
    intro t' ph step less
    refine Finset.sum_lt_sum (fun p _ => ?_) ⟨(rank, thread), Finset.mem_univ _, ?_⟩
    · rcases step.phase_cases p with ⟨rfl, new⟩ | ⟨-, old⟩
      · rw [new]
        exact less.le
      · rw [old]
    · rwa [step.phase_self]
  cases ph : t.phase (rank, thread) with
  | entered =>
    have fires : step t (.add rank thread) = some _ := if_pos ph
    have moved := step_add fires
    exact ⟨.add rank thread, _, fires,
      ⟨moved.inv inv, moved.left.trans left, moved.entered.trans entered⟩,
      drop _ _ moved (by rw [ph]; decide)⟩
  | added =>
    have fires : step t (.sub rank thread) = some _ := if_pos ph
    have moved := step_sub fires
    exact ⟨.sub rank thread, _, fires,
      ⟨moved.inv inv, moved.left.trans left, moved.entered.trans entered⟩,
      drop _ _ moved (by rw [ph]; decide)⟩
  | outside => exact absurd (by rw [ph]; rfl) todo
  | polling => exact absurd (by rw [ph]; rfl) todo
  | loaded value => exact absurd (by rw [ph]; rfl) todo

/-- What a thread still has to do before it votes for leaving, when it can: a value that is
out of date costs a vote, after which all threads load again. -/
def Phase.behind (n : ℕ) (ph : Phase) : ℕ :=
  match ph with
  | loaded value => if value.toInt ≤ 0 then 0 else n + 1
  | _ => 1

theorem Phase.behind_of_votesLeave {ph : Phase} (leave : ph.VotesLeave) : ph.behind n = 0 := by
  cases ph with
  | loaded value => exact if_pos leave
  | _ => exact leave.elim

/-- The state of a rank whose peers have all subtracted. -/
structure Free (s : State n) (rank : Fin n) : Prop where
  inv : Inv s
  own : ∀ t, (s.phase (rank, t)).subs = 1
  peers : ∀ t, s.left rank < s.numSubs (t, rank)

namespace Free

/-- A load of a free rank finds what it polls for. -/
theorem load (free : Free s rank) (polling : s.phase (rank, thread) = .polling) :
    ∃ s', step s (.load rank thread) = some s' ∧ Free s' rank ∧
      (s'.left = s.left ∧ s'.entered = s.entered) ∧
      ∑ t, (s'.phase (rank, t)).behind n < ∑ t, (s.phase (rank, t)).behind n := by
  have fires : step s (.load rank thread) = some _ := if_pos polling
  have moved := step_load free.inv fires
  have counts : s.numAdds (rank, thread) = s.left rank + 1 := by
    rw [State.numAdds, polling]
    rfl
  have leave : (Phase.loaded (s.cell (rank, thread))).VotesLeave :=
    (free.inv.cell_le_zero_iff (rank, thread)).2 (counts.trans_le (free.peers thread))
  refine ⟨_, fires, ⟨moved.inv free.inv, fun t => ?_, fun t => ?_⟩, ⟨moved.left, moved.entered⟩,
    Finset.sum_lt_sum (fun t _ => ?_) ⟨thread, Finset.mem_univ _, ?_⟩⟩
  · rcases moved.phase_cases (rank, t) with ⟨-, new⟩ | ⟨-, old⟩
    · rw [new]
      rfl
    · rw [old]
      exact free.own t
  · rw [moved.left]
    exact (free.peers t).trans_le (moved.numSubs_le (t, rank))
  · rcases moved.phase_cases (rank, t) with ⟨-, new⟩ | ⟨-, old⟩
    · rw [new, Phase.behind_of_votesLeave leave]
      exact Nat.zero_le _
    · rw [old]
  · rw [moved.phase_self, Phase.behind_of_votesLeave leave, polling]
    exact Nat.one_pos

/-- A vote that does not succeed clears the values that are out of date. -/
theorem vote (free : Free s rank) (all : ∀ t, (s.phase (rank, t)).HasValue)
    (stay : ¬ ∀ t, (s.phase (rank, t)).VotesLeave) :
    ∃ s', step s (.vote rank) = some s' ∧ Free s' rank ∧
      (s'.left = s.left ∧ s'.entered = s.entered) ∧
      ∑ t, (s'.phase (rank, t)).behind n < ∑ t, (s.phase (rank, t)).behind n := by
  have fires : step s (.vote rank) = some _ := (if_pos all).trans (if_neg stay)
  have phase : ∀ t, (if ((rank, t) : Fin n × Fin n).1 = rank then Phase.polling
      else s.phase (rank, t)) = .polling := fun t => if_pos rfl
  refine ⟨_, fires, ⟨step_inv free.inv fires, fun t => ?_, fun t => ?_⟩, ⟨rfl, rfl⟩, ?_⟩
  · dsimp only
    rw [phase t]
    rfl
  · exact (free.peers t).trans_le (numSubs_mono free.inv fires (t, rank))
  · obtain ⟨thread, stale⟩ := not_forall.1 stay
    obtain ⟨value, loaded⟩ := Phase.hasValue_iff.1 (all thread)
    rw [loaded] at stale
    calc ∑ t, Phase.behind n (if ((rank, t) : Fin n × Fin n).1 = rank then Phase.polling
          else s.phase (rank, t))
      _ = ∑ _t : Fin n, 1 := Finset.sum_congr rfl fun t _ => by rw [phase t]; rfl
      _ = n := (Finset.card_eq_sum_ones _).symm.trans (Finset.card_fin n)
      _ < n + 1 := Nat.lt_succ_self n
      _ = (s.phase (rank, thread)).behind n := by rw [loaded]; exact (if_neg stale).symm
      _ ≤ ∑ t, (s.phase (rank, t)).behind n :=
        Finset.single_le_sum (f := fun t => (s.phase (rank, t)).behind n)
          (fun t _ => Nat.zero_le _) (Finset.mem_univ thread)

/-- **A free rank gets out.** -/
theorem leads_out (free : Free s rank) :
    ∃ s', (barrierBlock n).Leads s s' ∧ s'.left rank = s.left rank + 1 := by
  have progress : ∀ s', (Free s' rank ∧ s'.left = s.left) →
      ¬ (∀ t, (s'.phase (rank, t)).VotesLeave) →
      ∃ e s'', (barrierBlock n).step s' e = some s'' ∧ (Free s'' rank ∧ s''.left = s.left) ∧
        ∑ t, (s''.phase (rank, t)).behind n < ∑ t, (s'.phase (rank, t)).behind n := by
    rintro s' ⟨free, left⟩ stay
    by_cases all : ∀ t, (s'.phase (rank, t)).HasValue
    · obtain ⟨s'', fires, free, ⟨same, -⟩, less⟩ := free.vote all stay
      exact ⟨.vote rank, s'', fires, ⟨free, same.trans left⟩, less⟩
    · obtain ⟨thread, none⟩ := not_forall.1 all
      have polling : s'.phase (rank, thread) = .polling := by
        have own := free.own thread
        cases ph : s'.phase (rank, thread) with
        | polling => rfl
        | loaded value => exact absurd (Phase.hasValue_iff.2 ⟨value, ph⟩) none
        | _ =>
          rw [ph] at own
          exact absurd own (by decide)
      obtain ⟨s'', fires, free, ⟨same, -⟩, less⟩ := free.load polling
      exact ⟨.load rank thread, s'', fires, ⟨free, same.trans left⟩, less⟩
  obtain ⟨s', leads, ⟨-, left⟩, leave⟩ :=
    TransitionSystem.exists_leads _ progress ⟨free, rfl⟩
  have fires : (barrierBlock n).step s' (.vote rank) = some _ :=
    (if_pos fun t => (leave t).hasValue).trans (if_pos leave)
  refine ⟨_, leads.trans (.single fires), ?_⟩
  rw [← left]
  exact Function.update_self _ _ _

end Free

/-- **A rank gets out of its barrier** when every rank has entered it, wherever they are. -/
theorem leads_out (inv : Inv s) (inside : s.Inside rank)
    (all : ∀ peer, s.entered rank ≤ s.entered peer) :
    ∃ s', (barrierBlock n).Leads s s' ∧ s'.left rank = s.entered rank := by
  obtain ⟨s', leads, ⟨inv', left, entered⟩, done⟩ := exists_atomics_done inv
  have here : s.entered rank = s.left rank + 1 :=
    le_antisymm (inv.entered_le rank) inside
  have free : Free s' rank := by
    refine ⟨inv', fun t => ?_, fun t => ?_⟩
    · have inBarrier : s'.phase (rank, t) ≠ .outside := fun out => by
        have same := inv'.outside (rank, t) out
        rw [entered, left] at same
        exact absurd (here.symm.trans same) (Nat.succ_ne_self _)
      exact Phase.subs_of_todo (done (rank, t)) inBarrier
    · have came := all t
      rw [left, State.numSubs, left]
      by_cases out : s'.phase (t, rank) = .outside
      · have same := inv'.outside (t, rank) out
        rw [entered, left] at same
        dsimp only at same ⊢
        omega
      · rw [Phase.subs_of_todo (done (t, rank)) out]
        have := inv.entered_le t
        dsimp only
        omega
  obtain ⟨s'', leads', out⟩ := free.leads_out
  exact ⟨s'', leads.trans leads', by rw [out, left, here]⟩

/-- **`barrier_block` separates phases.**  In every state that a run over `n` ranks reaches,

* no rank has left a barrier that another has not entered;
* once a peer has subtracted for the barrier a rank is in, the rank finds its cell not
  positive, however far the peer gets before the rank leaves;
* a rank whose barrier all have entered gets out of it;
* and between barriers all cells are as they were. -/
theorem barrier_block_separates (reach : (barrierBlock n).Reachable s) :
    (∀ rank peer, s.left rank ≤ s.entered peer) ∧
    (∀ rank peer, s.left rank < s.numSubs (peer, rank) →
      ∀ s', (barrierBlock n).Leads s s' → s'.left rank = s.left rank →
        (s'.cell (rank, peer)).toInt ≤ 0) ∧
    (∀ rank, s.Inside rank → (∀ peer, s.entered rank ≤ s.entered peer) →
      ∃ s', (barrierBlock n).Leads s s' ∧ s'.left rank = s.entered rank) ∧
    (∀ k, (∀ rank, s.entered rank = k ∧ s.left rank = k) →
      s.cell = (barrierBlock n).init.cell) := by
  have inv := inv_of_reachable reach
  refine ⟨inv.left_le, fun rank peer subtracted s' leads same => ?_,
    fun rank inside all => leads_out inv inside all, fun k idle => ?_⟩
  · have keeps : ∀ s₁ e s₂, (Inv s₁ ∧ s.numSubs (peer, rank) ≤ s₁.numSubs (peer, rank)) →
        (barrierBlock n).step s₁ e = some s₂ →
        (Inv s₂ ∧ s.numSubs (peer, rank) ≤ s₂.numSubs (peer, rank)) := by
      rintro s₁ e s₂ ⟨now, least⟩ fires
      exact ⟨step_inv now fires, least.trans (numSubs_mono now fires _)⟩
    obtain ⟨inv', later⟩ := leads.invariant keeps ⟨inv, le_rfl⟩
    refine (inv'.cell_le_zero_iff (rank, peer)).2 ?_
    calc s'.numAdds (rank, peer)
      _ ≤ s'.left rank + 1 := (inv'.numAdds_le _).trans (inv'.entered_le rank)
      _ = s.left rank + 1 := by rw [same]
      _ ≤ s.numSubs (peer, rank) := subtracted
      _ ≤ s'.numSubs (peer, rank) := later
  · funext ⟨rank, peer⟩
    have counts : ∀ r t, s.numAdds (r, t) = k ∧ s.numSubs (r, t) = k := by
      intro r t
      have out : s.phase (r, t) = .outside := by
        by_contra inside
        have := inv.inside (r, t) inside
        rw [(idle r).1, (idle r).2] at this
        exact absurd this (Nat.succ_ne_self k).symm
      rw [State.numAdds, State.numSubs, out, (idle r).2]
      exact ⟨rfl, rfl⟩
    rw [inv.cell, (counts rank peer).1, Prod.swap_prod_mk, (counts peer rank).2, sub_self]
    rfl

def rank0 : Fin 2 := ⟨0, Nat.two_pos⟩

def rank1 : Fin 2 := ⟨1, Nat.one_lt_two⟩

/-- Rank 0 goes through a barrier and waits in the next; rank 1 has not polled yet. -/
def rankAhead : List (Event 2) :=
  [.enter rank0, .add rank0 rank0, .sub rank0 rank0, .add rank0 rank1, .sub rank0 rank1,
    .enter rank1, .add rank1 rank0, .sub rank1 rank0, .add rank1 rank1, .sub rank1 rank1,
    .load rank0 rank0, .load rank0 rank1, .vote rank0, .enter rank0, .add rank0 rank1,
    .sub rank0 rank1]

theorem barrier_block_separates_ahead :
    ∃ s, (barrierBlock 2).run (barrierBlock 2).init rankAhead = some s ∧
      (s.left 0 = 1 ∧ s.left 1 = 0 ∧ s.cell (1, 0) = -1024) ∧
      (∀ rank peer, s.left rank ≤ s.entered peer) ∧
      (∀ s', (barrierBlock 2).Leads s s' → s'.left 1 = 0 → (s'.cell (1, 0)).toInt ≤ 0) ∧
      ∃ s', (barrierBlock 2).Leads s s' ∧ s'.left 1 = 1 := by
  have replay : ∃ s, (barrierBlock 2).run (barrierBlock 2).init rankAhead = some s ∧
      (s.left 0 = 1 ∧ s.left 1 = 0 ∧ s.cell (1, 0) = -1024) ∧ s.entered 0 = 2 ∧
      s.entered 1 = 1 ∧ s.numSubs (0, 1) = 2 := ⟨_, rfl, ⟨rfl, rfl, by decide⟩, rfl, rfl, rfl⟩
  obtain ⟨s, replay, here, entered0, entered1, subtracted⟩ := replay
  obtain ⟨before, racing, out, -⟩ := barrier_block_separates (.run .init replay)
  refine ⟨s, replay, here, before, fun s' leads left => ?_, ?_⟩
  · exact racing 1 0 (by omega) s' leads (left.trans here.2.1.symm)
  · have all : ∀ peer, s.entered 1 ≤ s.entered peer := fun peer => by
      fin_cases peer
      · exact entered1.le.trans (entered0.ge.trans' (by decide))
      · exact le_rfl
    have inside : s.Inside 1 := by
      rw [State.Inside]
      omega
    obtain ⟨s', leads, left⟩ := out 1 inside all
    exact ⟨s', leads, left.trans entered1⟩

end Barrier

end StreamEP
