import Mathlib.Algebra.BigOperators.Fin
import StreamEP.Lib.Countdown
import StreamEP.StreamMoe.Scatter

/-!
# Completion of tokens in the scattering kernels

The whole kernel: clusters claim work from the scheduler's counter, every CTA of a
cluster takes the claims in order, and a CTA's work on a claim is one worker of the
`Countdown` library.  The worker adds its stripe into `o`, counts itself on
`tile_n_stripes_done`, and if it is the last of `num_pid_n` stripes it releases the
tokens of the tile; the last release of a token stamps `y_done_per_token`.

The host computes `num_pid_n` from `H` and `tile_n`; the scheduler hands out whole
clusters.  A tile therefore has `num_pid_n` rounded up to a multiple of `cluster_n`
stripes, and completion is exact precisely when nothing is rounded
(`completionExact_iff`).

**The kernel as a countdown.**  A task is a CTA's share of a claim, and the tiles are the groups
of stripes (`scatterPlan`).  `KernelState` has the scheduler on top: the counter, and for every
CTA the claims that it still has to work on.  Whatever the scheduler does, the tasks go through
a run of the countdown (`countdown_inv`), so that its results about stamps, sums and termination
apply.  When every CTA is through, every task is done (`done_of_finished`), because the claims
are the numbers below the counter.

**What exactness is.**  `CompletionExact` is about all runs: a token is stamped at most once and
only when all columns of all its slots have been added, all additions stay inside `o`, and at
the end every token with a slot is stamped.  With whole clusters a tile has as many stripes as
the threshold (`card_crew`), and they are the columns.  Without, the last stripe of a tile with
a token leaves the row (`not_completionExact`); a pool without any token is the only exception.

The example is kernel Y at `H = 768` with the default tile: three stripes on clusters of two.
-/

namespace StreamEP.StreamMoe

open Finset

namespace ScatterLaunch

variable (la : ScatterLaunch)

/-- One CTA's share of one claim. -/
abbrev Task : Type := Fin la.totalWork × Fin la.clusterN

/-- The tiles as groups of stripes. -/
def scatterPlan : Countdown.Plan la.Task Addition (Fin la.totalTiles) (Fin la.tRecv) where
  writes i := la.additions i.1 i.2
  group i := ⟨la.tileId i.1,
    SchedulerArguments.tileId_eq i.1.isLt ▸ SchedulerArguments.tile_lt i.1.isLt⟩
  threshold := la.scatterNumPidN
  members tileId := la.members tileId

/-! ### The kernel -/

/-- A cluster and the position of a CTA in it. -/
abbrev Cta : Type := Fin la.numClusters × Fin la.clusterN

/-- `consumer_head`, what every CTA still has to do, and the additions, counters and
stamps so far. -/
structure KernelState where
  consumerHead : ℕ
  drained : Fin la.numClusters → Bool
  queue : la.Cta → List (Fin la.totalWork)
  tasks : Countdown.State la.Task Addition (Fin la.totalTiles) (Fin la.tRecv)

/-- A cluster claims; a CTA works on its first claim; a CTA goes on to the next. -/
inductive KernelEvent where
  | claim (g : Fin la.numClusters)
  | work (c : la.Cta) (e : Countdown.Event la.Task)
  | next (c : la.Cta)

variable {la} in
def kernelStep (s : KernelState la) : KernelEvent la → Option (KernelState la)
  | .claim g =>
      if s.drained g then none
      else if h : s.consumerHead < la.totalWork then
        -- the decoded claim is broadcast to all CTAs of the cluster
        some { s with
          consumerHead := s.consumerHead + 1
          queue := fun c =>
            if c.1 = g then s.queue c ++ [⟨s.consumerHead, h⟩] else s.queue c }
      else
        some { s with
          consumerHead := s.consumerHead + 1
          drained := Function.update s.drained g true }
  | .work c e =>
      match s.queue c with
      | [] => none
      | w :: _ =>
          if e.worker = (w, c.2) then
            (Countdown.step la.scatterPlan s.tasks e).map fun tasks => { s with tasks := tasks }
          else none
  | .next c =>
      match s.queue c with
      | [] => none
      | w :: ws =>
          match s.tasks.phase (w, c.2) with
          | .releasing [] [] => some { s with queue := Function.update s.queue c ws }
          | _ => none

def kernelSystem : TransitionSystem (KernelState la) (KernelEvent la) where
  init :=
    { consumerHead := 0
      drained := fun _ => false
      queue := fun _ => []
      tasks := Countdown.start la.scatterPlan la.kLocalRemaining }
  step := kernelStep

namespace KernelState

variable {la} (s : KernelState la)

/-- Every cluster has seen the end of the queue and every CTA is through. -/
def Finished : Prop := (∀ g, s.drained g = true) ∧ ∀ c, s.queue c = []

/-- The additions into `o` that have been issued. -/
def issued : List Addition := s.tasks.written

/-- `y_done_per_token`. -/
def yDonePerToken (r : Fin la.tRecv) : ℤ :=
  if 0 < s.tasks.stamps r then la.combineSeq else la.yDonePerToken r

end KernelState

/-- Completion is exact: over all runs, tokens are stamped once and only when their
rows are complete, and the kernel stays inside `o`. -/
structure CompletionExact : Prop where
  stamped : ∀ s, la.kernelSystem.Reachable s → s.Finished → ∀ r, la.HasSlot r →
    s.tasks.stamps r = 1 ∧ s.yDonePerToken r = la.combineSeq
  atMostOnce : ∀ s, la.kernelSystem.Reachable s → ∀ r, s.tasks.stamps r ≤ 1
  never : ∀ s, la.kernelSystem.Reachable s → ∀ r, ¬la.HasSlot r →
    s.tasks.stamps r = 0 ∧ s.yDonePerToken r = la.yDonePerToken r
  complete : ∀ s, la.kernelSystem.Reachable s → ∀ r, 0 < s.tasks.stamps r →
    ∀ slot < la.totalTiles * la.tileM, la.poolRecvToken slot = (r : ℕ) →
      ∀ n < la.hidden, ⟨slot, r, n⟩ ∈ s.issued
  inBounds : ∀ s, la.kernelSystem.Reachable s → ∀ a ∈ s.issued, a.column < la.hidden
  counters : ∀ s, la.kernelSystem.Reachable s → s.Finished → ∀ r, s.tasks.remaining r = 0

/-! ### Stripes of a tile -/

variable {la}

theorem numPidN_eq : la.numPidN = ceilDiv la.scatterNumPidN la.clusterN := by
  rw [SchedulerArguments.numPidN, la.problemTilesN_eq]
  rfl

variable (la) in
theorem scatterNumPidN_le : la.scatterNumPidN ≤ la.numPidN * la.clusterN := by
  rw [numPidN_eq]
  exact le_ceilDiv_mul la.clusterN_pos _

theorem numPidN_mul_eq_iff :
    la.numPidN * la.clusterN = la.scatterNumPidN ↔ la.clusterN ∣ la.scatterNumPidN := by
  constructor
  · intro whole
    exact ⟨la.numPidN, by rw [Nat.mul_comm, whole]⟩
  · rintro ⟨q, hq⟩
    have few := ceilDiv_mul_lt la.clusterN_pos la.scatterNumPidN
    have enough := scatterNumPidN_le la
    rw [← numPidN_eq] at few
    rw [hq] at few enough ⊢
    have upper : la.numPidN < q + 1 := by
      refine Nat.lt_of_mul_lt_mul_right (a := la.clusterN) ?_
      rw [Nat.add_mul, Nat.one_mul, Nat.mul_comm q]
      exact few
    have lower : q ≤ la.numPidN := by
      refine Nat.le_of_mul_le_mul_right ?_ la.clusterN_pos
      rw [Nat.mul_comm q]
      exact enough
    rw [Nat.le_antisymm (Nat.le_of_lt_succ upper) lower, Nat.mul_comm]

theorem pidN_eq (workIdx j : ℕ) :
    la.pidN workIdx j = workIdx % la.numPidN * la.clusterN + j := rfl

theorem group_eq (i : la.Task) : ((la.scatterPlan.group i : ℕ)) = i.1 / la.numPidN :=
  SchedulerArguments.tileId_eq i.1.isLt

/-- A tile has as many stripes as its clusters have CTAs. -/
theorem card_crew (tileId : Fin la.totalTiles) :
    (Countdown.crew la.scatterPlan tileId).card = la.numPidN * la.clusterN := by
  have pos : 0 < la.numPidN := numPidN_pos
  have row : ∀ i : la.Task, la.scatterPlan.group i = tileId ↔
      (i.1 : ℕ) / la.numPidN = tileId := fun i => by
    rw [← group_eq]
    exact Fin.ext_iff
  rw [Countdown.crew]
  simp only [row]
  have product : (univ.filter fun i : la.Task => (i.1 : ℕ) / la.numPidN = tileId) =
      (univ.filter fun w : Fin la.totalWork => (w : ℕ) / la.numPidN = tileId) ×ˢ univ := by
    ext i
    simp only [mem_filter, mem_univ, true_and, mem_product, and_true]
  have claims : (univ.filter fun w : Fin la.totalWork =>
      (w : ℕ) / la.numPidN = tileId).card = la.numPidN := by
    have image : (univ.filter fun w : Fin la.totalWork =>
        (w : ℕ) / la.numPidN = tileId).map Fin.valEmbedding =
          Finset.Ico (tileId * la.numPidN) (tileId * la.numPidN + la.numPidN) := by
      ext w
      simp only [mem_map, mem_filter, mem_univ, true_and, Fin.valEmbedding_apply, mem_Ico]
      have inside := PrefixSum.flat_lt tileId.isLt (Nat.mod_lt w pos)
      constructor
      · rintro ⟨w, own, rfl⟩
        have := (Nat.div_eq_iff pos).1 own
        omega
      · rintro ⟨lower, upper⟩
        have own : w / la.numPidN = tileId := (Nat.div_eq_iff pos).2 ⟨by omega, by omega⟩
        have whole := Nat.div_add_mod' w la.numPidN
        rw [own] at whole
        exact ⟨⟨w, by rw [← whole]; exact inside⟩, own, rfl⟩
    rw [← card_map Fin.valEmbedding, image, Nat.card_Ico, Nat.add_sub_cancel_left]
  rw [product, card_product, claims, card_univ, Fintype.card_fin]

/-! ### Runs of the kernel -/

variable {s s' : KernelState la}

/-- What one step of the kernel does, guards included. -/
theorem kernelStep_cases {e : KernelEvent la} (fires : kernelStep s e = some s') :
    (∃ g, ∃ h : s.consumerHead < la.totalWork, s.drained g = false ∧
      s' = { s with
        consumerHead := s.consumerHead + 1
        queue := fun c => if c.1 = g then s.queue c ++ [⟨s.consumerHead, h⟩] else s.queue c }) ∨
    (∃ g, la.totalWork ≤ s.consumerHead ∧ s.drained g = false ∧
      s' = { s with
        consumerHead := s.consumerHead + 1
        drained := Function.update s.drained g true }) ∨
    (∃ e tasks, Countdown.step la.scatterPlan s.tasks e = some tasks ∧
      s' = { s with tasks := tasks }) ∨
    (∃ c w ws, s.queue c = w :: ws ∧ s.tasks.Done (w, c.2) ∧
      s' = { s with queue := Function.update s.queue c ws }) := by
  cases e with
  | claim g =>
      cases open' : s.drained g with
      | true => simp [kernelStep, open'] at fires
      | false =>
          by_cases more : s.consumerHead < la.totalWork
          · left
            simp only [kernelStep, open', Bool.false_eq_true, if_false, dif_pos more,
              Option.some.injEq] at fires
            exact ⟨g, more, open', fires.symm⟩
          · right; left
            simp only [kernelStep, open', Bool.false_eq_true, if_false, dif_neg more,
              Option.some.injEq] at fires
            exact ⟨g, Nat.le_of_not_lt more, open', fires.symm⟩
  | work c e =>
      right; right; left
      cases first : s.queue c with
      | nil => simp [kernelStep, first] at fires
      | cons w ws =>
          simp only [kernelStep, first, Option.ite_none_right_eq_some, Option.map_eq_some_iff]
            at fires
          obtain ⟨-, tasks, fires, rfl⟩ := fires
          exact ⟨e, tasks, fires, rfl⟩
  | next c =>
      right; right; right
      cases first : s.queue c with
      | nil => simp [kernelStep, first] at fires
      | cons w ws =>
          simp only [kernelStep, first] at fires
          split at fires
          case h_1 done =>
            exact ⟨c, w, ws, first, done, (Option.some.inj fires).symm⟩
          case h_2 => cases fires

/-- Nothing happens any more to a task that is done. -/
theorem done_step {tasks : Countdown.State la.Task Addition (Fin la.totalTiles) (Fin la.tRecv)}
    {e : Countdown.Event la.Task} (fires : Countdown.step la.scatterPlan s.tasks e = some tasks)
    {i : la.Task} (done : s.tasks.Done i) : tasks.Done i := by
  obtain ⟨x, moved, less⟩ := Countdown.step_effort fires
  have other : i ≠ e.worker := by
    rintro rfl
    rw [done] at less
    exact absurd less (Nat.not_lt_zero _)
  show tasks.phase i = _
  rw [moved, Function.update_of_ne other]
  exact done

structure KernelInv (s : KernelState la) : Prop where
  tasks : (Countdown.system la.scatterPlan la.kLocalRemaining).Reachable s.tasks
  /-- A claim is in the queues of one cluster until it is done. -/
  claimed : ∀ w : Fin la.totalWork, (w : ℕ) < s.consumerHead → ∀ j,
    (∃ g, w ∈ s.queue (g, j)) ∨ s.tasks.Done (w, j)
  drained : ∀ g, s.drained g = true → la.totalWork ≤ s.consumerHead

theorem kernelStep_inv {e : KernelEvent la} (inv : KernelInv s)
    (fires : kernelStep s e = some s') : KernelInv s' := by
  rcases kernelStep_cases fires with ⟨g, h, -, rfl⟩ | ⟨g, ended, -, rfl⟩ |
    ⟨e, tasks, steps, rfl⟩ | ⟨c, w, ws, first, done, rfl⟩
  -- a claim joins the queue of every CTA of its cluster
  · refine ⟨inv.tasks, fun w hw j => ?_, fun g' drained => ?_⟩
    · by_cases now : (w : ℕ) = s.consumerHead
      · left
        refine ⟨g, ?_⟩
        simp only [if_true]
        exact List.mem_append_right _ (List.mem_singleton.2 (Fin.ext now))
      · have before : (w : ℕ) < s.consumerHead := by
          have hw : (w : ℕ) < s.consumerHead + 1 := hw
          omega
        refine (inv.claimed w before j).imp_left ?_
        rintro ⟨g', mem⟩
        refine ⟨g', ?_⟩
        dsimp only
        split
        · exact List.mem_append_left _ mem
        · exact mem
    · exact (inv.drained g' drained).trans (Nat.le_succ _)
  · refine ⟨inv.tasks, fun w hw j => ?_, fun g' _ => ended.trans (Nat.le_succ _)⟩
    exact inv.claimed w (w.isLt.trans_le ended) j
  · exact ⟨.step e inv.tasks steps,
      fun w hw j => (inv.claimed w hw j).imp_right (done_step steps), inv.drained⟩
  -- the head of a queue goes when its task is done
  · refine ⟨inv.tasks, fun w' hw j => ?_, inv.drained⟩
    rcases inv.claimed w' hw j with ⟨g, mem⟩ | finished
    · by_cases here : (g, j) = c
      · subst here
        rw [first] at mem
        rcases List.mem_cons.1 mem with rfl | later
        · exact Or.inr done
        · left
          refine ⟨g, ?_⟩
          simp only [Function.update_self]
          exact later
      · left
        refine ⟨g, ?_⟩
        simp only [Function.update_of_ne here]
        exact mem
    · exact Or.inr finished

theorem kernel_inv (reach : la.kernelSystem.Reachable s) : KernelInv s := by
  refine reach.invariant ⟨.init, fun w hw _ => absurd hw (Nat.not_lt_zero _), ?_⟩
    fun s e s' inv fires => kernelStep_inv inv (fires : kernelStep s e = some s')
  intro g drained
  cases drained

/-- The releases of the tasks start where the counters do. -/
theorem remaining_eq_total (r : Fin la.tRecv) :
    la.kLocalRemaining r = Countdown.total la.scatterPlan r :=
  (sum_count_members r).symm

theorem countdown_inv (reach : la.kernelSystem.Reachable s) :
    Countdown.Inv la.scatterPlan s.tasks :=
  Countdown.reachable_inv scatterNumPidN_pos remaining_eq_total (kernel_inv reach).tasks

/-- When every CTA is through, every task is done. -/
theorem done_of_finished (reach : la.kernelSystem.Reachable s) (finished : s.Finished)
    (i : la.Task) : s.tasks.Done i := by
  have inv := kernel_inv reach
  have ended := inv.drained ⟨0, la.numClusters_pos⟩ (finished.1 _)
  rcases inv.claimed i.1 (i.1.isLt.trans_le ended) i.2 with ⟨g, mem⟩ | done
  · rw [finished.2] at mem
    cases mem
  · exact done

/-- Steps the kernel may still take. -/
def kernelFuel (s : KernelState la) : ℕ :=
  (la.totalWork - s.consumerHead) * (la.numClusters * la.clusterN + 1) +
    (∑ g, (!s.drained g).toNat) + (∑ c, (s.queue c).length) +
    ∑ i, Countdown.effort la.scatterPlan i (s.tasks.phase i)

theorem kernelStep_fuel {e : KernelEvent la} (fires : kernelStep s e = some s') :
    kernelFuel s' < kernelFuel s := by
  rcases kernelStep_cases fires with ⟨g, h, -, rfl⟩ | ⟨g, ended, open', rfl⟩ |
    ⟨e, tasks, steps, rfl⟩ | ⟨c, w, ws, first, done, rfl⟩
  · obtain ⟨m, hm⟩ := Nat.exists_eq_add_of_lt h
    -- a claim is worth more than the queue entries it makes
    have grown : (∑ c : la.Cta, (if c.1 = g then s.queue c ++ [⟨s.consumerHead, h⟩]
        else s.queue c).length) ≤
          (∑ c : la.Cta, (s.queue c).length) + la.numClusters * la.clusterN := by
      have each : ∀ c ∈ (univ : Finset la.Cta),
          (if c.1 = g then s.queue c ++ [⟨s.consumerHead, h⟩] else s.queue c).length ≤
            (s.queue c).length + 1 := by
        intro c _
        split
        · rw [List.length_append, List.length_singleton]
        · exact Nat.le_succ _
      refine (sum_le_sum each).trans (le_of_eq ?_)
      rw [sum_add_distrib, ← card_eq_sum_ones, card_univ, Fintype.card_prod, Fintype.card_fin,
        Fintype.card_fin]
    have before : la.totalWork - s.consumerHead = m + 1 := by omega
    have after : la.totalWork - (s.consumerHead + 1) = m := by omega
    simp only [kernelFuel, before, after, Nat.add_mul, Nat.one_mul]
    omega
  · have closed : (∑ g', (!Function.update s.drained g true g').toNat) <
        ∑ g', (!s.drained g').toNat := by
      refine sum_lt_sum (fun g' _ => ?_) ⟨g, mem_univ g, ?_⟩
      · by_cases same : g' = g
        · subst same
          rw [Function.update_self]
          exact Nat.zero_le _
        · rw [Function.update_of_ne same]
      · rw [Function.update_self, open']
        exact Nat.zero_lt_one
    have none : la.totalWork - s.consumerHead = 0 := by omega
    have still : la.totalWork - (s.consumerHead + 1) = 0 := by omega
    simp only [kernelFuel, none, still]
    omega
  · obtain ⟨x, moved, less⟩ := Countdown.step_effort steps
    have sums := Countdown.sum_update s.tasks.phase (x := x)
      (Countdown.effort la.scatterPlan) (mem_univ e.worker)
    simp only [kernelFuel, moved]
    omega
  · have shorter : (∑ c', (Function.update s.queue c ws c').length) <
        ∑ c', (s.queue c').length := by
      refine sum_lt_sum (fun c' _ => ?_) ⟨c, mem_univ c, ?_⟩
      · by_cases same : c' = c
        · subst same
          rw [Function.update_self, first]
          exact Nat.le_succ _
        · rw [Function.update_of_ne same]
      · rw [Function.update_self, first]
        exact Nat.lt_succ_self _
    simp only [kernelFuel]
    omega

/-- Until everything is through, some step is enabled. -/
theorem exists_kernelStep (busy : ¬s.Finished) : ∃ e s', kernelStep s e = some s' := by
  by_cases open' : ∃ g, s.drained g = false
  · obtain ⟨g, open'⟩ := open'
    by_cases more : s.consumerHead < la.totalWork
    · exact ⟨.claim g, _, by simp [kernelStep, open', more]; rfl⟩
    · exact ⟨.claim g, _, by simp [kernelStep, open', more]; rfl⟩
  · have drained : ∀ g, s.drained g = true := by simpa using open'
    obtain ⟨c, queued⟩ : ∃ c, s.queue c ≠ [] := by
      by_contra empty
      exact busy ⟨drained, by simpa using empty⟩
    cases first : s.queue c with
    | nil => exact absurd first queued
    | cons w ws =>
        by_cases done : s.tasks.Done (w, c.2)
        · have done : s.tasks.phase (w, c.2) = .releasing [] [] := done
          exact ⟨.next c, _, by simp only [kernelStep, first, done]; rfl⟩
        · obtain ⟨e, worker, tasks, steps⟩ := Countdown.exists_step done (p := la.scatterPlan)
          exact ⟨.work c e, _, by simp only [kernelStep, first, if_pos worker, steps]; rfl⟩

/-- The kernel can be run to its end. -/
theorem exists_finished (la : ScatterLaunch) : ∃ s, la.kernelSystem.Reachable s ∧ s.Finished := by
  have fresh : la.kernelSystem.Reachable la.kernelSystem.init := .init
  obtain ⟨s, reach, ended⟩ := fresh.exists_terminal kernelFuel fun s e s' _ fires =>
    kernelStep_fuel (fires : kernelStep s e = some s')
  refine ⟨s, reach, ?_⟩
  by_contra busy
  obtain ⟨e, s', fires⟩ := exists_kernelStep busy
  exact absurd (fires.symm.trans (ended e)) (by simp)

/-! ### Exactness -/

theorem total_pos_iff {r : Fin la.tRecv} :
    0 < Countdown.total la.scatterPlan r ↔ la.HasSlot r := by
  have counted := la.kLocalRemaining_eq r
  rw [remaining_eq_total, Nat.cast_inj] at counted
  rw [counted, card_pos]
  constructor
  · rintro ⟨slot, mem⟩
    exact ⟨slot, mem_range.1 (mem_filter.1 mem).1, (mem_filter.1 mem).2⟩
  · rintro ⟨slot, inside, token⟩
    exact ⟨slot, mem_filter.2 ⟨mem_range.2 inside, token⟩⟩

theorem scatterNumPidN_mul : la.scatterNumPidN * la.tileN = la.hidden := by
  rw [scatterNumPidN_eq, tileN_mul la]

/-- The task whose stripe has column `n` of a slot's tile. -/
theorem exists_task {slot n : ℕ} (hslot : slot < la.totalTiles * la.tileM)
    (hn : n < la.numPidN * la.clusterN * la.tileN) :
    ∃ i : la.Task, (la.scatterPlan.group i : ℕ) = slot / la.tileM ∧
      la.pidN i.1 i.2 = n / la.tileN := by
  have cn := la.clusterN_pos
  have htile : slot / la.tileM < la.totalTiles :=
    Nat.div_lt_of_lt_mul (by rw [Nat.mul_comm]; exact hslot)
  have hpid : n / la.tileN < la.numPidN * la.clusterN :=
    Nat.div_lt_of_lt_mul (by rw [Nat.mul_comm]; exact hn)
  have hgroup : n / la.tileN / la.clusterN < la.numPidN :=
    Nat.div_lt_of_lt_mul (by rw [Nat.mul_comm]; exact hpid)
  refine ⟨(⟨slot / la.tileM * la.numPidN + n / la.tileN / la.clusterN,
    PrefixSum.flat_lt htile hgroup⟩, ⟨n / la.tileN % la.clusterN, Nat.mod_lt _ cn⟩), ?_, ?_⟩
  · rw [group_eq]
    exact PrefixSum.flat_div hgroup
  · rw [pidN_eq]
    show (_ * la.numPidN + _) % la.numPidN * la.clusterN + n / la.tileN % la.clusterN = _
    rw [PrefixSum.flat_mod hgroup, Nat.div_add_mod']

/-- The stripe of a task adds the columns of its stripe for every slot of its tile. -/
theorem addition_mem {i : la.Task} {slot n : ℕ} {r : Fin la.tRecv}
    (tile : (la.scatterPlan.group i : ℕ) = slot / la.tileM)
    (token : la.poolRecvToken slot = (r : ℕ)) (stripe : la.pidN i.1 i.2 = n / la.tileN) :
    (⟨slot, r, n⟩ : Addition) ∈ la.scatterPlan.writes i := by
  have inside := (Nat.div_eq_iff la.tileN_pos).1 stripe.symm
  refine (mem_additions i.1.isLt _).2 ⟨tile.symm.trans (group_eq i), token, r.isLt, ?_, ?_⟩
  · exact inside.1
  · have pos := la.tileN_pos
    show n < _
    rw [Nat.add_mul, Nat.one_mul]
    omega

/-- With whole clusters every stripe lies inside `o`. -/
theorem column_lt (whole : la.numPidN * la.clusterN = la.scatterNumPidN) {i : la.Task}
    {a : Addition} (mem : a ∈ la.scatterPlan.writes i) : a.column < la.hidden := by
  obtain ⟨-, -, -, -, upper⟩ := (mem_additions i.1.isLt a).1 mem
  have pos : 0 < la.numPidN := numPidN_pos
  have stripe : la.pidN i.1 i.2 < la.scatterNumPidN := by
    rw [← whole, pidN_eq]
    exact PrefixSum.flat_lt (Nat.mod_lt _ pos) i.2.isLt
  calc a.column < (la.pidN i.1 i.2 + 1) * la.tileN := upper
    _ ≤ la.scatterNumPidN * la.tileN := Nat.mul_le_mul_right _ stripe
    _ = la.hidden := scatterNumPidN_mul

/-- A stamp follows all columns of all slots of the token, with whole clusters. -/
theorem issued_of_stamped (whole : la.numPidN * la.clusterN = la.scatterNumPidN)
    (reach : la.kernelSystem.Reachable s) {r : Fin la.tRecv} (stamped : 0 < s.tasks.stamps r)
    {slot n : ℕ} (hslot : slot < la.totalTiles * la.tileM)
    (token : la.poolRecvToken slot = (r : ℕ)) (hn : n < la.hidden) :
    (⟨slot, r, n⟩ : Addition) ∈ s.issued := by
  obtain ⟨i, tile, stripe⟩ := exists_task hslot (n := n) (by
    rw [whole, scatterNumPidN_mul]
    exact hn)
  have atMost : ∀ tileId, (Countdown.crew la.scatterPlan tileId).card ≤
      la.scatterPlan.threshold := fun tileId => (card_crew tileId).le.trans whole.le
  have member : r ∈ la.scatterPlan.members (la.scatterPlan.group i) := by
    refine mem_members.2 ⟨slot % la.tileM, Nat.mod_lt _ la.tileM_pos, ?_⟩
    rw [tile, Nat.div_add_mod']
    exact token
  exact Countdown.written_of_stamped (countdown_inv reach) atMost stamped member _
    (addition_mem tile token stripe)

/-- Stamps and counters at the end, whatever the cluster width. -/
theorem stamps_finished (reach : la.kernelSystem.Reachable s) (finished : s.Finished)
    (r : Fin la.tRecv) :
    s.tasks.remaining r = 0 ∧
      s.tasks.stamps r = if 0 < Countdown.total la.scatterPlan r then 1 else 0 :=
  Countdown.stamps_of_finished (countdown_inv reach)
    (fun tileId _ => (scatterNumPidN_le la).trans (card_crew tileId).ge)
    (done_of_finished reach finished) r

theorem stamps_eq_zero (reach : la.kernelSystem.Reachable s) {r : Fin la.tRecv}
    (none : ¬la.HasSlot r) : s.tasks.stamps r = 0 := by
  by_contra some
  exact none (total_pos_iff.1 (Countdown.released_of_stamped (countdown_inv reach)
    (Nat.pos_of_ne_zero some)).2)

/-- What completion needs beyond the counting, which is always right. -/
theorem completionExact_of
    (complete : ∀ s, la.kernelSystem.Reachable s → ∀ r, 0 < s.tasks.stamps r →
      ∀ slot < la.totalTiles * la.tileM, la.poolRecvToken slot = (r : ℕ) →
        ∀ n < la.hidden, ⟨slot, r, n⟩ ∈ s.issued)
    (inBounds : ∀ i, ∀ a ∈ la.scatterPlan.writes i, a.column < la.hidden) :
    la.CompletionExact where
  stamped s reach finished r has := by
    have once := (stamps_finished reach finished r).2
    rw [if_pos (total_pos_iff.2 has)] at once
    exact ⟨once, if_pos (by omega)⟩
  atMostOnce s reach r := Countdown.stamps_le_one (countdown_inv reach) r
  never s reach r none := by
    have zero := stamps_eq_zero reach none
    exact ⟨zero, if_neg (by omega)⟩
  complete := complete
  inBounds s reach a issued := by
    obtain ⟨i, mem⟩ := (countdown_inv reach).writes.issued a issued
    exact inBounds i a mem
  counters s reach finished r := (stamps_finished reach finished r).1

/-- The last stripe of the last cluster of a tile with a token leaves `o`, unless the
clusters are whole. -/
theorem not_completionExact (slot : ℕ) (hslot : slot < la.totalTiles * la.tileM)
    (token : la.poolRecvToken slot ≠ -1) (ragged : ¬la.clusterN ∣ la.scatterNumPidN) :
    ¬la.CompletionExact := by
  intro exact'
  have real := (la.poolRecvToken_range slot hslot).resolve_left token
  have more : la.scatterNumPidN < la.numPidN * la.clusterN :=
    lt_of_le_of_ne (scatterNumPidN_le la) fun eq => ragged (numPidN_mul_eq_iff.1 eq.symm)
  obtain ⟨i, tile, stripe⟩ := exists_task hslot (n := la.hidden) (by
    rw [← scatterNumPidN_mul]
    exact Nat.mul_lt_mul_of_pos_right more la.tileN_pos)
  have planned := addition_mem (r := ⟨(la.poolRecvToken slot).toNat, by omega⟩) tile
    (Int.toNat_of_nonneg real.1).symm stripe
  obtain ⟨s, reach, finished⟩ := exists_finished la
  have issued := Countdown.written_of_done (countdown_inv reach)
    (done_of_finished reach finished i) _ planned
  exact absurd (exact'.inBounds s reach _ issued) (lt_irrefl _)

/-- **Completion is exact iff the cluster width divides the number of stripes**, except
in a pool without any token. -/
theorem completionExact_iff (la : ScatterLaunch) :
    la.CompletionExact ↔ la.clusterN ∣ la.hidden / la.tileN ∨
      ∀ slot < la.totalTiles * la.tileM, la.poolRecvToken slot = -1 := by
  rw [← scatterNumPidN_eq]
  constructor
  · intro exact'
    by_contra neither
    obtain ⟨ragged, some⟩ := not_or.1 neither
    obtain ⟨slot, hslot, token⟩ : ∃ slot < la.totalTiles * la.tileM,
        la.poolRecvToken slot ≠ -1 := by
      simpa only [not_forall, exists_prop] using some
    exact not_completionExact slot hslot token ragged exact'
  · rintro (divides | empty)
    · have whole := numPidN_mul_eq_iff.2 divides
      exact completionExact_of (fun s reach r stamped slot hslot token n hn =>
        issued_of_stamped whole reach stamped hslot token hn) fun i a mem => column_lt whole mem
    · refine completionExact_of (fun s reach r stamped slot hslot token n hn => ?_)
        fun i a mem => ?_
      · rw [empty slot hslot] at token
        have := r.isLt
        omega
      · obtain ⟨tile, token, -⟩ := (mem_additions i.1.isLt a).1 mem
        have inside : a.slot < la.totalTiles * la.tileM := by
          have htile := SchedulerArguments.tile_lt i.1.isLt
          rw [← tile] at htile
          exact (Nat.div_lt_iff_lt_mul la.tileM_pos).1 htile
        rw [empty _ inside] at token
        omega

/-! ### Three stripes on clusters of two -/

/-- A pool of one tile with one token. -/
def onePool (slot : ℕ) : ℤ := if slot = 0 then 0 else -1

theorem onePool_range (s : ℕ) : onePool s = -1 ∨ 0 ≤ onePool s ∧ onePool s < (1 : ℕ) := by
  unfold onePool
  split
  · exact Or.inr ⟨le_rfl, Int.one_pos⟩
  · exact Or.inl rfl

theorem card_onePool (r : Fin 1) :
    (1 : ℤ) = ((range (1 * 128)).filter fun s => onePool s = (r : ℕ)).card := by
  have single : ((range (1 * 128)).filter fun s => onePool s = (r : ℕ)) = {0} := by
    ext s
    have zero := r.isLt
    rw [mem_filter, mem_range, mem_singleton, onePool]
    split <;> omega
  rw [single, card_singleton]
  rfl

/-- The forward launch of kernel Y at `H = 768` with the default `tile_n = 256`. -/
def raggedLaunch : ScatterLaunch where
  numLocalExperts := 1
  expertPoolBlockOffset e := e
  totalTiles := 1
  problemTilesN := 3
  clusterN := 2
  numLocalExperts_le := Nat.le_of_ble_eq_true rfl
  offset_zero := rfl
  offset_mono e _ := Nat.le_succ e
  offset_last := rfl
  totalTiles_le := Nat.le_of_ble_eq_true rfl
  clusterN_pos := Nat.two_pos
  hidden := 768
  tileM := 128
  tileN := 256
  tRecv := 1
  poolRecvToken := onePool
  kLocalRemaining _ := 1
  yDonePerToken _ := 0
  combineSeq := 1
  epiTileM := 128
  epiTileN := 32
  numEpiWarps := 4
  numClusters := 66
  hidden_pos := Nat.succ_pos _
  tileN_pos := Nat.succ_pos _
  tileN_dvd := rfl
  problemTilesN_eq := rfl
  epiTileM_dvd := ⟨1, rfl⟩
  epiTileN_dvd := ⟨8, rfl⟩
  chunk_dvd := ⟨4, rfl⟩
  tileM_pos := Nat.succ_pos _
  tileM_le := Nat.le_of_ble_eq_true rfl
  numClusters_pos := Nat.succ_pos _
  poolRecvToken_range s _ := onePool_range s
  kLocalRemaining_eq := card_onePool

theorem raggedLaunch_not_exact : ¬raggedLaunch.CompletionExact := by
  refine not_completionExact 0 (Nat.succ_pos _) ?_ ?_
  · show onePool 0 ≠ -1
    decide
  · show ¬2 ∣ (768 + 256 - 1) / 256
    decide

end ScatterLaunch

end StreamEP.StreamMoe
