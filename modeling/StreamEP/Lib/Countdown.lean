import Mathlib.Algebra.BigOperators.Group.Finset.Basic
import Mathlib.Algebra.Order.BigOperators.Group.Finset
import Mathlib.Data.Fintype.Basic
import Mathlib.Data.List.Perm.Basic
import StreamEP.Lib.TransitionSystem

/-!
# Releasing tokens group by group

Workers write their share of some data and belong to groups.  A worker that has
performed its writes arrives at its group; the one that finds `threshold - 1`
arrivals before its own closes the group and decrements a counter for every member
of the group.  Whoever decrements a member's counter from one to zero stamps it.
Writes, releases and stamps of one worker come in any order among themselves, and
the workers interleave freely.

Two facts need no relation between the threshold and the sizes of the groups: a
group is closed at most once, so a member is stamped at most once
(`stamps_le_one`).  Equality matters in both directions.  If no group has more
than `threshold` workers, a stamp comes after the writes of every worker of every
group with the member (`written_of_stamped`); if none has fewer, then at the end
every counter is at zero and every member is stamped (`stamps_of_finished`).

**The books.**  A member's counter starts at `total`, the number of its occurrences in all groups.
The invariant balances it: the counter and the part of the closed groups (`closed`) make up the
total and the releases that are still to come.  The arrival that closes a group adds to `closed`
exactly what it has to release (`closed_arrive`).  The stamp belongs to the counter: a member is
stamped, or its stamp is due, when the counter is at zero, and not before.

**What the writes add up to.**  Writes are values of any commutative monoid, and what has been
written and what is to come make up the plan in every state (`reachable_sum`), so nothing is lost
or added twice.  A worker that is not done can take a step, and every step uses up some of its
effort, so the workers finish whatever the threshold is.
-/

namespace Countdown

open Finset

variable {ι α γ ρ : Type*}

/-- Who writes what, and which members a group releases. -/
structure Plan (ι α γ ρ : Type*) where
  writes : ι → List α
  group : ι → γ
  threshold : ℕ
  members : γ → List ρ

/-- Where a worker is: before its arrival, with writes left; or after it, with
members to release and members to stamp. -/
inductive Phase (α ρ : Type*) where
  | writing (left : List α)
  | releasing (left due : List ρ)

namespace Phase

/-- Writes still to come. -/
def writes : Phase α ρ → List α
  | .writing left => left
  | .releasing _ _ => []

/-- Releases still to come. -/
def left : Phase α ρ → List ρ
  | .writing _ => []
  | .releasing left _ => left

/-- Stamps still to come. -/
def due : Phase α ρ → List ρ
  | .writing _ => []
  | .releasing _ due => due

/-- Whether the worker has arrived at its group. -/
def arrived : Phase α ρ → Bool
  | .writing _ => false
  | .releasing _ _ => true

@[simp] theorem writes_writing (l : List α) : (writing l : Phase α ρ).writes = l := rfl

@[simp] theorem left_writing (l : List α) : (writing l : Phase α ρ).left = [] := rfl

@[simp] theorem due_writing (l : List α) : (writing l : Phase α ρ).due = [] := rfl

@[simp] theorem arrived_writing (l : List α) : (writing l : Phase α ρ).arrived = false := rfl

@[simp] theorem writes_releasing (l d : List ρ) : (releasing l d : Phase α ρ).writes = [] := rfl

@[simp] theorem left_releasing (l d : List ρ) : (releasing l d : Phase α ρ).left = l := rfl

@[simp] theorem due_releasing (l d : List ρ) : (releasing l d : Phase α ρ).due = d := rfl

@[simp] theorem arrived_releasing (l d : List ρ) :
    (releasing l d : Phase α ρ).arrived = true := rfl

end Phase

/-- The workers, what has been written, the arrivals of each group and the counters
and stamps of the members. -/
structure State (ι α γ ρ : Type*) where
  phase : ι → Phase α ρ
  written : List α
  arrived : γ → ℕ
  remaining : ρ → ℤ
  stamps : ρ → ℕ

/-- One step of one worker; `j` picks one of the writes, releases or stamps that it
has left. -/
inductive Event (ι : Type*) where
  | write (i : ι) (j : ℕ)
  | arrive (i : ι)
  | release (i : ι) (j : ℕ)
  | stamp (i : ι) (j : ℕ)

/-- The worker that takes the step. -/
def Event.worker : Event ι → ι
  | .write i _ | .arrive i | .release i _ | .stamp i _ => i

variable [DecidableEq ι] [DecidableEq γ] [DecidableEq ρ] (p : Plan ι α γ ρ)

/-- The members a worker releases after its arrival: all of its group if it is the
one that closes the group. -/
def State.closes (s : State ι α γ ρ) (i : ι) : List ρ :=
  if s.arrived (p.group i) + 1 = p.threshold then p.members (p.group i) else []

def step (s : State ι α γ ρ) : Event ι → Option (State ι α γ ρ)
  | .write i j =>
      match s.phase i with
      | .releasing _ _ => none
      | .writing left =>
          match left[j]? with
          | none => none
          | some a =>
              some { s with
                phase := Function.update s.phase i (.writing (left.eraseIdx j))
                written := a :: s.written }
  | .arrive i =>
      match s.phase i with
      | .writing [] =>
          some { s with
            phase := Function.update s.phase i (.releasing (s.closes p i) [])
            arrived := Function.update s.arrived (p.group i) (s.arrived (p.group i) + 1) }
      | _ => none
  | .release i j =>
      match s.phase i with
      | .writing _ => none
      | .releasing left due =>
          match left[j]? with
          | none => none
          | some r =>
              some { s with
                phase := Function.update s.phase i
                  (.releasing (left.eraseIdx j) (if s.remaining r = 1 then r :: due else due))
                remaining := Function.update s.remaining r (s.remaining r - 1) }
  | .stamp i j =>
      match s.phase i with
      | .writing _ => none
      | .releasing left due =>
          match due[j]? with
          | none => none
          | some r =>
              some { s with
                phase := Function.update s.phase i (.releasing left (due.eraseIdx j))
                stamps := Function.update s.stamps r (s.stamps r + 1) }

/-- Nobody has written, and the counters are where the caller set them. -/
def start (remaining : ρ → ℤ) : State ι α γ ρ where
  phase i := .writing (p.writes i)
  written := []
  arrived _ := 0
  remaining := remaining
  stamps _ := 0

def system (remaining : ρ → ℤ) : TransitionSystem (State ι α γ ρ) (Event ι) where
  init := start p remaining
  step := step p

/-- The worker has nothing left to do. -/
def State.Done (s : State ι α γ ρ) (i : ι) : Prop := s.phase i = .releasing [] []

variable {p}

/-- What one step does, guards included. -/
theorem step_cases {s s' : State ι α γ ρ} {e : Event ι} (fires : step p s e = some s') :
    (∃ i j left a, e = .write i j ∧ s.phase i = .writing left ∧ left[j]? = some a ∧
      s' = { s with
        phase := Function.update s.phase i (.writing (left.eraseIdx j))
        written := a :: s.written }) ∨
    (∃ i, e = .arrive i ∧ s.phase i = .writing [] ∧
      s' = { s with
        phase := Function.update s.phase i (.releasing (s.closes p i) [])
        arrived := Function.update s.arrived (p.group i) (s.arrived (p.group i) + 1) }) ∨
    (∃ i j left due r, e = .release i j ∧ s.phase i = .releasing left due ∧
      left[j]? = some r ∧
      s' = { s with
        phase := Function.update s.phase i
          (.releasing (left.eraseIdx j) (if s.remaining r = 1 then r :: due else due))
        remaining := Function.update s.remaining r (s.remaining r - 1) }) ∨
    (∃ i j left due r, e = .stamp i j ∧ s.phase i = .releasing left due ∧
      due[j]? = some r ∧
      s' = { s with
        phase := Function.update s.phase i (.releasing left (due.eraseIdx j))
        stamps := Function.update s.stamps r (s.stamps r + 1) }) := by
  cases e with
  | write i j =>
      left
      cases at' : s.phase i with
      | releasing left due => simp [step, at'] at fires
      | writing left =>
          cases found : left[j]? with
          | none => simp [step, at', found] at fires
          | some a =>
              simp only [step, at', found, Option.some.injEq] at fires
              exact ⟨i, j, left, a, rfl, at', found, fires.symm⟩
  | arrive i =>
      right; left
      cases at' : s.phase i with
      | releasing left due => simp [step, at'] at fires
      | writing left =>
          cases left with
          | cons a left => simp [step, at'] at fires
          | nil =>
              simp only [step, at', Option.some.injEq] at fires
              exact ⟨i, rfl, at', fires.symm⟩
  | release i j =>
      right; right; left
      cases at' : s.phase i with
      | writing left => simp [step, at'] at fires
      | releasing left due =>
          cases found : left[j]? with
          | none => simp [step, at', found] at fires
          | some r =>
              simp only [step, at', found, Option.some.injEq] at fires
              exact ⟨i, j, left, due, r, rfl, at', found, fires.symm⟩
  | stamp i j =>
      right; right; right
      cases at' : s.phase i with
      | writing left => simp [step, at'] at fires
      | releasing left due =>
          cases found : due[j]? with
          | none => simp [step, at', found] at fires
          | some r =>
              simp only [step, at', found, Option.some.injEq] at fires
              exact ⟨i, j, left, due, r, rfl, at', found, fires.symm⟩

/-! ### The invariant -/

section Invariant

variable [Fintype ι] [Fintype γ] {remaining : ρ → ℤ}

/-- How often a member occurs in all groups together. -/
def total (p : Plan ι α γ ρ) (r : ρ) : ℕ := ∑ g, (p.members g).count r

/-- The workers of a group. -/
def crew (p : Plan ι α γ ρ) (g : γ) : Finset ι := univ.filter fun i => p.group i = g

/-- The occurrences of a member in groups that are closed. -/
def closed (p : Plan ι α γ ρ) (arrived : γ → ℕ) (r : ρ) : ℕ :=
  ∑ g, if p.threshold ≤ arrived g then (p.members g).count r else 0

/-- What is written and what is left to write make up the plan. -/
structure Written (p : Plan ι α γ ρ) (phase : ι → Phase α ρ) (written : List α) : Prop where
  pending : ∀ i, ∀ a ∈ (phase i).writes, a ∈ p.writes i
  issued : ∀ a ∈ written, ∃ i, a ∈ p.writes i
  written : ∀ i, ∀ a ∈ p.writes i, a ∈ (phase i).writes ∨ a ∈ written

structure Inv (p : Plan ι α γ ρ) (s : State ι α γ ρ) : Prop where
  writes : Written p s.phase s.written
  arrived : ∀ g, s.arrived g = ∑ i ∈ crew p g, (s.phase i).arrived.toNat
  member : ∀ i, ∀ r ∈ (s.phase i).left, 0 < total p r
  /-- What is released is what closed groups no longer have to release. -/
  remaining : ∀ r, s.remaining r + closed p s.arrived r =
    total p r + ∑ i, ((s.phase i).left.count r : ℤ)
  /-- The stamp of a member is due from the moment its counter is zero. -/
  stamps : ∀ r, s.stamps r + ∑ i, (s.phase i).due.count r =
    if s.remaining r = 0 ∧ 0 < total p r then 1 else 0

section Update

variable {M : Type*} (phase : ι → Phase α ρ) {i : ι} {x : Phase α ρ}

omit [DecidableEq γ] [DecidableEq ρ] [Fintype ι] [Fintype γ] in
/-- What a step of worker `i` leaves alone. -/
theorem update_eq (f : Phase α ρ → M) (same : f x = f (phase i)) (i' : ι) :
    f (Function.update phase i x i') = f (phase i') := by
  by_cases own : i' = i
  · subst own
    rw [Function.update_self, same]
  · rw [Function.update_of_ne own]

omit [DecidableEq γ] [DecidableEq ρ] [Fintype γ] [Fintype ι] in
/-- A sum over workers when one of them has moved on. -/
theorem sum_update [AddCommMonoid M] (f : ι → Phase α ρ → M) {s : Finset ι} (mem : i ∈ s) :
    (∑ i' ∈ s, f i' (Function.update phase i x i')) + f i (phase i) =
      (∑ i' ∈ s, f i' (phase i')) + f i x := by
  have others : ∀ i' ∈ s.erase i, f i' (Function.update phase i x i') = f i' (phase i') :=
    fun i' hi' => by rw [Function.update_of_ne (ne_of_mem_erase hi')]
  rw [← sum_erase_add s _ mem, ← sum_erase_add s _ mem, sum_congr rfl others,
    Function.update_self]
  exact add_right_comm _ _ _

end Update

omit [DecidableEq ι] [DecidableEq γ] [Fintype ι] [Fintype γ] in
/-- Taking the entry at `j` off a list takes one occurrence of it. -/
theorem count_eraseIdx {l : List ρ} {j : ℕ} {r : ρ} (found : l[j]? = some r) (r' : ρ) :
    (l.eraseIdx j).count r' + (if r = r' then 1 else 0) = l.count r' := by
  obtain ⟨hj, rfl⟩ := List.getElem?_eq_some_iff.1 found
  rw [← (List.getElem_cons_eraseIdx_perm hj).count_eq r', List.count_cons]
  simp only [beq_iff_eq]

variable {s s' : State ι α γ ρ}

omit [DecidableEq γ] [DecidableEq ρ] [Fintype ι] [Fintype γ] in
/-- Steps that leave the pending writes alone. -/
theorem Written.update {phase : ι → Phase α ρ} {written : List α}
    (writes : Written p phase written) {i : ι} {x : Phase α ρ}
    (same : x.writes = (phase i).writes) :
    Written p (Function.update phase i x) written where
  pending i' a mem := writes.pending i' a (update_eq phase Phase.writes same i' ▸ mem)
  issued := writes.issued
  written i' a mem := update_eq phase Phase.writes same i' ▸ writes.written i' a mem

omit [DecidableEq γ] [DecidableEq ρ] [Fintype ι] [Fintype γ] in
/-- A write moves from the pending ones to the written ones. -/
theorem Written.write {phase : ι → Phase α ρ} {written left : List α}
    (writes : Written p phase written) {i : ι} {j : ℕ} {a : α}
    (at' : phase i = .writing left) (found : left[j]? = some a) :
    Written p (Function.update phase i (.writing (left.eraseIdx j))) (a :: written) := by
  obtain ⟨hj, rfl⟩ := List.getElem?_eq_some_iff.1 found
  have own : (phase i).writes = left := by rw [at']; rfl
  have split : ∀ b, b ∈ left ↔ b = left[j] ∨ b ∈ left.eraseIdx j := fun b =>
    ((List.getElem_cons_eraseIdx_perm hj).mem_iff (a := b)).symm.trans List.mem_cons
  refine ⟨fun i' b mem => ?_, fun b mem => ?_, fun i' b mem => ?_⟩
  · by_cases same : i' = i
    · subst same
      rw [Function.update_self] at mem
      exact writes.pending i' b (own ▸ (split b).2 (Or.inr mem))
    · rw [Function.update_of_ne same] at mem
      exact writes.pending i' b mem
  · rcases List.mem_cons.1 mem with rfl | old
    · exact ⟨i, writes.pending i _ (own ▸ (split _).2 (Or.inl rfl))⟩
    · exact writes.issued b old
  · rcases writes.written i' b mem with waiting | performed
    · by_cases same : i' = i
      · subst same
        rw [Function.update_self]
        rcases (split b).1 (own ▸ waiting) with rfl | later
        · exact Or.inr List.mem_cons_self
        · exact Or.inl later
      · rw [Function.update_of_ne same]
        exact Or.inl waiting
    · exact Or.inr (List.mem_cons_of_mem _ performed)

omit [DecidableEq ι] in
theorem inv_start (pos : 0 < p.threshold) (counted : ∀ r, remaining r = total p r) :
    Inv p (start p remaining) where
  writes := ⟨fun _ _ mem => mem, fun _ mem => absurd mem List.not_mem_nil,
    fun _ _ mem => Or.inl mem⟩
  arrived g := by simp [start, Phase.arrived]
  member _ _ mem := absurd mem List.not_mem_nil
  remaining r := by simp [start, closed, pos.ne', counted, Phase.left]
  stamps r := by
    have none : ¬(remaining r = 0 ∧ 0 < total p r) := by
      have := counted r
      omega
    simp [start, Phase.due, none]

omit [DecidableEq ι] [DecidableEq γ] [Fintype ι] in
theorem closed_le_total (arrived : γ → ℕ) (r : ρ) : closed p arrived r ≤ total p r :=
  sum_le_sum fun g _ => by split <;> omega

omit [DecidableEq ι] [DecidableEq γ] [Fintype ι] in
theorem total_pos {g : γ} {r : ρ} (mem : r ∈ p.members g) : 0 < total p r :=
  (List.count_pos_iff.2 mem).trans_le
    (single_le_sum (f := fun g => (p.members g).count r) (fun _ _ => Nat.zero_le _)
      (mem_univ g))

omit [DecidableEq ι] [Fintype ι] in
/-- The arrival adds to `closed` what it has to release. -/
theorem closed_arrive (s : State ι α γ ρ) (i : ι) (r : ρ) :
    closed p (Function.update s.arrived (p.group i) (s.arrived (p.group i) + 1)) r =
      closed p s.arrived r + (s.closes p i).count r := by
  have others : ∀ g ∈ univ.erase (p.group i),
      (if p.threshold ≤ Function.update s.arrived (p.group i)
          (s.arrived (p.group i) + 1) g then (p.members g).count r else 0) =
        if p.threshold ≤ s.arrived g then (p.members g).count r else 0 :=
    fun g hg => by rw [Function.update_of_ne (ne_of_mem_erase hg)]
  unfold closed
  rw [← sum_erase_add univ _ (mem_univ (p.group i)),
    ← sum_erase_add univ _ (mem_univ (p.group i)), sum_congr rfl others,
    Function.update_self, State.closes, add_assoc]
  congr 1
  by_cases last : s.arrived (p.group i) + 1 = p.threshold
  · rw [if_pos (by omega), if_neg (by omega), if_pos last, Nat.zero_add]
  · have same : p.threshold ≤ s.arrived (p.group i) + 1 ↔
        p.threshold ≤ s.arrived (p.group i) := by omega
    simp only [same, if_neg last, List.count_nil, Nat.add_zero]

theorem arrive_inv (inv : Inv p s) {i : ι} (at' : s.phase i = .writing []) :
    Inv p { s with
      phase := Function.update s.phase i (.releasing (s.closes p i) [])
      arrived := Function.update s.arrived (p.group i) (s.arrived (p.group i) + 1) } where
  writes := inv.writes.update (by rw [at']; rfl)
  arrived g := by
    by_cases own : p.group i = g
    · subst own
      have moved := sum_update s.phase (fun _ ph => ph.arrived.toNat)
        (x := .releasing (s.closes p i) []) (s := crew p (p.group i))
        (mem_filter.2 ⟨mem_univ i, rfl⟩)
      rw [at'] at moved
      show Function.update s.arrived (p.group i) _ (p.group i) = _
      rw [Function.update_self, inv.arrived]
      exact moved.symm
    · show Function.update s.arrived (p.group i) _ g = _
      rw [Function.update_of_ne (Ne.symm own), inv.arrived]
      refine sum_congr rfl fun i' mem => ?_
      have other : i' ≠ i := fun same => own (same ▸ (mem_filter.1 mem).2)
      simp only [Function.update_of_ne other]
  member i' r mem := by
    by_cases same : i' = i
    · subst same
      simp only [Function.update_self, Phase.left_releasing, State.closes] at mem
      split at mem
      · exact total_pos mem
      · exact absurd mem List.not_mem_nil
    · simp only [Function.update_of_ne same] at mem
      exact inv.member i' r mem
  remaining r := by
    have moved := sum_update s.phase (fun _ ph => (ph.left.count r : ℤ))
      (x := .releasing (s.closes p i) []) (mem_univ i)
    have before := inv.remaining r
    rw [closed_arrive]
    rw [at'] at moved
    simp only [Phase.left_releasing, Phase.left_writing, List.count_nil] at moved
    push_cast
    omega
  stamps r := by
    have none : Phase.due (.releasing (s.closes p i) [] : Phase α ρ) = (s.phase i).due := by
      rw [at']
      rfl
    simp only [update_eq s.phase Phase.due none]
    exact inv.stamps r

theorem write_inv (inv : Inv p s) {i : ι} {j : ℕ} {left : List α} {a : α}
    (at' : s.phase i = .writing left) (found : left[j]? = some a) :
    Inv p { s with
      phase := Function.update s.phase i (.writing (left.eraseIdx j))
      written := a :: s.written } where
  writes := inv.writes.write at' found
  arrived g := by
    simp only [update_eq s.phase Phase.arrived (x := .writing (left.eraseIdx j))
      (by rw [at']; rfl)]
    exact inv.arrived g
  member i' r mem := inv.member i' r
    (update_eq s.phase Phase.left (x := .writing (left.eraseIdx j)) (by rw [at']; rfl) i' ▸ mem)
  remaining r := by
    simp only [update_eq s.phase Phase.left (x := .writing (left.eraseIdx j))
      (by rw [at']; rfl)]
    exact inv.remaining r
  stamps r := by
    simp only [update_eq s.phase Phase.due (x := .writing (left.eraseIdx j))
      (by rw [at']; rfl)]
    exact inv.stamps r

omit [DecidableEq ι] in
/-- As long as a release is outstanding, the member's counter is positive. -/
theorem Inv.remaining_pos (inv : Inv p s) {i : ι} {r : ρ} (mem : r ∈ (s.phase i).left) :
    1 ≤ s.remaining r := by
  have counter := inv.remaining r
  have covered := closed_le_total (p := p) s.arrived r
  have mine : (1 : ℤ) ≤ (s.phase i).left.count r := by
    exact_mod_cast List.count_pos_iff.2 mem
  have all : ((s.phase i).left.count r : ℤ) ≤ ∑ i', ((s.phase i').left.count r : ℤ) :=
    single_le_sum (f := fun i' => ((s.phase i').left.count r : ℤ))
      (fun _ _ => Int.natCast_nonneg _) (mem_univ i)
  omega

theorem release_inv (inv : Inv p s) {i : ι} {j : ℕ} {left due : List ρ} {r : ρ}
    (at' : s.phase i = .releasing left due) (found : left[j]? = some r) :
    Inv p { s with
      phase := Function.update s.phase i
        (.releasing (left.eraseIdx j) (if s.remaining r = 1 then r :: due else due))
      remaining := Function.update s.remaining r (s.remaining r - 1) } := by
  have mem : r ∈ (s.phase i).left := by
    rw [at']
    exact List.mem_of_getElem? found
  -- the release counts in the rest, so the counter has not reached zero yet
  have positive := inv.remaining_pos mem
  have member := inv.member i r mem
  set due' := if s.remaining r = 1 then r :: due else due with hdue
  refine ⟨inv.writes.update (by rw [at']; rfl), fun g => ?_, fun i' r' mem' => ?_,
    fun r' => ?_, fun r' => ?_⟩
  · simp only [update_eq s.phase Phase.arrived (x := .releasing (left.eraseIdx j) due')
      (by rw [at']; rfl)]
    exact inv.arrived g
  · by_cases same : i' = i
    · subst same
      simp only [Function.update_self, Phase.left_releasing] at mem'
      exact inv.member i' r' (by rw [at']; exact List.mem_of_mem_eraseIdx mem')
    · simp only [Function.update_of_ne same] at mem'
      exact inv.member i' r' mem'
  · have moved := sum_update s.phase (fun _ ph => (ph.left.count r' : ℤ))
      (x := .releasing (left.eraseIdx j) due') (mem_univ i)
    have before := inv.remaining r'
    have one := count_eraseIdx found r'
    rw [at'] at moved
    change Function.update s.remaining r _ r' + (closed p s.arrived r' : ℤ) = _
    dsimp only
    by_cases same : r' = r
    · subst same
      rw [Function.update_self]
      rw [if_pos rfl] at one
      simp only [Phase.left_releasing] at moved
      omega
    · rw [Function.update_of_ne same]
      rw [if_neg (Ne.symm same)] at one
      simp only [Phase.left_releasing] at moved
      omega
  · have moved := sum_update s.phase (fun _ ph => ph.due.count r')
      (x := .releasing (left.eraseIdx j) due') (mem_univ i)
    have before := inv.stamps r'
    rw [at'] at moved
    dsimp only
    by_cases same : r' = r
    · subst same
      rw [if_neg (by omega)] at before
      simp only [Function.update_self]
      -- exactly the release that meets one owes the stamp
      by_cases last : s.remaining r' = 1
      · have more : due'.count r' = due.count r' + 1 := by
          rw [hdue, if_pos last, List.count_cons_self]
        rw [if_pos ⟨by omega, member⟩]
        simp only [Phase.due_releasing] at moved
        omega
      · have same : due' = due := if_neg last
        rw [if_neg (by omega)]
        simp only [Phase.due_releasing, congrArg (List.count r') same] at moved
        omega
    · have unchanged : due'.count r' = due.count r' := by
        rw [hdue]
        split
        · exact List.count_cons_of_ne (Ne.symm same)
        · rfl
      simp only [Function.update_of_ne same]
      simp only [Phase.due_releasing, unchanged] at moved
      omega

theorem stamp_inv (inv : Inv p s) {i : ι} {j : ℕ} {left due : List ρ} {r : ρ}
    (at' : s.phase i = .releasing left due) (found : due[j]? = some r) :
    Inv p { s with
      phase := Function.update s.phase i (.releasing left (due.eraseIdx j))
      stamps := Function.update s.stamps r (s.stamps r + 1) } where
  writes := inv.writes.update (by rw [at']; rfl)
  arrived g := by
    simp only [update_eq s.phase Phase.arrived (x := .releasing left (due.eraseIdx j))
      (by rw [at']; rfl)]
    exact inv.arrived g
  member i' r' mem := inv.member i' r'
    (update_eq s.phase Phase.left (x := .releasing left (due.eraseIdx j))
      (by rw [at']; rfl) i' ▸ mem)
  remaining r' := by
    simp only [update_eq s.phase Phase.left (x := .releasing left (due.eraseIdx j))
      (by rw [at']; rfl)]
    exact inv.remaining r'
  stamps r' := by
    have moved := sum_update s.phase (fun _ ph => ph.due.count r')
      (x := .releasing left (due.eraseIdx j)) (mem_univ i)
    have before := inv.stamps r'
    have one := count_eraseIdx found r'
    rw [at'] at moved
    dsimp only
    by_cases same : r' = r
    · subst same
      rw [if_pos rfl] at one
      rw [Function.update_self]
      simp only [Phase.due_releasing] at moved
      omega
    · rw [if_neg (Ne.symm same)] at one
      rw [Function.update_of_ne same]
      simp only [Phase.due_releasing] at moved
      omega

theorem step_inv {e : Event ι} (inv : Inv p s) (fires : step p s e = some s') : Inv p s' := by
  rcases step_cases fires with ⟨i, j, left, a, -, at', found, rfl⟩ | ⟨i, -, at', rfl⟩ |
    ⟨i, j, left, due, r, -, at', found, rfl⟩ | ⟨i, j, left, due, r, -, at', found, rfl⟩
  · exact write_inv inv at' found
  · exact arrive_inv inv at'
  · exact release_inv inv at' found
  · exact stamp_inv inv at' found

theorem reachable_inv (pos : 0 < p.threshold) (counted : ∀ r, remaining r = total p r)
    (reach : (system p remaining).Reachable s) : Inv p s :=
  reach.invariant (inv_start pos counted) fun s e s' inv fires =>
    step_inv inv (fires : step p s e = some s')

/-! ### What stamps say -/

section Consequences

variable (inv : Inv p s)

include inv

omit [DecidableEq ι] in
theorem stamps_le_one (r : ρ) : s.stamps r ≤ 1 := by
  have due := inv.stamps r
  split at due <;> omega

omit [DecidableEq ι] in
/-- A stamped member has been released by all its groups. -/
theorem released_of_stamped {r : ρ} (stamped : 0 < s.stamps r) :
    s.remaining r = 0 ∧ 0 < total p r := by
  by_contra open'
  have due := inv.stamps r
  rw [if_neg open'] at due
  omega

omit [DecidableEq ι] in
/-- When a member is stamped, nobody in its groups has writes left, if groups have at most
`threshold` workers. -/
theorem writes_of_stamped (atMost : ∀ g, (crew p g).card ≤ p.threshold) {r : ρ}
    (stamped : 0 < s.stamps r) {i : ι} (mem : r ∈ p.members (p.group i)) :
    (s.phase i).writes = [] := by
  obtain ⟨zero, -⟩ := released_of_stamped inv stamped
  have counter := inv.remaining r
  have covered := closed_le_total (p := p) s.arrived r
  have nonneg : (0 : ℤ) ≤ ∑ i, ((s.phase i).left.count r : ℤ) :=
    sum_nonneg fun _ _ => Int.natCast_nonneg _
  have all : closed p s.arrived r = total p r := by omega
  -- every group with the member is closed, this one among them
  have closes := (sum_eq_sum_iff_of_le fun g _ => by split <;> omega).1 all
    (p.group i) (mem_univ _)
  have full : p.threshold ≤ s.arrived (p.group i) := by
    by_contra open'
    rw [if_neg open'] at closes
    have := List.count_pos_iff.2 mem
    omega
  have arrivedAll : ∑ i' ∈ crew p (p.group i), (s.phase i').arrived.toNat =
      ∑ _i' ∈ crew p (p.group i), 1 := by
    have each : ∀ i' ∈ crew p (p.group i), (s.phase i').arrived.toNat ≤ 1 :=
      fun i' _ => Bool.toNat_le _
    refine le_antisymm (sum_le_sum each) ?_
    rw [← inv.arrived, ← card_eq_sum_ones]
    exact (atMost _).trans full
  have mine := (sum_eq_sum_iff_of_le fun i' _ => Bool.toNat_le _).1 arrivedAll i
    (mem_filter.2 ⟨mem_univ i, rfl⟩)
  cases at' : s.phase i with
  | writing left =>
      rw [at'] at mine
      cases mine
  | releasing left due => rfl

omit [DecidableEq ι] in
/-- **A stamp comes after the writes** of every worker of every group with the
member, if groups have at most `threshold` workers. -/
theorem written_of_stamped (atMost : ∀ g, (crew p g).card ≤ p.threshold) {r : ρ}
    (stamped : 0 < s.stamps r) {i : ι} (mem : r ∈ p.members (p.group i)) :
    ∀ a ∈ p.writes i, a ∈ s.written := by
  intro a planned
  refine (inv.writes.written i a planned).resolve_left fun pending => ?_
  rw [writes_of_stamped inv atMost stamped mem] at pending
  cases pending

omit [DecidableEq ι] in
/-- **In the end every counter is zero and every member is stamped**, if no group
with members has fewer than `threshold` workers. -/
theorem stamps_of_finished (atLeast : ∀ g, p.members g ≠ [] → p.threshold ≤ (crew p g).card)
    (finished : ∀ i, s.Done i) (r : ρ) :
    s.remaining r = 0 ∧ s.stamps r = if 0 < total p r then 1 else 0 := by
  have all : closed p s.arrived r = total p r := by
    refine sum_congr rfl fun g _ => ?_
    by_cases none : p.members g = []
    · simp [none]
    · have everyone : s.arrived g = (crew p g).card := by
        rw [inv.arrived, card_eq_sum_ones]
        refine sum_congr rfl fun i _ => ?_
        rw [finished i]
        rfl
      rw [if_pos (everyone ▸ atLeast g none)]
  have left : ∑ i, ((s.phase i).left.count r : ℤ) = 0 :=
    sum_eq_zero fun i _ => by rw [finished i]; rfl
  have due : ∑ i, (s.phase i).due.count r = 0 :=
    sum_eq_zero fun i _ => by rw [finished i]; rfl
  have counter := inv.remaining r
  have stamps := inv.stamps r
  have zero : s.remaining r = 0 := by omega
  rw [due, Nat.add_zero] at stamps
  exact ⟨zero, by simpa [zero] using stamps⟩

omit [DecidableEq ι] in
/-- Whoever is done has performed its writes. -/
theorem written_of_done {i : ι} (done : s.Done i) : ∀ a ∈ p.writes i, a ∈ s.written := by
  intro a planned
  refine (inv.writes.written i a planned).resolve_left fun pending => ?_
  rw [done] at pending
  cases pending

end Consequences

end Invariant

/-! ### What the writes add up to -/

section Sums

variable [Fintype ι] {M : Type*} [AddCommMonoid M] (f : α → M) {remaining : ρ → ℤ}
  {s s' : State ι α γ ρ}

/-- The values of the writes performed and of those still to come. -/
def State.sum (s : State ι α γ ρ) : M :=
  (s.written.map f).sum + ∑ i, ((s.phase i).writes.map f).sum

omit [DecidableEq γ] [DecidableEq ρ] in
/-- A sum over workers, with one of them apart. -/
theorem sum_writes (phase : ι → Phase α ρ) (i : ι) (x : Phase α ρ) :
    ∑ i', ((Function.update phase i x i').writes.map f).sum =
      (x.writes.map f).sum + ∑ i' ∈ univ.erase i, ((phase i').writes.map f).sum := by
  rw [← add_sum_erase univ _ (mem_univ i), Function.update_self]
  congr 1
  refine sum_congr rfl fun i' hi' => ?_
  rw [Function.update_of_ne (ne_of_mem_erase hi')]

/-- A step takes a write from what is to come, or leaves both alone. -/
theorem sum_step {e : Event ι} (fires : step p s e = some s') : s'.sum f = s.sum f := by
  have same : ∀ i x, x.writes = (s.phase i).writes →
      ∑ i', ((Function.update s.phase i x i').writes.map f).sum =
        ∑ i', ((s.phase i').writes.map f).sum := fun i x own =>
    sum_congr rfl fun i' _ => by rw [update_eq s.phase Phase.writes own]
  rcases step_cases fires with ⟨i, j, left, a, -, at', found, rfl⟩ | ⟨i, -, at', rfl⟩ |
    ⟨i, j, left, due, r, -, at', found, rfl⟩ | ⟨i, j, left, due, r, -, at', found, rfl⟩
  · obtain ⟨hj, rfl⟩ := List.getElem?_eq_some_iff.1 found
    have own : (s.phase i).writes = left := by rw [at']; rfl
    have taken := ((List.getElem_cons_eraseIdx_perm hj).map f).sum_eq
    rw [List.map_cons, List.sum_cons] at taken
    show ((left[j] :: s.written).map f).sum + _ = (s.written.map f).sum + _
    rw [sum_writes, ← add_sum_erase univ _ (mem_univ i), own, ← taken, List.map_cons,
      List.sum_cons, Phase.writes_writing, add_assoc, add_assoc, add_left_comm]
  · exact congrArg (_ + ·) (same i _ (by rw [at']; rfl))
  · exact congrArg (_ + ·) (same i _ (by rw [at']; rfl))
  · exact congrArg (_ + ·) (same i _ (by rw [at']; rfl))

/-- **Nothing is lost and nothing is added twice**: what has been written and what is to come
make up the plan, in every state. -/
theorem reachable_sum (reach : (system p remaining).Reachable s) :
    s.sum f = ∑ i, ((p.writes i).map f).sum := by
  have begins : (system p remaining).init.sum f = ∑ i, ((p.writes i).map f).sum := zero_add _
  have kept : ∀ s (e : Event ι) s', s.sum f = ∑ i, ((p.writes i).map f).sum →
      (system p remaining).step s e = some s' →
        s'.sum f = ∑ i, ((p.writes i).map f).sum :=
    fun s e s' before fires => (sum_step f fires).trans before
  exact reach.invariant begins kept

end Sums

/-! ### Runs end -/

section Termination

/-- A worker that is not done can take a step. -/
theorem exists_step {s : State ι α γ ρ} {i : ι} (busy : ¬s.Done i) :
    ∃ e, e.worker = i ∧ ∃ s', step p s e = some s' := by
  cases at' : s.phase i with
  | writing left =>
      cases left with
      | nil => exact ⟨.arrive i, rfl, _, by simp only [step, at']; rfl⟩
      | cons a left => exact ⟨.write i 0, rfl, _, by simp [step, at']; rfl⟩
  | releasing left due =>
      cases left with
      | cons r left => exact ⟨.release i 0, rfl, _, by simp [step, at']; rfl⟩
      | nil =>
          cases due with
          | cons r due => exact ⟨.stamp i 0, rfl, _, by simp [step, at']; rfl⟩
          | nil => exact absurd at' busy

/-- Steps a worker may still take. -/
def effort (p : Plan ι α γ ρ) (i : ι) : Phase α ρ → ℕ
  | .writing left => left.length + 1 + 2 * (p.members (p.group i)).length
  | .releasing left due => 2 * left.length + due.length

/-- A step uses up some effort of its worker, and nobody else moves. -/
theorem step_effort {s s' : State ι α γ ρ} {e : Event ι} (fires : step p s e = some s') :
    ∃ x, s'.phase = Function.update s.phase e.worker x ∧
      effort p e.worker x < effort p e.worker (s.phase e.worker) := by
  rcases step_cases fires with ⟨i, j, left, a, rfl, at', found, rfl⟩ | ⟨i, rfl, at', rfl⟩ |
    ⟨i, j, left, due, r, rfl, at', found, rfl⟩ | ⟨i, j, left, due, r, rfl, at', found, rfl⟩
  · obtain ⟨hj, -⟩ := List.getElem?_eq_some_iff.1 found
    refine ⟨_, rfl, ?_⟩
    simp only [Event.worker, at', effort, List.length_eraseIdx_of_lt hj]
    omega
  · refine ⟨_, rfl, ?_⟩
    have shorter : (s.closes p i).length ≤ (p.members (p.group i)).length := by
      unfold State.closes
      split
      · exact le_rfl
      · exact Nat.zero_le _
    simp only [Event.worker, at', effort, List.length_nil]
    omega
  · obtain ⟨hj, -⟩ := List.getElem?_eq_some_iff.1 found
    refine ⟨_, rfl, ?_⟩
    simp only [Event.worker, at', effort, List.length_eraseIdx_of_lt hj]
    split
    · rw [List.length_cons]
      omega
    · omega
  · obtain ⟨hj, -⟩ := List.getElem?_eq_some_iff.1 found
    refine ⟨_, rfl, ?_⟩
    simp only [Event.worker, at', effort, List.length_eraseIdx_of_lt hj]
    omega

end Termination

end Countdown
