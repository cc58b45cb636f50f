import Mathlib.Algebra.BigOperators.Group.Finset.Basic
import Mathlib.Algebra.Order.BigOperators.Group.Finset
import Mathlib.Data.Fintype.Basic
import StreamEP.Lib.Store
import StreamEP.Lib.TransitionSystem

/-!
# Publishing stores round by round

A producer works in rounds: each issues some stores and has some additions to counters.  Stores
are performed in any order and may outlast their round, but an addition waits until everything
that its producer has issued is performed: a fence stands before it.

So an addition vouches for the stores of its own round and of all rounds before
(`memory_of_count_eq`), although the producer may have stores of later rounds on the way when a
consumer looks.

**One producer.**  `Progress` splits its rounds in three: those that are fenced, because an
addition stands behind them; those that are issued and not fenced; and those to come.  Every
store of a fenced round is done, and one of an issued round is done or pending.  A store and an
issue leave the fenced rounds as they are; an addition fences all that are issued
(`Progress.add`).

**All producers.**  The counters end at the shares of all producers together.  At its total a
counter lacks nothing, so a producer with a share in it has made its additions, in particular
that of the round in question.  With stores that agree, memory then holds what the round has
stored, and at the end what all stores leave in any order (`memory_eq_run`).
-/

namespace FencedRounds

open Finset

variable {ι κ τ : Type*} [DecidableEq ι] [DecidableEq κ] [DecidableEq τ] {β : κ → Type*}

/-- One round of a producer. -/
structure Round (β : κ → Type*) (τ : Type*) where
  stores : List (Store.Write β)
  adds : List (τ × ℕ)

/-- Where a producer is. -/
structure Work (β : κ → Type*) (τ : Type*) where
  /-- The stores that are issued and not performed. -/
  pending : List (Store.Write β)
  /-- What is left to add in this round. -/
  adds : List (τ × ℕ)
  rounds : List (Round β τ)

/-- The producers, the memory they store to and the counters they add to. -/
structure State (ι : Type*) (β : κ → Type*) (τ : Type*) where
  work : ι → Work β τ
  memory : (a : κ) → β a
  count : τ → ℕ

inductive Event (ι : Type*) where
  | issue (i : ι)
  | store (i : ι) (j : ℕ)
  | add (i : ι)

/-- A round is issued when the additions of the one before are done. -/
def step (s : State ι β τ) : Event ι → Option (State ι β τ)
  | .issue i =>
      match (s.work i).adds, (s.work i).rounds with
      | [], r :: rounds =>
          some { s with
            work := Function.update s.work i ⟨(s.work i).pending ++ r.stores, r.adds, rounds⟩ }
      | _, _ => none
  | .store i j =>
      match (s.work i).pending[j]? with
      | none => none
      | some w =>
          some { s with
            work := Function.update s.work i
              ⟨(s.work i).pending.eraseIdx j, (s.work i).adds, (s.work i).rounds⟩
            memory := Function.update s.memory w.1 w.2 }
  | .add i =>
      match (s.work i).pending, (s.work i).adds with
      | [], (t, n) :: adds =>
          some { s with
            work := Function.update s.work i ⟨[], adds, (s.work i).rounds⟩
            count := Store.addAt s.count t n }
      | _, _ => none

/-- All producers start before their first round. -/
def system (program : ι → List (Round β τ)) (memory : (a : κ) → β a) :
    TransitionSystem (State ι β τ) (Event ι) where
  init := ⟨fun i => ⟨[], [], program i⟩, memory, fun _ => 0⟩
  step := step

/-- No producer has anything left to do. -/
def Finished (s : State ι β τ) : Prop := ∀ i, s.work i = ⟨[], [], []⟩

/-- What one step does, guards included. -/
theorem step_cases {s s' : State ι β τ} {e : Event ι} (fires : step s e = some s') :
    (∃ i r rounds, e = .issue i ∧ (s.work i).adds = [] ∧ (s.work i).rounds = r :: rounds ∧
      s' = { s with
        work := Function.update s.work i ⟨(s.work i).pending ++ r.stores, r.adds, rounds⟩ }) ∨
    (∃ i j w, e = .store i j ∧ (s.work i).pending[j]? = some w ∧
      s' = { s with
        work := Function.update s.work i
          ⟨(s.work i).pending.eraseIdx j, (s.work i).adds, (s.work i).rounds⟩
        memory := Function.update s.memory w.1 w.2 }) ∨
    (∃ i t n adds, e = .add i ∧ (s.work i).pending = [] ∧ (s.work i).adds = (t, n) :: adds ∧
      s' = { s with
        work := Function.update s.work i ⟨[], adds, (s.work i).rounds⟩
        count := Store.addAt s.count t n }) := by
  cases e with
  | issue i =>
      left
      cases busy : (s.work i).adds with
      | cons a as => simp [step, busy] at fires
      | nil =>
          cases more : (s.work i).rounds with
          | nil => simp [step, busy, more] at fires
          | cons r rounds =>
              simp only [step, busy, more, Option.some.injEq] at fires
              exact ⟨i, r, rounds, rfl, busy, more, fires.symm⟩
  | store i j =>
      right
      left
      cases found : (s.work i).pending[j]? with
      | none => simp [step, found] at fires
      | some w =>
          simp only [step, found, Option.some.injEq] at fires
          exact ⟨i, j, w, rfl, found, fires.symm⟩
  | add i =>
      right
      right
      cases stored : (s.work i).pending with
      | cons w ws => simp [step, stored] at fires
      | nil =>
          cases more : (s.work i).adds with
          | nil => simp [step, stored, more] at fires
          | cons tn adds =>
              obtain ⟨t, n⟩ := tn
              simp only [step, stored, more, Option.some.injEq] at fires
              exact ⟨i, t, n, adds, rfl, stored, more, fires.symm⟩

/-! ### One producer -/

/-- How far a producer has come: behind its last addition lie the rounds that are fenced, and
then come those that are issued and not fenced. -/
structure Progress (program : List (Round β τ)) (done : List (Store.Write β)) (work : Work β τ)
    (added : List (τ × ℕ)) (fenced loose : List (Round β τ)) : Prop where
  rounds : program = fenced ++ (loose ++ work.rounds)
  adds : (fenced ++ loose).flatMap Round.adds = added ++ work.adds
  before : added <+: fenced.flatMap Round.adds
  performed : ∀ w ∈ fenced.flatMap Round.stores, w ∈ done
  issued : ∀ w ∈ loose.flatMap Round.stores, w ∈ work.pending ∨ w ∈ done
  pending : ∀ w ∈ work.pending, w ∈ loose.flatMap Round.stores

namespace Progress

variable {program : List (Round β τ)} {done : List (Store.Write β)} {work : Work β τ}
  {added : List (τ × ℕ)} {fenced loose : List (Round β τ)}

omit [DecidableEq κ] [DecidableEq τ]

theorem start (program : List (Round β τ)) (done : List (Store.Write β)) :
    Progress program done ⟨[], [], program⟩ [] [] [] :=
  ⟨rfl, rfl, List.prefix_rfl, by simp, by simp, by simp⟩

variable (now : Progress program done work added fenced loose)

include now

theorem issue {r : Round β τ} {rounds : List (Round β τ)} (busy : work.adds = [])
    (more : work.rounds = r :: rounds) :
    Progress program done ⟨work.pending ++ r.stores, r.adds, rounds⟩ added fenced
      (loose ++ [r]) where
  rounds := by rw [now.rounds, more, List.append_assoc, List.singleton_append]
  adds := by
    have adds := now.adds
    rw [busy, List.append_nil] at adds
    rw [← List.append_assoc, List.flatMap_append, adds, List.flatMap_singleton]
  before := now.before
  performed := now.performed
  issued w mem := by
    rw [List.flatMap_append, List.flatMap_singleton, List.mem_append] at mem
    rcases mem with old | new
    · exact (now.issued w old).imp_left (List.mem_append_left _)
    · exact Or.inl (List.mem_append_right _ new)
  pending w mem := by
    rw [List.flatMap_append, List.flatMap_singleton]
    rcases List.mem_append.1 mem with old | new
    · exact List.mem_append_left _ (now.pending w old)
    · exact List.mem_append_right _ new

/-- Stores of others change nothing. -/
theorem more {done' : List (Store.Write β)} (kept : ∀ w ∈ done, w ∈ done') :
    Progress program done' work added fenced loose :=
  { now with
    performed := fun w mem => kept w (now.performed w mem)
    issued := fun w mem => (now.issued w mem).imp_right (kept w) }

theorem store {j : ℕ} {w : Store.Write β} (found : work.pending[j]? = some w) :
    Progress program (done ++ [w]) ⟨work.pending.eraseIdx j, work.adds, work.rounds⟩ added fenced
      loose where
  rounds := now.rounds
  adds := now.adds
  before := now.before
  performed v mem := List.mem_append_left _ (now.performed v mem)
  issued v mem := by
    rcases now.issued v mem with waiting | stored
    · by_cases this : v = w
      · exact Or.inr (List.mem_append_right _ (List.mem_singleton.2 this))
      · left
        obtain ⟨k, hk, rfl⟩ := List.mem_iff_getElem.1 waiting
        refine List.mem_eraseIdx_iff_getElem.2 ⟨k, hk, fun same => this ?_, rfl⟩
        subst same
        rw [List.getElem?_eq_getElem hk] at found
        exact Option.some.inj found
    · exact Or.inr (List.mem_append_left _ stored)
  pending v mem := now.pending v (List.mem_of_mem_eraseIdx mem)

/-- **An addition fences** all rounds that are issued. -/
theorem add {t : τ} {n : ℕ} {adds : List (τ × ℕ)} (stored : work.pending = [])
    (more : work.adds = (t, n) :: adds) :
    Progress program done ⟨[], adds, work.rounds⟩ (added ++ [(t, n)]) (fenced ++ loose) []
    where
  rounds := by rw [List.nil_append, List.append_assoc, ← now.rounds]
  adds := by rw [List.append_nil, now.adds, more, List.append_assoc, List.singleton_append]
  before := by
    rw [now.adds, more]
    exact ⟨adds, by rw [List.append_assoc, List.singleton_append]⟩
  performed w mem := by
    rw [List.flatMap_append, List.mem_append] at mem
    rcases mem with old | new
    · exact now.performed w old
    · refine (now.issued w new).resolve_left fun waiting => ?_
      rw [stored] at waiting
      exact List.not_mem_nil waiting
  issued w mem := absurd mem List.not_mem_nil
  pending w mem := absurd mem List.not_mem_nil

end Progress

/-! ### All producers -/

section Invariant

variable [Fintype ι] (program : ι → List (Round β τ)) (memory : (a : κ) → β a)

/-- All stores of producer `i`. -/
def storesOf (i : ι) : List (Store.Write β) := (program i).flatMap Round.stores

/-- The share of producer `i` in counter `t`. -/
def share (t : τ) (i : ι) : ℕ := Store.added ((program i).flatMap Round.adds) t

/-- What every counter ends at. -/
def total (t : τ) : ℕ := ∑ i, share program t i

/-- No two stores disagree. -/
def Agree : Prop :=
  ∀ i i', ∀ w ∈ storesOf program i, ∀ w' ∈ storesOf program i', w'.1 = w.1 → w' = w

/-- What holds in every state, with the stores and additions that are done. -/
structure Inv (s : State ι β τ) (done : List (Store.Write β)) (added : ι → List (τ × ℕ)) :
    Prop where
  memory : s.memory = Store.run done memory
  known : ∀ w ∈ done, ∃ i, w ∈ storesOf program i
  progress : ∀ i, ∃ fenced loose, Progress (program i) done (s.work i) (added i) fenced loose
  count : ∀ t, s.count t = ∑ i, Store.added (added i) t

variable {program memory}

theorem step_inv {s s' : State ι β τ} {e : Event ι} {done : List (Store.Write β)}
    {added : ι → List (τ × ℕ)} (inv : Inv program memory s done added)
    (fires : step s e = some s') : ∃ done' added', Inv program memory s' done' added' := by
  rcases step_cases fires with ⟨i, r, rounds, -, busy, more, rfl⟩ | ⟨i, j, w, -, found, rfl⟩ |
    ⟨i, t, n, adds, -, stored, more, rfl⟩
  -- a round is issued: its stores join the loose ones
  · refine ⟨done, added, inv.memory, inv.known, fun i' => ?_, inv.count⟩
    obtain ⟨fenced, loose, now⟩ := inv.progress i'
    rcases eq_or_ne i' i with rfl | other
    · refine ⟨fenced, loose ++ [r], ?_⟩
      show Progress (program i') _ (Function.update s.work i' _ i') _ _ _
      rw [Function.update_self]
      exact now.issue busy more
    · refine ⟨fenced, loose, ?_⟩
      show Progress (program i') _ (Function.update s.work i _ i') _ _ _
      rw [Function.update_of_ne other]
      exact now
  -- a store is performed, in whatever order
  · refine ⟨done ++ [w], added, ?_, fun v mem => ?_, fun i' => ?_, inv.count⟩
    · rw [Store.run_append, ← inv.memory]
      rfl
    · rcases List.mem_append.1 mem with old | new
      · exact inv.known v old
      · obtain rfl := List.mem_singleton.1 new
        obtain ⟨fenced, loose, now⟩ := inv.progress i
        refine ⟨i, ?_⟩
        have mine := now.pending v (List.mem_of_getElem? found)
        rw [storesOf, now.rounds, List.flatMap_append, List.flatMap_append]
        exact List.mem_append_right _ (List.mem_append_left _ mine)
    · obtain ⟨fenced, loose, now⟩ := inv.progress i'
      refine ⟨fenced, loose, ?_⟩
      rcases eq_or_ne i' i with rfl | other
      · show Progress (program i') _ (Function.update s.work i' _ i') _ _ _
        rw [Function.update_self]
        exact now.store found
      · show Progress (program i') _ (Function.update s.work i _ i') _ _ _
        rw [Function.update_of_ne other]
        exact now.more fun v => List.mem_append_left _
  -- an addition fences: nothing is pending any more, the loose rounds are through
  · refine ⟨done, Function.update added i (added i ++ [(t, n)]), inv.memory, inv.known,
      fun i' => ?_, fun t' => ?_⟩
    · obtain ⟨fenced, loose, now⟩ := inv.progress i'
      rcases eq_or_ne i' i with rfl | other
      · refine ⟨fenced ++ loose, [], ?_⟩
        show Progress (program i') _ (Function.update s.work i' _ i')
          (Function.update added i' _ i') _ _
        rw [Function.update_self, Function.update_self]
        exact now.add stored more
      · refine ⟨fenced, loose, ?_⟩
        show Progress (program i') _ (Function.update s.work i _ i')
          (Function.update added i _ i') _ _
        rw [Function.update_of_ne other, Function.update_of_ne other]
        exact now
    · have others : ∀ i', Store.added (Function.update added i (added i ++ [(t, n)]) i') t' =
          Store.added (added i') t' + if i' = i then (if t = t' then n else 0) else 0 := by
        intro i'
        rcases eq_or_ne i' i with rfl | other
        · rw [Function.update_self, Store.added_append, Store.added_cons, Store.added_nil,
            if_pos rfl, Nat.add_zero]
        · rw [Function.update_of_ne other, if_neg other, Nat.add_zero]
      simp only [Store.addAt_apply, inv.count, others]
      rw [sum_add_distrib, sum_ite_eq' univ i, if_pos (mem_univ i)]

theorem reachable_inv {s : State ι β τ} (reach : (system program memory).Reachable s) :
    ∃ done added, Inv program memory s done added := by
  have begins : Inv program memory (system program memory).init [] fun _ => [] :=
    ⟨rfl, by simp, fun i => ⟨[], [], Progress.start (program i) []⟩,
      fun t => (sum_eq_zero fun _ _ => Store.added_nil t).symm⟩
  have kept : ∀ st e st', (∃ done added, Inv program memory st done added) →
      step st e = some st' → ∃ done added, Inv program memory st' done added := by
    rintro st e st' ⟨done, added, inv⟩ fires
    exact step_inv inv fires
  exact reach.invariant ⟨_, _, begins⟩ kept

/-! ### What a consumer may conclude -/

section Consumer

variable {s : State ι β τ} (reach : (system program memory).Reachable s)

omit [DecidableEq ι] [DecidableEq κ] [Fintype ι] in
/-- What is added is part of the share. -/
theorem Progress.added_add_le {i : ι} {done : List (Store.Write β)} {work : Work β τ}
    {added : List (τ × ℕ)} {fenced loose : List (Round β τ)}
    (now : Progress (program i) done work added fenced loose) (t : τ) :
    Store.added added t + Store.added ((loose ++ work.rounds).flatMap Round.adds) t ≤
      share program t i := by
  obtain ⟨rest, before⟩ := now.before
  have parts : share program t i = Store.added (fenced.flatMap Round.adds) t +
      Store.added ((loose ++ work.rounds).flatMap Round.adds) t := by
    rw [share, now.rounds, List.flatMap_append, Store.added_append]
  rw [← before, Store.added_append] at parts
  omega

include reach

/-- A counter never passes its total. -/
theorem count_le_total (t : τ) : s.count t ≤ total program t := by
  obtain ⟨done, added, inv⟩ := reachable_inv reach
  rw [inv.count, total]
  refine sum_le_sum fun i _ => ?_
  obtain ⟨fenced, loose, now⟩ := inv.progress i
  exact (Nat.le_add_right _ _).trans (now.added_add_le t)

/-- When the producers are done, every counter is at its total. -/
theorem count_eq_total (finished : Finished s) (t : τ) : s.count t = total program t := by
  obtain ⟨done, added, inv⟩ := reachable_inv reach
  rw [inv.count, total]
  refine sum_congr rfl fun i _ => ?_
  obtain ⟨fenced, loose, now⟩ := inv.progress i
  have rounds := now.rounds
  have adds := now.adds
  rw [finished i, List.append_nil] at rounds adds
  rw [share, rounds, adds]

/-- **At its total, a counter vouches for a round with a share in it, and for all rounds of the
producer before.** -/
theorem memory_of_count_eq (agree : Agree program) {t : τ} (full : s.count t = total program t)
    {i : ι} {pre post : List (Round β τ)} {r : Round β τ} (split : program i = pre ++ r :: post)
    (shared : 0 < Store.added r.adds t) {r' : Round β τ} (before : r' ∈ pre ++ [r])
    {w : Store.Write β} (hw : w ∈ r'.stores) : s.memory w.1 = w.2 := by
  obtain ⟨done, added, inv⟩ := reachable_inv reach
  obtain ⟨fenced, loose, now⟩ := inv.progress i
  have below : ∀ i ∈ univ, Store.added (added i) t ≤ share program t i := by
    intro i _
    obtain ⟨fenced, loose, now⟩ := inv.progress i
    exact (Nat.le_add_right _ _).trans (now.added_add_le t)
  have equal : Store.added (added i) t = share program t i :=
    (sum_eq_sum_iff_of_le below).1 ((inv.count t).symm.trans full) i (mem_univ i)
  -- so the round is not behind the last addition
  have inside : r ∉ loose ++ (s.work i).rounds := by
    intro mem
    obtain ⟨l, l', parts⟩ := List.append_of_mem mem
    have le := now.added_add_le t
    rw [parts, List.flatMap_append, List.flatMap_cons, Store.added_append, Store.added_append] at le
    omega
  have prefixed : ∀ x ∈ pre ++ [r], x ∈ fenced := by
    have rounds := split.symm.trans now.rounds
    rcases List.append_eq_append_iff.1 rounds with ⟨as, rfl, tail⟩ | ⟨cs, -, tail⟩
    · cases as with
      | nil =>
          rw [List.nil_append] at tail
          exact absurd (tail ▸ List.mem_cons_self) inside
      | cons x as =>
          obtain ⟨rfl, -⟩ := List.cons.inj tail
          intro y mem
          rw [List.append_cons]
          exact List.mem_append_left _ mem
    · exact absurd (tail ▸ List.mem_append_right _ List.mem_cons_self) inside
  have performed : w ∈ done := now.performed w (List.mem_flatMap.2 ⟨r', prefixed r' before, hw⟩)
  have mine : w ∈ storesOf program i := by
    refine List.mem_flatMap.2 ⟨r', ?_, hw⟩
    rw [split, List.append_cons]
    exact List.mem_append_left _ before
  rw [inv.memory]
  refine Store.run_of_agree performed (fun w' hw' same => ?_) memory
  obtain ⟨i', mem⟩ := inv.known w' hw'
  exact agree i i' w mine w' mem same

/-- When memory holds all stores, it is what they leave in any order. -/
theorem memory_eq_run (agree : Agree program)
    (written : ∀ i, ∀ w ∈ storesOf program i, s.memory w.1 = w.2) {ws : List (Store.Write β)}
    (all : ∀ w, w ∈ ws ↔ ∃ i, w ∈ storesOf program i) : s.memory = Store.run ws memory := by
  obtain ⟨done, added, inv⟩ := reachable_inv reach
  funext a
  by_cases addressed : ∃ w ∈ ws, w.1 = a
  · obtain ⟨w, mem, rfl⟩ := addressed
    obtain ⟨i, hw⟩ := (all w).1 mem
    rw [written i w hw]
    refine (Store.run_of_agree mem (fun w' hw' same => ?_) memory).symm
    obtain ⟨i', mem'⟩ := (all w').1 hw'
    exact agree i i' w hw w' mem' same
  · have untouched : ∀ w ∈ done, w.1 ≠ a := fun w hw same =>
      addressed ⟨w, (all w).2 (inv.known w hw), same⟩
    rw [inv.memory, Store.run_of_forall_ne untouched,
      Store.run_of_forall_ne fun w hw same => addressed ⟨w, hw, same⟩]

end Consumer

/-! ### Runs end -/

omit [Fintype ι] in
/-- Until the producers are done, some step is enabled. -/
theorem exists_step {s : State ι β τ} (unfinished : ¬Finished s) :
    ∃ e s', step s e = some s' := by
  simp only [Finished, not_forall] at unfinished
  obtain ⟨i, busy⟩ := unfinished
  cases stored : (s.work i).pending with
  | cons w ws => exact ⟨.store i 0, _, by simp [step, stored]; rfl⟩
  | nil =>
      cases more : (s.work i).adds with
      | cons tn adds => exact ⟨.add i, _, by simp [step, stored, more]; rfl⟩
      | nil =>
          cases rounds : (s.work i).rounds with
          | cons r rest => exact ⟨.issue i, _, by simp [step, more, rounds]; rfl⟩
          | nil =>
              refine absurd ?_ busy
              rw [← stored, ← more, ← rounds]

/-- The steps of a producer that are still to come. -/
def Work.remaining (work : Work β τ) : ℕ :=
  work.pending.length + work.adds.length +
    (work.rounds.map fun r => r.stores.length + r.adds.length + 1).sum

/-- The steps that are still to come. -/
def remaining (s : State ι β τ) : ℕ := ∑ i, (s.work i).remaining

omit [DecidableEq κ] [DecidableEq τ] in
/-- A step of one producer that brings its own end nearer brings the end nearer. -/
theorem remaining_update {work : ι → Work β τ} {i : ι} {w : Work β τ}
    (less : w.remaining + 1 = (work i).remaining) :
    ∑ i', (Function.update work i w i').remaining + 1 = ∑ i', (work i').remaining := by
  have others : ∀ i' ∈ univ.erase i, (Function.update work i w i').remaining =
      (work i').remaining := fun i' hi' => by rw [Function.update_of_ne (ne_of_mem_erase hi')]
  rw [← sum_erase_add univ _ (mem_univ i), ← sum_erase_add univ _ (mem_univ i),
    sum_congr rfl others, Function.update_self]
  omega

theorem step_remaining {s s' : State ι β τ} {e : Event ι} (fires : step s e = some s') :
    remaining s' + 1 = remaining s := by
  rcases step_cases fires with ⟨i, r, rounds, -, busy, more, rfl⟩ | ⟨i, j, w, -, found, rfl⟩ |
    ⟨i, t, n, adds, -, stored, more, rfl⟩
  · refine remaining_update ?_
    simp only [Work.remaining, busy, more, List.length_append, List.map_cons, List.sum_cons,
      List.length_nil]
    omega
  · obtain ⟨hj, -⟩ := List.getElem?_eq_some_iff.1 found
    refine remaining_update ?_
    simp only [Work.remaining, List.length_eraseIdx_of_lt hj]
    omega
  · refine remaining_update ?_
    simp only [Work.remaining, stored, more, List.length_cons]
    omega

/-- Every program can be run to its end. -/
theorem exists_finished (program : ι → List (Round β τ)) (memory : (a : κ) → β a) :
    ∃ s, (system program memory).Reachable s ∧ Finished s := by
  have fresh : (system program memory).Reachable (system program memory).init := .init
  obtain ⟨s, reach, ended⟩ := fresh.exists_terminal remaining fun s e s' _ fires => by
    have := step_remaining (fires : step s e = some s')
    omega
  refine ⟨s, reach, ?_⟩
  by_contra unfinished
  obtain ⟨e, s', fires⟩ := exists_step unfinished
  exact absurd (fires.symm.trans (ended e)) (by simp)

end Invariant

end FencedRounds
