import Mathlib.Algebra.BigOperators.Group.Finset.Basic
import Mathlib.Algebra.Order.BigOperators.Group.Finset
import Mathlib.Data.Fintype.Basic
import StreamEP.Lib.Store
import StreamEP.Lib.TransitionSystem

/-!
# Publishing stores through counters

Several producers store data and then announce it: a producer performs its stores
in any order, and only when all of them are done it adds, one after the other, its
shares to some counters.  A consumer waits until a counter reaches the total of all
shares.

The consumer is right to wait for equality.  A counter never passes its total
(`count_le_total`); at the total, every producer with a share in the counter has
performed all its stores (`stored_of_count_eq`); and when the producers are done the
counter is at the total (`count_eq_total`).

**The invariant.**  For every producer and counter, what has been added and what is still to be
added make up its share; and the stores that are not pending have been performed.  A consumer that
sees a counter at its total knows that nothing is still to be added, and then nothing of the
producers with a share can be pending, since additions wait for the stores.

**Memory.**  What stores leave is a question of their own: if no two stores of all programs
disagree, a cell that has been stored to holds the value that any of them puts there
(`memory_of_stored`), and at the end memory is what all stores leave, in any order
(`memory_eq_run`).
-/

namespace Publication

open Finset

variable {ι κ τ : Type*} [DecidableEq ι] [DecidableEq κ] [DecidableEq τ] {β : κ → Type*}

/-- What a producer still has to do. -/
structure Work (β : κ → Type*) (τ : Type*) where
  stores : List (Store.Write β)
  adds : List (τ × ℕ)

/-- The producers, the memory they store to and the counters they add to. -/
structure State (ι : Type*) (β : κ → Type*) (τ : Type*) where
  work : ι → Work β τ
  memory : (a : κ) → β a
  count : τ → ℕ

/-- One step of one producer: some pending store, or the next addition. -/
inductive Event (ι : Type*) where
  | store (i : ι) (j : ℕ)
  | add (i : ι)

/-- Additions wait until the producer has no pending store. -/
def step (s : State ι β τ) : Event ι → Option (State ι β τ)
  | .store i j =>
      match (s.work i).stores[j]? with
      | none => none
      | some w =>
          some { s with
            work := Function.update s.work i
              ⟨(s.work i).stores.eraseIdx j, (s.work i).adds⟩
            memory := Function.update s.memory w.1 w.2 }
  | .add i =>
      match (s.work i).stores, (s.work i).adds with
      | [], (t, n) :: adds =>
          some { s with
            work := Function.update s.work i ⟨[], adds⟩
            count := Store.addAt s.count t n }
      | _, _ => none

/-- All producers start with their whole program. -/
def system (program : ι → Work β τ) (memory : (a : κ) → β a) :
    TransitionSystem (State ι β τ) (Event ι) where
  init := ⟨program, memory, fun _ => 0⟩
  step := step

/-- No producer has anything left to do. -/
def Finished (s : State ι β τ) : Prop := ∀ i, (s.work i).stores = [] ∧ (s.work i).adds = []

/-- What one step does, guards included. -/
theorem step_cases {s s' : State ι β τ} {e : Event ι} (fires : step s e = some s') :
    (∃ i j w, e = .store i j ∧ (s.work i).stores[j]? = some w ∧
      s' = { s with
        work := Function.update s.work i ⟨(s.work i).stores.eraseIdx j, (s.work i).adds⟩
        memory := Function.update s.memory w.1 w.2 }) ∨
    (∃ i t n adds, e = .add i ∧ (s.work i).stores = [] ∧ (s.work i).adds = (t, n) :: adds ∧
      s' = { s with
        work := Function.update s.work i ⟨[], adds⟩
        count := Store.addAt s.count t n }) := by
  cases e with
  | store i j =>
      left
      cases found : (s.work i).stores[j]? with
      | none => simp [step, found] at fires
      | some w =>
          simp only [step, found, Option.some.injEq] at fires
          exact ⟨i, j, w, rfl, found, fires.symm⟩
  | add i =>
      right
      cases stored : (s.work i).stores with
      | cons w ws => simp [step, stored] at fires
      | nil =>
          cases more : (s.work i).adds with
          | nil => simp [step, stored, more] at fires
          | cons tn adds =>
              obtain ⟨t, n⟩ := tn
              simp only [step, stored, more, Option.some.injEq] at fires
              exact ⟨i, t, n, adds, rfl, stored, more, fires.symm⟩

section Invariant

variable [Fintype ι] (program : ι → Work β τ) (memory : (a : κ) → β a)

/-- The share of producer `i` in counter `t`. -/
def share (t : τ) (i : ι) : ℕ := Store.added (program i).adds t

/-- What every counter ends at. -/
def total (t : τ) : ℕ := ∑ i, share program t i

/-- What a producer has done and still has to do add up to its program. -/
structure Inv (s : State ι β τ) : Prop where
  stores : ∃ done : List (Store.Write β), s.memory = Store.run done memory ∧
    (∀ w ∈ done, ∃ i, w ∈ (program i).stores) ∧
    (∀ i, ∀ w ∈ (s.work i).stores, w ∈ (program i).stores) ∧
    ∀ i, ∀ w ∈ (program i).stores, w ∈ (s.work i).stores ∨ w ∈ done
  adds : ∃ done : ι → List (τ × ℕ), (∀ i, (program i).adds = done i ++ (s.work i).adds) ∧
    (∀ i, done i ≠ [] → (s.work i).stores = []) ∧
    ∀ t, s.count t = ∑ i, Store.added (done i) t

variable {program memory}

omit [DecidableEq ι] in
theorem inv_init : Inv program memory (⟨program, memory, fun _ => 0⟩ : State ι β τ) where
  stores := ⟨[], rfl, by simp, fun _ _ hw => hw, fun _ _ hw => Or.inl hw⟩
  adds := ⟨fun _ => [], fun _ => rfl, by simp, by simp⟩

/-- A store moves from the pending stores to the memory. -/
theorem store_inv {s : State ι β τ} {i : ι} {j : ℕ} {w : Store.Write β}
    (inv : Inv program memory s) (found : (s.work i).stores[j]? = some w) :
    Inv program memory { s with
      work := Function.update s.work i ⟨(s.work i).stores.eraseIdx j, (s.work i).adds⟩
      memory := Function.update s.memory w.1 w.2 } := by
  obtain ⟨done, ran, known, pending, split⟩ := inv.stores
  obtain ⟨added, adds, gated, counted⟩ := inv.adds
  have mem : w ∈ (s.work i).stores := List.mem_of_getElem? found
  set work := Function.update s.work i ⟨(s.work i).stores.eraseIdx j, (s.work i).adds⟩
    with hwork
  have self : (work i).stores = (s.work i).stores.eraseIdx j := by
    rw [hwork, Function.update_self]
  have other : ∀ i', i' ≠ i → work i' = s.work i' := fun i' h => Function.update_of_ne h _ _
  have sameAdds : ∀ i', (work i').adds = (s.work i').adds := by
    intro i'
    by_cases same : i' = i
    · rw [same, hwork, Function.update_self]
    · rw [other i' same]
  refine ⟨⟨done ++ [w], ?_, ?_, ?_, ?_⟩, ⟨added, ?_, ?_, counted⟩⟩
  · rw [Store.run_append, ← ran]
    rfl
  · intro v hv
    rcases List.mem_append.1 hv with old | new
    · exact known v old
    · obtain rfl := List.mem_singleton.1 new
      exact ⟨i, pending i v mem⟩
  · intro i' v hv
    by_cases same : i' = i
    · subst same
      exact pending i' v (List.mem_of_mem_eraseIdx (self ▸ hv))
    · exact pending i' v (other i' same ▸ hv)
  · intro i' v hv
    -- only the performed store leaves the pending ones
    rcases split i' v hv with waiting | stored
    · by_cases same : i' = i
      · subst same
        by_cases now : v = w
        · exact Or.inr (by simp [now])
        · left
          obtain ⟨k, hk, rfl⟩ := List.mem_iff_getElem.1 waiting
          refine self ▸ List.mem_eraseIdx_iff_getElem.2 ⟨k, hk, fun this => now ?_, rfl⟩
          subst this
          rw [List.getElem?_eq_getElem hk] at found
          exact Option.some.inj found
      · left
        show v ∈ (work i').stores
        rwa [other i' same]
    · exact Or.inr (List.mem_append_left _ stored)
  · intro i'
    exact (adds i').trans (congrArg _ (sameAdds i').symm)
  · intro i' started
    have none := gated i' started
    by_cases same : i' = i
    · rw [same] at none
      rw [none] at mem
      exact absurd mem List.not_mem_nil
    · exact (congrArg _ (other i' same)).trans none

/-- An addition moves from the pending additions to the counter. -/
theorem add_inv {s : State ι β τ} {i : ι} {t : τ} {n : ℕ} {rest : List (τ × ℕ)}
    (inv : Inv program memory s) (stored : (s.work i).stores = [])
    (more : (s.work i).adds = (t, n) :: rest) :
    Inv program memory { s with
      work := Function.update s.work i ⟨[], rest⟩
      count := Store.addAt s.count t n } := by
  obtain ⟨done, ran, known, pending, split⟩ := inv.stores
  obtain ⟨added, adds, gated, counted⟩ := inv.adds
  set work := Function.update s.work i ⟨[], rest⟩ with hwork
  have other : ∀ i', i' ≠ i → work i' = s.work i' := fun i' h => Function.update_of_ne h _ _
  have sameStores : ∀ i', (work i').stores = (s.work i').stores := by
    intro i'
    by_cases same : i' = i
    · rw [same, hwork, Function.update_self, stored]
    · rw [other i' same]
  refine ⟨⟨done, ran, known, ?_, ?_⟩,
    ⟨Function.update added i (added i ++ [(t, n)]), ?_, ?_, ?_⟩⟩
  · intro i' v hv
    exact pending i' v (sameStores i' ▸ hv)
  · intro i' v hv
    exact (split i' v hv).imp_left fun waiting => sameStores i' ▸ waiting
  · intro i'
    show (program i').adds = Function.update added i (added i ++ [(t, n)]) i' ++ (work i').adds
    by_cases same : i' = i
    · rw [same, Function.update_self, adds i, more, hwork, Function.update_self]
      simp
    · rw [Function.update_of_ne same, other i' same]
      exact adds i'
  · intro i' started
    refine (sameStores i').trans ?_
    by_cases same : i' = i
    · rw [same, stored]
    · rw [Function.update_of_ne same] at started
      exact gated i' started
  · intro t'
    have others : ∀ i', Store.added (Function.update added i (added i ++ [(t, n)]) i') t' =
        Store.added (added i') t' + if i' = i then (if t = t' then n else 0) else 0 := by
      intro i'
      by_cases same : i' = i
      · subst same
        rw [Function.update_self, Store.added_append, Store.added_cons, Store.added_nil,
          if_pos rfl, Nat.add_zero]
      · rw [Function.update_of_ne same, if_neg same, Nat.add_zero]
    simp only [Store.addAt_apply, counted, others]
    rw [sum_add_distrib, sum_ite_eq' univ i, if_pos (mem_univ i)]

theorem reachable_inv {s : State ι β τ}
    (reach : (system program memory).Reachable s) : Inv program memory s := by
  refine reach.invariant inv_init fun s e s' inv fires => ?_
  rcases step_cases fires with ⟨i, j, w, -, found, rfl⟩ | ⟨i, t, n, rest, -, stored, more, rfl⟩
  · exact store_inv inv found
  · exact add_inv inv stored more

/-! ### What a consumer may conclude -/

section Consumer

variable {s : State ι β τ} (reach : (system program memory).Reachable s)

include reach

/-- A counter never passes its total. -/
theorem count_le_total (t : τ) : s.count t ≤ total program t := by
  obtain ⟨added, adds, -, counted⟩ := (reachable_inv reach).adds
  rw [counted, total]
  refine sum_le_sum fun i _ => ?_
  rw [share, adds i, Store.added_append]
  exact Nat.le_add_right _ _

/-- When the producers are done, every counter is at its total. -/
theorem count_eq_total (finished : Finished s) (t : τ) : s.count t = total program t := by
  obtain ⟨added, adds, -, counted⟩ := (reachable_inv reach).adds
  rw [counted, total]
  refine sum_congr rfl fun i _ => ?_
  rw [share, adds i, (finished i).2, List.append_nil]

/-- **At its total, a counter vouches for everyone who has a share in it**: those
producers have no store left. -/
theorem stored_of_count_eq {t : τ} (full : s.count t = total program t) {i : ι}
    (shared : 0 < share program t i) : (s.work i).stores = [] := by
  obtain ⟨added, adds, gated, counted⟩ := (reachable_inv reach).adds
  have below : ∀ i ∈ univ, Store.added (added i) t ≤ share program t i := by
    intro i _
    rw [share, adds i, Store.added_append]
    exact Nat.le_add_right _ _
  have equal : Store.added (added i) t = share program t i :=
    (sum_eq_sum_iff_of_le below).1 ((counted t).symm.trans full) i (mem_univ i)
  refine gated i fun none => ?_
  rw [none, Store.added_nil] at equal
  omega

/-- The stores of a producer with no store left are what memory holds, if no two
stores of the program disagree. -/
theorem memory_of_stored (agree : ∀ i i', ∀ w ∈ (program i).stores,
      ∀ w' ∈ (program i').stores, w'.1 = w.1 → w' = w)
    {i : ι} (stored : (s.work i).stores = []) {w : Store.Write β}
    (hw : w ∈ (program i).stores) : s.memory w.1 = w.2 := by
  obtain ⟨done, ran, known, -, split⟩ := (reachable_inv reach).stores
  have performed : w ∈ done := by
    rcases split i w hw with waiting | performed
    · rw [stored] at waiting
      exact absurd waiting List.not_mem_nil
    · exact performed
  rw [ran]
  refine Store.run_of_agree performed (fun w' hw' same => ?_) memory
  obtain ⟨i', mem⟩ := known w' hw'
  exact agree i i' w hw w' mem same

/-- When all stores are done, memory is what they leave in any order, if no two disagree. -/
theorem memory_eq_run (agree : ∀ i i', ∀ w ∈ (program i).stores,
      ∀ w' ∈ (program i').stores, w'.1 = w.1 → w' = w)
    (stored : ∀ i, (s.work i).stores = []) {ws : List (Store.Write β)}
    (all : ∀ w, w ∈ ws ↔ ∃ i, w ∈ (program i).stores) : s.memory = Store.run ws memory := by
  obtain ⟨done, ran, known, -, -⟩ := (reachable_inv reach).stores
  funext a
  by_cases addressed : ∃ w ∈ ws, w.1 = a
  · obtain ⟨w, mem, rfl⟩ := addressed
    obtain ⟨i, hw⟩ := (all w).1 mem
    rw [memory_of_stored reach agree (stored i) hw]
    refine (Store.run_of_agree mem (fun w' hw' same => ?_) memory).symm
    obtain ⟨i', mem'⟩ := (all w').1 hw'
    exact agree i i' w hw w' mem' same
  · have untouched : ∀ w ∈ done, w.1 ≠ a := fun w hw same =>
      addressed ⟨w, (all w).2 (known w hw), same⟩
    rw [ran, Store.run_of_forall_ne untouched,
      Store.run_of_forall_ne fun w hw same => addressed ⟨w, hw, same⟩]

omit [Fintype ι] reach in
/-- Until the producers are done, some step is enabled. -/
theorem exists_step (unfinished : ¬Finished s) : ∃ e s', step s e = some s' := by
  simp only [Finished, not_forall] at unfinished
  obtain ⟨i, busy⟩ := unfinished
  cases stored : (s.work i).stores with
  | cons w ws => exact ⟨.store i 0, _, by simp [step, stored]; rfl⟩
  | nil =>
      cases more : (s.work i).adds with
      | nil => exact absurd ⟨stored, more⟩ busy
      | cons tn adds => exact ⟨.add i, _, by simp [step, stored, more]; rfl⟩

end Consumer

/-! ### Runs end -/

/-- The stores and additions that are still to come. -/
def pending (s : State ι β τ) : ℕ :=
  ∑ i, ((s.work i).stores.length + (s.work i).adds.length)

/-- Every step takes one store or addition off the pending ones. -/
theorem step_pending {s s' : State ι β τ} {e : Event ι} (fires : step s e = some s') :
    pending s' + 1 = pending s := by
  have one : ∀ (i : ι) (stores : List (Store.Write β)) (adds : List (τ × ℕ)),
      stores.length + adds.length + 1 =
        (s.work i).stores.length + (s.work i).adds.length →
      (∑ i', ((Function.update s.work i ⟨stores, adds⟩ i').stores.length +
        (Function.update s.work i ⟨stores, adds⟩ i').adds.length)) + 1 = pending s := by
    intro i stores adds less
    have others : ∀ i' ∈ univ.erase i,
        (Function.update s.work i ⟨stores, adds⟩ i').stores.length +
            (Function.update s.work i ⟨stores, adds⟩ i').adds.length =
          (s.work i').stores.length + (s.work i').adds.length := fun i' hi' => by
      rw [Function.update_of_ne (ne_of_mem_erase hi')]
    rw [pending, ← sum_erase_add univ _ (mem_univ i), ← sum_erase_add univ _ (mem_univ i),
      sum_congr rfl others, Function.update_self]
    show _ + (stores.length + adds.length) + 1 = _
    omega
  rcases step_cases fires with ⟨i, j, w, -, found, rfl⟩ | ⟨i, t, n, rest, -, stored, more, rfl⟩
  · obtain ⟨hj, -⟩ := List.getElem?_eq_some_iff.1 found
    refine one i _ _ ?_
    rw [List.length_eraseIdx_of_lt hj]
    omega
  · refine one i _ _ ?_
    rw [stored, more, List.length_cons]
    omega

/-- Every program can be run to its end. -/
theorem exists_finished (program : ι → Work β τ) (memory : (a : κ) → β a) :
    ∃ s, (system program memory).Reachable s ∧ Finished s := by
  have fresh : (system program memory).Reachable (system program memory).init := .init
  obtain ⟨s, reach, ended⟩ := fresh.exists_terminal pending fun s e s' _ fires => by
    have := step_pending (fires : step s e = some s')
    omega
  refine ⟨s, reach, ?_⟩
  by_contra unfinished
  obtain ⟨e, s', fires⟩ := exists_step unfinished
  exact absurd (fires.symm.trans (ended e)) (by simp)

end Invariant

end Publication
