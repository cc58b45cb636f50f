import Mathlib.Algebra.BigOperators.Intervals
import Mathlib.Algebra.BigOperators.Group.List.Basic
import Mathlib.Algebra.BigOperators.Ring.Finset
import Mathlib.Data.List.Perm.Basic
import Mathlib.Data.List.Range
import Mathlib.Logic.Function.Basic
import StreamEP.Lib.Batches

/-!
# Streams that share a queue

Several streams arrive on one queue, each in order, and the consumer keeps a set of
registers for each of them, its *lane*.  A step that touches only the lane of its item
treats every stream as if it had come alone (`run_lane`), so no interleaving can be told
from another by what is done to one stream.

**Interleavings.**  An item of the queue carries the number of its stream, and `of i` takes the
items of one stream out.  `Interleaves` says that a queue holds the given streams and nothing
else; `inTurn` is one of the queues that do.  Two uses of it come up again and again: what is
done item by item is a permutation of what is done stream by stream (`perm_flatMap`), and an
item has its place in its stream behind those that came before (`at_split`).

**One stream.**  `alone` runs a step over one stream.  `alone_rule` is the induction: from an
invariant of the registers before each item it follows what is done to each item.

**Batches.**  A queue may come in batches as well (`Batches`), and `drain_interleaves` is the
rule for both at once: a lane's invariant alone determines what is done to the items of its
stream, whatever the mixture and the batches.
-/

namespace Lanes

variable {α β σ : Type*}

/-- The items of lane `i`, in order. -/
def of (i : ℕ) (xs : List (ℕ × α)) : List α := (xs.filter (·.1 = i)).map (·.2)

@[simp] theorem of_nil (i : ℕ) : of i ([] : List (ℕ × α)) = [] := rfl

theorem of_cons (i : ℕ) (x : ℕ × α) (xs : List (ℕ × α)) :
    of i (x :: xs) = if x.1 = i then x.2 :: of i xs else of i xs := by
  rw [of, List.filter_cons]
  by_cases here : x.1 = i
  · simp [here, of]
  · simp [here, of]

theorem of_append (i : ℕ) (xs ys : List (ℕ × α)) : of i (xs ++ ys) = of i xs ++ of i ys := by
  rw [of, List.filter_append, List.map_append]
  rfl

theorem mem_of {i : ℕ} {a : α} {xs : List (ℕ × α)} : a ∈ of i xs ↔ (i, a) ∈ xs := by
  simp only [of, List.mem_map, List.mem_filter, decide_eq_true_eq]
  constructor
  · rintro ⟨x, ⟨mem, rfl⟩, rfl⟩
    exact mem
  · intro mem
    exact ⟨_, ⟨mem, rfl⟩, rfl⟩

/-! ### Interleavings -/

/-- The queue holds items of the streams below `n`, and those of each stream in order. -/
structure Interleaves (n : ℕ) (streams : ℕ → List α) (xs : List (ℕ × α)) : Prop where
  lanes : ∀ x ∈ xs, x.1 < n
  streams : ∀ i < n, of i xs = streams i

/-- One stream after the other. -/
def inTurn (n : ℕ) (streams : ℕ → List α) : List (ℕ × α) :=
  (List.range n).flatMap fun i => (streams i).map (i, ·)

/-- By lane, the items of a queue are a permutation of all items. -/
theorem perm_byLane {n : ℕ} {xs : List (ℕ × α)} (lanes : ∀ x ∈ xs, x.1 < n) :
    xs.Perm (inTurn n fun i => of i xs) := by
  induction n generalizing xs with
  | zero =>
    have none : xs = [] := List.eq_nil_iff_forall_not_mem.2 fun x mem =>
      absurd (lanes x mem) (Nat.not_lt_zero _)
    rw [none]
    rfl
  | succ n ih =>
    -- the last lane apart from the others
    have split := (List.filter_append_perm (fun x : ℕ × α => decide (x.1 < n)) xs).symm
    have before := @ih (xs.filter fun x => decide (x.1 < n)) fun x mem =>
      of_decide_eq_true (List.mem_filter.1 mem).2
    have last : (xs.filter fun x => !decide (x.1 < n)) = (of n xs).map (n, ·) := by
      rw [of, List.map_map]
      have same : ∀ x ∈ xs, (!decide (x.1 < n)) = decide (x.1 = n) := by
        intro x mem
        have := lanes x mem
        by_cases here : x.1 = n
        · simp [here]
        · have lower : x.1 < n := by omega
          simp [lower, here]
      rw [List.filter_congr same]
      refine (List.map_id _).symm.trans (List.map_congr_left fun x mem => ?_)
      have here := of_decide_eq_true (List.mem_filter.1 mem).2
      exact Prod.ext here rfl
    have lower : ∀ i ∈ List.range n, (of i (xs.filter fun x => decide (x.1 < n))).map (i, ·) =
        (of i xs).map (i, ·) := by
      intro i hi
      have hi := List.mem_range.1 hi
      rw [of, List.filter_filter, of]
      congr 2
      refine List.filter_congr fun x _ => ?_
      by_cases here : x.1 = i
      · simp [here, hi]
      · simp [here]
    rw [inTurn, List.range_succ, List.flatMap_append, List.flatMap_singleton, ← last]
    refine split.trans (List.Perm.append_right _ ?_)
    rw [inTurn, List.flatMap_congr lower] at before
    exact before

theorem Interleaves.perm {n : ℕ} {streams : ℕ → List α} {xs : List (ℕ × α)}
    (inter : Interleaves n streams xs) : xs.Perm (inTurn n streams) := by
  have byLane := perm_byLane inter.lanes
  have same : ∀ i ∈ List.range n, (of i xs).map (i, ·) = (streams i).map (i, ·) :=
    fun i hi => by rw [inter.streams i (List.mem_range.1 hi)]
  rw [inTurn, List.flatMap_congr same] at byLane
  exact byLane

/-- What is done item by item is, up to the order, what is done stream by stream. -/
theorem Interleaves.perm_flatMap {n : ℕ} {streams : ℕ → List α} {xs : List (ℕ × α)}
    (inter : Interleaves n streams xs) (f : ℕ → α → List β) :
    (xs.flatMap fun x => f x.1 x.2).Perm
      ((List.range n).flatMap fun i => (streams i).flatMap (f i)) := by
  refine (inter.perm.flatMap_right _).trans (List.Perm.of_eq ?_)
  rw [inTurn, List.flatMap_assoc]
  refine List.flatMap_congr fun i _ => ?_
  rw [List.flatMap_map]

theorem Interleaves.length {n : ℕ} {streams : ℕ → List α} {xs : List (ℕ × α)}
    (inter : Interleaves n streams xs) :
    xs.length = ∑ i ∈ Finset.range n, (streams i).length := by
  rw [inter.perm.length_eq, inTurn, List.length_flatMap, ← List.sum_toFinset _ List.nodup_range,
    List.toFinset_range]
  simp only [List.length_map]

/-- An item of the queue has its place in its stream, behind those that came before. -/
theorem Interleaves.at_split {n : ℕ} {len : ℕ → ℕ} {out : ℕ → ℕ → α} {pre post : List (ℕ × α)}
    {x : ℕ × α}
    (inter : Interleaves n (fun i => (List.range (len i)).map (out i)) (pre ++ x :: post)) :
    x.1 < n ∧ ∃ j < len x.1, of x.1 pre = (List.range j).map (out x.1) ∧ x.2 = out x.1 j := by
  have lane : x.1 < n := inter.lanes x (by simp)
  have stream := inter.streams x.1 lane
  rw [of_append, of_cons, if_pos rfl] at stream
  have inside : (of x.1 pre).length < len x.1 := by
    have lengths := congrArg List.length stream
    rw [List.length_append, List.length_cons, List.length_map, List.length_range] at lengths
    omega
  refine ⟨lane, _, inside, ?_, ?_⟩
  · have first := congrArg (List.take (of x.1 pre).length) stream
    rw [List.take_left, ← List.map_take, List.take_range, Nat.min_eq_left inside.le] at first
    exact first
  · have here := congrArg (fun l => l[(of x.1 pre).length]?) stream
    simpa [inside] using here

/-- An item of a lane has its place on the queue. -/
theorem exists_split {i j : ℕ} {xs : List (ℕ × α)} {a : α} (here : (of i xs)[j]? = some a) :
    ∃ pre post, xs = pre ++ (i, a) :: post ∧ of i pre = (of i xs).take j := by
  induction xs generalizing j with
  | nil => simp at here
  | cons x xs ih =>
    rw [of_cons] at here ⊢
    by_cases own : x.1 = i
    · rw [if_pos own] at here ⊢
      cases j with
      | zero =>
        obtain rfl := Option.some.inj here
        exact ⟨[], xs, by rw [← own]; rfl, rfl⟩
      | succ j =>
        obtain ⟨pre, post, rfl, before⟩ := ih here
        refine ⟨x :: pre, post, rfl, ?_⟩
        rw [of_cons, if_pos own, before, List.take_succ_cons]
    · rw [if_neg own] at here ⊢
      obtain ⟨pre, post, rfl, before⟩ := ih here
      refine ⟨x :: pre, post, rfl, ?_⟩
      rw [of_cons, if_neg own, before]

theorem of_inTurn {n i : ℕ} (hi : i < n) (streams : ℕ → List α) :
    of i (inTurn n streams) = streams i := by
  have own : ∀ (j : ℕ) (as : List α), of i (as.map (j, ·)) = if j = i then as else [] := by
    intro j as
    induction as with
    | nil => simp
    | cons a as ih =>
      rw [List.map_cons, of_cons, ih]
      split <;> rfl
  induction n with
  | zero => exact absurd hi (Nat.not_lt_zero _)
  | succ n ih =>
    rw [inTurn, List.range_succ, List.flatMap_append, List.flatMap_singleton, of_append, own]
    rcases Nat.lt_succ_iff_lt_or_eq.1 hi with before | rfl
    · rw [if_neg (Nat.ne_of_gt before), List.append_nil]
      exact ih before
    · have none : of i (inTurn i streams) = [] := by
        refine List.eq_nil_iff_forall_not_mem.2 fun a mem => ?_
        obtain ⟨j, hj, here⟩ := List.mem_flatMap.1 (mem_of.1 mem)
        obtain ⟨_, -, same⟩ := List.mem_map.1 here
        have := List.mem_range.1 hj
        have := congrArg Prod.fst same
        simp only at this
        omega
      rw [if_pos rfl]
      exact congrArg (· ++ streams i) none

theorem interleaves_inTurn (n : ℕ) (streams : ℕ → List α) :
    Interleaves n streams (inTurn n streams) where
  lanes x mem := by
    obtain ⟨i, hi, here⟩ := List.mem_flatMap.1 mem
    obtain ⟨_, -, rfl⟩ := List.mem_map.1 here
    exact List.mem_range.1 hi
  streams _ hi := of_inTurn hi streams

/-! ### Consuming -/

section Run

variable (f : ℕ → σ → α → σ × β)

/-- One stream by itself: the registers at the end and what was done to each item. -/
def alone (i : ℕ) : σ → List α → σ × List β
  | s, [] => (s, [])
  | s, a :: as => ((alone i (f i s a).1 as).1, (f i s a).2 :: (alone i (f i s a).1 as).2)

/-- The whole queue. -/
def run : (ℕ → σ) → List (ℕ × α) → (ℕ → σ) × List (ℕ × β)
  | lanes, [] => (lanes, [])
  | lanes, x :: xs =>
      let here := f x.1 (lanes x.1) x.2
      let rest := run (Function.update lanes x.1 here.1) xs
      (rest.1, (x.1, here.2) :: rest.2)

variable {f}

/-- **Every stream is treated as if it had come alone.** -/
theorem run_lane (lanes : ℕ → σ) (xs : List (ℕ × α)) (i : ℕ) :
    (run f lanes xs).1 i = (alone f i (lanes i) (of i xs)).1 ∧
      of i (run f lanes xs).2 = (alone f i (lanes i) (of i xs)).2 := by
  induction xs generalizing lanes with
  | nil => exact ⟨rfl, rfl⟩
  | cons x xs ih =>
    obtain ⟨regs, out⟩ := ih (Function.update lanes x.1 (f x.1 (lanes x.1) x.2).1)
    rw [run]
    simp only [of_cons]
    by_cases here : x.1 = i
    · subst here
      rw [Function.update_self] at regs out
      rw [if_pos rfl, if_pos rfl, regs, out]
      exact ⟨rfl, rfl⟩
    · rw [Function.update_of_ne (Ne.symm here)] at regs out
      rw [if_neg here, if_neg here]
      exact ⟨regs, out⟩

theorem map_fst_run (lanes : ℕ → σ) (xs : List (ℕ × α)) :
    (run f lanes xs).2.map (·.1) = xs.map (·.1) := by
  induction xs generalizing lanes with
  | nil => rfl
  | cons x xs ih =>
    rw [run, List.map_cons, List.map_cons, ih]

theorem run_append (lanes : ℕ → σ) (xs ys : List (ℕ × α)) :
    run f lanes (xs ++ ys) =
      ((run f (run f lanes xs).1 ys).1, (run f lanes xs).2 ++ (run f (run f lanes xs).1 ys).2) := by
  induction xs generalizing lanes with
  | nil => rfl
  | cons x xs ih =>
    rw [List.cons_append, run, run, ih]
    rfl

/-- What is done to the items, from what holds of the registers before each of them. -/
theorem alone_rule {i : ℕ} {as : List α} {out : ℕ → β} (Inv : ℕ → σ → Prop)
    (step : ∀ j (hj : j < as.length) s, Inv j s →
      Inv (j + 1) (f i s as[j]).1 ∧ (f i s as[j]).2 = out j) {s : σ} (init : Inv 0 s) :
    Inv as.length (alone f i s as).1 ∧ (alone f i s as).2 = (List.range as.length).map out := by
  have rest : ∀ tail done : List α, as = done ++ tail → ∀ s, Inv done.length s →
      Inv as.length (alone f i s tail).1 ∧
        (alone f i s tail).2 = (List.range tail.length).map fun j => out (done.length + j) := by
    intro tail
    induction tail with
    | nil =>
      intro done split s inv
      rw [List.append_nil] at split
      rw [split]
      exact ⟨inv, rfl⟩
    | cons a tail ih =>
      intro done split s inv
      have inside : done.length < as.length := by
        rw [split, List.length_append, List.length_cons]
        omega
      have here : as[done.length] = a := by simp [split]
      obtain ⟨next, first⟩ := step done.length inside s inv
      rw [here] at next first
      obtain ⟨last, others⟩ := ih (done ++ [a]) (by simp [split]) (f i s a).1 (by simpa using next)
      refine ⟨last, ?_⟩
      rw [alone, List.length_cons, List.range_succ_eq_map, List.map_cons, List.map_map]
      refine congrArg₂ _ first ?_
      rw [others]
      refine List.map_congr_left fun j _ => ?_
      simp [Nat.add_assoc, Nat.add_comm 1]
  have all := rest as [] rfl s init
  simpa using all

/-! ### Batches of a shared queue -/

/-- The consumer of a batch: the lanes, and what has been done so far. -/
def take (f : ℕ → σ → α → σ × β) (regs : (ℕ → σ) × List (ℕ × β)) (items : List (ℕ × α)) :
    (ℕ → σ) × List (ℕ × β) :=
  ((run f regs.1 items).1, regs.2 ++ (run f regs.1 items).2)

/-- **Neither mixture nor batches matter**: what is done to the items of a stream is what the
lane's invariant says of their places in it. -/
theorem drain_interleaves {n slots : ℕ} {streams : ℕ → List α} {arrivals : List (ℕ × α)}
    (mixed : Interleaves n streams arrivals) {batches : List (Batches.Batch (ℕ × α))}
    (delivers : Batches.Delivers slots arrivals 0 batches) {toRecv : ℤ}
    (all : toRecv = ∑ i ∈ Finset.range n, ((streams i).length : ℤ)) {lanes : ℕ → σ}
    {out : ℕ → ℕ → β} (Inv : ℕ → ℕ → σ → Prop) (init : ∀ i < n, Inv i 0 (lanes i))
    (step : ∀ i < n, ∀ j (hj : j < (streams i).length) s, Inv i j s →
      Inv i (j + 1) (f i s (streams i)[j]).1 ∧ (f i s (streams i)[j]).2 = out i j) :
    Interleaves n (fun i => (List.range (streams i).length).map (out i))
      (Batches.drain slots (take f) batches ⟨0, toRecv, (lanes, [])⟩).regs.2 := by
  have counted : toRecv = (arrivals.length : ℤ) - (0 : ℕ) := by
    rw [all, mixed.length, Nat.cast_zero, sub_zero, Nat.cast_sum]
  have drained : (Batches.drain slots (take f) batches ⟨0, toRecv, (lanes, [])⟩).regs =
      take f (lanes, []) (arrivals.drop 0) := by
    refine Batches.drain_regs (fun regs => ?_) (fun regs xs ys => ?_) delivers counted
    · simp [take, run]
    · simp only [take, run_append, List.append_assoc]
  rw [drained, take, List.drop_zero, List.nil_append]
  refine ⟨fun x mem => ?_, fun i hi => ?_⟩
  · have lane : x.1 ∈ arrivals.map (·.1) := by
      rw [← map_fst_run lanes arrivals]
      exact List.mem_map_of_mem mem
    obtain ⟨y, inside, same⟩ := List.mem_map.1 lane
    rw [← same]
    exact mixed.lanes y inside
  · rw [(run_lane lanes arrivals i).2, mixed.streams i hi]
    exact (alone_rule (Inv i) (step i hi) (init i hi)).2

end Run

end Lanes
