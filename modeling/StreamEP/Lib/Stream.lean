import Mathlib.Data.List.Range
import Mathlib.Order.Interval.Finset.Nat
import StreamEP.Lib.PrefixSum

/-!
# Positions in a filtered range

A sender walks the numbers from `start` on and sends those that satisfy `p`.  What it
has sent before it comes to `t` is `below p start t`, and `pos p start t` is how many
that are: the place of `t` in the stream if `t` is sent itself.

The place is a difference of two counts, so it needs no list: `getElem?_below` and
`pos_getElem` lead from the one to the other.

**Streams of a stream.**  Who receives a stream may pass on some of it.  What is selected
further keeps its order (`filter_below`), and its places among what was received are those it
would have had in a stream of its own (`pos_places`).
-/

namespace Stream

variable (p : ℕ → Prop) [DecidablePred p] (start : ℕ)

/-- How many numbers from `start` on and below `t` are sent. -/
def pos (t : ℕ) : ℕ := Nat.count p t - Nat.count p start

/-- The numbers from `start` on and below `t` that are sent. -/
def below (t : ℕ) : List ℕ := (List.range' start (t - start)).filter p

variable {p start} {t t' : ℕ}

@[simp] theorem pos_start : pos p start start = 0 := Nat.sub_self _

@[simp] theorem below_start : below p start start = [] := by simp [below]

theorem below_zero : below p 0 t = (List.range t).filter p := by
  rw [below, Nat.sub_zero, List.range_eq_range']

theorem pos_succ (h : start ≤ t) :
    pos p start (t + 1) = pos p start t + if p t then 1 else 0 := by
  have mono : Nat.count p start ≤ Nat.count p t := Nat.count_monotone _ h
  rw [pos, pos, Nat.count_succ, Nat.sub_add_comm mono]

theorem below_succ (h : start ≤ t) :
    below p start (t + 1) = below p start t ++ if p t then [t] else [] := by
  rw [below, Nat.sub_add_comm h, List.range'_1_concat, List.filter_append,
    Nat.add_sub_cancel' h]
  by_cases sent : p t <;> simp [sent, below]

theorem pos_mono (h : t ≤ t') : pos p start t ≤ pos p start t' :=
  Nat.sub_le_sub_right (Nat.count_monotone _ h) _

/-- The places of the numbers counted from `start` on. -/
theorem pos_shift (i : ℕ) : pos (fun x => p (start + x)) 0 i = pos p start (start + i) := by
  rw [pos, pos, Nat.count_add, Nat.add_sub_cancel_left, Nat.count_zero, Nat.sub_zero]

/-- What is sent earlier has a smaller place. -/
theorem pos_lt (h : start ≤ t) (sent : p t) (lt : t < t') : pos p start t < pos p start t' := by
  have mono : Nat.count p start ≤ Nat.count p t := Nat.count_monotone _ h
  have strict := Nat.count_strict_mono sent lt
  rw [pos, pos]
  omega

/-- Positions stand still where nothing is selected. -/
theorem pos_eq_of_none (h : t ≤ t') (none : ∀ x, t ≤ x → x < t' → ¬p x) :
    pos p start t' = pos p start t := by
  have same : Nat.count p t' = Nat.count p t := by
    induction t', h using Nat.le_induction with
    | base => rfl
    | succ n le ih =>
        rw [Nat.count_succ, if_neg (none n le (Nat.lt_succ_self n)), Nat.add_zero]
        exact ih fun x from_t below => none x from_t (Nat.lt_succ_of_lt below)
  rw [pos, pos, same]

/-- The first places are those before which nothing is selected. -/
theorem pos_eq_zero_iff (h : start ≤ t) :
    pos p start t = 0 ↔ ∀ x, start ≤ x → x < t → ¬p x := by
  constructor
  · intro zero x from_start below sent
    exact (Nat.zero_le _).not_gt (zero ▸ pos_lt from_start sent below)
  · intro none
    rw [pos_eq_of_none h none, pos_start]

theorem length_below (h : start ≤ t) : (below p start t).length = pos p start t := by
  induction t, h using Nat.le_induction with
  | base => simp
  | succ t h ih =>
      rw [below_succ h, List.length_append, ih, pos_succ h]
      split <;> rfl

theorem mem_below : t ∈ below p start t' ↔ (start ≤ t ∧ t < t') ∧ p t := by
  rw [below, List.mem_filter, List.mem_range'_1, decide_eq_true_iff]
  refine and_congr_left fun _ => ⟨fun h => ⟨h.1, by omega⟩, fun h => ⟨h.1, by omega⟩⟩

/-- A number that is sent stands at its place. -/
theorem getElem?_below (lo : start ≤ t) (hi : t < t') (sent : p t) :
    (below p start t')[pos p start t]? = some t := by
  induction t', hi using Nat.le_induction with
  | base =>
      rw [below_succ lo, ← length_below lo, List.getElem?_append_right le_rfl, Nat.sub_self,
        if_pos sent]
      rfl
  | succ t' hi ih =>
      have inside : pos p start t < (below p start t').length := by
        rw [length_below (lo.trans (Nat.le_of_succ_le hi))]
        exact pos_lt lo sent hi
      rw [below_succ (lo.trans (Nat.le_of_succ_le hi)), List.getElem?_append_left inside]
      exact ih

theorem nodup_below : (below p start t).Nodup := List.Nodup.filter _ List.nodup_range'

/-- The number at place `j` has place `j`. -/
theorem pos_getElem {j : ℕ} (hj : j < (below p start t).length) :
    pos p start (below p start t)[j] = j := by
  obtain ⟨⟨lo, hi⟩, sent⟩ := mem_below.1 (List.getElem_mem hj)
  obtain ⟨inside, same⟩ := List.getElem?_eq_some_iff.1 (getElem?_below lo hi sent)
  exact nodup_below.getElem_inj_iff.1 same

/-- Consecutive ranges give consecutive parts of the stream. -/
theorem below_append (h : start ≤ t) (h' : t ≤ t') :
    below p start t' = below p start t ++ below p t t' := by
  rw [below, below, below, ← List.filter_append]
  congr 1
  have split := List.range'_append_1 (s := start) (m := t - start) (n := t' - t)
  rw [Nat.add_sub_cancel' h] at split
  rw [split]
  congr 1
  omega

/-! ### Streams of a stream -/

/-- Selecting places of a list selects its entries. -/
theorem map_filter_range {α β : Type*} (l : List α) {p : ℕ → Prop} {q : α → Prop}
    [DecidablePred p] [DecidablePred q] {f : ℕ → β} {h : α → β}
    (same : ∀ i a, l[i]? = some a → (p i ↔ q a) ∧ f i = h a) :
    ((List.range l.length).filter p).map f = (l.filter q).map h := by
  induction l using List.reverseRecOn with
  | nil => rfl
  | append_singleton l a ih =>
    have before := ih fun i b here => same i b (by
      rw [List.getElem?_append_left (List.getElem?_eq_some_iff.1 here).1, here])
    obtain ⟨iff, value⟩ := same l.length a (by simp)
    rw [List.length_append, List.length_singleton, List.range_succ, List.filter_append,
      List.filter_append, List.map_append, List.map_append, before]
    by_cases here : q a
    · simp [here, iff.2 here, value]
    · simp [here, mt iff.1 here]

/-- What is selected further keeps its order. -/
theorem filter_below {q : ℕ → Prop} [DecidablePred q] (sub : ∀ x, q x → p x) :
    (below p start t).filter q = below q start t := by
  rw [below, below, List.filter_filter]
  refine List.filter_congr fun x _ => ?_
  by_cases here : q x
  · simp [here, sub x here]
  · simp [here]

/-- Places of a stream that are selected further are counted as its numbers are, -/
theorem pos_places {q : ℕ → Prop} [DecidablePred q] (sub : ∀ x, q x → p x)
    {goes : ℕ → Prop} [DecidablePred goes] (lo : start ≤ t)
    (same : ∀ j x, (below p start t)[j]? = some x → (goes j ↔ q x)) :
    pos goes 0 (below p start t).length = pos q start t := by
  have selected := map_filter_range (f := fun _ => ()) (h := fun _ => ()) (below p start t)
    fun j x found => ⟨same j x found, rfl⟩
  have lengths := congrArg List.length selected
  rw [List.length_map, List.length_map] at lengths
  calc pos goes 0 (below p start t).length
      = (below goes 0 (below p start t).length).length := (length_below (Nat.zero_le _)).symm
    _ = ((List.range (below p start t).length).filter goes).length := by rw [below_zero]
    _ = ((below p start t).filter q).length := lengths
    _ = pos q start t := by rw [filter_below sub, length_below lo]

/-- up to any of them. -/
theorem pos_of_places {q : ℕ → Prop} [DecidablePred q] (sub : ∀ x, q x → p x)
    {goes : ℕ → Prop} [DecidablePred goes] {stop i : ℕ}
    (same : ∀ j x, (below p start stop)[j]? = some x → (goes j ↔ q x))
    (here : (below p start stop)[i]? = some t) : pos goes 0 i = pos q start t := by
  obtain ⟨hi, rfl⟩ := List.getElem?_eq_some_iff.1 here
  obtain ⟨⟨lo, inside⟩, -⟩ := mem_below.1 (List.getElem_mem hi)
  have place := pos_getElem hi
  have split := below_append (p := p) lo inside.le
  have length : (below p start (below p start stop)[i]).length = i :=
    (length_below lo).trans place
  have counted := pos_places sub lo fun j x found => same j x (by
    rw [split, List.getElem?_append_left (List.getElem?_eq_some_iff.1 found).1]
    exact found)
  rwa [length] at counted

end Stream
