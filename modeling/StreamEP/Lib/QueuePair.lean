import Mathlib.Algebra.Order.Group.Nat

/-!
# Puts and additions on one queue pair

A sender puts parts of a stream into remote memory and announces them by additions to a
counter, put and addition in turn on one queue pair.  The network may apply what is queued
in any order, except that an addition does not overtake a put.

`Ordered n q`: when the additions that have been applied sum to `n`, a put that is still
queued starts at `n` plus what is queued for addition before it.  So nothing from its start on
has been announced (`le_of_put`).

There is one lemma for everything that can happen to the queue: something is queued behind the
rest (`append`), a put is applied at any time (`put_applied`), and an addition when no put is
queued before it (`add_applied`).  Additions may overtake each other.
-/

namespace QueuePair

/-- What is under way. -/
inductive Queued where
  /-- Positions of the stream, from `start` on. -/
  | put (start : ℕ)
  | add (n : ℕ)
  deriving DecidableEq

/-- The additions that are under way. -/
def adds : List Queued → ℕ
  | [] => 0
  | .put _ :: q => adds q
  | .add n :: q => n + adds q

def Queued.isAdd : Queued → Bool
  | .put _ => false
  | .add _ => true

/-- No put is queued before the packet at index `k`. -/
def NoPut (q : List Queued) (k : ℕ) : Prop := ∀ a ∈ q.take k, a.isAdd = true

instance (q : List Queued) (k : ℕ) : Decidable (NoPut q k) :=
  inferInstanceAs (Decidable (∀ a ∈ q.take k, a.isAdd = true))

def Ordered : ℕ → List Queued → Prop
  | _, [] => True
  | n, .put start :: q => start = n ∧ Ordered n q
  | n, .add m :: q => Ordered (n + m) q

variable {n m start k : ℕ} {q q' : List Queued}

theorem adds_append : adds (q ++ q') = adds q + adds q' := by
  induction q with
  | nil => exact (Nat.zero_add _).symm
  | cons a q ih =>
      cases a with
      | put start => exact ih
      | add n => rw [List.cons_append, adds, adds, ih, Nat.add_assoc]

/-- The next position is put, or announced, behind what is queued. -/
theorem Ordered.append (ordered : Ordered n q) (behind : Ordered (n + adds q) q') :
    Ordered n (q ++ q') := by
  induction q generalizing n with
  | nil => exact behind
  | cons a q ih =>
      cases a with
      | put start => exact ⟨ordered.1, ih ordered.2 behind⟩
      | add m => exact ih ordered (by rwa [adds, ← Nat.add_assoc] at behind)

/-- A put may be applied at any time, -/
theorem Ordered.put_applied (ordered : Ordered n q) (here : q[k]? = some (.put start)) :
    Ordered n (q.eraseIdx k) ∧ adds (q.eraseIdx k) = adds q := by
  induction q generalizing n k with
  | nil => exact absurd here (by simp)
  | cons a q ih =>
      cases k with
      | zero =>
          obtain rfl := Option.some.inj here
          exact ⟨ordered.2, rfl⟩
      | succ k =>
          cases a with
          | put start' =>
              have ⟨rest, same⟩ := ih ordered.2 here
              exact ⟨⟨ordered.1, rest⟩, same⟩
          | add m =>
              have ⟨rest, same⟩ := ih (n := n + m) ordered here
              exact ⟨rest, congrArg (m + ·) same⟩

/-- and an addition when no put is queued before it. -/
theorem Ordered.add_applied (ordered : Ordered n q) (here : q[k]? = some (.add m))
    (clear : NoPut q k) : Ordered (n + m) (q.eraseIdx k) ∧ m + adds (q.eraseIdx k) = adds q := by
  induction q generalizing n k with
  | nil => exact absurd here (by simp)
  | cons a q ih =>
      cases k with
      | zero =>
          obtain rfl := Option.some.inj here
          exact ⟨ordered, rfl⟩
      | succ k =>
          have first := clear a (by simp)
          cases a with
          | put start => exact Bool.noConfusion first
          | add m' =>
              have ⟨rest, same⟩ :=
                ih (n := n + m') ordered here fun b mem => clear b (by simp [mem])
              refine ⟨?_, ?_⟩
              · rw [List.eraseIdx_cons_succ, Ordered, Nat.add_right_comm]
                exact rest
              · rw [List.eraseIdx_cons_succ, adds, adds, ← same, Nat.add_left_comm]

/-- **What has been announced has been applied.** -/
theorem Ordered.le_of_put (ordered : Ordered n q) (mem : .put start ∈ q) : n ≤ start := by
  induction q generalizing n with
  | nil => exact absurd mem List.not_mem_nil
  | cons a q ih =>
      rcases List.mem_cons.1 mem with rfl | later
      · exact ordered.1.ge
      · cases a with
        | put start' => exact ih ordered.2 later
        | add m => exact (Nat.le_add_right n m).trans (ih ordered later)

end QueuePair
