import Mathlib.Algebra.BigOperators.Group.List.Basic
import Mathlib.Algebra.BigOperators.Intervals
import Mathlib.Data.List.Nodup
import Mathlib.Data.List.Perm.Basic
import Mathlib.Logic.Function.Basic

/-!
# Memories, stores and atomic additions

A memory assigns a value to every address; the type of the value may depend on
the address, so one memory holds arrays of rows, of weights and of indices side
by side.  Parallel code issues its stores in an order that no one controls.  Two
facts make the order irrelevant:

* **Stores.**  What a later read sees at an address was stored there, or nothing was
  (`run_cases`).  If all stores to an address agree, it is that value whatever their
  order (`run_of_agree`), so stores to pairwise different addresses are all read back
  (`run_of_mem`).
* **Atomic additions.**  They commute whatever their addresses: a cell ends at its
  initial value plus everything `added` to it (`addAll_apply`, `added_perm`).

A kernel is then a list of stores, or of additions, built by its loops, and what it leaves is read
off the list: which stores there are, that they agree, and what they add to one cell.  Systems
whose stores are performed one by one among other events end in the same memory.
-/

namespace Store

variable {κ : Type*} [DecidableEq κ] {β : κ → Type*}

/-- One store: an address and the value put there. -/
abbrev Write (β : κ → Type*) := (a : κ) × β a

/-- Perform the stores of a list, first to last. -/
def run (ws : List (Write β)) (m : (a : κ) → β a) : (a : κ) → β a :=
  ws.foldl (fun m w => Function.update m w.1 w.2) m

@[simp] theorem run_nil (m : (a : κ) → β a) : run [] m = m := rfl

@[simp] theorem run_cons (w : Write β) (ws : List (Write β)) (m : (a : κ) → β a) :
    run (w :: ws) m = run ws (Function.update m w.1 w.2) := rfl

theorem run_append (ws ws' : List (Write β)) (m : (a : κ) → β a) :
    run (ws ++ ws') m = run ws' (run ws m) :=
  List.foldl_append

/-- What a cell holds after one store is the stored value or what it held before. -/
theorem update_cases {α β : Type*} [DecidableEq α] {m : α → β} {a b : α} {v x : β}
    (h : Function.update m a v b = x) : b = a ∧ v = x ∨ b ≠ a ∧ m b = x := by
  rcases eq_or_ne b a with rfl | other
  · rw [Function.update_self] at h
    exact Or.inl ⟨rfl, h⟩
  · rw [Function.update_of_ne other] at h
    exact Or.inr ⟨other, h⟩

/-- In a table of cells, one store keeps what holds of all cells if it holds of this one. -/
theorem update_update_rule {α γ δ : Type*} [DecidableEq α] [DecidableEq γ]
    {P : α → γ → δ → Prop} {m : α → γ → δ} {a : α} {c : γ} {v : δ} (all : ∀ x y, P x y (m x y))
    (here : P a c v) (x : α) (y : γ) :
    P x y (Function.update m a (Function.update (m a) c v) x y) := by
  rcases eq_or_ne x a with rfl | other
  · rw [Function.update_self]
    rcases eq_or_ne y c with rfl | other
    · rw [Function.update_self]
      exact here
    · rw [Function.update_of_ne other]
      exact all x y
  · rw [Function.update_of_ne other]
    exact all x y

/-- What a cell holds afterwards was stored or was there before. -/
theorem run_cases (ws : List (Write β)) (m : (a : κ) → β a) (a : κ) :
    (⟨a, run ws m a⟩ : Write β) ∈ ws ∨ run ws m a = m a := by
  induction ws generalizing m with
  | nil => exact Or.inr rfl
  | cons w ws ih =>
      rw [run_cons]
      rcases ih (Function.update m w.1 w.2) with later | kept
      · exact Or.inl (List.mem_cons_of_mem w later)
      · rw [kept]
        rcases eq_or_ne a w.1 with rfl | other
        · rw [Function.update_self]
          exact Or.inl List.mem_cons_self
        · exact Or.inr (Function.update_of_ne other _ _)

/-- A cell that no store addresses keeps its value. -/
theorem run_of_forall_ne {ws : List (Write β)} {a : κ} (h : ∀ w ∈ ws, w.1 ≠ a)
    (m : (a : κ) → β a) : run ws m a = m a := by
  induction ws generalizing m with
  | nil => rfl
  | cons w ws ih =>
      rw [run_cons, ih (fun v hv => h v (List.mem_cons_of_mem w hv)),
        Function.update_of_ne (h w List.mem_cons_self).symm]

/-- A cell that is stored to, always with the same value, ends with that value. -/
theorem run_of_agree {ws : List (Write β)} {a : κ} {v : β a}
    (stored : (⟨a, v⟩ : Write β) ∈ ws) (agree : ∀ w ∈ ws, w.1 = a → w = ⟨a, v⟩)
    (m : (a : κ) → β a) : run ws m a = v := by
  induction ws generalizing m with
  | nil => exact absurd stored List.not_mem_nil
  | cons w ws ih =>
      have agree' : ∀ v' ∈ ws, v'.1 = a → v' = ⟨a, v⟩ := fun v' hv =>
        agree v' (List.mem_cons_of_mem w hv)
      rw [run_cons]
      by_cases later : (⟨a, v⟩ : Write β) ∈ ws
      · exact ih later agree' _
      · have untouched : ∀ v' ∈ ws, v'.1 ≠ a := fun v' hv heq => later (agree' v' hv heq ▸ hv)
        obtain rfl : (⟨a, v⟩ : Write β) = w := (List.mem_cons.1 stored).resolve_right later
        rw [run_of_forall_ne untouched, Function.update_self]

/-- Concatenated lists have no duplicates if none of them has and they share nothing. -/
theorem nodup_flatMap {α γ : Type*} {l : List α} {f : α → List γ} (nodup : l.Nodup)
    (each : ∀ a ∈ l, (f a).Nodup)
    (apart : ∀ a ∈ l, ∀ a' ∈ l, ∀ x ∈ f a, x ∈ f a' → a = a') : (l.flatMap f).Nodup := by
  refine List.nodup_flatMap.2 ⟨each, nodup.pairwise_of_forall_ne fun a ha a' ha' other => ?_⟩
  intro x mem mem'
  exact other (apart a ha a' ha' x mem mem')

/-- Stores to pairwise different addresses are all read back. -/
theorem run_of_mem {ws : List (Write β)} (distinct : (ws.map Sigma.fst).Nodup)
    {w : Write β} (hw : w ∈ ws) (m : (a : κ) → β a) : run ws m w.1 = w.2 :=
  run_of_agree hw (fun _ hv heq => List.inj_on_of_nodup_map distinct hv hw heq) m

/-! ### Atomic additions -/

variable {M : Type*} [AddCommMonoid M]

/-- `atomicAdd` on one cell. -/
def addAt (m : κ → M) (a : κ) (v : M) : κ → M :=
  Function.update m a (m a + v)

/-- A list of atomic additions, first to last. -/
def addAll (ws : List (κ × M)) (m : κ → M) : κ → M :=
  ws.foldl (fun m w => addAt m w.1 w.2) m

@[simp] theorem addAll_nil (m : κ → M) : addAll [] m = m := rfl

@[simp] theorem addAll_cons (w : κ × M) (ws : List (κ × M)) (m : κ → M) :
    addAll (w :: ws) m = addAll ws (addAt m w.1 w.2) := rfl

/-- What a list of atomic additions adds to one cell. -/
def added (ws : List (κ × M)) (a : κ) : M :=
  (ws.map fun w => if w.1 = a then w.2 else 0).sum

@[simp] theorem added_nil (a : κ) : added ([] : List (κ × M)) a = 0 := rfl

@[simp] theorem added_cons (w : κ × M) (ws : List (κ × M)) (a : κ) :
    added (w :: ws) a = (if w.1 = a then w.2 else 0) + added ws a := by
  simp [added]

@[simp] theorem added_append (ws ws' : List (κ × M)) (a : κ) :
    added (ws ++ ws') a = added ws a + added ws' a := by
  simp [added]

/-- A loop over `0, …, n - 1` adds what its iterations add. -/
theorem added_flatMap_range (n : ℕ) (f : ℕ → List (κ × M)) (a : κ) :
    added ((List.range n).flatMap f) a = ∑ i ∈ Finset.range n, added (f i) a := by
  induction n with
  | zero => rfl
  | succ n ih =>
      rw [List.range_succ, List.flatMap_append, added_append, ih, Finset.sum_range_succ]
      simp

theorem addAt_apply (m : κ → M) (a b : κ) (v : M) :
    addAt m a v b = m b + if a = b then v else 0 := by
  unfold addAt
  by_cases h : a = b
  · subst h
    rw [Function.update_self, if_pos rfl]
  · rw [Function.update_of_ne (Ne.symm h), if_neg h, add_zero]

/-- A cell ends at its initial value plus what was added to it. -/
theorem addAll_apply (ws : List (κ × M)) (m : κ → M) (a : κ) :
    addAll ws m a = m a + added ws a := by
  induction ws generalizing m with
  | nil => simp
  | cons w ws ih => rw [addAll_cons, ih, addAt_apply, added_cons, add_assoc]

theorem added_perm {ws ws' : List (κ × M)} (h : ws.Perm ws') (a : κ) :
    added ws a = added ws' a :=
  (h.map _).sum_eq

end Store
