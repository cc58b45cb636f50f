import Mathlib.Data.List.Nodup
import Mathlib.Data.List.Perm.Basic
import Mathlib.Logic.Function.Basic

/-!
# Tickets from one counter

Workers take tickets from a counter with an atomic addition and finish them in any order.  A
ticket below the counter is held by one worker or was finished once; when nobody holds one, the
finished tickets are those below the counter, in some order.

`Inv` is about the counter, what every worker holds and the list of finished tickets, and about
nothing else of a system: whoever has these three in its state shows that each of its steps
takes a ticket (`Inv.take`), finishes one (`Inv.finish`) or touches none of them.
-/

namespace Tickets

open Function

variable {ι : Type*}

/-- Where the tickets below the counter are. -/
structure Inv (head : ℕ) (held : ι → Option ℕ) (done : List ℕ) : Prop where
  done_lt : ∀ t ∈ done, t < head
  held_lt : ∀ c t, held c = some t → t < head
  nodup : done.Nodup
  alone : ∀ c c' t, held c = some t → held c' = some t → c = c'
  open_held : ∀ c t, held c = some t → t ∉ done
  covered : ∀ t < head, t ∈ done ∨ ∃ c, held c = some t

variable {head : ℕ} {held : ι → Option ℕ} {done : List ℕ}

theorem Inv.start : Inv 0 (fun _ : ι => none) [] where
  done_lt _ mem := absurd mem List.not_mem_nil
  held_lt _ _ h := nomatch h
  nodup := List.nodup_nil
  alone _ _ _ h := nomatch h
  open_held _ _ h := nomatch h
  covered t h := absurd h (Nat.not_lt_zero t)

variable [DecidableEq ι] {c : ι} {t : ℕ}

/-- A worker that holds nothing takes the next ticket. -/
theorem Inv.take (inv : Inv head held done) (free : held c = none) :
    Inv (head + 1) (update held c (some head)) done where
  done_lt t mem := Nat.lt_succ_of_lt (inv.done_lt t mem)
  held_lt := by
    intro c' t' holds
    by_cases same : c' = c
    · rw [same, update_self, Option.some.injEq] at holds
      omega
    · rw [update_of_ne same] at holds
      exact Nat.lt_succ_of_lt (inv.held_lt c' t' holds)
  nodup := inv.nodup
  alone := by
    have other : ∀ c' t', held c' = some t' → t' ≠ head := fun c' t' holds eq =>
      absurd (inv.held_lt c' t' holds) (by omega)
    intro c₁ c₂ t' first second
    by_cases same₁ : c₁ = c <;> by_cases same₂ : c₂ = c
    · rw [same₁, same₂]
    · rw [same₁, update_self, Option.some.injEq] at first
      rw [update_of_ne same₂] at second
      exact absurd first.symm (other c₂ t' second)
    · rw [same₂, update_self, Option.some.injEq] at second
      rw [update_of_ne same₁] at first
      exact absurd second.symm (other c₁ t' first)
    · rw [update_of_ne same₁] at first
      rw [update_of_ne same₂] at second
      exact inv.alone c₁ c₂ t' first second
  open_held := by
    intro c' t' holds mem
    by_cases same : c' = c
    · rw [same, update_self, Option.some.injEq] at holds
      exact absurd (inv.done_lt t' mem) (by omega)
    · rw [update_of_ne same] at holds
      exact inv.open_held c' t' holds mem
  covered := by
    intro t' below
    rcases Nat.lt_succ_iff_lt_or_eq.1 below with old | new
    · rcases inv.covered t' old with finished | ⟨c', holds⟩
      · exact Or.inl finished
      · refine Or.inr ⟨c', ?_⟩
        have other : c' ≠ c := by
          rintro rfl
          rw [free] at holds
          cases holds
        rw [update_of_ne other]
        exact holds
    · exact Or.inr ⟨c, by rw [update_self, new]⟩

/-- A worker finishes the ticket it holds. -/
theorem Inv.finish (inv : Inv head held done) (holds : held c = some t) :
    Inv head (update held c none) (done ++ [t]) where
  done_lt := by
    intro t' mem
    rcases List.mem_append.1 mem with old | new
    · exact inv.done_lt t' old
    · rw [List.mem_singleton.1 new]
      exact inv.held_lt c t holds
  held_lt := by
    intro c' t' holds'
    by_cases same : c' = c
    · rw [same, update_self] at holds'
      cases holds'
    · rw [update_of_ne same] at holds'
      exact inv.held_lt c' t' holds'
  nodup := by
    refine List.nodup_append.2 ⟨inv.nodup, List.nodup_singleton t, ?_⟩
    intro t' old t'' new eq
    rw [List.mem_singleton.1 new] at eq
    exact inv.open_held c t holds (eq ▸ old)
  alone := by
    intro c₁ c₂ t' first second
    by_cases same₁ : c₁ = c
    · rw [same₁, update_self] at first
      cases first
    by_cases same₂ : c₂ = c
    · rw [same₂, update_self] at second
      cases second
    rw [update_of_ne same₁] at first
    rw [update_of_ne same₂] at second
    exact inv.alone c₁ c₂ t' first second
  open_held := by
    intro c' t' holds' mem
    by_cases same : c' = c
    · rw [same, update_self] at holds'
      cases holds'
    · rw [update_of_ne same] at holds'
      rcases List.mem_append.1 mem with old | new
      · exact inv.open_held c' t' holds' old
      · rw [List.mem_singleton.1 new] at holds'
        exact same (inv.alone c' c t holds' holds)
  covered := by
    intro t' below
    rcases inv.covered t' below with finished | ⟨c', holds'⟩
    · exact Or.inl (List.mem_append_left _ finished)
    · by_cases same : c' = c
      · rw [same, holds, Option.some.injEq] at holds'
        exact Or.inl (by rw [holds']; exact List.mem_append_right _ (List.mem_singleton_self _))
      · exact Or.inr ⟨c', by rw [update_of_ne same]; exact holds'⟩

omit [DecidableEq ι] in
/-- When nobody holds a ticket, every one below the counter was finished once. -/
theorem Inv.perm_range (inv : Inv head held done) (free : ∀ c, held c = none) :
    done.Perm (List.range head) := by
  refine (List.perm_ext_iff_of_nodup inv.nodup List.nodup_range).2 ?_
  intro t
  rw [List.mem_range]
  constructor
  · exact inv.done_lt t
  · intro below
    rcases inv.covered t below with finished | ⟨c, holds⟩
    · exact finished
    · rw [free c] at holds
      cases holds

end Tickets
