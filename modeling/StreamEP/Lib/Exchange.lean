import StreamEP.Lib.Store

/-!
# Exchanges through inboxes

In an exchange every rank puts one slab for each of its peers.  The slab for peer `i` of
rank `r` lands in the inbox of rank `target r i`, in the slot `slot r` that the sender
owns there.  If a rank and a slot determine who put the slab, nothing overwrites it, and
`inbox_apply` reads it back whatever the inboxes held before.

All inboxes together are one memory, addressed by rank, slot and word, and the puts of all ranks
one list of stores; in which order they are performed does not matter under the same condition.
The condition is about the ranks alone, and is all that an instance has to show.
-/

namespace Exchange

variable {V : Type*}

/-- An inbox word: the rank it lives on, its slot and its place in the slot. -/
abbrev Addr : Type := ℕ × ℕ × ℕ

section Puts

variable (target : ℕ → ℕ → ℕ) (slot : ℕ → ℕ) (peers len : ℕ) (send : ℕ → ℕ → ℕ → V)

/-- The puts of rank `r`. -/
def puts (r : ℕ) : List (Store.Write fun _ : Addr => V) :=
  (List.range peers).flatMap fun i =>
    (List.range len).map fun j => ⟨(target r i, slot r, j), send r i j⟩

/-- All inboxes after the puts of `ranks` ranks, over what they held before. -/
def inbox (ranks : ℕ) (stale : Addr → V) : Addr → V :=
  Store.run ((List.range ranks).flatMap (puts target slot peers len send)) stale

variable {target slot peers len send}

theorem mem_puts {r : ℕ} {w : Store.Write fun _ : Addr => V} :
    w ∈ puts target slot peers len send r ↔
      ∃ i < peers, ∃ j < len, ⟨(target r i, slot r, j), send r i j⟩ = w := by
  simp only [puts, List.mem_flatMap, List.mem_range, List.mem_map]

variable (send) in
/-- **A slab is read back** if its sender is the only one to put into its slot. -/
theorem inbox_apply {ranks r i j : ℕ} (hr : r < ranks) (hi : i < peers) (hj : j < len)
    (alone : ∀ r' < ranks, ∀ i' < peers, target r' i' = target r i → slot r' = slot r →
      r' = r ∧ i' = i) (stale : Addr → V) :
    inbox target slot peers len send ranks stale (target r i, slot r, j) = send r i j := by
  refine Store.run_of_agree ?_ ?_ stale
  · exact List.mem_flatMap.2 ⟨r, List.mem_range.2 hr, mem_puts.2 ⟨i, hi, j, hj, rfl⟩⟩
  · intro w hw same
    obtain ⟨r', hr', hw⟩ := List.mem_flatMap.1 hw
    obtain ⟨i', hi', j', -, rfl⟩ := mem_puts.1 hw
    obtain ⟨rank, place⟩ := Prod.mk.inj same
    obtain ⟨owner, rfl⟩ := Prod.mk.inj place
    obtain ⟨rfl, rfl⟩ := alone r' (List.mem_range.1 hr') i' hi' rank owner
    rfl

end Puts

end Exchange
