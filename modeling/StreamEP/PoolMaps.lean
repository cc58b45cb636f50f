import StreamEP.Pool

/-!
# The maps a receiver leaves in memory

The receivers of one rank store their tokens' rows and maps concurrently.  If
every landed token has its own id and every assigned slot belongs to one
(token, `k`) pair (`Placed`), no two stores disagree about an address, so the
memory they leave does not depend on their order.

**Agreement instead of disjointness.**  The memory is the same for all orders as soon as two
stores to one address are the same store (`allStores_agree`).  That no address is stored to twice
would be more, and `poolMaps_of_perm` has no need of it.  Ids keep the stores of different tokens
apart at the inverse map and the counters, slots at all other addresses.

`PoolMaps` says what that memory holds: the row, weight and maps of every
assigned slot, and the inverse map of every landed token.  The forward and the
inverse maps are inverse to each other (`recvTokenToSlots_eq_iff`), which is what combine and
the backward pass rely on.
-/

namespace StreamEP

variable {Row Weight : Type}

/-- All stores of Pass B for a list of landed tokens. -/
def allStores (numTopk : ℕ) (ls : List (Landed Row Weight)) : List (PoolStore Row Weight) :=
  ls.flatMap fun l => l.stores numTopk

/-- Ids and assigned slots are used once. -/
structure Placed (numTopk : ℕ) (ls : List (Landed Row Weight)) : Prop where
  ids : ∀ l ∈ ls, ∀ l' ∈ ls, l.recvTokenId = l'.recvTokenId → l = l'
  slots : ∀ l ∈ ls, ∀ l' ∈ ls, ∀ k < numTopk, ∀ k' < numTopk,
    0 ≤ l.slot k → l.slot k = l'.slot k' → l = l' ∧ k = k'

/-! ### The stores of one token -/

/-- The stores for an assigned slot. -/
def Landed.slotStores (l : Landed Row Weight) (k : ℕ) : List (PoolStore Row Weight) :=
  [⟨.pool (l.slot k).toNat, l.packet.x⟩,
    ⟨.poolTopkWeight (l.slot k).toNat, l.packet.topkWeights k⟩,
    ⟨.poolRecvToken (l.slot k).toNat, (l.recvTokenId : ℤ)⟩,
    ⟨.poolKSlot (l.slot k).toNat, (k : ℤ)⟩]

/-- The stores of the token's counters. -/
def Landed.counterStores (l : Landed Row Weight) : List (PoolStore Row Weight) :=
  [⟨.kLocalRemaining l.recvTokenId, l.kLocalTotalVal⟩,
    ⟨.kLocalTotal l.recvTokenId, l.kLocalTotalVal⟩]

theorem Landed.mem_stores {l : Landed Row Weight} {numTopk : ℕ} {w : PoolStore Row Weight} :
    w ∈ l.stores numTopk ↔
      (∃ k < numTopk, w = ⟨.recvTokenToSlots (l.recvTokenId * numTopk + k), l.slot k⟩) ∨
      (∃ k < numTopk, 0 ≤ l.slot k ∧ w ∈ l.slotStores k) ∨
      (0 < l.kLocalTotalVal ∧ w ∈ l.counterStores) := by
  have perK : ∀ k, w ∈ l.storesAt numTopk k ↔
      w = ⟨.recvTokenToSlots (l.recvTokenId * numTopk + k), l.slot k⟩ ∨
        (0 ≤ l.slot k ∧ w ∈ l.slotStores k) := by
    intro k
    rw [Landed.storesAt, List.mem_cons]
    by_cases skipped : l.slot k < 0
    · simp [skipped, not_le.2 skipped]
    · simp only [if_neg skipped, not_lt.1 skipped, true_and]
      rfl
  have counters : w ∈ (if 0 < l.kLocalTotalVal then l.counterStores else []) ↔
      0 < l.kLocalTotalVal ∧ w ∈ l.counterStores := by
    by_cases some : 0 < l.kLocalTotalVal <;> simp [some]
  rw [Landed.stores, List.mem_append]
  refine Iff.trans (or_congr List.mem_flatMap counters) ?_
  simp only [List.mem_range, perK]
  constructor
  · rintro (⟨k, hk, rfl | assigned⟩ | counter)
    · exact Or.inl ⟨k, hk, rfl⟩
    · exact Or.inr (Or.inl ⟨k, hk, assigned⟩)
    · exact Or.inr (Or.inr counter)
  · rintro (⟨k, hk, rfl⟩ | ⟨k, hk, assigned⟩ | counter)
    · exact Or.inl ⟨k, hk, Or.inl rfl⟩
    · exact Or.inl ⟨k, hk, Or.inr assigned⟩
    · exact Or.inr counter

/-- Stores for assigned slots address the slot. -/
theorem Landed.mem_slotStores {l : Landed Row Weight} {k : ℕ} {w : PoolStore Row Weight} :
    w ∈ l.slotStores k ↔
      w = ⟨.pool (l.slot k).toNat, l.packet.x⟩ ∨
      w = ⟨.poolTopkWeight (l.slot k).toNat, l.packet.topkWeights k⟩ ∨
      w = ⟨.poolRecvToken (l.slot k).toNat, (l.recvTokenId : ℤ)⟩ ∨
      w = ⟨.poolKSlot (l.slot k).toNat, (k : ℤ)⟩ := by
  simp [Landed.slotStores]

theorem Landed.mem_counterStores {l : Landed Row Weight} {w : PoolStore Row Weight} :
    w ∈ l.counterStores ↔
      w = ⟨.kLocalRemaining l.recvTokenId, l.kLocalTotalVal⟩ ∨
      w = ⟨.kLocalTotal l.recvTokenId, l.kLocalTotalVal⟩ := by
  simp [Landed.counterStores]

/-! ### No two stores disagree -/

section Memory

variable {numTopk : ℕ} {ls : List (Landed Row Weight)}

/-- Stores of the receivers that share an address are the same store. -/
theorem allStores_agree (placed : Placed numTopk ls) {w w' : PoolStore Row Weight}
    (hw : w ∈ allStores numTopk ls) (hw' : w' ∈ allStores numTopk ls)
    (same : w'.1 = w.1) : w' = w := by
  obtain ⟨l, hl, hw⟩ := List.mem_flatMap.1 hw
  obtain ⟨l', hl', hw'⟩ := List.mem_flatMap.1 hw'
  have sameSlot : ∀ k < numTopk, ∀ k' < numTopk, 0 ≤ l.slot k → 0 ≤ l'.slot k' →
      (l'.slot k').toNat = (l.slot k).toNat → l' = l ∧ k' = k := by
    intro k hk k' hk' nonneg nonneg' eq
    exact placed.slots l' hl' l hl k' hk' k hk nonneg' (by omega)
  rcases Landed.mem_stores.1 hw with ⟨k, hk, rfl⟩ | ⟨k, hk, nonneg, hw⟩ | ⟨-, hw⟩ <;>
  rcases Landed.mem_stores.1 hw' with ⟨k', hk', rfl⟩ | ⟨k', hk', nonneg', hw'⟩ | ⟨-, hw'⟩
  · -- two entries of the inverse map: the id and `k` are read off the index
    obtain ⟨id, rfl⟩ := (PrefixSum.flat_inj hk' hk).1 (Cell.recvTokenToSlots.inj same)
    rw [placed.ids l' hl' l hl id]
  · rcases Landed.mem_slotStores.1 hw' with rfl | rfl | rfl | rfl <;> cases same
  · rcases Landed.mem_counterStores.1 hw' with rfl | rfl <;> cases same
  · rcases Landed.mem_slotStores.1 hw with rfl | rfl | rfl | rfl <;> cases same
  · -- two stores for assigned slots: the slot gives the token and `k`
    rcases Landed.mem_slotStores.1 hw with rfl | rfl | rfl | rfl <;>
    rcases Landed.mem_slotStores.1 hw' with rfl | rfl | rfl | rfl <;>
    first
      | cases same
      | (obtain ⟨rfl, rfl⟩ := sameSlot k hk k' hk' nonneg nonneg' (by injection same); rfl)
  · rcases Landed.mem_slotStores.1 hw with rfl | rfl | rfl | rfl <;>
    rcases Landed.mem_counterStores.1 hw' with rfl | rfl <;> cases same
  · rcases Landed.mem_counterStores.1 hw with rfl | rfl <;> cases same
  · rcases Landed.mem_counterStores.1 hw with rfl | rfl <;>
    rcases Landed.mem_slotStores.1 hw' with rfl | rfl | rfl | rfl <;> cases same
  · rcases Landed.mem_counterStores.1 hw with rfl | rfl <;>
    rcases Landed.mem_counterStores.1 hw' with rfl | rfl <;>
    first
      | cases same
      | (obtain rfl := placed.ids l' hl' l hl (by injection same); rfl)

/-- What the memory holds after the stores of all landed tokens, in any order, on
top of `init`. -/
structure PoolMaps (numTopk : ℕ) (ls : List (Landed Row Weight))
    (init m : PoolMemory Row Weight) : Prop where
  inverse : ∀ l ∈ ls, ∀ k < numTopk,
    m (.recvTokenToSlots (l.recvTokenId * numTopk + k)) = l.slot k
  row : ∀ l ∈ ls, ∀ k < numTopk, 0 ≤ l.slot k → m (.pool (l.slot k).toNat) = l.packet.x
  weight : ∀ l ∈ ls, ∀ k < numTopk, 0 ≤ l.slot k →
    m (.poolTopkWeight (l.slot k).toNat) = l.packet.topkWeights k
  recvToken : ∀ l ∈ ls, ∀ k < numTopk, 0 ≤ l.slot k →
    m (.poolRecvToken (l.slot k).toNat) = l.recvTokenId
  kSlot : ∀ l ∈ ls, ∀ k < numTopk, 0 ≤ l.slot k → m (.poolKSlot (l.slot k).toNat) = k
  remaining : ∀ l ∈ ls, 0 < l.kLocalTotalVal →
    m (.kLocalRemaining l.recvTokenId) = l.kLocalTotalVal
  total : ∀ l ∈ ls, 0 < l.kLocalTotalVal → m (.kLocalTotal l.recvTokenId) = l.kLocalTotalVal
  /-- A slot that no landed token was assigned keeps its initial maps. -/
  padding : ∀ s : ℕ, (∀ l ∈ ls, ∀ k < numTopk, l.slot k ≠ s) →
    m (.poolRecvToken s) = init (.poolRecvToken s) ∧ m (.poolKSlot s) = init (.poolKSlot s)
  /-- A token without a slot keeps its initial counters. -/
  uncounted : ∀ r : ℕ, (∀ l ∈ ls, l.recvTokenId = r → l.kLocalTotalVal = 0) →
    m (.kLocalRemaining r) = init (.kLocalRemaining r) ∧
      m (.kLocalTotal r) = init (.kLocalTotal r)

/-- **Any order of the stores leaves the same maps.** -/
theorem poolMaps_of_perm (placed : Placed numTopk ls) {ws : List (PoolStore Row Weight)}
    (all : ws.Perm (allStores numTopk ls)) (init : PoolMemory Row Weight) :
    PoolMaps numTopk ls init (Store.run ws init) := by
  -- stores to one address agree, so the order of the stores does not matter
  have read : ∀ l ∈ ls, ∀ w ∈ l.stores numTopk, Store.run ws init w.1 = w.2 := by
    intro l hl w hw
    have mem : w ∈ allStores numTopk ls := List.mem_flatMap.2 ⟨l, hl, hw⟩
    exact Store.run_of_agree (all.mem_iff.2 mem)
      (fun w' hw' same => allStores_agree placed mem (all.mem_iff.1 hw') same) init
  have slotRead : ∀ l ∈ ls, ∀ k < numTopk, 0 ≤ l.slot k → ∀ w ∈ l.slotStores k,
      Store.run ws init w.1 = w.2 := fun l hl k hk nonneg w hw =>
    read l hl w (Landed.mem_stores.2 (Or.inr (Or.inl ⟨k, hk, nonneg, hw⟩)))
  have counterRead : ∀ l ∈ ls, 0 < l.kLocalTotalVal → ∀ w ∈ l.counterStores,
      Store.run ws init w.1 = w.2 := fun l hl pos w hw =>
    read l hl w (Landed.mem_stores.2 (Or.inr (Or.inr ⟨pos, hw⟩)))
  refine ⟨?_, ?_, ?_, ?_, ?_, ?_, ?_, ?_, ?_⟩
  · intro l hl k hk
    exact read l hl _ (Landed.mem_stores.2 (Or.inl ⟨k, hk, rfl⟩))
  · intro l hl k hk nonneg
    exact slotRead l hl k hk nonneg _ (Landed.mem_slotStores.2 (Or.inl rfl))
  · intro l hl k hk nonneg
    exact slotRead l hl k hk nonneg _ (Landed.mem_slotStores.2 (Or.inr (Or.inl rfl)))
  · intro l hl k hk nonneg
    exact slotRead l hl k hk nonneg _
      (Landed.mem_slotStores.2 (Or.inr (Or.inr (Or.inl rfl))))
  · intro l hl k hk nonneg
    exact slotRead l hl k hk nonneg _
      (Landed.mem_slotStores.2 (Or.inr (Or.inr (Or.inr rfl))))
  · intro l hl pos
    exact counterRead l hl pos _ (Landed.mem_counterStores.2 (Or.inl rfl))
  · intro l hl pos
    exact counterRead l hl pos _ (Landed.mem_counterStores.2 (Or.inr rfl))
  · intro s unassigned
    have untouched : ∀ w ∈ ws, w.1 ≠ .poolRecvToken s ∧ w.1 ≠ .poolKSlot s := by
      intro w hw
      obtain ⟨l, hl, hw⟩ := List.mem_flatMap.1 (all.mem_iff.1 hw)
      rcases Landed.mem_stores.1 hw with ⟨k, hk, rfl⟩ | ⟨k, hk, nonneg, hw⟩ | ⟨-, hw⟩
      · simp
      · have other : (l.slot k).toNat ≠ s := fun eq => unassigned l hl k hk (by omega)
        rcases Landed.mem_slotStores.1 hw with rfl | rfl | rfl | rfl <;> simp [other]
      · rcases Landed.mem_counterStores.1 hw with rfl | rfl <;> simp
    exact ⟨Store.run_of_forall_ne (fun w hw => (untouched w hw).1) init,
      Store.run_of_forall_ne (fun w hw => (untouched w hw).2) init⟩
  · intro r none
    have untouched : ∀ w ∈ ws, w.1 ≠ .kLocalRemaining r ∧ w.1 ≠ .kLocalTotal r := by
      intro w hw
      obtain ⟨l, hl, hw⟩ := List.mem_flatMap.1 (all.mem_iff.1 hw)
      rcases Landed.mem_stores.1 hw with ⟨k, hk, rfl⟩ | ⟨k, hk, nonneg, hw⟩ | ⟨pos, hw⟩
      · simp
      · rcases Landed.mem_slotStores.1 hw with rfl | rfl | rfl | rfl <;> simp
      · have other : l.recvTokenId ≠ r := fun eq => by
          have := none l hl eq
          omega
        rcases Landed.mem_counterStores.1 hw with rfl | rfl <;> simp [other]
    exact ⟨Store.run_of_forall_ne (fun w hw => (untouched w hw).1) init,
      Store.run_of_forall_ne (fun w hw => (untouched w hw).2) init⟩

/-- **The maps are inverse to each other**: the inverse map sends a landed token's
`k` to slot `s` exactly when the forward maps of `s` name that token and `k`. -/
theorem PoolMaps.recvTokenToSlots_eq_iff {init m : PoolMemory Row Weight}
    (maps : PoolMaps numTopk ls init m) (placed : Placed numTopk ls)
    (padded : ∀ s, init (.poolRecvToken s) = -1) {l : Landed Row Weight} (hl : l ∈ ls)
    {k : ℕ} (hk : k < numTopk) (s : ℕ) :
    m (.recvTokenToSlots (l.recvTokenId * numTopk + k)) = (s : ℤ) ↔
      m (.poolRecvToken s) = (l.recvTokenId : ℤ) ∧ m (.poolKSlot s) = (k : ℤ) := by
  rw [maps.inverse l hl k hk]
  constructor
  · intro assigned
    have assigned : l.slot k = (s : ℤ) := assigned
    have nonneg : 0 ≤ l.slot k := by omega
    have here : (l.slot k).toNat = s := by omega
    rw [← here]
    exact ⟨maps.recvToken l hl k hk nonneg, maps.kSlot l hl k hk nonneg⟩
  · rintro ⟨token, kSlot⟩
    by_contra other
    by_cases owned : ∃ l' ∈ ls, ∃ k' < numTopk, l'.slot k' = s
    · obtain ⟨l', hl', k', hk', slot⟩ := owned
      have nonneg : 0 ≤ l'.slot k' := by omega
      have here : (l'.slot k').toNat = s := by omega
      have token' := maps.recvToken l' hl' k' hk' nonneg
      have kSlot' := maps.kSlot l' hl' k' hk' nonneg
      rw [here, token] at token'
      rw [here, kSlot] at kSlot'
      obtain rfl := placed.ids l hl l' hl' (Int.ofNat_inj.1 token')
      obtain rfl : k = k' := Int.ofNat_inj.1 kSlot'
      exact other slot
    · have unassigned : ∀ l' ∈ ls, ∀ k' < numTopk, l'.slot k' ≠ s :=
        fun l' hl' k' hk' slot => owned ⟨l', hl', k', hk', slot⟩
      have kept : (l.recvTokenId : ℤ) = -1 := by
        rw [← padded s, ← (maps.padding s unassigned).1, token]
      omega

end Memory

end StreamEP
