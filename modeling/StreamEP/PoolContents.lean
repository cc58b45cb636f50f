import StreamEP.Layout

/-!
# What a dispatch leaves in the pool

`LeftBy` is the memory that the receivers of a rank leave, whatever the order of their stores.
Over the plan it says of every slot whose row it holds: a slot of an expert's interval holds
the row of one (token, `k`) pair and its maps, and the maps of every other slot are as they were
allocated.

**From stores to contents.**  `LeftBy` quantifies over the order: it holds of a memory that some
permutation of all stores leaves.  `left_pair` and `left_padding` turn it into what the later
kernels read, slot by slot, and `left_real_iff` is the test that they make: a slot is padding
exactly when its map of recv tokens is negative.

The padding rows themselves are not initialised.  No theorem says what they hold, and none of the
results about the kernels needs it.
-/

namespace StreamEP

open Finset

variable {sh : Shape} {Row Weight : Type}

/-- Memory after the stores of some landed tokens, from maps at `-1`. -/
def LeftBy (numTopk : ℕ) (ls : List (Landed Row Weight)) (m : PoolMemory Row Weight) : Prop :=
  ∃ (init : PoolMemory Row Weight) (stores : List (PoolStore Row Weight)),
    (∀ s, init (.poolRecvToken s) = -1) ∧ stores.Perm (allStores numTopk ls) ∧
      Store.run stores init = m

/-- What is left of fresh outputs when the stores come in order. -/
def leftInOrder (numTopk : ℕ) (ls : List (Landed ℕ ℕ)) : PoolMemory ℕ ℕ :=
  Store.run (allStores numTopk ls) (freshMemory 0 0)

theorem leftBy_leftInOrder (numTopk : ℕ) (ls : List (Landed ℕ ℕ)) :
    LeftBy numTopk ls (leftInOrder numTopk ls) :=
  ⟨_, _, fun _ => rfl, List.Perm.refl _, rfl⟩

/-- Receivers that land the same tokens in another order leave the same. -/
theorem LeftBy.perm {numTopk : ℕ} {ls ls' : List (Landed Row Weight)}
    {m : PoolMemory Row Weight} (left : LeftBy numTopk ls m) (same : ls.Perm ls') :
    LeftBy numTopk ls' m := by
  obtain ⟨init, stores, fresh, all, run⟩ := left
  exact ⟨init, stores, fresh, all.trans (same.flatMap_right _), run⟩

/-- Two tokens that reach the rank have different ids. -/
theorem recvTokenId_inj {inputs : ℕ → DispatchInputs sh Row Weight} {g src src' t t' : ℕ}
    (inside : t < (inputs src).numTokens) (inside' : t' < (inputs src').numTokens)
    (goes : (inputs src).InRank g t) (goes' : (inputs src').InRank g t')
    (same : recvTokenId inputs g src t = recvTokenId inputs g src' t') : src = src' ∧ t = t' := by
  have number : Nat.count ((inputs src).InRank g) t < numRouted inputs g src :=
    PrefixSum.count_lt_of_mem goes inside
  have number' : Nat.count ((inputs src').InRank g) t' < numRouted inputs g src' :=
    PrefixSum.count_lt_of_mem goes' inside'
  rw [recvTokenId, recvTokenId] at same
  obtain rfl : src = src' := by
    refine PrefixSum.block_unique (f := numRouted inputs g) (x := recvTokenId inputs g src t)
      ⟨?_, ?_⟩ ⟨?_, ?_⟩ <;> rw [recvTokenId] <;> omega
  exact ⟨rfl, Nat.count_injective goes goes' (Nat.add_left_cancel same)⟩

namespace PoolPlan

variable {inputs : ℕ → DispatchInputs sh Row Weight} {g : ℕ} (plan : PoolPlan sh inputs g)
  {packet : ℕ → ℕ → Packet Row Weight} {m : PoolMemory Row Weight}

/-- A slot that holds a row, as opposed to padding. -/
def RealSlot (s : ℕ) : Prop :=
  ∃ e < sh.numExpertsPerRank, plan.expertPoolBlockOffset e * sh.tileM ≤ s ∧
    s < plan.expertPoolBlockOffset e * sh.tileM + plan.expertFrequency e

variable {plan}

/-- The real slots are those of the pairs. -/
theorem realSlot_iff (hg : g < sh.numRanks) {s : ℕ} :
    plan.RealSlot s ↔ ∃ src < sh.numRanks, ∃ c < sh.numChannels,
      ∃ t ∈ selected (inputs src) g c, ∃ k < sh.numTopk,
        plan.pairSlot c src (t * sh.numTopk + k) = s := by
  constructor
  · rintro ⟨e, he, lower, upper⟩
    obtain ⟨c, hc, src, hsrc, t, ht, k, hk, -, slot⟩ :=
      exists_pairSlot plan hg he lower upper
    exact ⟨src, hsrc, c, hc, t, ht, k, hk, slot⟩
  · rintro ⟨src, hsrc, c, hc, t, ht, k, hk, slot⟩
    rcases pairSlot_cases plan hc hsrc ht hk with ⟨-, none⟩ | ⟨e, -, pair⟩
    · omega
    · have index : plan.pairIndex e c src _ < plan.expertFrequency e := pairIndex_lt pair
      rw [pairSlot_of_isPair pair, Int.ofNat_inj] at slot
      exact ⟨e, pair.expert, by omega, by omega⟩

/-- Ids are below the number of tokens that reach the rank. -/
theorem recvTokenId_lt {src c t : ℕ} (hsrc : src < sh.numRanks)
    (ht : t ∈ selected (inputs src) g c) :
    recvTokenId inputs g src t < ∑ src ∈ range sh.numRanks, numRouted inputs g src := by
  obtain ⟨⟨-, hi⟩, goes⟩ := mem_selected.1 ht
  have number : Nat.count ((inputs src).InRank g) t < numRouted inputs g src :=
    PrefixSum.count_lt_of_mem goes (hi.trans_le (channelEnd_le _ _ _))
  have block := PrefixSum.block_le_total (f := numRouted inputs g) hsrc
  rw [recvTokenId]
  omega

section Left

variable (left : LeftBy sh.numTopk (plan.landedTokens packet) m)

include left

/-- What the memory says of the slot of a pair. -/
theorem left_pair {src c t k s : ℕ} (hsrc : src < sh.numRanks) (hc : c < sh.numChannels)
    (ht : t ∈ selected (inputs src) g c) (hk : k < sh.numTopk)
    (slot : plan.pairSlot c src (t * sh.numTopk + k) = s) :
    m (.pool s) = (packet src t).x ∧ m (.poolTopkWeight s) = (packet src t).topkWeights k ∧
      m (.poolRecvToken s) = (recvTokenId inputs g src t : ℤ) ∧
        m (.poolKSlot s) = (k : ℤ) := by
  obtain ⟨init, stores, -, all, rfl⟩ := left
  have maps := poolMaps_of_perm placed_landedTokens all init
  have mem : plan.landedOf packet c src t ∈ plan.landedTokens packet :=
    mem_landedTokens.2 ⟨src, hsrc, c, hc, t, ht, rfl⟩
  have here : (plan.landedOf packet c src t).slot k = s := (landedOf_slot hk).trans slot
  have assigned : 0 ≤ (plan.landedOf packet c src t).slot k := by omega
  have row := maps.row _ mem k hk assigned
  have weight := maps.weight _ mem k hk assigned
  have token := maps.recvToken _ mem k hk assigned
  have kSlot := maps.kSlot _ mem k hk assigned
  rw [here] at row weight token kSlot
  exact ⟨row, weight, token, kSlot⟩

/-- Slots of no pair keep their maps. -/
theorem left_padding (hg : g < sh.numRanks) {s : ℕ} (padding : ¬plan.RealSlot s) :
    m (.poolRecvToken s) = -1 := by
  obtain ⟨init, stores, fresh, all, rfl⟩ := left
  have maps := poolMaps_of_perm placed_landedTokens all init
  rw [← fresh s]
  refine (maps.padding s ?_).1
  intro l mem k hk slot
  obtain ⟨src, hsrc, c, hc, t, ht, rfl⟩ := mem_landedTokens.1 mem
  rw [landedOf_slot hk] at slot
  exact padding ((realSlot_iff hg).2 ⟨src, hsrc, c, hc, t, ht, k, hk, slot⟩)

/-- A slot is real exactly when it names a token. -/
theorem left_real_iff (hg : g < sh.numRanks) {s : ℕ} :
    plan.RealSlot s ↔ 0 ≤ (m (.poolRecvToken s) : ℤ) := by
  constructor
  · intro real
    obtain ⟨src, hsrc, c, hc, t, ht, k, hk, slot⟩ := (realSlot_iff hg).1 real
    rw [(left_pair left hsrc hc ht hk slot).2.2.1]
    exact Int.natCast_nonneg _
  · intro valid
    by_contra padding
    have negative : (0 : ℤ) ≤ -1 := valid.trans_eq (left_padding left hg padding)
    omega

end Left

/-- A token that reaches the rank has a slot. -/
theorem exists_slot {src c t : ℕ} (hg : g < sh.numRanks) (hsrc : src < sh.numRanks)
    (hc : c < sh.numChannels) (ht : t ∈ selected (inputs src) g c) :
    ∃ k < sh.numTopk, ∃ s : ℕ, plan.pairSlot c src (t * sh.numTopk + k) = s := by
  obtain ⟨⟨-, hi⟩, goes⟩ := mem_selected.1 ht
  obtain ⟨k, hk, e, he, routed⟩ :=
    (inputs src).exists_routedTo (hi.trans_le (channelEnd_le _ _ _)) hg goes
  have key := (transformIdx_eq_iff he).2 routed
  exact ⟨k, hk, _, pairSlot_of_isPair (isPair_of_selected hc hsrc ht hk key he)⟩

/-- Real slots lie in the pool. -/
theorem RealSlot.lt {s : ℕ} (real : plan.RealSlot s) : s < plan.totalTiles * sh.tileM := by
  obtain ⟨e, he, -, upper⟩ := real
  exact upper.trans_le (expert_block_le_totalTiles he)

end PoolPlan

end StreamEP
