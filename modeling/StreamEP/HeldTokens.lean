import StreamEP.GradLanding

/-!
# What memory holds of a token

`HoldsToken` is what the layout check asks of a dispatch for one token, in terms of the routing:
a slot for each of its experts that are at the rank, the maps both ways, and the counters.  The
receivers that land tokens as a `PoolPlan` says leave it of every token, in any order of their
stores.

**In terms of the routing only.**  `HoldsToken` mentions neither plans nor receivers.  It speaks
of the inputs of the source rank (`DispatchInputs.LocalAt`: the `k`-th expert of the token lives
at the rank) and of cells of memory.  So it can be read against the check of the layout in the
tests without knowing how slots are assigned.

**One lemma to get there.**  `PoolPlan.left_token` is the bridge: the maps of a run that did the
stores of all landed tokens, in any order, hold each token.  Both topologies use it.
-/

namespace StreamEP

open Finset

section Token

variable {sh : Shape} {Row Weight : Type}

/-- The `k`-th expert of a token is one of rank `g`. -/
def DispatchInputs.LocalAt (inp : DispatchInputs sh Row Weight) (g t k : ℕ) : Prop :=
  (g * sh.numExpertsPerRank : ℤ) ≤ inp.topkIdx (t * sh.numTopk + k) ∧
    inp.topkIdx (t * sh.numTopk + k) < (g + 1) * sh.numExpertsPerRank

instance (inp : DispatchInputs sh Row Weight) (g t : ℕ) : DecidablePred (inp.LocalAt g t) :=
  fun _ => inferInstanceAs (Decidable (_ ∧ _))

section LocalAt

variable {inp : DispatchInputs sh Row Weight} {g g' t k : ℕ}

theorem DispatchInputs.LocalAt.routed (here : inp.LocalAt g t k) :
    ∃ e < sh.numExpertsPerRank, inp.RoutedTo g e (t * sh.numTopk + k) := by
  obtain ⟨lower, upper⟩ := here
  obtain ⟨e, place⟩ := Int.eq_ofNat_of_zero_le (sub_nonneg.2 lower)
  rw [add_mul, one_mul] at upper
  refine ⟨e, by omega, ?_⟩
  rw [DispatchInputs.RoutedTo]
  push_cast
  omega

/-- An expert belongs to one rank, -/
theorem DispatchInputs.LocalAt.unique (here : inp.LocalAt g t k) (there : inp.LocalAt g' t k) :
    g = g' := by
  obtain ⟨e, he, routed⟩ := here.routed
  obtain ⟨e', he', routed'⟩ := there.routed
  have same : g * sh.numExpertsPerRank + e = g' * sh.numExpertsPerRank + e' :=
    Int.ofNat_inj.1 (routed.symm.trans routed')
  exact ((PrefixSum.flat_inj he he').1 same).1

/-- and the token goes there. -/
theorem DispatchInputs.LocalAt.inRank (here : inp.LocalAt g t k) (ht : t < inp.numTokens)
    (hk : k < sh.numTopk) (hg : g < sh.numRanks) : inp.InRank g t :=
  have ⟨_, he, routed⟩ := here.routed
  inp.inRank_of_routedTo ht hk hg he routed

end LocalAt

/-- What memory holds of a token with id `r`. -/
structure HoldsToken (inp : DispatchInputs sh Row Weight) (g t r : ℕ)
    (m : PoolMemory Row Weight) : Prop where
  /-- An expert of the rank has a slot, with the token's row, its weight, and the way back. -/
  slots : ∀ k < sh.numTopk, inp.LocalAt g t k → ∃ s : ℕ,
    m (.recvTokenToSlots (r * sh.numTopk + k)) = (s : ℤ) ∧ m (.pool s) = inp.x t ∧
      m (.poolTopkWeight s) = inp.topkWeights (t * sh.numTopk + k) ∧
        m (.poolRecvToken s) = (r : ℤ) ∧ m (.poolKSlot s) = (k : ℤ)
  /-- An expert of another rank, or none, has no slot. -/
  others : ∀ k < sh.numTopk, ¬inp.LocalAt g t k →
    m (.recvTokenToSlots (r * sh.numTopk + k)) = (-1 : ℤ)
  /-- The maps are inverse to each other. -/
  inverse : ∀ k < sh.numTopk, ∀ s : ℕ,
    m (.recvTokenToSlots (r * sh.numTopk + k)) = (s : ℤ) ↔
      m (.poolRecvToken s) = (r : ℤ) ∧ m (.poolKSlot s) = (k : ℤ)
  total : m (.kLocalTotal r) = (List.range sh.numTopk).countP (inp.LocalAt g t ·)
  remaining : m (.kLocalRemaining r) = (List.range sh.numTopk).countP (inp.LocalAt g t ·)

namespace PoolPlan

variable {inputs : ℕ → DispatchInputs sh Row Weight} {g : ℕ} {plan : PoolPlan sh inputs g}
  {packet : ℕ → ℕ → Packet Row Weight} {m : PoolMemory Row Weight} {src c t k : ℕ}

variable (plan) in
/-- A pair has a slot exactly when its expert is one of the rank. -/
theorem pairSlot_nonneg_iff (hc : c < sh.numChannels) (hsrc : src < sh.numRanks)
    (ht : t ∈ selected (inputs src) g c) (hk : k < sh.numTopk) :
    0 ≤ plan.pairSlot c src (t * sh.numTopk + k) ↔ (inputs src).LocalAt g t k := by
  have own : (inputs src).LocalAt g t k ↔
      transformIdx sh g ((inputs src).topkIdx (t * sh.numTopk + k)) ≠ -1 := by
    unfold DispatchInputs.LocalAt transformIdx
    constructor
    · intro here
      simp only [if_pos here]
      omega
    · intro some
      by_contra other
      exact some (if_neg other)
  rcases pairSlot_cases plan hc hsrc ht hk with ⟨none, slot⟩ | ⟨e, key, pair⟩
  · rw [own, none, slot]
    decide
  · rw [own, key, pairSlot_of_isPair pair]
    exact iff_of_true (Int.natCast_nonneg _) (by omega)

theorem pairSlot_eq_neg_one (hc : c < sh.numChannels) (hsrc : src < sh.numRanks)
    (ht : t ∈ selected (inputs src) g c) (hk : k < sh.numTopk)
    (none : ¬(inputs src).LocalAt g t k) : plan.pairSlot c src (t * sh.numTopk + k) = -1 := by
  rcases pairSlot_cases plan hc hsrc ht hk with ⟨-, slot⟩ | ⟨e, -, pair⟩
  · exact slot
  · rw [← pairSlot_nonneg_iff plan hc hsrc ht hk, pairSlot_of_isPair pair] at none
    exact absurd (Int.natCast_nonneg _) none

variable (plan packet) in
/-- The counter of a token counts its experts of the rank. -/
theorem landedOf_kLocalTotalVal (hc : c < sh.numChannels) (hsrc : src < sh.numRanks)
    (ht : t ∈ selected (inputs src) g c) :
    (plan.landedOf packet c src t).kLocalTotalVal =
      (List.range sh.numTopk).countP ((inputs src).LocalAt g t ·) := by
  rw [Landed.kLocalTotalVal, landedOf, List.countP_map]
  refine List.countP_congr fun k hk => ?_
  simp only [Function.comp_apply, decide_eq_true_eq]
  exact pairSlot_nonneg_iff plan hc hsrc ht (List.mem_range.1 hk)

/-- **Memory holds every token that reaches the rank.** -/
theorem left_token (hg : g < sh.numRanks) (hc : c < sh.numChannels) (hsrc : src < sh.numRanks)
    (ht : t ∈ selected (inputs src) g c)
    (carries : (packet src t).x = (inputs src).x t ∧ ∀ k < sh.numTopk,
      (packet src t).topkWeights k = (inputs src).topkWeights (t * sh.numTopk + k))
    (left : LeftBy sh.numTopk (plan.landedTokens packet) m) :
    HoldsToken (inputs src) g t (recvTokenId inputs g src t) m := by
  have inverse := inverseMap_of_left left src hsrc c hc t ht
  have mem : plan.landedOf packet c src t ∈ plan.landedTokens packet :=
    mem_landedTokens.2 ⟨src, hsrc, c, hc, t, ht, rfl⟩
  have count := landedOf_kLocalTotalVal plan packet hc hsrc ht
  -- a token only comes here for one of its experts
  have some : 0 < (plan.landedOf packet c src t).kLocalTotalVal := by
    obtain ⟨k, hk, s, slot⟩ : ∃ k < sh.numTopk, ∃ s : ℕ,
        plan.pairSlot c src (t * sh.numTopk + k) = s := exists_slot hg hsrc hc ht
    rw [count, List.countP_pos_iff]
    refine ⟨k, List.mem_range.2 hk, decide_eq_true ?_⟩
    rw [← pairSlot_nonneg_iff plan hc hsrc ht hk, slot]
    exact Int.natCast_nonneg s
  obtain ⟨init, stores, fresh, all, rfl⟩ := left
  have maps := poolMaps_of_perm placed_landedTokens all init
  refine ⟨?_, ?_, ?_, ?_, ?_⟩
  · intro k hk here
    have assigned := (pairSlot_nonneg_iff plan hc hsrc ht hk).2 here
    obtain ⟨s, slot⟩ := Int.eq_ofNat_of_zero_le assigned
    obtain ⟨row, weight, token, kSlot⟩ :=
      left_pair ⟨init, stores, fresh, all, rfl⟩ hsrc hc ht hk slot
    refine ⟨s, (inverse k hk).trans slot, row.trans carries.1, ?_, token, kSlot⟩
    exact weight.trans (carries.2 k hk)
  · intro k hk none
    exact (inverse k hk).trans (pairSlot_eq_neg_one hc hsrc ht hk none)
  · intro k hk s
    exact maps.recvTokenToSlots_eq_iff placed_landedTokens fresh mem hk s
  · exact (maps.total _ mem some).trans count
  · exact (maps.remaining _ mem some).trans count

end PoolPlan

end Token

end StreamEP
