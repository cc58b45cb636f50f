import StreamEP.Pool
import StreamEP.Slots

/-!
# Slots of a substream, counted along its packets

A receiver counts the experts it meets packet by packet; the plan counts pairs of `topk_idx`.
Both counts agree, because tokens that are not sent have no pair for this rank: the slot
that Pass A gives to a position of the substream is the slot of the pair (`slotAt_ringPos`).

**What is asked of the packets.**  `CarriesExperts` says that the packet at a position of the
substream carries the local experts of the token there.  It says nothing about how packets get to
the receiver.  Inside a node a packet carries the experts renumbered by the sender, between nodes
the receiver renumbers them itself; both carry the experts in this sense.
-/

namespace StreamEP

open Finset

variable {sh : Shape} {Row Weight : Type} {inputs : ℕ → DispatchInputs sh Row Weight}
  {g c src : ℕ}

/-- The packets of a substream, by position, carry the local experts of its tokens. -/
def CarriesExperts (inp : DispatchInputs sh Row Weight) (g c : ℕ)
    (packets : ℕ → Packet Row Weight) : Prop :=
  ∀ t ∈ selected inp g c, ∀ k < sh.numTopk,
    (packets (ringPos inp g c t)).topkIdx k =
      transformIdx sh g (inp.topkIdx (t * sh.numTopk + k))

namespace CarriesExperts

variable {packets : ℕ → Packet Row Weight} (carries : CarriesExperts (inputs src) g c packets)

include carries

/-- The key of a sent pair is the local expert of its entry of `topk_idx`. -/
theorem pairKey_ringPos {t k : ℕ} (ht : t ∈ selected (inputs src) g c) (hk : k < sh.numTopk) :
    pairKey sh packets (ringPos (inputs src) g c t * sh.numTopk + k) =
      transformIdx sh g ((inputs src).topkIdx (t * sh.numTopk + k)) := by
  rw [pairKey, PrefixSum.flat_div hk, PrefixSum.flat_mod hk, carries t ht k hk]

/-- Counting over the packets of a substream is counting over `topk_idx`, because
tokens that are not sent have no pair for this rank. -/
theorem seenBefore_ringPos (hg : g < sh.numRanks) {e : ℕ} (he : e < sh.numExpertsPerRank)
    {t : ℕ} (lo : channelStart (inputs src).numTokens sh.numChannels c ≤ t)
    (hi : t ≤ channelEnd (inputs src).numTokens sh.numChannels c) :
    seenBefore sh packets e (ringPos (inputs src) g c t * sh.numTopk) =
      pairsBefore inputs g c src e (t * sh.numTopk) := by
  induction t, lo using Nat.le_induction with
  | base => simp [ringPos, pairsBefore, seenBefore]
  | succ t lo ih =>
      have inside : t < (inputs src).numTokens :=
        lt_of_lt_of_le (Nat.lt_of_succ_le hi) (channelEnd_le _ _ _)
      have mono : Nat.count ((inputs src).RoutedTo g e)
            (channelStart (inputs src).numTokens sh.numChannels c * sh.numTopk) ≤
          Nat.count ((inputs src).RoutedTo g e) (t * sh.numTopk) :=
        Nat.count_monotone _ (Nat.mul_le_mul_right _ lo)
      have ih := ih (by omega)
      rw [ringPos_succ lo, pairsBefore, Nat.succ_mul, Nat.count_add,
        Nat.sub_add_comm mono, ← pairsBefore]
      by_cases goes : (inputs src).InRank g t
      · rw [if_pos goes, Nat.succ_mul, seenBefore, Nat.count_add, ← seenBefore, ih]
        congr 1
        have sent : t ∈ selected (inputs src) g c :=
          mem_selected.2 ⟨⟨lo, Nat.lt_of_succ_le hi⟩, goes⟩
        rw [PrefixSum.count_eq_sum, PrefixSum.count_eq_sum]
        refine sum_congr rfl fun k hk => ?_
        simp only [carries.pairKey_ringPos sent (mem_range.1 hk), transformIdx_eq_iff he]
        rfl
      · have none : Nat.count
            (fun k => (inputs src).RoutedTo g e (t * sh.numTopk + k)) sh.numTopk = 0 :=
          Nat.count_iff_forall_not.2 fun k hk routed =>
            goes ((inputs src).inRank_of_routedTo inside hk hg he routed)
        rw [if_neg goes, Nat.add_zero, ih, none, Nat.add_zero]

/-- Within the token as well, pairs sent earlier are pairs routed earlier. -/
theorem seenBefore_pair (hg : g < sh.numRanks) {e : ℕ} (he : e < sh.numExpertsPerRank)
    {t k : ℕ} (ht : t ∈ selected (inputs src) g c) (hk : k < sh.numTopk) :
    seenBefore sh packets e (ringPos (inputs src) g c t * sh.numTopk + k) =
      pairsBefore inputs g c src e (t * sh.numTopk + k) := by
  obtain ⟨⟨lo, hi⟩, -⟩ := mem_selected.1 ht
  have mono : Nat.count ((inputs src).RoutedTo g e)
        (channelStart (inputs src).numTokens sh.numChannels c * sh.numTopk) ≤
      Nat.count ((inputs src).RoutedTo g e) (t * sh.numTopk) :=
    Nat.count_monotone _ (Nat.mul_le_mul_right _ lo)
  rw [seenBefore, Nat.count_add, ← seenBefore, carries.seenBefore_ringPos hg he lo hi.le,
    pairsBefore, pairsBefore, Nat.count_add, Nat.sub_add_comm mono]
  congr 1
  rw [PrefixSum.count_eq_sum, PrefixSum.count_eq_sum]
  refine sum_congr rfl fun k' hk' => ?_
  have hk' : k' < sh.numTopk := lt_trans (mem_range.1 hk') hk
  simp only [carries.pairKey_ringPos ht hk', transformIdx_eq_iff he]
  rfl

/-- At the end of the substream all its pairs have been counted. -/
theorem seenBefore_all (hg : g < sh.numRanks) (hsrc : src < sh.numRanks) {e : ℕ}
    (he : e < sh.numExpertsPerRank) :
    seenBefore sh packets e ((inputs src).tokensIn g c * sh.numTopk) =
      substreamPairs inputs g e (c * sh.numRanks + src) := by
  have last : ringPos (inputs src) g c (channelEnd (inputs src).numTokens sh.numChannels c) =
      (inputs src).tokensIn g c := rfl
  rw [← last, carries.seenBefore_ringPos hg he (channelStart_le_end _ _ _) le_rfl,
    substreamPairs_flat hsrc]
  rfl

/-- The slot at a position is the slot of the pair. -/
theorem slotAt_ringPos (hg : g < sh.numRanks) (plan : PoolPlan sh inputs g)
    {basePoolSubstream : ℕ → ℕ}
    (base : ∀ e < sh.numExpertsPerRank,
      basePoolSubstream e = plan.base (c * sh.numRanks + src) e) {t k : ℕ}
    (ht : t ∈ selected (inputs src) g c) (hk : k < sh.numTopk) :
    slotAt sh basePoolSubstream packets (ringPos (inputs src) g c t * sh.numTopk + k) =
      plan.pairSlot c src (t * sh.numTopk + k) := by
  rw [slotAt, PoolPlan.pairSlot, carries.pairKey_ringPos ht hk]
  by_cases here : 0 ≤ transformIdx sh g ((inputs src).topkIdx (t * sh.numTopk + k)) ∧
      transformIdx sh g ((inputs src).topkIdx (t * sh.numTopk + k)) < sh.numExpertsPerRank
  · have he : (transformIdx sh g ((inputs src).topkIdx (t * sh.numTopk + k))).toNat <
        sh.numExpertsPerRank := by omega
    rw [if_pos here, if_pos here, carries.seenBefore_pair hg he ht hk, base _ he]
  · rw [if_neg here, if_neg here]

end CarriesExperts

end StreamEP
