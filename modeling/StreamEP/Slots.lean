import StreamEP.PoolTables
import StreamEP.Substream

/-!
# The slots of all substreams tile the pool

The metadata kernels give every (channel, source, expert) substream a base, and every
receiver counts up from its base on its own.  Here the two meet: the pairs routed to
expert `e` of a rank, over all channels and sources, occupy exactly the interval of
length `expert_frequency[e]` that starts at the expert's first tile, and no slot is used
twice.

**One plan for both transports.**  The transports list the substreams in different orders, so
the order is part of the `PoolPlan`: a plan has the tables of the experts, a base for each
substream, and a permutation in whose order the bases are the prefix sums.  The metadata kernels
of either topology give a plan; everything about slots is proved for any plan.

**Three levels.**  `IsPair` is a (token, `k`) pair with its place in the exchange and
`pairIndex` its place in the expert's interval.  The tiling has tiles of experts, substreams of
an expert, and pairs of a substream.  At each level there are three facts: the parts stay inside,
no two of them meet, and together they leave nothing out.  `pairSlot_inj` and `exists_pairSlot`
are the levels put together.

**Shares.**  A tile waits for as many rows as lie in it (`arrivalTarget`), and the receiver of a
substream contributes those of its own ranges that do (`share`).  `sum_share` says that the shares
of all substreams add up to the target, whatever the alignment of the ranges to tiles; with it, a
full counter means that every row of the tile has been announced.
-/

namespace StreamEP

open Finset

variable {sh : Shape} {Row Weight : Type}

/-- The pairs of substream `cs = c * num_ranks + src` for expert `e` of rank `g`. -/
def substreamPairs (inputs : ℕ → DispatchInputs sh Row Weight) (g e cs : ℕ) : ℕ :=
  (inputs (cs % sh.numRanks)).pairsIn g e (cs / sh.numRanks)

/-- How the pool of rank `g` is divided: the experts' intervals start at their tiles, and
within an interval substreams follow each other in some order. -/
structure PoolPlan (sh : Shape) {Row Weight : Type}
    (inputs : ℕ → DispatchInputs sh Row Weight) (g : ℕ) where
  expertPoolBlockOffset : ℕ → ℕ
  expertFrequency : ℕ → ℕ
  /-- `base_pool` of a substream, then an expert. -/
  base : ℕ → ℕ → ℕ
  /-- The substream at a position of the order, and the position of a substream. -/
  order : ℕ → ℕ
  position : ℕ → ℕ
  offsets : TileOffsets sh.tileM expertPoolBlockOffset expertFrequency
  order_lt : ∀ i < csTotal sh, order i < csTotal sh
  position_lt : ∀ cs < csTotal sh, position cs < csTotal sh
  position_order : ∀ i < csTotal sh, position (order i) = i
  order_position : ∀ cs < csTotal sh, order (position cs) = cs
  frequency_eq : ∀ e < sh.numExpertsPerRank,
    expertFrequency e = ∑ i ∈ range (csTotal sh), substreamPairs inputs g e (order i)
  base_eq : ∀ e < sh.numExpertsPerRank, ∀ cs < csTotal sh,
    base cs e = expertPoolBlockOffset e * sh.tileM +
      ∑ i ∈ range (position cs), substreamPairs inputs g e (order i)

/-- `total_tiles`. -/
def PoolPlan.totalTiles {inputs : ℕ → DispatchInputs sh Row Weight} {g : ℕ}
    (plan : PoolPlan sh inputs g) : ℕ :=
  plan.expertPoolBlockOffset sh.numExpertsPerRank

/-- Position `p` of source `src`'s `topk_idx` lies in channel `c` and is routed to
local expert `e` of rank `g`. -/
structure IsPair (inputs : ℕ → DispatchInputs sh Row Weight) (g e c src p : ℕ) : Prop where
  expert : e < sh.numExpertsPerRank
  channel : c < sh.numChannels
  source : src < sh.numRanks
  lower : channelStart (inputs src).numTokens sh.numChannels c * sh.numTopk ≤ p
  upper : p < channelEnd (inputs src).numTokens sh.numChannels c * sh.numTopk
  routed : (inputs src).RoutedTo g e p

section Pairs

variable {inputs : ℕ → DispatchInputs sh Row Weight} {g e c src p : ℕ}

theorem IsPair.cs_lt (pair : IsPair inputs g e c src p) :
    c * sh.numRanks + src < csTotal sh := PrefixSum.flat_lt pair.channel pair.source

/-! ### Pairs of one substream -/

theorem substreamPairs_flat (hsrc : src < sh.numRanks) :
    substreamPairs inputs g e (c * sh.numRanks + src) = (inputs src).pairsIn g e c := by
  rw [substreamPairs, PrefixSum.flat_div hsrc, PrefixSum.flat_mod hsrc]

/-- A pair's number within its substream stays below the substream's count. -/
theorem pairsBefore_lt (pair : IsPair inputs g e c src p) :
    pairsBefore inputs g c src e p < substreamPairs inputs g e (c * sh.numRanks + src) := by
  have strict := Nat.count_strict_mono pair.routed pair.upper
  have mono := Nat.count_monotone ((inputs src).RoutedTo g e) pair.lower
  rw [substreamPairs_flat pair.source, pairsBefore, DispatchInputs.pairsIn]
  omega

/-- Every number below the substream's count belongs to a pair. -/
theorem exists_pairsBefore {i : ℕ} (he : e < sh.numExpertsPerRank) (hc : c < sh.numChannels)
    (hsrc : src < sh.numRanks)
    (hi : i < substreamPairs inputs g e (c * sh.numRanks + src)) :
    ∃ p, IsPair inputs g e c src p ∧ pairsBefore inputs g c src e p = i := by
  rw [substreamPairs_flat hsrc, DispatchInputs.pairsIn] at hi
  obtain ⟨p, upper, routed, number⟩ := PrefixSum.exists_count_eq
    (p := (inputs src).RoutedTo g e)
    (i := Nat.count ((inputs src).RoutedTo g e)
      (channelStart (inputs src).numTokens sh.numChannels c * sh.numTopk) + i)
    (n := channelEnd (inputs src).numTokens sh.numChannels c * sh.numTopk) (by omega)
  have lower : channelStart (inputs src).numTokens sh.numChannels c * sh.numTopk ≤ p := by
    by_contra before
    have := Nat.count_strict_mono routed (not_le.1 before)
    omega
  exact ⟨p, ⟨he, hc, hsrc, lower, upper, routed⟩, by rw [pairsBefore]; omega⟩

/-- Two pairs of one substream with the same number are the same pair. -/
theorem pairsBefore_inj {p' : ℕ} (pair : IsPair inputs g e c src p)
    (pair' : IsPair inputs g e c src p')
    (same : pairsBefore inputs g c src e p = pairsBefore inputs g c src e p') : p = p' := by
  have mono := Nat.count_monotone ((inputs src).RoutedTo g e) pair.lower
  have mono' := Nat.count_monotone ((inputs src).RoutedTo g e) pair'.lower
  rw [pairsBefore, pairsBefore] at same
  exact Nat.count_injective pair.routed pair'.routed (by omega)

/-- An entry of a selected token that is a local expert is a pair. -/
theorem isPair_of_selected {t k : ℕ} (hc : c < sh.numChannels) (hsrc : src < sh.numRanks)
    (ht : t ∈ selected (inputs src) g c) (hk : k < sh.numTopk)
    (key : transformIdx sh g ((inputs src).topkIdx (t * sh.numTopk + k)) = e)
    (he : e < sh.numExpertsPerRank) : IsPair inputs g e c src (t * sh.numTopk + k) := by
  obtain ⟨⟨lo, hi⟩, -⟩ := mem_selected.1 ht
  refine ⟨he, hc, hsrc, ?_, PrefixSum.flat_lt hi hk, (transformIdx_eq_iff he).1 key⟩
  have := Nat.mul_le_mul_right sh.numTopk lo
  omega

end Pairs

namespace PoolPlan

variable {inputs : ℕ → DispatchInputs sh Row Weight} {g : ℕ} (plan : PoolPlan sh inputs g)

/-- Where the block of substream `cs` begins in the interval of expert `e`. -/
def blockStart (e cs : ℕ) : ℕ :=
  ∑ i ∈ range (plan.position cs), substreamPairs inputs g e (plan.order i)

/-- Index of a pair within its expert's interval. -/
def pairIndex (e c src p : ℕ) : ℕ :=
  plan.blockStart e (c * sh.numRanks + src) + pairsBefore inputs g c src e p

/-- The slot of the pair at position `p` of `topk_idx`, in channel `c`. -/
def pairSlot (c src p : ℕ) : ℤ :=
  let eLocal := transformIdx sh g ((inputs src).topkIdx p)
  if 0 ≤ eLocal ∧ eLocal < sh.numExpertsPerRank then
    ((plan.base (c * sh.numRanks + src) eLocal.toNat +
      pairsBefore inputs g c src eLocal.toNat p : ℕ) : ℤ)
  else -1

variable {plan} {e c src p : ℕ}

/-! ### Substreams of one expert -/

/-- Blocks of substreams lie within the interval. -/
theorem blockStart_add_le {cs : ℕ} (he : e < sh.numExpertsPerRank) (hcs : cs < csTotal sh) :
    plan.blockStart e cs + substreamPairs inputs g e cs ≤ plan.expertFrequency e := by
  have total := PrefixSum.block_le_total
    (f := fun i => substreamPairs inputs g e (plan.order i)) (plan.position_lt cs hcs)
  rw [plan.order_position cs hcs] at total
  rw [plan.frequency_eq e he]
  exact total

/-- Blocks of two substreams do not meet. -/
theorem blockStart_unique {cs cs' i : ℕ} (hcs : cs < csTotal sh) (hcs' : cs' < csTotal sh)
    (h : plan.blockStart e cs ≤ i ∧ i < plan.blockStart e cs + substreamPairs inputs g e cs)
    (h' : plan.blockStart e cs' ≤ i ∧
      i < plan.blockStart e cs' + substreamPairs inputs g e cs') : cs = cs' := by
  rw [← plan.order_position cs hcs, ← plan.order_position cs' hcs']
  congr 1
  refine PrefixSum.block_unique (f := fun i => substreamPairs inputs g e (plan.order i))
    (x := i) ?_ ?_
  · show plan.blockStart e cs ≤ i ∧ i < plan.blockStart e cs + _
    rwa [plan.order_position cs hcs]
  · show plan.blockStart e cs' ≤ i ∧ i < plan.blockStart e cs' + _
    rwa [plan.order_position cs' hcs']

/-- Blocks of the substreams cover the interval. -/
theorem exists_blockStart {i : ℕ} (he : e < sh.numExpertsPerRank)
    (hi : i < plan.expertFrequency e) :
    ∃ cs < csTotal sh, plan.blockStart e cs ≤ i ∧
      i < plan.blockStart e cs + substreamPairs inputs g e cs := by
  rw [plan.frequency_eq e he] at hi
  obtain ⟨j, hj, lower, upper⟩ := PrefixSum.exists_block hi
  refine ⟨plan.order j, plan.order_lt j hj, ?_⟩
  rw [blockStart, plan.position_order j hj]
  exact ⟨lower, upper⟩

variable (plan) in
/-- A pair's index lies in its substream's block. -/
theorem pairIndex_block (pair : IsPair inputs g e c src p) :
    plan.blockStart e (c * sh.numRanks + src) ≤ plan.pairIndex e c src p ∧
      plan.pairIndex e c src p < plan.blockStart e (c * sh.numRanks + src) +
        substreamPairs inputs g e (c * sh.numRanks + src) := by
  have number := pairsBefore_lt pair
  rw [pairIndex]
  omega

theorem pairIndex_lt (pair : IsPair inputs g e c src p) :
    plan.pairIndex e c src p < plan.expertFrequency e :=
  (pairIndex_block plan pair).2.trans_le (blockStart_add_le pair.expert pair.cs_lt)

variable (plan) in
theorem exists_pairIndex {i : ℕ} (he : e < sh.numExpertsPerRank)
    (hi : i < plan.expertFrequency e) :
    ∃ c src p, IsPair inputs g e c src p ∧ plan.pairIndex e c src p = i := by
  obtain ⟨cs, hcs, lower, upper⟩ := exists_blockStart he hi
  have channel : cs / sh.numRanks < sh.numChannels :=
    (Nat.div_lt_iff_lt_mul sh.numRanks_pos).2 hcs
  have source : cs % sh.numRanks < sh.numRanks := Nat.mod_lt _ sh.numRanks_pos
  have number : i - plan.blockStart e cs <
      substreamPairs inputs g e (cs / sh.numRanks * sh.numRanks + cs % sh.numRanks) := by
    rw [Nat.div_add_mod']
    omega
  obtain ⟨p, pair, number⟩ := exists_pairsBefore he channel source number
  refine ⟨_, _, p, pair, ?_⟩
  rw [pairIndex, number, Nat.div_add_mod']
  omega

theorem pairIndex_inj {c' src' p' : ℕ} (pair : IsPair inputs g e c src p)
    (pair' : IsPair inputs g e c' src' p')
    (same : plan.pairIndex e c src p = plan.pairIndex e c' src' p') :
    c = c' ∧ src = src' ∧ p = p' := by
  have block' := pairIndex_block plan pair'
  rw [← same] at block'
  have flat := blockStart_unique pair.cs_lt pair'.cs_lt (pairIndex_block plan pair) block'
  obtain ⟨rfl, rfl⟩ := (PrefixSum.flat_inj pair.source pair'.source).1 flat
  refine ⟨rfl, rfl, pairsBefore_inj pair pair' ?_⟩
  rw [pairIndex, pairIndex] at same
  omega

/-! ### Tiles of the experts -/

/-- An expert's interval ends before the next expert's first tile. -/
theorem expert_block_le (plan : PoolPlan sh inputs g) (e : ℕ) :
    plan.expertPoolBlockOffset e * sh.tileM + plan.expertFrequency e ≤
      plan.expertPoolBlockOffset (e + 1) * sh.tileM := by
  rw [plan.offsets.succ, Nat.add_mul]
  have := le_ceilDiv_mul sh.tileM_pos (plan.expertFrequency e)
  omega

/-- The intervals of two experts do not meet. -/
theorem expert_block_unique {e e' i i' : ℕ} (hi : i < plan.expertFrequency e)
    (hi' : i' < plan.expertFrequency e')
    (same : plan.expertPoolBlockOffset e * sh.tileM + i =
      plan.expertPoolBlockOffset e' * sh.tileM + i') : e = e' := by
  have ends := expert_block_le plan
  rcases lt_trichotomy e e' with h | h | h
  · have next : e + 1 ≤ e' := h
    have := Nat.mul_le_mul_right sh.tileM (plan.offsets.mono next)
    have := ends e
    omega
  · exact h
  · have next : e' + 1 ≤ e := h
    have := Nat.mul_le_mul_right sh.tileM (plan.offsets.mono next)
    have := ends e'
    omega

/-- The intervals of the experts lie in the pool. -/
theorem expert_block_le_totalTiles (he : e < sh.numExpertsPerRank) :
    plan.expertPoolBlockOffset e * sh.tileM + plan.expertFrequency e ≤
      plan.totalTiles * sh.tileM :=
  (expert_block_le plan e).trans (Nat.mul_le_mul_right _ (plan.offsets.mono he))

/-- The tile of a slot names the expert of the slot. -/
theorem tileIdToExpert_slot {e i : ℕ} (he : e < sh.numExpertsPerRank)
    (hi : i < plan.expertFrequency e) :
    tileIdToExpert sh.numExpertsPerRank plan.expertPoolBlockOffset
      ((plan.expertPoolBlockOffset e * sh.tileM + i) / sh.tileM) = e := by
  have ends := expert_block_le plan e
  have lower : plan.expertPoolBlockOffset e ≤
      (plan.expertPoolBlockOffset e * sh.tileM + i) / sh.tileM :=
    (Nat.le_div_iff_mul_le plan.offsets.pos).2 (Nat.le_add_right _ _)
  have upper : (plan.expertPoolBlockOffset e * sh.tileM + i) / sh.tileM <
      plan.expertPoolBlockOffset (e + 1) :=
    (Nat.div_lt_iff_lt_mul plan.offsets.pos).2 (by omega)
  obtain ⟨-, owner⟩ := plan.offsets.tileIdToExpert_spec
    (upper.trans_le (plan.offsets.mono he))
  exact plan.offsets.expert_unique owner ⟨lower, upper⟩

/-! ### Slots of pairs -/

/-- The slot of a pair routed to expert `e`. -/
theorem pairSlot_of_isPair (pair : IsPair inputs g e c src p) :
    plan.pairSlot c src p =
      ((plan.expertPoolBlockOffset e * sh.tileM + plan.pairIndex e c src p : ℕ) : ℤ) := by
  have key : transformIdx sh g ((inputs src).topkIdx p) = e :=
    (transformIdx_eq_iff pair.expert).2 pair.routed
  have here : (0 : ℤ) ≤ e ∧ (e : ℤ) < sh.numExpertsPerRank := by
    have := pair.expert
    omega
  rw [pairSlot, key, if_pos here, Int.toNat_natCast, plan.base_eq e pair.expert _ pair.cs_lt,
    pairIndex, blockStart, Nat.add_assoc]

variable (plan) in
/-- Either the entry has no local expert and no slot, or both. -/
theorem pairSlot_cases {t k : ℕ} (hc : c < sh.numChannels) (hsrc : src < sh.numRanks)
    (ht : t ∈ selected (inputs src) g c) (hk : k < sh.numTopk) :
    (transformIdx sh g ((inputs src).topkIdx (t * sh.numTopk + k)) = -1 ∧
        plan.pairSlot c src (t * sh.numTopk + k) = -1) ∨
      ∃ e, transformIdx sh g ((inputs src).topkIdx (t * sh.numTopk + k)) = (e : ℕ) ∧
        IsPair inputs g e c src (t * sh.numTopk + k) := by
  rcases @transformIdx_cases sh g ((inputs src).topkIdx (t * sh.numTopk + k)) with none | here
  · left
    refine ⟨none, ?_⟩
    rw [pairSlot, none, if_neg (by omega)]
  · right
    obtain ⟨e, key⟩ := Int.eq_ofNat_of_zero_le here.1
    exact ⟨e, key, isPair_of_selected hc hsrc ht hk key (by omega)⟩

/-- **No slot is assigned twice.** -/
theorem pairSlot_inj {c' src' t t' k k' : ℕ} (hc : c < sh.numChannels)
    (hsrc : src < sh.numRanks) (hc' : c' < sh.numChannels) (hsrc' : src' < sh.numRanks)
    (ht : t ∈ selected (inputs src) g c) (ht' : t' ∈ selected (inputs src') g c')
    (hk : k < sh.numTopk) (hk' : k' < sh.numTopk)
    (assigned : 0 ≤ plan.pairSlot c src (t * sh.numTopk + k))
    (same : plan.pairSlot c src (t * sh.numTopk + k) =
      plan.pairSlot c' src' (t' * sh.numTopk + k')) :
    c = c' ∧ src = src' ∧ t = t' ∧ k = k' := by
  rcases pairSlot_cases plan hc hsrc ht hk with ⟨-, none⟩ | ⟨e, -, pair⟩
  · omega
  rcases pairSlot_cases plan hc' hsrc' ht' hk' with ⟨-, none⟩ | ⟨e', -, pair'⟩
  · omega
  rw [pairSlot_of_isPair pair, pairSlot_of_isPair pair', Int.ofNat_inj] at same
  obtain rfl := expert_block_unique (pairIndex_lt pair) (pairIndex_lt pair') same
  obtain ⟨rfl, rfl, flat⟩ := pairIndex_inj pair pair' (Nat.add_left_cancel same)
  obtain ⟨rfl, rfl⟩ := (PrefixSum.flat_inj hk hk').1 flat
  exact ⟨rfl, rfl, rfl, rfl⟩

variable (plan) in
/-- Every slot of an expert's interval is the slot of one entry of a selected token. -/
theorem exists_pairSlot (hg : g < sh.numRanks) (he : e < sh.numExpertsPerRank) {s : ℕ}
    (lower : plan.expertPoolBlockOffset e * sh.tileM ≤ s)
    (upper : s < plan.expertPoolBlockOffset e * sh.tileM + plan.expertFrequency e) :
    ∃ c < sh.numChannels, ∃ src < sh.numRanks, ∃ t ∈ selected (inputs src) g c,
      ∃ k < sh.numTopk, transformIdx sh g ((inputs src).topkIdx (t * sh.numTopk + k)) = e ∧
        plan.pairSlot c src (t * sh.numTopk + k) = s := by
  obtain ⟨c, src, p, pair, index⟩ := exists_pairIndex plan
    (i := s - plan.expertPoolBlockOffset e * sh.tileM) he (by omega)
  have pos : 0 < sh.numTopk := by
    by_contra none
    have := pair.upper
    rw [Nat.eq_zero_of_not_pos none, Nat.mul_zero] at this
    omega
  have hk : p % sh.numTopk < sh.numTopk := Nat.mod_lt _ pos
  have lo := (Nat.le_div_iff_mul_le pos).2 pair.lower
  have hi := (Nat.div_lt_iff_lt_mul pos).2 pair.upper
  have split := Nat.div_add_mod' p sh.numTopk
  have routed : (inputs src).RoutedTo g e (p / sh.numTopk * sh.numTopk + p % sh.numTopk) := by
    rw [split]
    exact pair.routed
  have goes : (inputs src).InRank g (p / sh.numTopk) :=
    (inputs src).inRank_of_routedTo (lt_of_lt_of_le hi (channelEnd_le _ _ _)) hk hg
      pair.expert routed
  refine ⟨c, pair.channel, src, pair.source, _, mem_selected.2 ⟨⟨lo, hi⟩, goes⟩, _, hk,
    (transformIdx_eq_iff pair.expert).2 routed, ?_⟩
  rw [split, pairSlot_of_isPair pair, index, Nat.add_sub_cancel' lower]

/-- A pair has a slot only on the rank that owns its expert. -/
theorem pairSlot_neg_of_ne {r : ℕ} (he : e < sh.numExpertsPerRank)
    (routed : (inputs src).RoutedTo r e p) (other : g ≠ r) : plan.pairSlot c src p = -1 := by
  unfold pairSlot
  refine if_neg fun here => ?_
  obtain ⟨e', key⟩ := Int.eq_ofNat_of_zero_le here.1
  have he' : e' < sh.numExpertsPerRank := by omega
  have routed' := (transformIdx_eq_iff he').1 key
  rw [DispatchInputs.RoutedTo] at routed
  rw [routed, Int.ofNat_inj, PrefixSum.flat_inj he he'] at routed'
  exact other routed'.1.symm

/-- A pair without an expert has no slot. -/
theorem pairSlot_neg_of_unchosen (none : (inputs src).topkIdx p < 0) :
    plan.pairSlot c src p = -1 := by
  unfold pairSlot
  refine if_neg fun here => ?_
  obtain ⟨e, key⟩ := Int.eq_ofNat_of_zero_le here.1
  have he : e < sh.numExpertsPerRank := by omega
  have routed := (transformIdx_eq_iff he).1 key
  omega

/-! ### Shares of the tiles -/

/-- What a tile waits for. -/
def arrivalTarget (plan : PoolPlan sh inputs g) (tile : ℕ) : ℕ :=
  poolArrivalTarget sh.numExpertsPerRank sh.tileM plan.expertPoolBlockOffset
    plan.expertFrequency tile

/-- The share of substream `cs` in a tile: the overlaps of its ranges with the tile. -/
def share (plan : PoolPlan sh inputs g) (tile cs : ℕ) : ℕ :=
  ∑ e ∈ range sh.numExpertsPerRank,
    overlap sh.tileM (plan.base cs e) (substreamPairs inputs g e cs) tile

/-- In the order of the plan or of their indices, the substreams add up to the same. -/
theorem sum_order (plan : PoolPlan sh inputs g) (f : ℕ → ℕ) :
    ∑ cs ∈ range (csTotal sh), f cs = ∑ i ∈ range (csTotal sh), f (plan.order i) := by
  refine sum_nbij' plan.position plan.order ?_ ?_ ?_ ?_ ?_
  · exact fun cs hcs => mem_range.2 (plan.position_lt cs (mem_range.1 hcs))
  · exact fun i hi => mem_range.2 (plan.order_lt i (mem_range.1 hi))
  · exact fun cs hcs => plan.order_position cs (mem_range.1 hcs)
  · exact fun i hi => plan.position_order i (mem_range.1 hi)
  · exact fun cs hcs => congrArg f (plan.order_position cs (mem_range.1 hcs)).symm

/-- **Shares add up to the target**, whatever the alignment of the ranges. -/
theorem sum_share {tile : ℕ} (htile : tile < plan.totalTiles) :
    ∑ cs ∈ range (csTotal sh), plan.share tile cs = plan.arrivalTarget tile := by
  rw [arrivalTarget, plan.offsets.poolArrivalTarget_eq htile]
  simp only [share]
  rw [sum_comm]
  refine sum_congr rfl fun e he => ?_
  have he := mem_range.1 he
  rw [plan.frequency_eq e he, overlap_sum, sum_order plan]
  refine sum_congr rfl fun i hi => ?_
  have hi := mem_range.1 hi
  rw [plan.base_eq e he _ (plan.order_lt i hi), plan.position_order i hi]

/-- A pair's slot lies in the range of its substream and expert. -/
theorem pairSlot_range (pair : IsPair inputs g e c src p) {s : ℕ}
    (slot : plan.pairSlot c src p = s) :
    plan.base (c * sh.numRanks + src) e ≤ s ∧
      s < plan.base (c * sh.numRanks + src) e +
        substreamPairs inputs g e (c * sh.numRanks + src) := by
  have block := pairIndex_block plan pair
  rw [pairSlot_of_isPair pair, Int.ofNat_inj] at slot
  rw [plan.base_eq e pair.expert _ pair.cs_lt, ← blockStart]
  omega

/-- The substream of a pair has a share in the tile of the pair's slot. -/
theorem share_pos (pair : IsPair inputs g e c src p) {s : ℕ}
    (slot : plan.pairSlot c src p = s) :
    0 < plan.share (s / sh.tileM) (c * sh.numRanks + src) := by
  obtain ⟨first, last⟩ := pairSlot_range pair slot
  exact sum_pos' (fun _ _ => Nat.zero_le _)
    ⟨e, mem_range.2 pair.expert, overlap_pos sh.tileM_pos first last rfl⟩

end PoolPlan

end StreamEP
