import StreamEP.HeldTokens

/-!
# Sums over slots are sums over pairs

The kernels between dispatch and combine know nothing of tokens: they walk the slots of the pool.
A sum over the slots that name a token is one over the experts of the token that are at the rank,
and a sum over the slots of an expert is one over the pairs that all ranks route to it.

**Pairs.**  A pair is a token of some rank with one of its choices.  `PairAt` says that a slot is
that of a pair.  The relation is a partial bijection: a pair has a slot exactly when its expert
is one of the rank (`PairAt.of_slot`, `exists_pairAt`), and a slot belongs to one pair
(`PairAt.inj`).  So a sum over slots can be re-indexed by `Finset.sum_nbij`.

**Which sums.**  `sum_token_slots` is what kernel Y and the backward kernel A add up for a row,
and `counters_eq` says that the counters that stamp a token start at the number of its slots;
`sum_expert_slots` is what the products for the gradients of the matrices run over.  Both read
the maps of a memory that the receivers left, whatever the order of their stores, and both end
in terms of the routing of the source ranks.
-/

namespace StreamEP

open Finset

variable {sh : Shape} {Row Weight : Type}

namespace PoolPlan

variable {inputs : ℕ → DispatchInputs sh Row Weight} {g : ℕ} {plan : PoolPlan sh inputs g}
  {packet : ℕ → ℕ → Packet Row Weight} {m : PoolMemory Row Weight} {src c t k : ℕ}
  {M : Type} [AddCommMonoid M]

/-- `T_recv`, the number of tokens that reach the rank. -/
def tRecv (inputs : ℕ → DispatchInputs sh Row Weight) (g : ℕ) : ℕ :=
  ∑ src ∈ range sh.numRanks, numRouted inputs g src

/-- Slot `s` is that of choice `k` of token `t`, which comes from rank `src` on channel `c`. -/
structure PairAt (plan : PoolPlan sh inputs g) (src c t k s : ℕ) : Prop where
  source : src < sh.numRanks
  channel : c < sh.numChannels
  token : t ∈ selected (inputs src) g c
  choice : k < sh.numTopk
  here : (inputs src).LocalAt g t k
  slot : plan.pairSlot c src (t * sh.numTopk + k) = s

/-- Only choices of an expert of the rank have a slot, -/
theorem PairAt.of_slot {s : ℕ} (hsrc : src < sh.numRanks) (hc : c < sh.numChannels)
    (ht : t ∈ selected (inputs src) g c) (hk : k < sh.numTopk)
    (slot : plan.pairSlot c src (t * sh.numTopk + k) = s) : plan.PairAt src c t k s := by
  refine ⟨hsrc, hc, ht, hk, (pairSlot_nonneg_iff plan hc hsrc ht hk).1 ?_, slot⟩
  rw [slot]
  exact Int.natCast_nonneg s

/-- and all of them do. -/
theorem exists_pairAt (plan : PoolPlan sh inputs g) (hsrc : src < sh.numRanks)
    (hc : c < sh.numChannels) (ht : t ∈ selected (inputs src) g c) (hk : k < sh.numTopk)
    (here : (inputs src).LocalAt g t k) : ∃ s, plan.PairAt src c t k s := by
  obtain ⟨s, slot⟩ := Int.eq_ofNat_of_zero_le ((pairSlot_nonneg_iff plan hc hsrc ht hk).2 here)
  exact ⟨s, hsrc, hc, ht, hk, here, slot⟩

/-- The real slots are those of pairs. -/
theorem realSlot_iff_pairAt (hg : g < sh.numRanks) {s : ℕ} :
    plan.RealSlot s ↔ ∃ src c t k, plan.PairAt src c t k s := by
  rw [realSlot_iff hg]
  constructor
  · rintro ⟨src, hsrc, c, hc, t, ht, k, hk, slot⟩
    exact ⟨src, c, t, k, .of_slot hsrc hc ht hk slot⟩
  · rintro ⟨src, c, t, k, pair⟩
    exact ⟨src, pair.source, c, pair.channel, t, pair.token, k, pair.choice, pair.slot⟩

theorem PairAt.real {s : ℕ} (pair : plan.PairAt src c t k s) (hg : g < sh.numRanks) :
    plan.RealSlot s := (realSlot_iff_pairAt hg).2 ⟨src, c, t, k, pair⟩

/-- A slot is that of one pair. -/
theorem PairAt.inj {s src' c' t' k' : ℕ} (pair : plan.PairAt src c t k s)
    (pair' : plan.PairAt src' c' t' k' s) : c = c' ∧ src = src' ∧ t = t' ∧ k = k' := by
  refine pairSlot_inj pair.channel pair.source pair'.channel pair'.source pair.token pair'.token
    pair.choice pair'.choice ?_ (pair.slot.trans pair'.slot.symm)
  rw [pair.slot]
  exact Int.natCast_nonneg s

/-- A token only comes to the rank for one of its experts. -/
theorem kLocalTotalVal_pos (hg : g < sh.numRanks) (hc : c < sh.numChannels)
    (hsrc : src < sh.numRanks) (ht : t ∈ selected (inputs src) g c) :
    0 < (plan.landedOf packet c src t).kLocalTotalVal := by
  obtain ⟨k, hk, s, slot⟩ : ∃ k < sh.numTopk, ∃ s : ℕ,
      plan.pairSlot c src (t * sh.numTopk + k) = s := exists_slot hg hsrc hc ht
  rw [landedOf_kLocalTotalVal plan packet hc hsrc ht, List.countP_pos_iff]
  refine ⟨k, List.mem_range.2 hk, decide_eq_true ?_⟩
  rw [← pairSlot_nonneg_iff plan hc hsrc ht hk, slot]
  exact Int.natCast_nonneg s

/-- The substream of a pair has a share in the tile of the pair's slot. -/
theorem PairAt.share_pos {s : ℕ} (pair : plan.PairAt src c t k s) :
    0 < plan.share (s / sh.tileM) (c * sh.numRanks + src) := by
  obtain ⟨e, he, routed⟩ := pair.here.routed
  exact PoolPlan.share_pos (isPair_of_selected pair.channel pair.source pair.token pair.choice
    ((transformIdx_eq_iff he).2 routed) he) pair.slot

section Left

variable (left : LeftBy sh.numTopk (plan.landedTokens packet) m)

include left

/-- A slot that names a token is the slot of one of its pairs. -/
theorem exists_pair_of_recvToken (hg : g < sh.numRanks) (hsrc : src < sh.numRanks)
    (hc : c < sh.numChannels) (ht : t ∈ selected (inputs src) g c) {s : ℕ}
    (token : (m (.poolRecvToken s) : ℤ) = recvTokenId inputs g src t) :
    ∃ k, plan.PairAt src c t k s := by
  have valid : (0 : ℤ) ≤ m (.poolRecvToken s) := by
    rw [token]
    exact Int.natCast_nonneg _
  obtain ⟨src', c', t', k, pair⟩ := (realSlot_iff_pairAt hg).1 ((left_real_iff left hg).2 valid)
  obtain ⟨-, -, token', kSlot⟩ :=
    left_pair left pair.source pair.channel pair.token pair.choice pair.slot
  -- the slot names the pair's own token
  have same : recvTokenId inputs g src' t' = recvTokenId inputs g src t :=
    Int.ofNat_inj.1 (token'.symm.trans token)
  obtain ⟨⟨-, inside⟩, goes⟩ := mem_selected.1 ht
  obtain ⟨⟨-, inside'⟩, goes'⟩ := mem_selected.1 pair.token
  obtain ⟨rfl, rfl⟩ := recvTokenId_inj (inside'.trans_le (channelEnd_le _ _ _))
    (inside.trans_le (channelEnd_le _ _ _)) goes' goes same
  obtain ⟨init, stores, fresh, all, rfl⟩ := left
  have maps := poolMaps_of_perm placed_landedTokens all init
  have mem : plan.landedOf packet c src' t' ∈ plan.landedTokens packet :=
    mem_landedTokens.2 ⟨src', hsrc, c, hc, t', ht, rfl⟩
  have back := (maps.recvTokenToSlots_eq_iff placed_landedTokens fresh mem pair.choice s).2
    ⟨token, kSlot⟩
  rw [maps.inverse _ mem k pair.choice, landedOf_slot pair.choice] at back
  exact ⟨k, .of_slot hsrc hc ht pair.choice back⟩

/-- **The slots of a token** are those of its experts that are at the rank. -/
theorem sum_token_slots (hg : g < sh.numRanks) (hsrc : src < sh.numRanks)
    (hc : c < sh.numChannels) (ht : t ∈ selected (inputs src) g c) (f : ℕ → M) :
    ∑ s ∈ (range (plan.totalTiles * sh.tileM)).filter
        (fun s => (m (.poolRecvToken s) : ℤ) = recvTokenId inputs g src t), f s =
      ∑ k ∈ (range sh.numTopk).filter ((inputs src).LocalAt g t),
        f (plan.pairSlot c src (t * sh.numTopk + k)).toNat := by
  have slot : ∀ k ∈ (range sh.numTopk).filter ((inputs src).LocalAt g t),
      plan.PairAt src c t k (plan.pairSlot c src (t * sh.numTopk + k)).toNat := by
    intro k mem
    obtain ⟨hk, here⟩ := mem_filter.1 mem
    obtain ⟨s, pair⟩ := exists_pairAt plan hsrc hc ht (mem_range.1 hk) here
    rwa [pair.slot, Int.toNat_natCast]
  refine (sum_nbij (fun k => (plan.pairSlot c src (t * sh.numTopk + k)).toNat)
    ?_ ?_ ?_ fun k _ => rfl).symm
  · intro k mem
    have pair := slot k mem
    exact mem_filter.2 ⟨mem_range.2 (pair.real hg).lt,
      (left_pair left hsrc hc ht pair.choice pair.slot).2.2.1⟩
  · intro k mem k' mem' same
    have pair := slot k (mem_coe.1 mem)
    have pair' := slot k' (mem_coe.1 mem')
    have same : (plan.pairSlot c src (t * sh.numTopk + k)).toNat =
      (plan.pairSlot c src (t * sh.numTopk + k')).toNat := same
    rw [← same] at pair'
    exact (pair.inj pair').2.2.2
  · intro s mem
    obtain ⟨-, token⟩ := mem_filter.1 (mem_coe.1 mem)
    obtain ⟨k, pair⟩ := exists_pair_of_recvToken left hg hsrc hc ht token
    refine ⟨k, mem_coe.2 (mem_filter.2 ⟨mem_range.2 pair.choice, pair.here⟩), ?_⟩
    simp only [pair.slot, Int.toNat_natCast]

/-- The counter that kernel Y counts down, and the one that is kept for the backward pass, start
at the number of slots. -/
theorem counters_eq (hg : g < sh.numRanks) {r : ℕ} (hr : r < tRecv inputs g) :
    m (.kLocalRemaining r) = ((range (plan.totalTiles * sh.tileM)).filter fun s =>
        (m (.poolRecvToken s) : ℤ) = r).card ∧
      m (.kLocalTotal r) = ((range (plan.totalTiles * sh.tileM)).filter fun s =>
        (m (.poolRecvToken s) : ℤ) = r).card := by
  obtain ⟨l, mem, rfl⟩ : ∃ l ∈ plan.landedTokens packet, l.recvTokenId = r :=
    exists_landedTokens_id hr
  obtain ⟨src, hsrc, c, hc, t, ht, rfl⟩ := mem_landedTokens.1 mem
  have id : (plan.landedOf packet c src t).recvTokenId = recvTokenId inputs g src t := rfl
  have some : 0 < (plan.landedOf packet c src t).kLocalTotalVal :=
    kLocalTotalVal_pos hg hc hsrc ht
  have slots := sum_token_slots left hg hsrc hc ht (fun _ => 1)
  rw [← card_eq_sum_ones, ← card_eq_sum_ones] at slots
  rw [id, slots]
  have count : (plan.landedOf packet c src t).kLocalTotalVal =
      ((range sh.numTopk).filter ((inputs src).LocalAt g t)).card := by
    rw [landedOf_kLocalTotalVal plan packet hc hsrc ht]
    exact List.countP_eq_length_filter
  obtain ⟨init, stores, fresh, all, rfl⟩ := left
  have maps := poolMaps_of_perm placed_landedTokens all init
  exact ⟨(maps.remaining _ mem some).trans count, (maps.total _ mem some).trans count⟩

end Left

/-! ### The slots of an expert -/

/-- The channel of a token. -/
def channelOf (inp : DispatchInputs sh Row Weight) (t : ℕ) : ℕ :=
  t / ceilDiv inp.numTokens sh.numChannels

theorem channelOf_lt {inp : DispatchInputs sh Row Weight} (ht : t < inp.numTokens) :
    channelOf inp t < sh.numChannels := channel_lt sh.numChannels_pos ht

/-- A token of the rank is one of its channel's. -/
theorem mem_selected_channelOf (ht : t < (inputs src).numTokens) (goes : (inputs src).InRank g t) :
    t ∈ selected (inputs src) g (channelOf (inputs src) t) :=
  mem_selected.2 ⟨(div_eq_channel_iff sh.numChannels_pos ht).1 rfl, goes⟩

theorem channelOf_eq (ht : t ∈ selected (inputs src) g c) : channelOf (inputs src) t = c := by
  obtain ⟨inside, -⟩ := mem_selected.1 ht
  exact (div_eq_channel_iff sh.numChannels_pos (inside.2.trans_le (channelEnd_le _ _ _))).2 inside

/-- The pairs that all ranks route to a local expert. -/
def expertPairs (inputs : ℕ → DispatchInputs sh Row Weight) (g e : ℕ) :
    Finset (Σ _ : ℕ, Σ _ : ℕ, ℕ) :=
  (range sh.numRanks).sigma fun src =>
    (range (inputs src).numTokens).sigma fun t =>
      (range sh.numTopk).filter fun k => (inputs src).RoutedTo g e (t * sh.numTopk + k)

/-- **The slots of an expert** are those of the pairs that all ranks route to it. -/
theorem sum_expert_slots (hg : g < sh.numRanks) {e : ℕ} (he : e < sh.numExpertsPerRank)
    (f : ℕ → M) :
    ∑ q ∈ range (plan.expertFrequency e), f (plan.expertPoolBlockOffset e * sh.tileM + q) =
      ∑ src ∈ range sh.numRanks, ∑ t ∈ range (inputs src).numTokens,
        ∑ k ∈ (range sh.numTopk).filter fun k => (inputs src).RoutedTo g e (t * sh.numTopk + k),
          f (plan.pairSlot (channelOf (inputs src) t) src (t * sh.numTopk + k)).toNat := by
  simp only [sum_sigma']
  -- a pair and its place in the expert's interval
  have place : ∀ p ∈ expertPairs inputs g e, ∃ q < plan.expertFrequency e,
      plan.PairAt p.1 (channelOf (inputs p.1) p.2.1) p.2.1 p.2.2
          (plan.expertPoolBlockOffset e * sh.tileM + q) := by
    rintro ⟨src, t, k⟩ mem
    simp only [expertPairs, mem_sigma, mem_filter, mem_range] at mem
    obtain ⟨hsrc, ht, hk, routed⟩ := mem
    have goes := (inputs src).inRank_of_routedTo ht hk hg he routed
    have chosen := mem_selected_channelOf ht goes
    have pair := isPair_of_selected (channelOf_lt ht) hsrc chosen hk
      ((transformIdx_eq_iff he).2 routed) he
    exact ⟨_, pairIndex_lt pair,
      .of_slot hsrc (channelOf_lt ht) chosen hk (pairSlot_of_isPair pair)⟩
  refine (sum_nbij (s := expertPairs inputs g e) (fun p =>
    (plan.pairSlot (channelOf (inputs p.1) p.2.1) p.1 (p.2.1 * sh.numTopk + p.2.2)).toNat -
      plan.expertPoolBlockOffset e * sh.tileM) ?_ ?_ ?_ ?_).symm
  · intro p mem
    obtain ⟨q, hq, pair⟩ := place p mem
    rw [pair.slot, Int.toNat_natCast, Nat.add_sub_cancel_left]
    exact mem_range.2 hq
  · intro p mem p' mem' same
    obtain ⟨q, hq, pair⟩ := place p mem
    obtain ⟨q', hq', pair'⟩ := place p' mem'
    simp only [pair.slot, pair'.slot, Int.toNat_natCast, Nat.add_sub_cancel_left] at same
    subst same
    obtain ⟨-, src_eq, t_eq, k_eq⟩ := pair.inj pair'
    obtain ⟨src, t, k⟩ := p
    obtain ⟨src', t', k'⟩ := p'
    subst src_eq t_eq k_eq
    rfl
  · intro q hq
    have hq := mem_range.1 (mem_coe.1 hq)
    obtain ⟨c, hc, src, hsrc, t, ht, k, hk, key, slot⟩ := exists_pairSlot plan hg he
      (Nat.le_add_right _ q) (Nat.add_lt_add_left hq _)
    have channel := channelOf_eq ht
    obtain ⟨⟨-, inside⟩, -⟩ := mem_selected.1 ht
    refine ⟨⟨src, t, k⟩, mem_coe.2 ?_, ?_⟩
    · simp only [expertPairs, mem_sigma, mem_filter, mem_range]
      exact ⟨hsrc, inside.trans_le (channelEnd_le _ _ _), hk, (transformIdx_eq_iff he).1 key⟩
    · simp only [channel, slot, Int.toNat_natCast, Nat.add_sub_cancel_left]
  · intro p mem
    obtain ⟨q, -, pair⟩ := place p mem
    rw [pair.slot, Int.toNat_natCast, Nat.add_sub_cancel_left]

end PoolPlan

end StreamEP
