import StreamEP.Config
import StreamEP.Intranode.Dispatch
import StreamEP.Intranode.SendHead
import StreamEP.Lib.RingProgress

/-!
# Intranode combine

Combine sends every received token back to the rank it came from.  For channel `c` of
rank `g`, each rank `r` fills one ring with the rows it holds for the tokens of that
channel, in the order in which they arrived at `r`; it finds the range of their ids in
the tables that dispatch left (`combineTokenStart`, `combineTokenEnd`).  At `g`, 23 warps
share the channel's tokens and read for each token the ring positions in `send_head`; one
more warp passes the heads on.

**The range is the substream.**  A sender of combine knows neither the routing nor the tokens,
only where the ids of a substream start and how many there are.  It takes them from the prefix
matrix that dispatch's receivers stored, and the last channel from the rank's total
(`numChannelTokens_eq`).  So the position of a token in its ring leads to the id that dispatch
gave it (`combineTokenStart_add_ringPos`).

**The plan.**  `combinePlan` instantiates the replay of recorded ring positions with these
numbers, and `combineSystem` is the concurrent system.  The entry of `send_head` for a token is
its position, or the next one, encoded (`combinePlan_expected`); a warp's head after a token is
what follows the token in the ring (`combinePlan_headAfter`), and stays behind the tokens that
the warp still has (`combinePlan_headAfter_le`).

The plan is sound for every routing (`combinePlan_sound`).  When it can be relied on to go on is
another question, of how large the rings are.
-/

namespace StreamEP.Intranode

open Finset

variable {sh : Shape} {Row Weight : Type}

/-- `num_recv_warps`. -/
def numRecvWarps : ℕ := kNumThreads / 32

/-- The warps that reduce; warp 0 moves the queue heads. -/
def numReduceWarps : ℕ := numRecvWarps - 1

/-- What the ranks feed to combine: rows by recv-token id, and per-slot weights. -/
structure CombineInputs (X W : Type) where
  x : ℕ → ℕ → X
  perSlotWeights : ℕ → ℕ → W
  recvTokenToSlots : ℕ → ℕ → ℤ

/-- The packet rank `r` sends for one of its received tokens: its row, and for every `k`
the weight of its slot, or zero when `k` is not local. -/
def combinePacket {X W : Type} [Zero W] (sh : Shape) (io : CombineInputs X W)
    (r myToken : ℕ) : X × (ℕ → W) :=
  (io.x r myToken, fun k =>
    let slot := io.recvTokenToSlots r (myToken * sh.numTopk + k)
    if 0 ≤ slot then io.perSlotWeights r slot.toNat else 0)

namespace World

variable (w : World sh Row Weight) (r g c : ℕ)

/-! ### The sender's range of tokens -/

/-- `channel_prefix_matrix` of rank `r`, as dispatch's receivers stored it. -/
def recvChannelPrefixMatrix (idx : ℕ) : ℤ :=
  w.recvChannelPrefix r (idx % sh.numChannels) (idx / sh.numChannels)

/-- `num_rank_tokens`. -/
def numRankTokens : ℤ :=
  rankPrefixMatrix sh (w.uIn r) r (g * sh.numRanks + r) - (w.rankOffset r g : ℤ)

/-- `channel_offset`. -/
def channelOffset : ℤ := w.recvChannelPrefixMatrix r (g * sh.numChannels + c)

/-- `num_channel_tokens`. -/
def numChannelTokens : ℤ :=
  (if c = sh.numChannels - 1 then w.numRankTokens r g
    else w.recvChannelPrefixMatrix r (g * sh.numChannels + c + 1)) - w.channelOffset r g c

/-- `token_start_idx` of the sender at rank `r` to rank `g`. -/
def combineTokenStart : ℤ := w.rankOffset r g + w.channelOffset r g c

/-- `token_end_idx`. -/
def combineTokenEnd : ℤ := w.rankOffset r g + w.channelOffset r g c + w.numChannelTokens r g c

/-! ### The system -/

variable [Zero Weight] (cfg : Config) (uninitHead : ℕ → ℤ)

/-- Channel `c` of rank `g`: the rings, the warps' tokens, and the recorded heads. -/
def combinePlan : ReplayRings.Plan (Fin sh.numRanks) (Fin numReduceWarps) where
  ringSize := cfg.numMaxNvlChunkedRecvTokens
  chunk := cfg.numMaxNvlChunkedSendTokens
  required numRoundTokens := numRoundTokens
  total r := (w.combineTokenEnd r g c - w.combineTokenStart r g c).toNat
  count i := ceilDiv (channelEnd (w.inputs g).numTokens sh.numChannels c -
    (channelStart (w.inputs g).numTokens sh.numChannels c + i)) numReduceWarps
  token i m := channelStart (w.inputs g).numTokens sh.numChannels c + i + m * numReduceWarps
  expected t r := sendHead (w.inputs g) uninitHead (t * sh.numRanks + r)
  headAtStart _ head := head
  headAtEnd expectedHead _ :=
    (if expectedHead < 0 then -expectedHead - 1 else expectedHead + 1).toNat

/-- The packet at a position of the ring that rank `r` fills. -/
def combinePayload {X W : Type} [Zero W] (io : CombineInputs X W) (r : Fin sh.numRanks)
    (position : ℕ) : X × (ℕ → W) :=
  combinePacket sh io r ((w.combineTokenStart r g c).toNat + position)

/-- All senders, warps and the head updater of channel `c` at rank `g`. -/
def combineSystem {X W : Type} [AddCommMonoid X] [AddCommMonoid W] (io : CombineInputs X W)
    (slots : Fin sh.numRanks → ℕ → X × (ℕ → W)) :=
  ReplayRings.system (w.combinePlan g c cfg uninitHead) (w.combinePayload g c io) slots

variable {w r g c}

/-! ### The range is the substream -/

omit [Zero Weight] in
theorem recvChannelPrefixMatrix_apply (hc : c < sh.numChannels) :
    w.recvChannelPrefixMatrix r (g * sh.numChannels + c) =
      Nat.count ((w.inputs g).InRank r)
        (channelStart (w.inputs g).numTokens sh.numChannels c) := by
  rw [recvChannelPrefixMatrix, PrefixSum.flat_mod hc, PrefixSum.flat_div hc,
    recvChannelPrefix_eq]

omit [Zero Weight] in
theorem numRankTokens_eq (hr : r < sh.numRanks) (hg : g < sh.numRanks) :
    w.numRankTokens r g = numRouted w.inputs r g := by
  rw [numRankTokens, rankPrefixMatrix_apply _ hr hg, cumSrc_eq hr hg, rankOffset_eq hr hg,
    sum_range_succ]
  push_cast
  omega

omit [Zero Weight] in
/-- The sender's tokens start where the ids of the substream start, -/
theorem combineTokenStart_eq (hr : r < sh.numRanks) (hg : g < sh.numRanks)
    (hc : c < sh.numChannels) :
    w.combineTokenStart r g c =
      ((∑ src ∈ range g, numRouted w.inputs r src + Nat.count ((w.inputs g).InRank r)
        (channelStart (w.inputs g).numTokens sh.numChannels c) : ℕ) : ℤ) := by
  rw [combineTokenStart, channelOffset, recvChannelPrefixMatrix_apply hc, rankOffset_eq hr hg,
    Nat.cast_add]

omit [Zero Weight] in
/-- and are as many. -/
theorem numChannelTokens_eq (hr : r < sh.numRanks) (hg : g < sh.numRanks)
    (hc : c < sh.numChannels) :
    w.numChannelTokens r g c = (w.inputs g).tokensIn r c := by
  have mono := Nat.count_monotone ((w.inputs g).InRank r)
    (channelStart_le_end (w.inputs g).numTokens sh.numChannels c)
  rw [numChannelTokens, channelOffset, recvChannelPrefixMatrix_apply hc,
    DispatchInputs.tokensIn, Nat.cast_sub mono]
  by_cases last : c = sh.numChannels - 1
  · have next : c + 1 = sh.numChannels := by omega
    rw [if_pos last, numRankTokens_eq hr hg, numRouted, channelEnd_eq, next,
      channelStart_last sh.numChannels_pos]
  · have next : c + 1 < sh.numChannels := by omega
    rw [if_neg last, Nat.add_assoc, recvChannelPrefixMatrix_apply next, channelEnd_eq]

omit [Zero Weight] in
/-- A token's position in its ring leads to its recv-token id. -/
theorem combineTokenStart_add_ringPos (hr : r < sh.numRanks) (hg : g < sh.numRanks)
    (hc : c < sh.numChannels) {t : ℕ}
    (lo : channelStart (w.inputs g).numTokens sh.numChannels c ≤ t) :
    (w.combineTokenStart r g c).toNat + ringPos (w.inputs g) r c t =
      recvTokenId w.inputs r g t := by
  have mono := Nat.count_monotone ((w.inputs g).InRank r) lo
  rw [combineTokenStart_eq hr hg hc, Int.toNat_natCast, ringPos, Stream.pos, recvTokenId]
  omega

/-! ### The plan over the routing -/

section Plan

variable {cfg uninitHead}

variable (cfg uninitHead) in
theorem combinePlan_total (hg : g < sh.numRanks) (hc : c < sh.numChannels)
    (r : Fin sh.numRanks) :
    (w.combinePlan g c cfg uninitHead).total r = (w.inputs g).tokensIn r c := by
  show (w.combineTokenEnd r g c - w.combineTokenStart r g c).toNat = _
  rw [combineTokenEnd, combineTokenStart, add_sub_cancel_left,
    numChannelTokens_eq r.isLt hg hc, Int.toNat_natCast]

/-- The warps' tokens are tokens of the channel. -/
theorem combinePlan_token {i : Fin numReduceWarps} {m : ℕ}
    (hm : m < (w.combinePlan g c cfg uninitHead).count i) :
    channelStart (w.inputs g).numTokens sh.numChannels c ≤
        (w.combinePlan g c cfg uninitHead).token i m ∧
      (w.combinePlan g c cfg uninitHead).token i m <
        channelEnd (w.inputs g).numTokens sh.numChannels c := by
  have reached := ceilDiv_mul_lt (by decide : 0 < numReduceWarps)
    (channelEnd (w.inputs g).numTokens sh.numChannels c -
      (channelStart (w.inputs g).numTokens sh.numChannels c + i))
  have next : m + 1 ≤ ceilDiv _ numReduceWarps := hm
  have scaled := Nat.mul_le_mul_right numReduceWarps next
  rw [Nat.succ_mul] at scaled
  simp only [combinePlan]
  omega

variable (cfg uninitHead) in
/-- Every token of the channel belongs to a warp. -/
theorem exists_combinePlan_token {t : ℕ}
    (lo : channelStart (w.inputs g).numTokens sh.numChannels c ≤ t)
    (hi : t < channelEnd (w.inputs g).numTokens sh.numChannels c) :
    ∃ i, ∃ m < (w.combinePlan g c cfg uninitHead).count i,
      (w.combinePlan g c cfg uninitHead).token i m = t := by
  obtain ⟨d, rfl⟩ := Nat.exists_eq_add_of_le lo
  have pos : 0 < numReduceWarps := by decide
  have split := Nat.div_add_mod' d numReduceWarps
  refine ⟨⟨d % numReduceWarps, Nat.mod_lt d pos⟩, d / numReduceWarps, ?_, ?_⟩
  · have covered := le_ceilDiv_mul pos
      (channelEnd (w.inputs g).numTokens sh.numChannels c -
        (channelStart (w.inputs g).numTokens sh.numChannels c + d % numReduceWarps))
    refine Nat.lt_of_mul_lt_mul_right (a := numReduceWarps) (lt_of_lt_of_le ?_ covered)
    omega
  · simp only [combinePlan]
    omega

variable (cfg uninitHead) in
/-- What `send_head` holds for a token of the channel. -/
theorem combinePlan_expected (hc : c < sh.numChannels) {t : ℕ}
    (lo : channelStart (w.inputs g).numTokens sh.numChannels c ≤ t)
    (hi : t < channelEnd (w.inputs g).numTokens sh.numChannels c) (r : Fin sh.numRanks) :
    (w.combinePlan g c cfg uninitHead).expected t r = encodedHead (w.inputs g) r c t :=
  sendHead_apply uninitHead r.isLt hc lo hi

omit [Zero Weight] in
/-- Exactly the ranks that received the token have a position recorded. -/
theorem encodedHead_nonneg {t : ℕ} : 0 ≤ encodedHead (w.inputs g) r c t ↔
    (w.inputs g).InRank r t := by
  unfold encodedHead
  by_cases goes : (w.inputs g).InRank r t
  · simp [goes]
  · rw [if_neg goes]
    constructor
    · intro nonneg
      omega
    · exact fun goes' => absurd goes' goes

/-- A warp's head after a token: what follows the token in the ring. -/
theorem combinePlan_headAfter (hc : c < sh.numChannels) {i : Fin numReduceWarps} {m : ℕ}
    (hm : m < (w.combinePlan g c cfg uninitHead).count i) (r : Fin sh.numRanks) :
    (w.combinePlan g c cfg uninitHead).headAfter i r (m + 1) =
      if (w.inputs g).InRank r ((w.combinePlan g c cfg uninitHead).token i m) then
        ringPos (w.inputs g) r c ((w.combinePlan g c cfg uninitHead).token i m) + 1
      else nextHead (w.inputs g) r c ((w.combinePlan g c cfg uninitHead).token i m) := by
  obtain ⟨lo, hi⟩ := combinePlan_token hm
  have record := combinePlan_expected cfg uninitHead hc lo hi r
  rw [ReplayRings.Plan.headAfter, record]
  show (if encodedHead _ _ _ _ < 0 then _ else _ : ℤ).toNat = _
  unfold encodedHead
  by_cases goes : (w.inputs g).InRank r ((w.combinePlan g c cfg uninitHead).token i m)
  · simp only [if_pos goes, if_neg (not_lt.2 (Int.natCast_nonneg _))]
    omega
  · simp only [if_neg goes]
    rw [if_pos (by omega)]
    omega

/-- **A warp's head stays behind the tokens it still has.** -/
theorem combinePlan_headAfter_le (hc : c < sh.numChannels) {i : Fin numReduceWarps}
    {m m' : ℕ} (hm' : m' < (w.combinePlan g c cfg uninitHead).count i) (le : m ≤ m')
    (r : Fin sh.numRanks)
    (goes : (w.inputs g).InRank r ((w.combinePlan g c cfg uninitHead).token i m')) :
    (w.combinePlan g c cfg uninitHead).headAfter i r m ≤
      ringPos (w.inputs g) r c ((w.combinePlan g c cfg uninitHead).token i m') := by
  cases m with
  | zero => exact Nat.zero_le _
  | succ m =>
      have earlier : (w.combinePlan g c cfg uninitHead).token i m <
          (w.combinePlan g c cfg uninitHead).token i m' := by
        have scaled := Nat.mul_lt_mul_of_pos_right le (by decide : 0 < numReduceWarps)
        exact Nat.add_lt_add_left scaled _
      obtain ⟨lo, -⟩ := combinePlan_token (lt_trans (Nat.lt_of_succ_le le) hm')
      obtain ⟨lo', hi'⟩ := combinePlan_token hm'
      rw [combinePlan_headAfter hc (lt_trans (Nat.lt_of_succ_le le) hm')]
      by_cases sent : (w.inputs g).InRank r ((w.combinePlan g c cfg uninitHead).token i m)
      · rw [if_pos sent]
        exact ringPos_lt lo sent earlier
      · have mono : ringPos (w.inputs g) r c _ ≤ ringPos (w.inputs g) r c _ :=
          ringPos_mono earlier.le
        have inside := ringPos_lt_tokensIn lo' hi' goes
        rw [if_neg sent, nextHead, if_pos (lt_of_le_of_lt mono inside)]
        exact mono

variable (cfg uninitHead) in
/-- The plan never lets a slot be overwritten too early. -/
theorem combinePlan_sound (hg : g < sh.numRanks) (hc : c < sh.numChannels) :
    (w.combinePlan g c cfg uninitHead).Sound where
  chunk_le := cfg.nvlSend_lt_recv.le
  le_required n := le_rfl
  expected_lt i m hm r := by
    obtain ⟨lo, hi⟩ := combinePlan_token hm
    rw [combinePlan_expected cfg uninitHead hc lo hi, combinePlan_total cfg uninitHead hg hc,
      encodedHead]
    by_cases goes : (w.inputs g).InRank r ((w.combinePlan g c cfg uninitHead).token i m)
    · rw [if_pos goes]
      exact_mod_cast ringPos_lt_tokensIn lo hi goes
    · rw [if_neg goes]
      omega
  headAfter_le i r m m' hm' le has := by
    obtain ⟨lo, hi⟩ := combinePlan_token hm'
    rw [combinePlan_expected cfg uninitHead hc lo hi] at has ⊢
    have goes := encodedHead_nonneg.1 has
    rw [encodedHead, if_pos goes]
    exact_mod_cast combinePlan_headAfter_le hc hm' le r goes
  headDuring_le i r m m' hm' le has := by
    obtain ⟨lo, hi⟩ := combinePlan_token hm'
    rw [combinePlan_expected cfg uninitHead hc lo hi] at has ⊢
    have goes := encodedHead_nonneg.1 has
    rw [encodedHead, if_pos goes]
    exact_mod_cast combinePlan_headAfter_le hc hm' le r goes

end Plan

end World

end StreamEP.Intranode
