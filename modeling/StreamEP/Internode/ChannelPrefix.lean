import StreamEP.Histogram
import StreamEP.Internode.Nodes
import StreamEP.Lib.Warp

/-!
# The channel prefix matrices of an internode sender

For every destination rank and every destination node a sender counts, channel by
channel, its tokens that go there: `gbl_channel_prefix_matrix` and
`rdma_channel_prefix_matrix`.  A warp counts each channel, and afterwards one thread
turns each row into its inclusive prefix in place.

**What the entries mean.**  Channels are consecutive ranges of tokens, so an inclusive prefix over
channels counts the tokens below the end of a channel (`gblChannelPrefixMatrix_apply`,
`rdmaChannelPrefixMatrix_apply`).  The header of a ring announces two neighbouring entries, and
the receiver takes their difference as the number of tokens to expect.

**The count.**  The lanes of a warp stride over the channel and stop at the last token.  A channel
that starts behind the last token is empty; the strides of its lanes are then empty as well, and
`channelCount_eq` has no case for it.
-/

namespace StreamEP.Internode

open Finset

variable {sh : NodeShape} {Row Weight : Type}

/-- `for (i = 1; i < n; ++i) row[i] += row[i - 1]`. -/
def inclusive (row : ℕ → ℕ) : ℕ → ℕ
  | 0 => row 0
  | i + 1 => row (i + 1) + inclusive row i

theorem inclusive_eq_sum (row : ℕ → ℕ) (i : ℕ) :
    inclusive row i = ∑ j ∈ range (i + 1), row j := by
  induction i with
  | zero => simp [inclusive]
  | succ i ih => rw [inclusive, ih, sum_range_succ _ (i + 1), Nat.add_comm]

section Matrices

variable (inp : DispatchInputs sh.toShape Row Weight)

/-- `per_nvl`: some chosen expert lives on peer `n` of the node. -/
def perNvl (dstRdmaRank n t : ℕ) : Bool :=
  (chosen inp t).any fun eGlobal =>
    let dstWorld := eGlobal / sh.numExpertsPerRank
    dstWorld / sh.numNvlPeers == dstRdmaRank && dstWorld - dstRdmaRank * sh.numNvlPeers == n

/-- `any_in_rdma` -/
def anyInRdma (dstRdmaRank t : ℕ) : Bool :=
  (List.range sh.numNvlPeers).any fun n => perNvl inp dstRdmaRank n t

/-- The tokens of channel `c` with `flag`: lanes stride over the channel and the warp
adds up their counts. -/
def channelCount (flag : ℕ → Bool) (c : ℕ) : ℕ :=
  let numTokensPerChannel := ceilDiv inp.numTokens sh.numChannels
  let tStart := c * numTokensPerChannel
  let tEnd := min (tStart + numTokensPerChannel) inp.numTokens
  Warp.reduceXor [16, 8, 4, 2, 1]
    (Warp.stridedSum Warp.width (tEnd - tStart) fun i => (flag (tStart + i)).toNat) 0

/-- `gbl_channel_prefix_matrix`, at `dst_world * num_channels + c`. -/
def gblChannelPrefixMatrix (idx : ℕ) : ℕ :=
  let dstWorld := idx / sh.numChannels
  inclusive (channelCount inp
    (perNvl inp (dstWorld / sh.numNvlPeers) (dstWorld % sh.numNvlPeers))) (idx % sh.numChannels)

/-- `rdma_channel_prefix_matrix`, at `dst_rdma * num_channels + c`. -/
def rdmaChannelPrefixMatrix (idx : ℕ) : ℕ :=
  inclusive (channelCount inp (anyInRdma inp (idx / sh.numChannels))) (idx % sh.numChannels)

/-! ### What the matrices hold -/

theorem perNvl_iff {d n t : ℕ} (hd : d < sh.numRdmaRanks) (hn : n < sh.numNvlPeers)
    (ht : t < inp.numTokens) :
    perNvl inp d n t = true ↔ inp.InRank (d * sh.numNvlPeers + n) t := by
  rw [← mem_owners inp ht (NodeShape.rank_lt hd hn), perNvl, List.any_eq_true, List.mem_map]
  refine exists_congr fun eGlobal => and_congr_right fun _ => ?_
  have split := Nat.div_add_mod' (eGlobal / sh.numExpertsPerRank) sh.numNvlPeers
  rw [Bool.and_eq_true, beq_iff_eq, beq_iff_eq]
  constructor
  · rintro ⟨rfl, rfl⟩
    omega
  · intro owner
    rw [owner, PrefixSum.flat_div hn]
    exact ⟨rfl, Nat.add_sub_cancel_left _ _⟩

theorem anyInRdma_iff {d t : ℕ} (hd : d < sh.numRdmaRanks) (ht : t < inp.numTokens) :
    anyInRdma inp d t = true ↔ inp.InNode d t := by
  rw [anyInRdma, List.any_eq_true]
  constructor
  · rintro ⟨n, hn, here⟩
    have hn := List.mem_range.1 hn
    exact ⟨n, hn, (perNvl_iff inp hd hn ht).1 here⟩
  · rintro ⟨n, hn, goes⟩
    exact ⟨n, List.mem_range.2 hn, (perNvl_iff inp hd hn ht).2 goes⟩

/-- The warp counts the channel's tokens, also where the channel starts past the last
token. -/
theorem channelCount_eq {flag : ℕ → Bool} {p : ℕ → Prop} [DecidablePred p]
    (flagged : ∀ t < inp.numTokens, flag t = true ↔ p t) (c : ℕ) :
    channelCount inp flag c =
      Nat.count p (channelEnd inp.numTokens sh.numChannels c) -
        Nat.count p (channelStart inp.numTokens sh.numChannels c) := by
  rw [channelCount, Warp.reduceXor_eq_sum _ (by decide), Warp.sum_stridedSum (by decide)]
  simp only [channelEnd, channelStart, getChannelTaskRange, Nat.mul_comm c]
  generalize ceilDiv inp.numTokens sh.numChannels = width
  by_cases inside : width * c ≤ inp.numTokens
  · rw [Nat.min_eq_left inside,
      PrefixSum.count_sub_count (p := p) (by omega :
        width * c ≤ min (width * c + width) inp.numTokens), Nat.add_sub_cancel_left,
      PrefixSum.count_eq_sum]
    refine sum_congr rfl fun i hi => ?_
    have within : width * c + i < inp.numTokens := by
      have := mem_range.1 hi
      omega
    have here := flagged _ within
    cases value : flag (width * c + i) with
    | true => rw [if_pos (here.1 value)]; rfl
    | false => rw [if_neg fun h => by simp [here.2 h] at value]; rfl
  · rw [Nat.min_eq_right (by omega : inp.numTokens ≤ width * c),
      Nat.min_eq_right (by omega : inp.numTokens ≤ inp.numTokens + width),
      Nat.min_eq_right (by omega : inp.numTokens ≤ width * c + width), Nat.sub_self,
      Nat.sub_eq_zero_of_le (by omega), sum_range_zero]

/-- The inclusive prefix of the channel counts counts everything up to the channel's
end. -/
theorem inclusive_channelCount {flag : ℕ → Bool} {p : ℕ → Prop} [DecidablePred p]
    (flagged : ∀ t < inp.numTokens, flag t = true ↔ p t) (c : ℕ) :
    inclusive (channelCount inp flag) c =
      Nat.count p (channelEnd inp.numTokens sh.numChannels c) := by
  have mono : Monotone fun c =>
      Nat.count p (channelStart inp.numTokens sh.numChannels c) :=
    fun _ _ h => Nat.count_monotone _ (channelStart_mono h)
  rw [inclusive_eq_sum]
  simp only [channelCount_eq inp flagged, channelEnd_eq]
  rw [sum_range_tsub mono, channelStart_zero, Nat.count_zero, Nat.sub_zero]

theorem gblChannelPrefixMatrix_apply {dst c : ℕ} (hdst : dst < sh.numRanks)
    (hc : c < sh.numChannels) :
    gblChannelPrefixMatrix inp (dst * sh.numChannels + c) =
      Nat.count (inp.InRank dst) (channelEnd inp.numTokens sh.numChannels c) := by
  have flagged : ∀ t < inp.numTokens,
      perNvl inp (sh.rdmaRank dst) (sh.nvlRank dst) t = true ↔ inp.InRank dst t := by
    intro t ht
    rw [perNvl_iff inp (NodeShape.rdmaRank_lt hdst) (NodeShape.nvlRank_lt dst) ht,
      NodeShape.rank_eq]
  rw [gblChannelPrefixMatrix, PrefixSum.flat_div hc, PrefixSum.flat_mod hc]
  exact inclusive_channelCount inp flagged c

theorem rdmaChannelPrefixMatrix_apply {d c : ℕ} (hd : d < sh.numRdmaRanks)
    (hc : c < sh.numChannels) :
    rdmaChannelPrefixMatrix inp (d * sh.numChannels + c) =
      Nat.count (inp.InNode d) (channelEnd inp.numTokens sh.numChannels c) := by
  rw [rdmaChannelPrefixMatrix, PrefixSum.flat_div hc, PrefixSum.flat_mod hc]
  exact inclusive_channelCount inp (fun t ht => anyInRdma_iff inp hd ht) c

end Matrices

end StreamEP.Internode
