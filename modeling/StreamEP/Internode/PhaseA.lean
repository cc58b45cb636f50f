import StreamEP.Internode.ChannelPrefix
import StreamEP.Lib.Exchange

/-!
# The internode metadata exchange (Phase A)

Block 0 of every rank counts its routing in shared memory and sends each node two
slabs: the counts that size the buffers, and the streaming histogram by channel, peer
and local expert.  A slab goes over RDMA to the peer with the sender's own number, and
that peer passes every other peer of its node the part that concerns it.  So after the
two hops a rank holds, in the slot of peer `n`, what all ranks with number `n` counted
for it.

**Counting.**  The histograms are runs of increments over the pairs of a token and an expert.
Two of them count a token once for each rank or node it goes to, however many experts it has
there; the kernel keeps a mask for this.  The lemmas `smem…_apply` say what a word holds in
terms of the routing: how many tokens are selected, or how many pairs.

**Sending.**  The count payload is built by stores of several loops into one buffer
(`payloadStores`). That no two of them address one word (`payloadStores_agree`) is what makes
the buffer readable word by word, over whatever it held before: `countsSend_rank`,
`countsSend_node`.

The results say what the slabs hold in terms of the routing alone, whatever an earlier
dispatch left in them.  What becomes of them on the way is the subject of the exchange.
-/

namespace StreamEP.Internode

open Finset

variable {sh : NodeShape} {Row Weight : Type}

/-- `num_experts` -/
def numExperts (sh : NodeShape) : ℕ := sh.numRanks * sh.numExpertsPerRank

/-- `num_rdma_experts`: the experts of one node. -/
def numRdmaExperts (sh : NodeShape) : ℕ := numExperts sh / sh.numRdmaRanks

/-- `kStreamSlabInts`: the streaming histogram of one destination node. -/
def kStreamSlabInts (sh : NodeShape) : ℕ :=
  sh.numChannels * sh.numNvlPeers * sh.numExpertsPerRank

/-- `kNvlSlotInts`: what one peer passes on to another. -/
def kNvlSlotInts (sh : NodeShape) : ℕ :=
  sh.numRdmaRanks * sh.numChannels * sh.numExpertsPerRank

theorem numRdmaExperts_eq (sh : NodeShape) :
    numRdmaExperts sh = sh.numNvlPeers * sh.numExpertsPerRank := by
  rw [numRdmaExperts, numExperts, sh.numRanks_eq, Nat.mul_assoc,
    Nat.mul_div_cancel_left _ sh.numRdmaRanks_pos]

/-! ### A2: local histograms -/

section Histograms

variable (inp : DispatchInputs sh.toShape Row Weight)

/-- `channel_id`, cut off at the last channel. -/
def lastChannelId (t : ℕ) : ℕ :=
  if sh.numChannels ≤ channelId inp t then sh.numChannels - 1 else channelId inp t

/-- `smem_streaming_hist` -/
def smemStreamingHist : ℕ → ℕ :=
  pairHistogram inp fun t eGlobal =>
    let dstWorld := eGlobal / sh.numExpertsPerRank
    let dstRdma := dstWorld / sh.numNvlPeers
    let dstNvl := dstWorld - dstRdma * sh.numNvlPeers
    let eLocal := eGlobal - dstWorld * sh.numExpertsPerRank
    ((dstRdma * sh.numChannels + lastChannelId inp t) * sh.numNvlPeers + dstNvl) *
      sh.numExpertsPerRank + eLocal

/-- `smem_local_per_expert` -/
def smemLocalPerExpert : ℕ → ℕ := pairHistogram inp fun _ eGlobal => eGlobal

/-- `smem_local_per_rank`, deduplicated by `world_mask`. -/
def smemLocalPerRank : ℕ → ℕ :=
  tokenHistogram inp (· / sh.numExpertsPerRank) fun _ dstWorld => dstWorld

/-- `smem_local_per_rdma`, deduplicated by `rdma_mask`. -/
def smemLocalPerRdma : ℕ → ℕ :=
  tokenHistogram inp (· / sh.numExpertsPerRank / sh.numNvlPeers) fun _ dstRdma => dstRdma

theorem smemStreamingHist_apply {d c n e : ℕ} (hc : c < sh.numChannels)
    (hn : n < sh.numNvlPeers) (he : e < sh.numExpertsPerRank) :
    smemStreamingHist inp
        (((d * sh.numChannels + c) * sh.numNvlPeers + n) * sh.numExpertsPerRank + e) =
      inp.pairsIn (d * sh.numNvlPeers + n) e c := by
  refine pairHistogram_channel inp fun t ht eGlobal => ?_
  have channel : channelId inp t < sh.numChannels := channel_lt sh.numChannels_pos ht
  have peer : eGlobal / sh.numExpertsPerRank % sh.numNvlPeers < sh.numNvlPeers :=
    Nat.mod_lt _ sh.numNvlPeers_pos
  have lane : eGlobal % sh.numExpertsPerRank < sh.numExpertsPerRank :=
    Nat.mod_lt _ sh.numExpertsPerRank_pos
  have world := Nat.div_add_mod' (eGlobal / sh.numExpertsPerRank) sh.numNvlPeers
  have expert := Nat.div_add_mod' eGlobal sh.numExpertsPerRank
  have dstNvl : eGlobal / sh.numExpertsPerRank -
      eGlobal / sh.numExpertsPerRank / sh.numNvlPeers * sh.numNvlPeers =
        eGlobal / sh.numExpertsPerRank % sh.numNvlPeers := by omega
  have eLocal : eGlobal - eGlobal / sh.numExpertsPerRank * sh.numExpertsPerRank =
      eGlobal % sh.numExpertsPerRank := by omega
  have kept : lastChannelId inp t = channelId inp t := if_neg (not_le.2 channel)
  simp only [dstNvl, eLocal, kept]
  rw [PrefixSum.flat_inj lane he, PrefixSum.flat_inj peer hn, PrefixSum.flat_inj channel hc]
  constructor
  · rintro ⟨⟨⟨rfl, same⟩, rfl⟩, rfl⟩
    exact ⟨same, by rw [world, expert]⟩
  · rintro ⟨same, rfl⟩
    rw [PrefixSum.flat_div he, PrefixSum.flat_mod he, PrefixSum.flat_div hn,
      PrefixSum.flat_mod hn]
    exact ⟨⟨⟨rfl, same⟩, rfl⟩, rfl⟩

theorem smemLocalPerExpert_apply {dst e : ℕ} :
    smemLocalPerExpert inp (dst * sh.numExpertsPerRank + e) =
      Nat.count (inp.RoutedTo dst e) (inp.numTokens * sh.numTopk) := by
  have all : ∀ t < inp.numTokens, ∀ eGlobal, eGlobal = dst * sh.numExpertsPerRank + e ↔
      (fun _ => True) t ∧ eGlobal = dst * sh.numExpertsPerRank + e :=
    fun _ _ _ => (and_iff_right trivial).symm
  rw [smemLocalPerExpert, pairHistogram_apply inp all, PrefixSum.count_eq_sum,
    PrefixSum.sum_range_mul]
  simp only [true_and]

theorem smemLocalPerRank_apply {dst : ℕ} (hdst : dst < sh.numRanks) :
    smemLocalPerRank inp dst = Nat.count (inp.InRank dst) inp.numTokens :=
  tokenHistogram_total inp (fun _ _ _ => Iff.rfl) fun _ ht => mem_owners inp ht hdst

theorem smemLocalPerRdma_apply {d : ℕ} (hd : d < sh.numRdmaRanks) :
    smemLocalPerRdma inp d = Nat.count (inp.InNode d) inp.numTokens := by
  refine tokenHistogram_total inp (fun _ _ _ => Iff.rfl) fun t ht => ?_
  have owners : (chosen inp t).map (· / sh.numExpertsPerRank / sh.numNvlPeers) =
      ((chosen inp t).map (· / sh.numExpertsPerRank)).map (· / sh.numNvlPeers) := by
    rw [List.map_map]
    rfl
  rw [owners, List.mem_map]
  constructor
  · rintro ⟨dst, owner, rfl⟩
    have hdst : dst < sh.numRanks := by
      rw [sh.numRanks_eq]
      exact (Nat.div_lt_iff_lt_mul sh.numNvlPeers_pos).1 hd
    refine ⟨dst % sh.numNvlPeers, Nat.mod_lt _ sh.numNvlPeers_pos, ?_⟩
    rw [Nat.div_add_mod']
    exact (mem_owners inp ht hdst).1 owner
  · rintro ⟨n, hn, goes⟩
    exact ⟨_, (mem_owners inp ht (NodeShape.rank_lt hd hn)).2 goes, PrefixSum.flat_div hn⟩

end Histograms

/-! ### A4: what is sent over RDMA -/

section Payload

variable (inp : DispatchInputs sh.toShape Row Weight)

/-- The stores that build the count payload, at destination node and word. -/
def payloadStores : List (Store.Write fun _ : ℕ × ℕ => ℕ) :=
  ((List.range sh.numRanks).map fun i =>
      ⟨(i / sh.numNvlPeers, i % sh.numNvlPeers), smemLocalPerRank inp i⟩) ++
    ((List.range (numExperts sh)).map fun i =>
      ⟨(i / numRdmaExperts sh, sh.numNvlPeers + i % numRdmaExperts sh),
        smemLocalPerExpert inp i⟩) ++
    (List.range sh.numRdmaRanks).map fun d =>
      ⟨(d, sh.numNvlPeers + numRdmaExperts sh), smemLocalPerRdma inp d⟩

/-- `rdma_recv_num_tokens_mixed.send_buffer`, over what it held before. -/
def countsSend (stale : ℕ × ℕ → ℕ) (d j : ℕ) : ℕ := Store.run (payloadStores inp) stale (d, j)

/-- `streaming_rdma_recv.send_buffer` -/
def streamingSend (d j : ℕ) : ℕ := smemStreamingHist inp (d * kStreamSlabInts sh + j)

theorem mem_payloadStores {w : Store.Write fun _ : ℕ × ℕ => ℕ} :
    w ∈ payloadStores inp ↔
      (∃ i < sh.numRanks, ⟨(i / sh.numNvlPeers, i % sh.numNvlPeers),
          smemLocalPerRank inp i⟩ = w) ∨
      (∃ i < numExperts sh, ⟨(i / numRdmaExperts sh,
          sh.numNvlPeers + i % numRdmaExperts sh), smemLocalPerExpert inp i⟩ = w) ∨
      ∃ d < sh.numRdmaRanks, ⟨(d, sh.numNvlPeers + numRdmaExperts sh),
        smemLocalPerRdma inp d⟩ = w := by
  simp only [payloadStores, List.mem_append, List.mem_map, List.mem_range, or_assoc]

theorem numRdmaExperts_pos (sh : NodeShape) : 0 < numRdmaExperts sh := by
  rw [numRdmaExperts_eq]
  exact Nat.mul_pos sh.numNvlPeers_pos sh.numExpertsPerRank_pos

/-- No two stores of the payload address the same word. -/
theorem payloadStores_agree {w w' : Store.Write fun _ : ℕ × ℕ => ℕ}
    (hw : w ∈ payloadStores inp) (hw' : w' ∈ payloadStores inp) (same : w'.1 = w.1) :
    w' = w := by
  have peers := sh.numNvlPeers_pos
  have experts := numRdmaExperts_pos sh
  have peer (i : ℕ) : i % sh.numNvlPeers < sh.numNvlPeers := Nat.mod_lt _ peers
  have expert (i : ℕ) : i % numRdmaExperts sh < numRdmaExperts sh := Nat.mod_lt _ experts
  rcases (mem_payloadStores inp).1 hw with ⟨i, -, rfl⟩ | ⟨i, -, rfl⟩ | ⟨d, -, rfl⟩ <;>
  rcases (mem_payloadStores inp).1 hw' with ⟨i', -, rfl⟩ | ⟨i', -, rfl⟩ | ⟨d', -, rfl⟩ <;>
  obtain ⟨node, word⟩ := Prod.mk.inj same
  · obtain rfl : i' = i := by
      rw [← Nat.div_add_mod' i' sh.numNvlPeers, node, word, Nat.div_add_mod']
    rfl
  · have := peer i
    omega
  · have := peer i
    omega
  · have := peer i'
    omega
  · obtain rfl : i' = i := by
      rw [← Nat.div_add_mod' i' (numRdmaExperts sh), node, Nat.add_left_cancel word,
        Nat.div_add_mod']
    rfl
  · have := expert i
    omega
  · have := peer i'
    omega
  · have := expert i'
    omega
  · obtain rfl : d' = d := node
    rfl

theorem countsSend_of_mem (stale : ℕ × ℕ → ℕ) {d j v : ℕ}
    (stored : ⟨(d, j), v⟩ ∈ payloadStores inp) : countsSend inp stale d j = v :=
  Store.run_of_agree stored (fun _ hw same => payloadStores_agree inp stored hw same) stale

theorem countsSend_rank (stale : ℕ × ℕ → ℕ) {d n : ℕ} (hd : d < sh.numRdmaRanks)
    (hn : n < sh.numNvlPeers) :
    countsSend inp stale d n =
      Nat.count (inp.InRank (d * sh.numNvlPeers + n)) inp.numTokens := by
  rw [← smemLocalPerRank_apply inp (NodeShape.rank_lt hd hn)]
  refine countsSend_of_mem inp stale ((mem_payloadStores inp).2 (Or.inl
    ⟨d * sh.numNvlPeers + n, NodeShape.rank_lt hd hn, ?_⟩))
  rw [PrefixSum.flat_div hn, PrefixSum.flat_mod hn]

theorem countsSend_node (stale : ℕ × ℕ → ℕ) {d : ℕ} (hd : d < sh.numRdmaRanks) :
    countsSend inp stale d (sh.numNvlPeers + numRdmaExperts sh) =
      Nat.count (inp.InNode d) inp.numTokens := by
  rw [← smemLocalPerRdma_apply inp hd]
  exact countsSend_of_mem inp stale
    ((mem_payloadStores inp).2 (Or.inr (Or.inr ⟨d, hd, rfl⟩)))

theorem streamingSend_apply {d c n e : ℕ} (hc : c < sh.numChannels)
    (hn : n < sh.numNvlPeers) (he : e < sh.numExpertsPerRank) :
    streamingSend inp d ((c * sh.numNvlPeers + n) * sh.numExpertsPerRank + e) =
      inp.pairsIn (d * sh.numNvlPeers + n) e c := by
  rw [← smemStreamingHist_apply inp hc hn he, streamingSend, kStreamSlabInts]
  congr 1
  ring

end Payload

end StreamEP.Internode
