import StreamEP.Internode.PhaseA

/-!
# The two hops of the metadata exchange (Phases A4 to B0)

A slab leaves rank `s * NUM_MAX_NVL_PEERS + n` for node `d`, lands at peer `n` of that node
in the slot of node `s`, and is passed on by peer `n` to peer `m` in the slot of peer `n`.
Both hops are exchanges through inboxes in which every slot has one writer, so a rank reads
what the senders counted for it, whatever its inboxes held before.

**Inboxes.**  A word of an inbox has an address of three numbers: the rank that reads it, the
slot, and the word in the slot.  All inboxes of one kind together are one memory, and what an
earlier dispatch left in them is `StaleSlabs`, arbitrary.  That a slot has one writer is a fact
about the ranks: `sameGpuIdx_alone` over RDMA, where a rank sends to those with its own number,
and `nodePeer_alone` within the node.

**What is passed on.**  The first hop carries counts for a whole node, of tokens for each peer
and of tokens for the node, and the streaming histogram.  The second hop picks out of them what
concerns one peer.  The tables are under the names of the kernel, each as a function of rank,
slot and word, and its lemma says what it holds over the inputs of the sender.

**The receive counters.**  `recvGblRankPrefixSum_apply` and `recvRdmaRankPrefixSum_apply` are sums
over what arrives: the tokens that come to the rank, source by source, and those that come to its
node over RDMA from the ranks with its number.  The buffers are sized by them.
-/

namespace StreamEP.Internode

open Finset

variable {sh : NodeShape} {Row Weight : Type}

/-- What the slabs held before the exchange. -/
structure StaleSlabs where
  countsSend : ℕ → ℕ × ℕ → ℕ
  counts : Exchange.Addr → ℕ
  streaming : Exchange.Addr → ℕ
  perRank : Exchange.Addr → ℕ
  perExpert : Exchange.Addr → ℕ
  nvlStreaming : Exchange.Addr → ℕ

section Exchange

variable (inps : ℕ → DispatchInputs sh.toShape Row Weight) (stale : StaleSlabs)

/-! ### A4: over RDMA, to the peers with the same number -/

/-- The peer of node `d` with the number of rank `r`. -/
def sameGpuIdx (sh : NodeShape) (r d : ℕ) : ℕ := d * sh.numNvlPeers + sh.nvlRank r

/-- `rdma_recv_num_tokens_mixed`, at rank, source node and word. -/
def rdmaRecvNumTokensMixed : Exchange.Addr → ℕ :=
  Exchange.inbox (sameGpuIdx sh) sh.rdmaRank sh.numRdmaRanks
    (sh.numNvlPeers + numRdmaExperts sh + 1)
    (fun r d j => countsSend (inps r) (stale.countsSend r) d j) sh.numRanks stale.counts

/-- `streaming_rdma_recv` -/
def streamingRdmaRecv : Exchange.Addr → ℕ :=
  Exchange.inbox (sameGpuIdx sh) sh.rdmaRank sh.numRdmaRanks (kStreamSlabInts sh)
    (fun r d j => streamingSend (inps r) d j) sh.numRanks stale.streaming

/-! ### A5: within the node -/

/-- Peer `m` of the node of rank `r`. -/
def nodePeer (sh : NodeShape) (r m : ℕ) : ℕ := sh.rdmaRank r * sh.numNvlPeers + m

/-- `nvl_reduced_num_tokens_per_expert`, at the experts of the node. -/
def nvlReducedNumTokensPerExpert (r j : ℕ) : ℕ :=
  ((List.range sh.numRdmaRanks).map fun i =>
    rdmaRecvNumTokensMixed inps stale (r, i, sh.numNvlPeers + j)).sum

/-- `recv_rdma_rank_prefix_sum` -/
def recvRdmaRankPrefixSum (r i : ℕ) : ℕ :=
  inclusive (fun i => rdmaRecvNumTokensMixed inps stale
    (r, i, sh.numNvlPeers + numRdmaExperts sh)) i

/-- `moe_recv_rdma_counter` -/
def moeRecvRdmaCounter (r : ℕ) : ℕ := recvRdmaRankPrefixSum inps stale r (sh.numRdmaRanks - 1)

/-- `nvl_recv_num_tokens_per_rank`, at rank, peer and source node. -/
def nvlRecvNumTokensPerRank : Exchange.Addr → ℕ :=
  Exchange.inbox (nodePeer sh) sh.nvlRank sh.numNvlPeers sh.numRdmaRanks
    (fun r m i => rdmaRecvNumTokensMixed inps stale (r, i, m)) sh.numRanks stale.perRank

/-- `nvl_recv_num_tokens_per_expert`, at rank, peer and local expert. -/
def nvlRecvNumTokensPerExpert : Exchange.Addr → ℕ :=
  Exchange.inbox (nodePeer sh) sh.nvlRank sh.numNvlPeers sh.numExpertsPerRank
    (fun r m i => nvlReducedNumTokensPerExpert inps stale r (m * sh.numExpertsPerRank + i))
    sh.numRanks stale.perExpert

/-- `recv_gbl_rank_prefix_sum` -/
def recvGblRankPrefixSum (r i : ℕ) : ℕ :=
  inclusive (fun i => nvlRecvNumTokensPerRank inps stale
    (r, i % sh.numNvlPeers, i / sh.numNvlPeers)) i

/-- `moe_recv_counter` -/
def moeRecvCounter (r : ℕ) : ℕ := recvGblRankPrefixSum inps stale r (sh.numRanks - 1)

/-- `moe_recv_expert_counter` -/
def moeRecvExpertCounter (expertAlignment r e : ℕ) : ℕ :=
  ceilDiv ((List.range sh.numNvlPeers).map fun i =>
    nvlRecvNumTokensPerExpert inps stale (r, i, e)).sum expertAlignment * expertAlignment

/-! ### B0: the streaming histogram within the node -/

/-- `nvl_streaming_recv`, at rank, peer and word. -/
def nvlStreamingRecv : Exchange.Addr → ℕ :=
  Exchange.inbox (nodePeer sh) sh.nvlRank sh.numNvlPeers (kNvlSlotInts sh)
    (fun r m idx =>
      let srcRdma := idx / (sh.numChannels * sh.numExpertsPerRank)
      let rem := idx - srcRdma * (sh.numChannels * sh.numExpertsPerRank)
      let c := rem / sh.numExpertsPerRank
      let e := rem - c * sh.numExpertsPerRank
      streamingRdmaRecv inps stale
        (r, srcRdma, (c * sh.numNvlPeers + m) * sh.numExpertsPerRank + e))
    sh.numRanks stale.nvlStreaming

end Exchange

/-! ### What arrives -/

section Arrives

variable {inps : ℕ → DispatchInputs sh.toShape Row Weight} {stale : StaleSlabs}

/-- Over RDMA only one rank writes to a slot. -/
theorem sameGpuIdx_alone {r d : ℕ} :
    ∀ r' < sh.numRanks, ∀ d' < sh.numRdmaRanks,
      sameGpuIdx sh r' d' = sameGpuIdx sh r d → sh.rdmaRank r' = sh.rdmaRank r →
        r' = r ∧ d' = d := by
  intro r' _ d' _ target slot
  obtain ⟨node, peer⟩ := (PrefixSum.flat_inj (NodeShape.nvlRank_lt r')
    (NodeShape.nvlRank_lt r)).1 target
  refine ⟨?_, node⟩
  rw [← @NodeShape.rank_eq sh r', ← @NodeShape.rank_eq sh r, slot, peer]

/-- Within the node only one peer writes to a slot. -/
theorem nodePeer_alone {r m : ℕ} (hm : m < sh.numNvlPeers) :
    ∀ r' < sh.numRanks, ∀ m' < sh.numNvlPeers,
      nodePeer sh r' m' = nodePeer sh r m → sh.nvlRank r' = sh.nvlRank r →
        r' = r ∧ m' = m := by
  intro r' _ m' hm' target slot
  obtain ⟨node, peer⟩ := (PrefixSum.flat_inj hm' hm).1 target
  refine ⟨?_, peer⟩
  rw [← @NodeShape.rank_eq sh r', ← @NodeShape.rank_eq sh r, slot, node]

variable {d s n m : ℕ}

/-- Peer `n` of node `d` holds what peer `n` of node `s` put for the node. -/
theorem rdmaRecvNumTokensMixed_apply (hd : d < sh.numRdmaRanks) (hs : s < sh.numRdmaRanks)
    (hn : n < sh.numNvlPeers) {j : ℕ} (hj : j < sh.numNvlPeers + numRdmaExperts sh + 1) :
    rdmaRecvNumTokensMixed inps stale (d * sh.numNvlPeers + n, s, j) =
      countsSend (inps (s * sh.numNvlPeers + n)) (stale.countsSend (s * sh.numNvlPeers + n))
        d j := by
  have here := Exchange.inbox_apply (fun r d j => countsSend (inps r) (stale.countsSend r) d j)
    (NodeShape.rank_lt hs hn) hd hj sameGpuIdx_alone stale.counts
  rwa [sameGpuIdx, NodeShape.nvlRank_flat hn, NodeShape.rdmaRank_flat hn] at here

theorem streamingRdmaRecv_apply (hd : d < sh.numRdmaRanks) (hs : s < sh.numRdmaRanks)
    (hn : n < sh.numNvlPeers) {j : ℕ} (hj : j < kStreamSlabInts sh) :
    streamingRdmaRecv inps stale (d * sh.numNvlPeers + n, s, j) =
      streamingSend (inps (s * sh.numNvlPeers + n)) d j := by
  have here := Exchange.inbox_apply (fun r d j => streamingSend (inps r) d j)
    (NodeShape.rank_lt hs hn) hd hj sameGpuIdx_alone stale.streaming
  rwa [sameGpuIdx, NodeShape.nvlRank_flat hn, NodeShape.rdmaRank_flat hn] at here

/-- What peer `n` of node `s` counted of its tokens for peer `m` of node `d`. -/
theorem nvlRecvNumTokensPerRank_apply (hd : d < sh.numRdmaRanks) (hs : s < sh.numRdmaRanks)
    (hn : n < sh.numNvlPeers) (hm : m < sh.numNvlPeers) :
    nvlRecvNumTokensPerRank inps stale (d * sh.numNvlPeers + m, n, s) =
      numRouted inps (d * sh.numNvlPeers + m) (s * sh.numNvlPeers + n) := by
  have here := Exchange.inbox_apply (fun r m i => rdmaRecvNumTokensMixed inps stale (r, i, m))
    (NodeShape.rank_lt hd hn) hm hs (nodePeer_alone hm) stale.perRank
  rw [nodePeer, NodeShape.nvlRank_flat hn, NodeShape.rdmaRank_flat hn] at here
  have word : m < sh.numNvlPeers + numRdmaExperts sh + 1 := by omega
  exact here.trans ((rdmaRecvNumTokensMixed_apply hd hs hn word).trans
    (countsSend_rank _ _ hd hm))

/-- The pairs that peer `n` of node `s` counted for expert `e` of peer `m` of node `d`. -/
theorem nvlStreamingRecv_apply (hd : d < sh.numRdmaRanks) (hs : s < sh.numRdmaRanks)
    (hn : n < sh.numNvlPeers) (hm : m < sh.numNvlPeers) {c e : ℕ} (hc : c < sh.numChannels)
    (he : e < sh.numExpertsPerRank) :
    nvlStreamingRecv inps stale (d * sh.numNvlPeers + m, n,
        (s * sh.numChannels + c) * sh.numExpertsPerRank + e) =
      (inps (s * sh.numNvlPeers + n)).pairsIn (d * sh.numNvlPeers + m) e c := by
  have flat : (s * sh.numChannels + c) * sh.numExpertsPerRank + e =
      s * (sh.numChannels * sh.numExpertsPerRank) + (c * sh.numExpertsPerRank + e) := by ring
  have inside : c * sh.numExpertsPerRank + e < sh.numChannels * sh.numExpertsPerRank :=
    PrefixSum.flat_lt hc he
  have word : (s * sh.numChannels + c) * sh.numExpertsPerRank + e < kNvlSlotInts sh :=
    PrefixSum.flat_lt (PrefixSum.flat_lt hs hc) he
  have slab : (c * sh.numNvlPeers + m) * sh.numExpertsPerRank + e < kStreamSlabInts sh :=
    PrefixSum.flat_lt (PrefixSum.flat_lt hc hm) he
  have here := Exchange.inbox_apply
    (fun r m idx =>
      let srcRdma := idx / (sh.numChannels * sh.numExpertsPerRank)
      let rem := idx - srcRdma * (sh.numChannels * sh.numExpertsPerRank)
      let c := rem / sh.numExpertsPerRank
      let e := rem - c * sh.numExpertsPerRank
      streamingRdmaRecv inps stale
        (r, srcRdma, (c * sh.numNvlPeers + m) * sh.numExpertsPerRank + e))
    (NodeShape.rank_lt hd hn) hm word (nodePeer_alone hm) stale.nvlStreaming
  rw [nodePeer, NodeShape.nvlRank_flat hn, NodeShape.rdmaRank_flat hn] at here
  refine here.trans ?_
  simp only [flat, PrefixSum.flat_div inside, Nat.add_sub_cancel_left, PrefixSum.flat_div he]
  rw [streamingRdmaRecv_apply hd hs hn slab, streamingSend_apply _ hc hm he]

/-! ### The receive counters -/

variable {g : ℕ}

/-- Tokens up to source rank `i` that come to the rank. -/
theorem recvGblRankPrefixSum_apply (hg : g < sh.numRanks) {i : ℕ} (hi : i < sh.numRanks) :
    recvGblRankPrefixSum inps stale g i = ∑ src ∈ range (i + 1), numRouted inps g src := by
  rw [recvGblRankPrefixSum, inclusive_eq_sum]
  refine sum_congr rfl fun src hsrc => ?_
  have inside : src < sh.numRanks := (Nat.lt_succ_iff.1 (mem_range.1 hsrc)).trans_lt hi
  have here := @nvlRecvNumTokensPerRank_apply sh Row Weight inps stale _ _ _ _
    (NodeShape.rdmaRank_lt hg) (NodeShape.rdmaRank_lt inside) (NodeShape.nvlRank_lt src)
    (NodeShape.nvlRank_lt g)
  rwa [NodeShape.rank_eq, NodeShape.rank_eq] at here

/-- Tokens for the node of the rank, from the ranks with its number on the nodes up to `i`. -/
theorem recvRdmaRankPrefixSum_apply (hg : g < sh.numRanks) {i : ℕ} (hi : i < sh.numRdmaRanks) :
    recvRdmaRankPrefixSum inps stale g i = ∑ s ∈ range (i + 1),
      Nat.count ((inps (s * sh.numNvlPeers + sh.nvlRank g)).InNode (sh.rdmaRank g))
        (inps (s * sh.numNvlPeers + sh.nvlRank g)).numTokens := by
  rw [recvRdmaRankPrefixSum, inclusive_eq_sum]
  refine sum_congr rfl fun s hs => ?_
  have inside : s < sh.numRdmaRanks := (Nat.lt_succ_iff.1 (mem_range.1 hs)).trans_lt hi
  have here := @rdmaRecvNumTokensMixed_apply sh Row Weight inps stale _ _ _
    (NodeShape.rdmaRank_lt hg) inside (NodeShape.nvlRank_lt g)
    _ (Nat.lt_succ_self (sh.numNvlPeers + numRdmaExperts sh))
  rw [NodeShape.rank_eq] at here
  exact here.trans (countsSend_node _ _ (NodeShape.rdmaRank_lt hg))

end Arrives

end StreamEP.Internode
