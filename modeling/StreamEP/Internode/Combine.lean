import StreamEP.Internode.CombineHeads
import StreamEP.Internode.DispatchGrads
import StreamEP.Internode.ForwardedStreams
import StreamEP.Internode.UsableHeads
import StreamEP.Intranode.Combine
import StreamEP.Lib.ReplayEntries
import StreamEP.Lib.TwoLevelRings

/-!
# Internode combine

A received token goes back the way it came.  Its rank sends it to the peer of the node that
forwarded it, over an NVLink ring of that peer; there the forwarders for the token's node add
up what the ranks of their node hold of the token, and put the sum into the RDMA ring of its
source, where the receivers add up what comes from the nodes.

**Nothing says which token a packet belongs to.**  A sender finds the ids of its tokens in
`recv_gbl_channel_prefix_matrix`, forwarders go by `send_nvl_head` and receivers by
`send_rdma_head`.  All three were left by dispatch, the second one by forwarder blocks whose
scans may overlap, so its entries are usable and not always exact.  `HeadsLeft` is the state in
which dispatch left them, a reachable and finished state of its forwarder blocks; the results
here hold for each such state.

**Entries that are followed.**  The library of two-level rings asks of the entries that a reader
who goes by them reads, for every token, just the packets of that token (`Follows`).  For the
first level this is `nvlEntries_follows`: a forwarder's entry for a token and a peer is the
number of earlier tokens that went to the peer, because both the source and the forwarder count
the same tokens (`pos_goes`).  A stale entry of a token that did not go to the peer does no harm
as long as it is negative.  For the second level it is `rdmaEntries_follows`, where the entries
are exact.

**Ranges.**  `nvlTokenStart_eq` to `numTokensPrefix_eq` connect the ranges that the warps compute
from four different tensors.

`combineSystem` is the combine of channel `c` at rank `g`: the rings of all ranks that hold
tokens of the channel, over two levels.  What they return is in `CombineSum`, and whether they
ever get there in `CombineProgress` and `CombineDeadlock`.
-/

namespace StreamEP.Internode

open Finset Loop LookAhead Stream Intranode ReplayRings

variable {sh : NodeShape} {Row Weight : Type}

namespace NodeWorld

variable (w : NodeWorld sh Row Weight)

/-! ### The ranges -/

variable (r f g c n s : ℕ)

/-- `token_start_idx` of the sender of rank `r` to peer `n`, for source node `s`. -/
def nvlTokenStart : ℕ :=
  let prefixIdx := (s * sh.numNvlPeers + n) * sh.numChannels + c
  w.recvGblChannelPrefixMatrix r prefixIdx

/-- `token_end_idx` -/
def nvlTokenEnd : ℕ :=
  let prefixIdx := (s * sh.numNvlPeers + n) * sh.numChannels + c
  if prefixIdx = sh.numChannels * sh.numRanks - 1 then moeRecvCounter w.inputs w.slabs r
  else w.recvGblChannelPrefixMatrix r (prefixIdx + 1)

variable (heads : NvlHeads)

/-- Tokens of node `s` in the channels before. -/
def numTokensBefore (sh : NodeShape) (heads : NvlHeads) (c s : ℕ) : ℕ :=
  if c = 0 then 0 else heads.recvRdmaChannelPrefixMatrix (s * sh.numChannels + c - 1)

/-- `num_tokens_to_combine` of the forwarders for node `s`. -/
def numTokensToCombine (sh : NodeShape) (heads : NvlHeads) (c s : ℕ) : ℕ :=
  heads.recvRdmaChannelPrefixMatrix (s * sh.numChannels + c) - numTokensBefore sh heads c s

/-- `num_tokens_prefix` -/
def numTokensPrefix : ℕ :=
  numTokensBefore sh heads c s +
    if s = 0 then 0 else recvRdmaRankPrefixSum w.inputs w.slabs f (s - 1)

/-! ### The two levels -/

variable (cfg : Config)

/-- The rings of rank `f` for the tokens of node `s`, one from each peer of its node. -/
def nvlEntries :
    EntryPlan (Fin numMaxNvlPeers) (Fin (numWarpsPerForwarder sh.numRdmaRanks)) where
  ringSize := cfg.numMaxNvlChunkedRecvTokens / sh.numRdmaRanks
  chunk := cfg.numMaxNvlChunkedSendTokens
  -- a sender waits for room for a whole chunk, even for the last tokens
  required numTokensInChunk := max numTokensInChunk cfg.numMaxNvlChunkedSendTokens
  total p :=
    w.nvlTokenEnd (sh.rdmaRank f * sh.numNvlPeers + p) c (sh.nvlRank f) s -
      w.nvlTokenStart (sh.rdmaRank f * sh.numNvlPeers + p) c (sh.nvlRank f) s
  tokens := forwarderTokens cfg (numTokensToCombine sh heads c s) _
  entries t p := heads.sendNvlHead (headCell p (w.numTokensPrefix f c s heads + t))
  leave expectedHead :=
    (if expectedHead < 0 then -expectedHead - 1 else expectedHead + 1).toNat

/-- The rings of rank `g`, one from each node; `heads` are what dispatch recorded at the ranks
that forward for it. -/
def rdmaEntries (heads : Fin sh.numRdmaRanks → NvlHeads) (uninit : ℕ → ℤ) :
    EntryPlan (Fin sh.numRdmaRanks) (Fin (numRdmaReceivers sh.numRdmaRanks)) where
  ringSize := cfg.numMaxRdmaChunkedRecvTokens
  chunk := cfg.numMaxRdmaChunkedSendTokens
  required numChunkedTokens := numChunkedTokens
  total d := numTokensToCombine sh (heads d) c (sh.rdmaRank g)
  tokens := receiverTokens (w.inputs g) c
  entries t d := sendRdmaHead (w.inputs g) uninit (t * sh.numRdmaRanks + d)
  -- a receiver leaves its head where it is when it is done with a token
  leave expectedHead := (if expectedHead < 0 then -expectedHead - 1 else expectedHead).toNat

/-- The packet at a position of the ring that peer `p` fills at rank `f`. -/
def nvlPayload {X W : Type} [Zero W] (io : CombineInputs X W) (p : Fin numMaxNvlPeers)
    (position : ℕ) : X × (ℕ → W) :=
  combinePacket sh.toShape io (sh.rdmaRank f * sh.numNvlPeers + p)
    (w.nvlTokenStart (sh.rdmaRank f * sh.numNvlPeers + p) c (sh.nvlRank f) s + position)

section System

variable (heads : Fin sh.numRdmaRanks → NvlHeads)

/-- The plan of the forwarders on node `d` for rank `g`. -/
def nvlPlan (d : Fin sh.numRdmaRanks) :=
  (w.nvlEntries (sameGpuIdx sh g d) c (sh.rdmaRank g) (heads d) cfg).plan

variable (uninit : ℕ → ℤ)

/-- The plan of the receivers. -/
def rdmaPlan := (w.rdmaEntries g c cfg heads uninit).plan

/-- All senders, forwarders, receivers and coordinators that work on channel `c` of rank `g`,
on rings that hold anything. -/
def combineSystem {X W : Type} [AddCommMonoid X] [AddCommMonoid W] (io : CombineInputs X W)
    (nvlSlots : Fin sh.numRdmaRanks → Fin numMaxNvlPeers → ℕ → X × (ℕ → W))
    (rdmaSlots : Fin sh.numRdmaRanks → ℕ → X × (ℕ → W)) :=
  TwoLevelRings.system (w.nvlPlan g c cfg heads) (w.rdmaPlan g c cfg heads uninit)
    (fun d => w.nvlPayload (sameGpuIdx sh g d) c (sh.rdmaRank g) io) nvlSlots rdmaSlots

end System

theorem rdmaRank_sameGpuIdx (g d : ℕ) : sh.rdmaRank (sameGpuIdx sh g d) = d :=
  NodeShape.rdmaRank_flat (NodeShape.nvlRank_lt g)

theorem nvlRank_sameGpuIdx (g d : ℕ) : sh.nvlRank (sameGpuIdx sh g d) = sh.nvlRank g :=
  NodeShape.nvlRank_flat (NodeShape.nvlRank_lt g)

theorem sameGpuIdx_lt (g : ℕ) (d : Fin sh.numRdmaRanks) : sameGpuIdx sh g d < sh.numRanks :=
  NodeShape.rank_lt d.isLt (NodeShape.nvlRank_lt g)

/-! ### Tokens of a forwarder by position -/

variable {w r f g c n s}

/-- **A forwarder counts the tokens for a peer as the source does.** -/
theorem pos_goes (hs : s < sh.numRdmaRanks) (hc : c < sh.numChannels) {p i t : ℕ}
    (hp : p < sh.numNvlPeers) (here : (w.nodeTokens f c (sh.nvlRank f) s)[i]? = some t) :
    pos ((w.recvTokens f).Goes p) ((w.recvTokens f).tokenStartIdx c s)
        ((w.recvTokens f).tokenStartIdx c s + i) =
      ringPos (w.inputs (srcWorld sh s (sh.nvlRank f)))
        (sh.rdmaRank f * sh.numNvlPeers + p) c t := by
  have toNode : ∀ x, (w.inputs (srcWorld sh s (sh.nvlRank f))).InRank
      (sh.rdmaRank f * sh.numNvlPeers + p) x →
        (w.inputs (srcWorld sh s (sh.nvlRank f))).InNode (sh.rdmaRank f) x :=
    fun _ goes => ⟨p, hp, goes⟩
  rw [← pos_shift]
  exact pos_of_places toNode (fun _ _ there => goes_iff hs hc there) here

/-! ### The range of a sender -/

section Range

variable (hr : r < sh.numRanks) (hc : c < sh.numChannels) (hs : s < sh.numRdmaRanks)
  (hn : n < sh.numNvlPeers)

include hr hc hs hn

/-- A sender starts at the id of its first token, -/
theorem nvlTokenStart_eq :
    w.nvlTokenStart r c n s = ∑ src ∈ range (srcWorld sh s n), numRouted w.inputs r src +
      Nat.count ((w.inputs (srcWorld sh s n)).InRank r)
        (channelStart (w.inputs (srcWorld sh s n)).numTokens sh.numChannels c) := by
  have before : (if 0 < srcWorld sh s n then
        recvGblRankPrefixSum w.inputs w.slabs r (srcWorld sh s n - 1) else 0) =
      ∑ src ∈ range (srcWorld sh s n), numRouted w.inputs r src := by
    have inside := srcWorld_lt hs hn
    split_ifs with first
    · rw [recvGblRankPrefixSum_apply hr (by omega), Nat.sub_add_cancel first]
    · rw [Nat.eq_zero_of_not_pos first, sum_range_zero]
  show w.recvGblChannelPrefixMatrix r (srcWorld sh s n * sh.numChannels + c) = _
  rw [recvGblChannelPrefixMatrix_eq hc hn, totalOffset, before, startOffset_eq hr hc]

/-- and ends at the next id that is not for its ring. -/
theorem nvlTokenEnd_eq :
    w.nvlTokenEnd r c n s = ∑ src ∈ range (srcWorld sh s n), numRouted w.inputs r src +
      Nat.count ((w.inputs (srcWorld sh s n)).InRank r)
        (channelEnd (w.inputs (srcWorld sh s n)).numTokens sh.numChannels c) := by
  have inside := srcWorld_lt hs hn
  have flat : sh.numChannels * sh.numRanks = sh.numRanks * sh.numChannels := Nat.mul_comm _ _
  rw [nvlTokenEnd, channelEnd_eq]
  by_cases more : c + 1 < sh.numChannels
  · -- the next channel of the same source
    have notLast : srcWorld sh s n * sh.numChannels + c ≠ sh.numChannels * sh.numRanks - 1 := by
      have row := Nat.mul_le_mul_right sh.numChannels (Nat.succ_le_of_lt inside)
      rw [Nat.succ_mul] at row
      omega
    exact (if_neg notLast).trans (nvlTokenStart_eq hr more hs hn)
  · have last : c + 1 = sh.numChannels := by omega
    rw [last, channelStart_last sh.numChannels_pos, ← numRouted, ← sum_range_succ]
    by_cases final : srcWorld sh s n + 1 = sh.numRanks
    · -- the last source of all
      have cell : srcWorld sh s n * sh.numChannels + c = sh.numChannels * sh.numRanks - 1 := by
        rw [flat, ← final, Nat.succ_mul]
        omega
      rw [final, ← moeRecvCounter_eq hr]
      exact if_pos cell
    · -- the first channel of the next source
      have next : srcWorld sh s n + 1 < sh.numRanks := by omega
      have same : srcWorld sh (sh.rdmaRank (srcWorld sh s n + 1))
          (sh.nvlRank (srcWorld sh s n + 1)) = srcWorld sh s n + 1 := NodeShape.rank_eq _
      have cell : srcWorld sh s n * sh.numChannels + c + 1 =
          (srcWorld sh s n + 1) * sh.numChannels + 0 := by
        rw [Nat.succ_mul]
        omega
      have notLast : srcWorld sh s n * sh.numChannels + c ≠
          sh.numChannels * sh.numRanks - 1 := by
        have row := Nat.mul_le_mul_right sh.numChannels (Nat.succ_le_of_lt next)
        have channels := sh.numChannels_pos
        rw [Nat.succ_mul] at row
        omega
      have start := nvlTokenStart_eq (w := w) hr sh.numChannels_pos (NodeShape.rdmaRank_lt next)
        (NodeShape.nvlRank_lt (srcWorld sh s n + 1))
      rw [same, channelStart_zero, Nat.count_zero] at start
      refine Eq.trans ?_ start
      refine (if_neg notLast).trans ?_
      show w.recvGblChannelPrefixMatrix r (srcWorld sh s n * sh.numChannels + c + 1) =
        w.recvGblChannelPrefixMatrix r (srcWorld sh _ _ * sh.numChannels + 0)
      rw [same, cell]

end Range

/-! ### What dispatch left at a forwarder -/

theorem rankPrefixSum_recvTokens (hf : f < sh.numRanks) (hs : s < sh.numRdmaRanks) :
    (w.recvTokens f).rankPrefixSum s =
      if s = 0 then 0 else recvRdmaRankPrefixSum w.inputs w.slabs f (s - 1) := by
  have whole : ∀ s', (w.recvTokens f).channelPrefix (w.recvTokens f).numChannels s' =
      Nat.count ((w.inputs (srcWorld sh s' (sh.nvlRank f))).InNode (sh.rdmaRank f))
        (w.inputs (srcWorld sh s' (sh.nvlRank f))).numTokens := by
    intro s'
    rw [channelPrefix_recvTokens]
    exact congrArg _ (channelStart_last sh.numChannels_pos _)
  unfold RecvTokens.rankPrefixSum
  simp only [whole]
  split_ifs with first
  · subst first
    rfl
  · rw [recvRdmaRankPrefixSum_apply hf (by omega), Nat.sub_add_cancel (by omega)]
    rfl

/-- A ring has as many packets as its forwarder sent tokens to the peer. -/
theorem pos_goes_all (hs : s < sh.numRdmaRanks) (hc : c < sh.numChannels) {p : ℕ}
    (hp : p < sh.numNvlPeers) :
    pos (fun i => (w.recvTokens f).Goes p ((w.recvTokens f).tokenStartIdx c s + i)) 0
        (w.nodeTokens f c (sh.nvlRank f) s).length =
      pos ((w.inputs (srcWorld sh s (sh.nvlRank f))).InRank (sh.rdmaRank f * sh.numNvlPeers + p))
        (channelStart (w.inputs (srcWorld sh s (sh.nvlRank f))).numTokens sh.numChannels c)
        (channelEnd (w.inputs (srcWorld sh s (sh.nvlRank f))).numTokens sh.numChannels c) :=
  pos_places (fun _ goes => ⟨p, hp, goes⟩) (channelStart_le_end _ _ _)
    fun _ _ there => goes_iff hs hc there

/-- The state in which dispatch left the forwarder blocks of rank `f`. -/
structure HeadsLeft (w : NodeWorld sh Row Weight) (f : ℕ) (heads : NvlHeads) : Prop where
  reach : (NvlHeads.system (w.recvTokens f)).Reachable heads
  ended : heads.Ended (w.recvTokens f)

section Left

variable {heads : NvlHeads} (left : w.HeadsLeft f heads) (hf : f < sh.numRanks)
  (hc : c < sh.numChannels) (hs : s < sh.numRdmaRanks)

include left hc hs

theorem numTokensBefore_eq :
    numTokensBefore sh heads c s = (w.recvTokens f).channelPrefix c s := by
  unfold numTokensBefore
  split_ifs with first
  · subst first
    rfl
  · have before : c - 1 < (w.recvTokens f).numChannels := (Nat.sub_le c 1).trans_lt hc
    have cell := NvlHeads.matrix_apply _ left.reach before hs (left.ended _ before).1
    rw [Nat.sub_add_cancel (Nat.pos_of_ne_zero first)] at cell
    rw [← cell, RecvTokens.matrixCell, Nat.add_sub_assoc (Nat.pos_of_ne_zero first)]
    rfl

/-- The forwarders combine the tokens that the blocks forwarded, -/
theorem numTokensToCombine_eq :
    numTokensToCombine sh heads c s = (w.nodeTokens f c (sh.nvlRank f) s).length := by
  have cell := NvlHeads.matrix_apply _ left.reach hc hs (left.ended c hc).1
  have next : (w.recvTokens f).channelPrefix (c + 1) s =
      (w.recvTokens f).channelPrefix c s + (w.recvTokens f).numTokens c s := sum_range_succ _ _
  rw [numTokensToCombine, numTokensBefore_eq left hc hs]
  show heads.recvRdmaChannelPrefixMatrix ((w.recvTokens f).matrixCell c s) - _ = _
  rw [cell, next, Nat.add_sub_cancel_left]
  rfl

include hf

/-- and find their entries where the blocks recorded them. -/
theorem numTokensPrefix_eq :
    w.numTokensPrefix f c s heads = (w.recvTokens f).tokenStartIdx c s := by
  rw [numTokensPrefix, numTokensBefore_eq left hc hs, RecvTokens.tokenStartIdx,
    rankPrefixSum_recvTokens hf hs]

end Left

/-! ### The entries are followed -/

/-- **The forwarders can go by what the blocks recorded**, in whatever order these scanned. -/
theorem nvlEntries_follows {heads : NvlHeads} (left : w.HeadsLeft f heads)
    (hf : f < sh.numRanks) (hc : c < sh.numChannels) (hs : s < sh.numRdmaRanks)
    (peers : sh.numNvlPeers = numMaxNvlPeers) {cfg : Config}
    (room : cfg.numMaxNvlChunkedSendTokens ≤ cfg.numMaxNvlChunkedRecvTokens / sh.numRdmaRanks) :
    (w.nvlEntries f c s heads cfg).Follows
      (fun p i => (w.recvTokens f).Goes p ((w.recvTokens f).tokenStartIdx c s + i)) 0
      (w.nodeTokens f c (sh.nvlRank f) s).length where
  chunk_le := room
  le_required n := le_max_left n _
  total p := by
    have hp : (p : ℕ) < sh.numNvlPeers := p.isLt.trans_eq peers.symm
    have hr := NodeShape.rank_lt (NodeShape.rdmaRank_lt hf) hp
    have hn : sh.nvlRank f < sh.numNvlPeers := NodeShape.nvlRank_lt f
    rw [pos_goes_all hs hc hp]
    show w.nvlTokenEnd _ c _ s - w.nvlTokenStart _ c _ s = _
    rw [nvlTokenEnd_eq hr hc hs hn, nvlTokenStart_eq hr hc hs hn, Nat.add_sub_add_left]
    rfl
  sorted := forwarderTokens_sorted (numWarpsPerForwarder_pos _)
  inside _ _ mem := by
    rw [← numTokensToCombine_eq left hc hs]
    exact ⟨Nat.zero_le _, forwarderTokens_lt mem⟩
  covers _ _ hi := by
    rw [← numTokensToCombine_eq left hc hs] at hi
    exact exists_mem_forwarderTokens cfg (numWarpsPerForwarder_pos _) hi
  usable p i _ hi := by
    have ends : (w.recvTokens f).tokenEndIdx c s = (w.recvTokens f).tokenStartIdx c s +
        (w.nodeTokens f c (sh.nvlRank f) s).length := RecvTokens.tokenEndIdx_eq c s
    have inside : (w.recvTokens f).tokenStartIdx c s + i < (w.recvTokens f).tokenEndIdx c s :=
      (Nat.add_lt_add_left hi _).trans_eq ends.symm
    have usable := NvlHeads.nvl_heads_usable _ left.reach hc hs p.isLt (left.ended c hc).1
      (Nat.le_add_right _ i) inside
    rw [ends] at usable
    show Usable _ _ _ _ (heads.sendNvlHead (headCell p (w.numTokensPrefix f c s heads + i)))
    rw [numTokensPrefix_eq left hf hc hs]
    exact usable.shift
  ends := forwarder_endsAt

/-- **The receivers can go by what the senders recorded.** -/
theorem rdmaEntries_follows {heads : Fin sh.numRdmaRanks → NvlHeads} (hg : g < sh.numRanks)
    (hc : c < sh.numChannels)
    (left : ∀ d : Fin sh.numRdmaRanks, w.HeadsLeft (sameGpuIdx sh g d) (heads d))
    (cfg : Config) (uninit : ℕ → ℤ) :
    (w.rdmaEntries g c cfg heads uninit).Follows (fun d => (w.inputs g).InNode d)
      (tokenStartIdx (w.inputs g) c) (tokenEndIdx (w.inputs g) c) where
  chunk_le := cfg.rdmaSend_lt_recv.le
  le_required _ := le_rfl
  total d := by
    have same : srcWorld sh (sh.rdmaRank g) (sh.nvlRank g) = g := NodeShape.rank_eq g
    show numTokensToCombine sh (heads d) c (sh.rdmaRank g) = _
    rw [numTokensToCombine_eq (left d) hc (NodeShape.rdmaRank_lt hg), length_nodeTokens,
      nvlRank_sameGpuIdx, rdmaRank_sameGpuIdx, same]
    rfl
  sorted _ := strided_sorted (numRdmaReceivers_pos sh.numRdmaRanks_pos)
  inside _ _ mem :=
    have ⟨lo, hi⟩ := inside_of_mem_strided mem
    ⟨(Nat.le_add_right _ _).trans lo, hi⟩
  covers t lo hi :=
    have warps := numRdmaReceivers_pos sh.numRdmaRanks_pos
    ⟨⟨(t - tokenStartIdx (w.inputs g) c) % numRdmaReceivers sh.numRdmaRanks,
      Nat.mod_lt _ warps⟩, mem_strided warps lo hi⟩
  usable d t lo hi := by
    show Usable _ _ _ _ (sendRdmaHead (w.inputs g) uninit (t * sh.numRdmaRanks + d))
    rw [sendRdmaHead_apply uninit d.isLt hc lo hi]
    exact usable_entry lo hi
  ends := receiver_endsAt

end NodeWorld

end StreamEP.Internode
