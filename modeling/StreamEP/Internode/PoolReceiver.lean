import Mathlib.Algebra.BigOperators.Ring.Finset
import StreamEP.Internode.EagerFire
import StreamEP.Internode.PhaseB
import StreamEP.Layout
import StreamEP.Lib.Batches
import StreamEP.Lib.Lanes
import StreamEP.SubstreamSlots

/-!
# The internode dispatch receiver

At rank `g`, one warp drains the NVLink ring of each (channel, peer).  Its tokens come from
the ranks with that peer's number on all nodes, one substream for each node, and the
forwarder of the peer mixes them on the ring.  The warp keeps a lane for every node: where
its recv-token ids have got to, what it has counted of each expert, and which experts it has
fired.

**The world.**  A `NodeWorld` is one internode dispatch over all ranks: their inputs, what the
inboxes of the metadata exchange held, and what the tables and tensors held before.  The tables of
a rank are those that the metadata kernels compute from it, and not assumed.

**What comes.**  A message is the token with its global expert numbers (`messageOf`); a
substream is the list of messages of one source (`messages`), and `Delivered` says of batches
that they are a mixture of the substreams of a warp.  The offsets at which the ids of a source
start are those of its header, which the forwarder passes on apart from the messages.

**One token.**  `receive` has the two passes of the code and the eager fire after them, and
returns what is stored and fired (`Taken`).  Before token `j` of its substream a lane satisfies
`LaneInv`: its id is `j` more than the first one, its counters are those of the first `j`
tokens, and the mask holds the experts that are complete.  `receive_inv` keeps it and determines
what is done to the token.

`taken_interleaves`: whatever the mixture and the batches, what is done to the tokens of one
source is what the routing determines.  It is the rule for warps with a lane for every source,
applied to `receive_inv`.
-/

namespace StreamEP.Internode

open Finset Loop

variable {sh : NodeShape} {Row Weight : Type}

/-- One internode dispatch over all ranks. -/
structure NodeWorld (sh : NodeShape) (Row Weight : Type) where
  inputs : ℕ → DispatchInputs sh.toShape Row Weight
  /-- What the slabs of the metadata exchange held before. -/
  slabs : StaleSlabs
  /-- `base_pool` of each rank before the metadata kernel. -/
  uninitPool : ℕ → ℕ → ℕ
  /-- Slots of an NVLink ring. -/
  numMaxNvlChunkedRecvTokens : ℕ
  /-- `slot_row` before Pass A. -/
  uninitSlot : ℕ → ℤ

/-- A token as the sender puts it into its message: experts are global. -/
def messageOf (inp : DispatchInputs sh.toShape Row Weight) (t : ℕ) :
    StreamEP.Packet Row Weight where
  x := inp.x t
  srcIdx := t
  topkIdx k := inp.topkIdx (t * sh.numTopk + k)
  topkWeights k := inp.topkWeights (t * sh.numTopk + k)

/-- The header of a channel for node `d`, by word. -/
def headerInt (inp : DispatchInputs sh.toShape Row Weight) (d c i : ℕ) : ℕ :=
  if i < sh.numNvlPeers then
    if c = 0 then 0
    else gblChannelPrefixMatrix inp ((d * sh.numNvlPeers + i) * sh.numChannels + c - 1)
  else if i < sh.numNvlPeers * 2 then
    gblChannelPrefixMatrix inp ((d * sh.numNvlPeers + i - sh.numNvlPeers) * sh.numChannels + c)
  else if i = sh.numNvlPeers * 2 then
    if c = 0 then 0 else rdmaChannelPrefixMatrix inp (d * sh.numChannels + c - 1)
  else rdmaChannelPrefixMatrix inp (d * sh.numChannels + c)

/-- The registers and counters of one source node. -/
structure ReceiverLane where
  totalOffset : ℕ
  /-- Its row of `warp_local_seen`. -/
  seen : ℕ → ℕ
  completedMask : ℕ

/-- What the warp does to one token: the stores, and after them the ranges it fires. -/
structure Taken (Row Weight : Type) where
  landed : Landed Row Weight
  fired : List (ℕ × ℕ)

namespace NodeWorld

variable (w : NodeWorld sh Row Weight) (g c n : ℕ)

/-! ### The tables of the rank -/

/-- `src_world` -/
def srcWorld (sh : NodeShape) (s n : ℕ) : ℕ := s * sh.numNvlPeers + n

/-- `seen_per_substream` -/
def seenTable : ℕ → ℕ := seenPerSubstream w.inputs w.slabs g

/-- `base_pool` -/
def baseTable : ℕ → ℕ := basePool w.inputs w.slabs g (w.uninitPool g)

/-- `base_pool_substream`, of the source on node `s`. -/
def basePoolSubstream (s e : ℕ) : ℕ :=
  w.baseTable g ((c * sh.numRanks + srcWorld sh s n) * sh.numExpertsPerRank + e)

/-- `expected`: what the source on node `s` has for each expert. -/
def expected (s e : ℕ) : ℕ :=
  w.seenTable g ((c * sh.numRanks + srcWorld sh s n) * sh.numExpertsPerRank + e)

/-! ### What the forwarder passes on of the header -/

/-- `start_offset`, of the source on node `s`. -/
def startOffset (s : ℕ) : ℕ :=
  headerInt (w.inputs (srcWorld sh s n)) (sh.rdmaRank g) c (sh.nvlRank g)

/-- `end_offset` -/
def endOffset (s : ℕ) : ℕ :=
  headerInt (w.inputs (srcWorld sh s n)) (sh.rdmaRank g) c (sh.numNvlPeers + sh.nvlRank g)

/-! ### The warp -/

/-- `total_offset` of a lane, also saved in `recv_gbl_channel_prefix_matrix`. -/
def totalOffset (s : ℕ) : ℕ :=
  (if 0 < srcWorld sh s n then recvGblRankPrefixSum w.inputs w.slabs g (srcWorld sh s n - 1)
    else 0) + w.startOffset g c n s

def laneInit (s : ℕ) : ReceiverLane := ⟨w.totalOffset g c n s, fun _ => 0, 0⟩

/-- The local experts of a message. -/
def eLocalRow (sh : NodeShape) (g : ℕ) (p : StreamEP.Packet Row Weight) (k : ℕ) : ℤ :=
  transformIdx sh.toShape g (p.topkIdx k)

/-- One token: Pass A, Pass B, and the eager fire. -/
def receive (s : ℕ) (lane : ReceiverLane) (p : StreamEP.Packet Row Weight) :
    ReceiverLane × Taken Row Weight :=
  let row := eLocalRow sh g p
  let alloc := for' sh.numTopk
    (fun a k => allocPair sh.toShape (w.basePoolSubstream g c n s) k (row k) a)
    ⟨lane.seen, w.uninitSlot⟩
  let newly := newlyComplete sh.numTopk (w.expected g c n s) alloc.seen row lane.completedMask
  ({ totalOffset := lane.totalOffset + 1
     seen := alloc.seen
     completedMask := lane.completedMask ||| newly },
    { landed :=
        { recvTokenId := lane.totalOffset
          packet := { p with topkIdx := row }
          slotRow := (List.range sh.numTopk).map alloc.batchSlot }
      fired := firedRanges sh.numTopk sh.numExpertsPerRank (w.expected g c n s) alloc.seen row
        lane.completedMask })

/-- `num_tokens_to_recv` -/
def numTokensToRecv : ℤ :=
  ∑ s ∈ range sh.numRdmaRanks, ((w.endOffset g c n s : ℤ) - w.startOffset g c n s)

/-- The warp of (channel `c`, peer `n`), after its last batch. -/
def nvlReceiver (batches : List (Batches.Batch (ℕ × StreamEP.Packet Row Weight))) :
    Batches.Consumer ((ℕ → ReceiverLane) × List (ℕ × Taken Row Weight)) :=
  Batches.drain w.numMaxNvlChunkedRecvTokens (Lanes.take (w.receive g c n)) batches
    ⟨0, w.numTokensToRecv g c n, w.laneInit g c n, []⟩

/-- What it did, token by token, with the source node of each. -/
def taken (batches : List (Batches.Batch (ℕ × StreamEP.Packet Row Weight))) :
    List (ℕ × Taken Row Weight) := (w.nvlReceiver g c n batches).regs.2

/-! ### What it is to receive -/

/-- The messages of the source on node `s`. -/
def messages (s : ℕ) : List (StreamEP.Packet Row Weight) :=
  (selected (w.inputs (srcWorld sh s n)) g c).map (messageOf (w.inputs (srcWorld sh s n)))

/-- The batches deliver a mixture of the substreams. -/
def Delivered (batches : List (Batches.Batch (ℕ × StreamEP.Packet Row Weight))) : Prop :=
  ∃ arrivals, Lanes.Interleaves sh.numRdmaRanks (w.messages g c n) arrivals ∧
    Batches.Delivers w.numMaxNvlChunkedRecvTokens arrivals 0 batches

/-- How the metadata kernel divides rank `g`'s pool. -/
def plan {g : ℕ} (hg : g < sh.numRanks) : PoolPlan sh.toShape w.inputs g :=
  phaseBPlan w.inputs w.slabs (w.uninitPool g) hg

/-- A message with local experts, as Pass B uses it. -/
def localMessage (src t : ℕ) : StreamEP.Packet Row Weight :=
  { messageOf (w.inputs src) t with topkIdx := eLocalRow sh g (messageOf (w.inputs src) t) }

/-- The message at position `j` of the substream from node `s`. -/
def localAt (s j : ℕ) : StreamEP.Packet Row Weight :=
  w.localMessage g (srcWorld sh s n)
    ((selected (w.inputs (srcWorld sh s n)) g c).getD j 0)

/-- What is done to it. -/
def takenAt (s j : ℕ) : Taken Row Weight where
  landed :=
    { recvTokenId := w.totalOffset g c n s + j
      packet := w.localAt g c n s j
      slotRow := (List.range sh.numTopk).map fun k =>
        slotAt sh.toShape (w.basePoolSubstream g c n s) (w.localAt g c n s) (j * sh.numTopk + k) }
  fired := firedAt sh.toShape (w.expected g c n s) (w.localAt g c n s) j

/-- What holds of a lane before token `j` of its substream. -/
structure LaneInv (s j : ℕ) (lane : ReceiverLane) : Prop where
  offset : lane.totalOffset = w.totalOffset g c n s + j
  seen : ∀ e < sh.numExpertsPerRank,
    lane.seen e = seenBefore sh.toShape (w.localAt g c n s) e (j * sh.numTopk)
  mask : MaskInv sh.toShape (w.expected g c n s) (w.localAt g c n s) (j * sh.numTopk)
    lane.completedMask

/-! ### One lane -/

variable {w g c n} {s : ℕ}

theorem srcWorld_lt (hs : s < sh.numRdmaRanks) (hn : n < sh.numNvlPeers) :
    srcWorld sh s n < sh.numRanks := NodeShape.rank_lt hs hn

theorem carriesExperts :
    CarriesExperts (w.inputs (srcWorld sh s n)) g c (w.localAt g c n s) := by
  intro t ht k _
  rw [localAt, List.getD_eq_getElem?_getD, getElem?_selected ht]
  rfl

theorem expected_eq (hg : g < sh.numRanks) (hc : c < sh.numChannels) (hs : s < sh.numRdmaRanks)
    (hn : n < sh.numNvlPeers) {e : ℕ} (he : e < sh.numExpertsPerRank) :
    w.expected g c n s e =
      substreamPairs w.inputs g e (c * sh.numRanks + srcWorld sh s n) :=
  seenPerSubstream_eq hg (PrefixSum.flat_lt hc (srcWorld_lt hs hn)) he

/-- The substream holds what is expected of it. -/
theorem seenBefore_all (hg : g < sh.numRanks) (hc : c < sh.numChannels)
    (hs : s < sh.numRdmaRanks) (hn : n < sh.numNvlPeers) {e : ℕ} (he : e < sh.numExpertsPerRank) :
    seenBefore sh.toShape (w.localAt g c n s) e
        ((w.messages g c n s).length * sh.numTopk) = w.expected g c n s e := by
  rw [messages, List.length_map, length_selected, expected_eq hg hc hs hn he]
  exact carriesExperts.seenBefore_all hg (srcWorld_lt hs hn) he

theorem getElem_messages {j : ℕ} (hj : j < (w.messages g c n s).length) :
    eLocalRow sh g (w.messages g c n s)[j] = (w.localAt g c n s j).topkIdx ∧
      { (w.messages g c n s)[j] with topkIdx := eLocalRow sh g (w.messages g c n s)[j] } =
        w.localAt g c n s j := by
  have hj : j < (selected (w.inputs (srcWorld sh s n)) g c).length := by
    simpa [messages] using hj
  simp only [messages, List.getElem_map, localAt, List.getD_eq_getElem?_getD,
    List.getElem?_eq_getElem hj, Option.getD_some]
  exact ⟨rfl, rfl⟩

/-- **One token keeps its lane's invariant**, and what is done to it is what its place in
its substream determines. -/
theorem receive_inv (hg : g < sh.numRanks) (hc : c < sh.numChannels) (hs : s < sh.numRdmaRanks)
    (hn : n < sh.numNvlPeers) {j : ℕ} (hj : j < (w.messages g c n s).length)
    {lane : ReceiverLane} (inv : w.LaneInv g c n s j lane) :
    w.LaneInv g c n s (j + 1) (w.receive g c n s lane (w.messages g c n s)[j]).1 ∧
      (w.receive g c n s lane (w.messages g c n s)[j]).2 = w.takenAt g c n s j := by
  obtain ⟨row, packet⟩ := getElem_messages hj
  have keys : ∀ k < sh.numTopk, eLocalRow sh g (w.messages g c n s)[j] k =
      pairKey sh.toShape (w.localAt g c n s) (j * sh.numTopk + k) := fun k hk => by
    rw [row, pairKey, PrefixSum.flat_div hk, PrefixSum.flat_mod hk]
  -- Pass A, position by position
  have allocated : AllocInv sh.toShape (w.basePoolSubstream g c n s) (w.localAt g c n s)
      (j * sh.numTopk) sh.numTopk (for' sh.numTopk
        (fun a k => allocPair sh.toShape (w.basePoolSubstream g c n s) k
          (eLocalRow sh g (w.messages g c n s)[j] k) a) ⟨lane.seen, w.uninitSlot⟩) := by
    refine for_invariant (AllocInv sh.toShape (w.basePoolSubstream g c n s)
      (w.localAt g c n s) (j * sh.numTopk)) ⟨inv.seen, fun _ hi => absurd hi (Nat.not_lt_zero _)⟩ ?_
    intro k hk a inv
    rw [keys k hk]
    exact allocPair_inv inv
  have next : j * sh.numTopk + sh.numTopk = (j + 1) * sh.numTopk := (Nat.succ_mul _ _).symm
  have counted := allocated.seen
  rw [next] at counted
  obtain ⟨mask, fired⟩ := eager_step keys counted (fun e he => by
    rw [← seenBefore_all hg hc hs hn he]
    exact seenBefore_mono (Nat.mul_le_mul_right _ hj)) inv.mask
  refine ⟨⟨?_, counted, mask⟩, ?_⟩
  · simp only [receive, inv.offset, Nat.add_assoc]
  · simp only [receive, takenAt, fired, inv.offset, packet]
    congr 2
    exact List.map_congr_left fun k hk => allocated.batchSlot k (List.mem_range.1 hk)

/-! ### The warp -/

theorem gblChannelPrefix_before {inp : DispatchInputs sh.toShape Row Weight} (hg : g < sh.numRanks)
    (hc : c < sh.numChannels) (later : c ≠ 0) :
    gblChannelPrefixMatrix inp (g * sh.numChannels + c - 1) =
      Nat.count (inp.InRank g) (channelStart inp.numTokens sh.numChannels c) := by
  obtain ⟨c, rfl⟩ := Nat.exists_eq_succ_of_ne_zero later
  have before : g * sh.numChannels + c.succ - 1 = g * sh.numChannels + c := rfl
  rw [before, gblChannelPrefixMatrix_apply inp hg (Nat.lt_of_succ_lt hc), channelEnd_eq]

theorem startOffset_eq (hg : g < sh.numRanks) (hc : c < sh.numChannels) :
    w.startOffset g c n s = Nat.count ((w.inputs (srcWorld sh s n)).InRank g)
      (channelStart (w.inputs (srcWorld sh s n)).numTokens sh.numChannels c) := by
  rw [startOffset, headerInt, if_pos (NodeShape.nvlRank_lt g), NodeShape.rank_eq]
  split_ifs with first
  · rw [first, channelStart_zero, Nat.count_zero]
  · exact gblChannelPrefix_before hg hc first

theorem endOffset_eq (hg : g < sh.numRanks) (hc : c < sh.numChannels) :
    w.endOffset g c n s = Nat.count ((w.inputs (srcWorld sh s n)).InRank g)
      (channelEnd (w.inputs (srcWorld sh s n)).numTokens sh.numChannels c) := by
  have peer := @NodeShape.nvlRank_lt sh g
  have word : sh.rdmaRank g * sh.numNvlPeers + (sh.numNvlPeers + sh.nvlRank g) -
      sh.numNvlPeers = g := by
    have := @NodeShape.rank_eq sh g
    omega
  rw [endOffset, headerInt, if_neg (by omega), if_pos (by omega), word,
    gblChannelPrefixMatrix_apply _ hg hc]

/-- The offsets announce the length of each substream. -/
theorem numTokensToRecv_eq (hg : g < sh.numRanks) (hc : c < sh.numChannels) :
    w.numTokensToRecv g c n = ∑ s ∈ range sh.numRdmaRanks, ((w.messages g c n s).length : ℤ) := by
  refine sum_congr rfl fun s _ => ?_
  have mono := Nat.count_monotone ((w.inputs (srcWorld sh s n)).InRank g)
    (channelStart_le_end (w.inputs (srcWorld sh s n)).numTokens sh.numChannels c)
  rw [startOffset_eq hg hc, endOffset_eq hg hc, messages, List.length_map, length_selected,
    DispatchInputs.tokensIn, Nat.cast_sub mono]

theorem laneInit_inv (s : ℕ) : w.LaneInv g c n s 0 (w.laneInit g c n s) where
  offset := rfl
  seen e _ := by simp [laneInit, seenBefore]
  mask e _ := by
    refine iff_of_false (by simp [laneInit]) ?_
    rintro ⟨pos, none⟩
    rw [Nat.zero_mul] at none
    exact absurd none (Nat.ne_of_lt pos)

/-- **The tokens of one source are treated as the routing determines**, for every mixture of
the sources and every delivery in batches. -/
theorem taken_interleaves (hg : g < sh.numRanks) (hc : c < sh.numChannels)
    (hn : n < sh.numNvlPeers) {batches : List (Batches.Batch (ℕ × StreamEP.Packet Row Weight))}
    (delivered : w.Delivered g c n batches) :
    Lanes.Interleaves sh.numRdmaRanks
      (fun s => (List.range (w.messages g c n s).length).map (w.takenAt g c n s))
      (w.taken g c n batches) := by
  obtain ⟨arrivals, mixed, delivers⟩ := delivered
  refine Lanes.drain_interleaves mixed delivers (numTokensToRecv_eq hg hc) (w.LaneInv g c n)
    (fun s _ => laneInit_inv s) ?_
  intro s hs j hj lane inv
  exact receive_inv hg hc hs hn hj inv

end NodeWorld

end StreamEP.Internode
