import StreamEP.Internode.PhaseB
import StreamEP.Intranode.MetadataRuns
import StreamEP.Lib.SlabChain

/-!
# The internode metadata exchange, dispatch after dispatch

Block 0 of Phase A exchanges counts over RDMA and then within the node, Phase B reads what has
come, and the next dispatch stores into the same regions.  There is no barrier at the beginning of
Phase A and none behind Phase B.

**Dispatches.**  Each has a routing of its own, and its own number of experts: a buffer pins the
ring config, the width of a row and the top-k, and with them where the two metadata regions begin,
but the slabs in a region are sized by the number of experts.  So a word is known by its place in
its region (`SlabCell.addr`), and a slab of one dispatch may lie over any other of the next.  All
slabs are here, those that puts leave from and the reduced counts included, as they lie in the
same regions: an NVLink chain and an RDMA chain of `SlabChain`.

**Stages.**  `MetadataStage` has what block 0 does in one dispatch, and Phase B and
`dispatch_main` after it: the kernels of a rank run one after the other.  A put takes its word
from the slab at any time up to the quiet of its issuer, and becomes visible up to then, one word
at a time and in any order; stores to a peer do up to the fence with which `barrier_block` begins.
Thread 32 may be at the last sync of Phase A while other threads still read the counts of the
peers, so that sync says only that a rank has begun to.  A `barrier_block` is left when all ranks
of the node have entered it, which is what its words achieve.

**What keeps a rank that is ahead from a slow one's slabs.**  It is `dispatch_main` in between.  A
forwarder waits for the header of every node, and a node sends it when its Phase A and Phase B are
done; a receiver waits for the prefixes of this dispatch from the forwarder of every peer, and a
peer has got as far then.  Both waits are made also where no token comes.

**Results.**  `metadata_counts_current`: in every run over any number of dispatches Phase A and
Phase B read in every word what its writer stored in the same dispatch, and that is what the
tables of one dispatch alone say (`MetadataExchange`); with it the intranode exchange.  All ranks
get to every stage of every dispatch (`twoNodes_counts_current`, for the second one's Phase B).
-/

namespace StreamEP

/-- The shape with another number of experts. -/
abbrev NodeShape.withExperts (sh : NodeShape) (numExpertsPerRank : ℕ+) : NodeShape :=
  { sh with toShape := sh.toShape.withExperts numExpertsPerRank }

namespace Internode

open Finset RepeatedExchange

variable {sh : NodeShape} {Row Weight : Type}

/-- What a rank does in one dispatch. -/
inductive MetadataStage where
  /-- A4: both slabs are built, -/
  | build
  /-- put, and quiet -/
  | put
  | sync
  /-- A5: reduce what came over RDMA, -/
  | reduce
  /-- and store counts to the peers -/
  | aggregate
  | barrier
  /-- the counters, with thread 32 at the next sync already -/
  | counters
  | finalSync
  | finalBarrier
  /-- B0: pass the streaming histograms on -/
  | exchange
  | exchangeBarrier
  | phaseB
  /-- `dispatch_main` publishes its headers and prefixes first -/
  | dispatchMain

def MetadataStage.idx : MetadataStage → ℕ
  | .build => 0
  | .put => 1
  | .sync => 2
  | .reduce => 3
  | .aggregate => 4
  | .barrier => 5
  | .counters => 6
  | .finalSync => 7
  | .finalBarrier => 8
  | .exchange => 9
  | .exchangeBarrier => 10
  | .phaseB => 11
  | .dispatchMain => 12

/-! ### Slabs -/

/-- Behind `metadata_rdma_offset`, and behind `nvl_metadata_offset`. -/
inductive MetadataRegion where
  | rdma
  | nvl
  deriving DecidableEq

/-- What the regions are carved into. -/
inductive SlabKind where
  /-- `rdma_recv_num_tokens_mixed.send_buffer` -/
  | countsSend
  /-- `rdma_recv_num_tokens_mixed.recv_buffer` -/
  | counts
  /-- `streaming_rdma_recv.send_buffer` -/
  | streamingSend
  /-- `streaming_rdma_recv.recv_buffer` -/
  | streaming
  /-- `nvl_reduced_num_tokens_per_expert` -/
  | reduced
  /-- `nvl_recv_num_tokens_per_rank` -/
  | perRank
  /-- `nvl_recv_num_tokens_per_expert` -/
  | perExpert
  /-- `nvl_streaming_recv` -/
  | nvlStreaming
  deriving DecidableEq

namespace SlabKind

instance : Fintype SlabKind where
  elems := {.countsSend, .counts, .streamingSend, .streaming, .reduced, .perRank, .perExpert,
    .nvlStreaming}
  complete kind := by cases kind <;> decide

def region : SlabKind → MetadataRegion
  | countsSend | counts | streamingSend | streaming => .rdma
  | reduced | perRank | perExpert | nvlStreaming => .nvl

/-- The place in the chain of the region. -/
def index : SlabKind → ℕ
  | countsSend | reduced => 0
  | counts | perRank => 1
  | streamingSend | perExpert => 2
  | streaming | nvlStreaming => 3

variable (sh : NodeShape)

/-- How many slabs there are, one for each node or peer. -/
def slots : SlabKind → ℕ
  | countsSend | counts | streamingSend | streaming => sh.numRdmaRanks
  | reduced => 1
  | perRank | perExpert | nvlStreaming => sh.numNvlPeers

/-- The words of one of them. -/
def words : SlabKind → ℕ
  | countsSend | counts => sh.numNvlPeers + numRdmaExperts sh + 1
  | streamingSend | streaming => kStreamSlabInts sh
  | reduced => numRdmaExperts sh
  | perRank => sh.numRdmaRanks
  | perExpert => sh.numExpertsPerRank
  | nvlStreaming => kNvlSlotInts sh

/-- A member of a chain, in words. -/
def member (kind : SlabKind) : SlabChain.Member := ⟨kind.words sh, kind.slots sh, 1⟩

/-- The chain of a region. -/
def chain : MetadataRegion → List SlabChain.Member
  | .rdma => [countsSend.member sh, counts.member sh, streamingSend.member sh, streaming.member sh]
  | .nvl => [reduced.member sh, perRank.member sh, perExpert.member sh, nvlStreaming.member sh]

variable {sh}

theorem member_chain (kind : SlabKind) :
    SlabChain.member (chain sh kind.region) kind.index = kind.member sh := by
  cases kind <;> rfl

theorem index_injective {kind kind' : SlabKind} (region : kind.region = kind'.region)
    (index : kind.index = kind'.index) : kind = kind' := by
  revert kind kind'
  decide

end SlabKind

/-- A word of a slab in one dispatch. -/
structure SlabCell (sh : NodeShape) where
  kind : SlabKind
  rank : Fin sh.numRanks
  slot : Fin (kind.slots sh)
  word : Fin (kind.words sh)
  deriving DecidableEq, Fintype

namespace SlabCell

/-- The rank it is on, its region, and its index in the region. -/
def addr (x : SlabCell sh) : Fin sh.numRanks × MetadataRegion × ℕ :=
  (x.rank, x.kind.region,
    SlabChain.slab (SlabKind.chain sh x.kind.region) x.kind.index 0 x.slot + x.word)

theorem has (x : SlabCell sh) :
    SlabChain.Has (SlabKind.chain sh x.kind.region) x.kind.index 0 x.slot := by
  rw [SlabChain.Has, SlabKind.member_chain]
  exact ⟨Nat.one_pos, x.slot.isLt⟩

theorem word_lt (x : SlabCell sh) :
    x.word < SlabChain.slabBytes (SlabKind.chain sh x.kind.region) x.kind.index := by
  rw [SlabChain.slabBytes, SlabKind.member_chain]
  exact x.word.isLt

theorem addr_injective : Function.Injective (addr : SlabCell sh → _) := by
  intro x y same
  simp only [addr, Prod.mk.injEq] at same
  obtain ⟨rank, region, place⟩ := same
  have inside := x.word_lt
  have inside' := y.word_lt
  have hasY := y.has
  rw [← region] at place inside' hasY
  by_cases slab : (x.kind.index, 0, (x.slot : ℕ)) = (y.kind.index, 0, (y.slot : ℕ))
  · simp only [Prod.mk.injEq, true_and] at slab
    obtain ⟨index, slot⟩ := slab
    rw [index, slot] at place
    have word := Nat.add_left_cancel place
    obtain ⟨kind, rankX, slotX, wordX⟩ := x
    obtain ⟨kind', rankY, slotY, wordY⟩ := y
    obtain rfl : kind = kind' := SlabKind.index_injective region index
    obtain rfl : rankX = rankY := rank
    obtain rfl : slotX = slotY := Fin.ext slot
    obtain rfl : wordX = wordY := Fin.ext word
    rfl
  · rcases SlabChain.slab_apart x.has hasY slab with before | after
    · omega
    · omega

end SlabCell

/-! ### Who stores and fetches -/

/-- The rank with the same number on another node, -/
def gpuPeer (rank : Fin sh.numRanks) (d : Fin sh.numRdmaRanks) : Fin sh.numRanks :=
  ⟨sameGpuIdx sh rank d, NodeShape.rank_lt d.isLt (NodeShape.nvlRank_lt _)⟩

/-- and another rank of the same node. -/
def nvlPeer (rank : Fin sh.numRanks) (m : Fin sh.numNvlPeers) : Fin sh.numRanks :=
  ⟨nodePeer sh rank m, NodeShape.rank_lt (NodeShape.rdmaRank_lt rank.isLt) m.isLt⟩

theorem nvlRank_gpuPeer (rank : Fin sh.numRanks) (d : Fin sh.numRdmaRanks) :
    sh.nvlRank (gpuPeer rank d) = sh.nvlRank rank :=
  NodeShape.nvlRank_flat (NodeShape.nvlRank_lt _)

theorem rdmaRank_nvlPeer (rank : Fin sh.numRanks) (m : Fin sh.numNvlPeers) :
    sh.rdmaRank (nvlPeer rank m) = sh.rdmaRank rank :=
  NodeShape.rdmaRank_flat m.isLt

namespace SlabCell

def writer : SlabCell sh → Fin sh.numRanks
  | ⟨.countsSend, rank, _, _⟩ => rank
  | ⟨.counts, rank, srcRdma, _⟩ => gpuPeer rank srcRdma
  | ⟨.streamingSend, rank, _, _⟩ => rank
  | ⟨.streaming, rank, srcRdma, _⟩ => gpuPeer rank srcRdma
  | ⟨.reduced, rank, _, _⟩ => rank
  | ⟨.perRank, rank, srcNvl, _⟩ => nvlPeer rank srcNvl
  | ⟨.perExpert, rank, srcNvl, _⟩ => nvlPeer rank srcNvl
  | ⟨.nvlStreaming, rank, srcNvl, _⟩ => nvlPeer rank srcNvl

def writeStage : SlabCell sh → MetadataStage
  | ⟨.countsSend, _, _, _⟩ => .build
  | ⟨.counts, _, _, _⟩ => .put
  | ⟨.streamingSend, _, _, _⟩ => .build
  | ⟨.streaming, _, _, _⟩ => .put
  | ⟨.reduced, _, _, _⟩ => .reduce
  | ⟨.perRank, _, _, _⟩ => .aggregate
  | ⟨.perExpert, _, _, _⟩ => .aggregate
  | ⟨.nvlStreaming, _, _, _⟩ => .exchange

def readStage : SlabCell sh → MetadataStage
  | ⟨.countsSend, _, _, _⟩ => .put
  -- the counts by expert are reduced, the others are passed on and added up
  | ⟨.counts, _, _, j⟩ =>
    if sh.numNvlPeers ≤ j ∧ j < sh.numNvlPeers + numRdmaExperts sh then .reduce else .aggregate
  | ⟨.streamingSend, _, _, _⟩ => .put
  | ⟨.streaming, _, _, _⟩ => .exchange
  | ⟨.reduced, _, _, _⟩ => .aggregate
  | ⟨.perRank, _, _, _⟩ => .counters
  | ⟨.perExpert, _, _, _⟩ => .counters
  | ⟨.nvlStreaming, _, _, _⟩ => .phaseB

/-- A rank is stored to by ranks with its number or of its node. -/
theorem writer_near (x : SlabCell sh) :
    sh.nvlRank x.writer = sh.nvlRank x.rank ∨ sh.rdmaRank x.writer = sh.rdmaRank x.rank := by
  obtain ⟨kind, rank, slot, word⟩ := x
  cases kind with
  | countsSend | streamingSend | reduced => exact Or.inl rfl
  | counts | streaming => exact Or.inl (nvlRank_gpuPeer rank slot)
  | perRank | perExpert | nvlStreaming => exact Or.inr (rdmaRank_nvlPeer rank slot)

end SlabCell

/-- Syncs are among the ranks with one number and barriers among those of a node; `dispatch_main`
waits for the headers of the former and for the prefixes of the latter. -/
def waits (k : ℕ) (r r' : Fin sh.numRanks) : Option ℕ :=
  if k = MetadataStage.sync.idx then
    if sh.nvlRank r = sh.nvlRank r' then some k else none
  else if k = MetadataStage.finalSync.idx then
    if sh.nvlRank r = sh.nvlRank r' then some MetadataStage.counters.idx else none
  else if k = MetadataStage.barrier.idx ∨ k = MetadataStage.finalBarrier.idx ∨
      k = MetadataStage.exchangeBarrier.idx then
    if sh.rdmaRank r = sh.rdmaRank r' then some k else none
  else if k = MetadataStage.dispatchMain.idx then
    if sh.nvlRank r = sh.nvlRank r' ∨ sh.rdmaRank r = sh.rdmaRank r' then some k else none
  else none

/-- A rank leaves `dispatch_main` when all that it may store to have got there. -/
theorem waits_dispatchMain {r r' : Fin sh.numRanks}
    (near : sh.nvlRank r = sh.nvlRank r' ∨ sh.rdmaRank r = sh.rdmaRank r') :
    waits MetadataStage.dispatchMain.idx r r' = some MetadataStage.dispatchMain.idx := by
  rw [waits, if_neg (by decide), if_neg (by decide), if_neg (by decide), if_pos rfl, if_pos near]

/-! ### What is stored -/

theorem perRank_word (rank : Fin sh.numRanks) :
    sh.nvlRank rank < sh.numNvlPeers + numRdmaExperts sh + 1 := by
  have := @NodeShape.nvlRank_lt sh rank
  omega

theorem reduced_word (j : Fin (numRdmaExperts sh)) :
    sh.numNvlPeers + j < sh.numNvlPeers + numRdmaExperts sh + 1 := by
  omega

/-- Local expert `e` of a rank among the experts of its node. -/
theorem perExpert_word (rank : Fin sh.numRanks) (e : Fin sh.numExpertsPerRank) :
    sh.nvlRank rank * sh.numExpertsPerRank + e < numRdmaExperts sh := by
  rw [numRdmaExperts_eq]
  exact PrefixSum.flat_lt (NodeShape.nvlRank_lt _) e.isLt

variable (sh) in
/-- `src_rdma` of a word of the inbox within the node, -/
def srcRdmaOf (idx : ℕ) : ℕ := idx / (sh.numChannels * sh.numExpertsPerRank)

variable (sh) in
/-- and the word of its slab that is passed on to peer `m`. -/
def slabWord (m idx : ℕ) : ℕ :=
  let rem := idx - srcRdmaOf sh idx * (sh.numChannels * sh.numExpertsPerRank)
  let c := rem / sh.numExpertsPerRank
  let e := rem - c * sh.numExpertsPerRank
  (c * sh.numNvlPeers + m) * sh.numExpertsPerRank + e

theorem srcRdmaOf_lt (idx : Fin (kNvlSlotInts sh)) : srcRdmaOf sh idx < sh.numRdmaRanks := by
  refine Nat.div_lt_of_lt_mul (idx.isLt.trans_eq ?_)
  rw [kNvlSlotInts]
  ring

theorem slabWord_lt (rank : Fin sh.numRanks) (idx : Fin (kNvlSlotInts sh)) :
    slabWord sh (sh.nvlRank rank) idx < kStreamSlabInts sh := by
  have experts := sh.numExpertsPerRank_pos
  have inside := Nat.mod_lt (idx : ℕ) (Nat.mul_pos sh.numChannels_pos experts)
  have split := Nat.div_add_mod' (idx : ℕ) (sh.numChannels * sh.numExpertsPerRank)
  have rest : (idx : ℕ) - srcRdmaOf sh idx * (sh.numChannels * sh.numExpertsPerRank) =
      idx % (sh.numChannels * sh.numExpertsPerRank) := by
    rw [srcRdmaOf]
    omega
  have lane : ∀ n : ℕ, n - n / sh.numExpertsPerRank * sh.numExpertsPerRank <
      sh.numExpertsPerRank := by
    intro n
    have split := Nat.div_add_mod' n sh.numExpertsPerRank
    have below := Nat.mod_lt n experts
    omega
  simp only [slabWord, rest]
  refine PrefixSum.flat_lt (PrefixSum.flat_lt ?_ (NodeShape.nvlRank_lt _)) (lane _)
  exact Nat.div_lt_of_lt_mul (inside.trans_eq (Nat.mul_comm _ _))

namespace SlabCell

variable (inps : ℕ → DispatchInputs sh.toShape Row Weight) (stale : StaleSlabs)

/-- What is stored in one dispatch, from what its writer has fetched in it. -/
def value (got : SlabCell sh → Option ℕ) : SlabCell sh → Option ℕ
  | ⟨.countsSend, rank, d, j⟩ => some (countsSend (inps rank) (stale.countsSend rank) d j)
  | ⟨.counts, rank, srcRdma, j⟩ =>
    got ⟨.countsSend, gpuPeer rank srcRdma, ⟨_, NodeShape.rdmaRank_lt rank.isLt⟩, j⟩
  | ⟨.streamingSend, rank, d, j⟩ => some (streamingSend (inps rank) d j)
  | ⟨.streaming, rank, srcRdma, j⟩ =>
    got ⟨.streamingSend, gpuPeer rank srcRdma, ⟨_, NodeShape.rdmaRank_lt rank.isLt⟩, j⟩
  | ⟨.reduced, rank, _, j⟩ =>
    let received (i : Fin sh.numRdmaRanks) := got ⟨.counts, rank, i, ⟨_, reduced_word j⟩⟩
    if ∀ i, (received i).isSome then some (∑ i, (received i).getD 0) else none
  | ⟨.perRank, rank, srcNvl, i⟩ =>
    got ⟨.counts, nvlPeer rank srcNvl, i, ⟨_, perRank_word rank⟩⟩
  | ⟨.perExpert, rank, srcNvl, e⟩ =>
    got ⟨.reduced, nvlPeer rank srcNvl, ⟨0, Nat.one_pos⟩, ⟨_, perExpert_word rank e⟩⟩
  | ⟨.nvlStreaming, rank, srcNvl, idx⟩ =>
    got ⟨.streaming, nvlPeer rank srcNvl, ⟨_, srcRdmaOf_lt idx⟩, ⟨_, slabWord_lt rank idx⟩⟩

/-- What one dispatch by itself leaves in the slabs. -/
def table : SlabCell sh → ℕ
  | ⟨.countsSend, rank, d, j⟩ => countsSend (inps rank) (stale.countsSend rank) d j
  | ⟨.counts, rank, srcRdma, j⟩ => rdmaRecvNumTokensMixed inps stale (rank, srcRdma, j)
  | ⟨.streamingSend, rank, d, j⟩ => streamingSend (inps rank) d j
  | ⟨.streaming, rank, srcRdma, j⟩ => streamingRdmaRecv inps stale (rank, srcRdma, j)
  | ⟨.reduced, rank, _, j⟩ => nvlReducedNumTokensPerExpert inps stale rank j
  | ⟨.perRank, rank, srcNvl, i⟩ => nvlRecvNumTokensPerRank inps stale (rank, srcNvl, i)
  | ⟨.perExpert, rank, srcNvl, e⟩ => nvlRecvNumTokensPerExpert inps stale (rank, srcNvl, e)
  | ⟨.nvlStreaming, rank, srcNvl, idx⟩ => nvlStreamingRecv inps stale (rank, srcNvl, idx)

/-- A slot within the node holds what its peer has sent. -/
theorem nodeInbox_apply (rank : Fin sh.numRanks) (srcNvl : Fin sh.numNvlPeers) {len j : ℕ}
    (hj : j < len) (send : ℕ → ℕ → ℕ → ℕ) (old : Exchange.Addr → ℕ) :
    Exchange.inbox (nodePeer sh) sh.nvlRank sh.numNvlPeers len send sh.numRanks old
      (rank, srcNvl, j) = send (nvlPeer rank srcNvl) (sh.nvlRank rank) j := by
  have here := Exchange.inbox_apply send (nvlPeer rank srcNvl).isLt
    (@NodeShape.nvlRank_lt sh rank) hj (nodePeer_alone (NodeShape.nvlRank_lt _)) old
  have target : nodePeer sh (nvlPeer rank srcNvl) (sh.nvlRank rank) = rank := by
    rw [nodePeer, rdmaRank_nvlPeer]
    exact NodeShape.rank_eq _
  have slot : sh.nvlRank (nvlPeer rank srcNvl) = srcNvl := NodeShape.nvlRank_flat srcNvl.isLt
  rwa [target, slot] at here

/-- The tables agree with what is stored from their own entries. -/
theorem value_eq_table {got : SlabCell sh → Option ℕ}
    (agrees : ∀ y v, got y = some v → v = y.table inps stale) {x : SlabCell sh} {v : ℕ}
    (stored : x.value inps stale got = some v) : v = x.table inps stale := by
  obtain ⟨kind, rank, slot, word⟩ := x
  cases kind with
  | countsSend | streamingSend => exact (Option.some.inj stored).symm
  | counts =>
    have here := @rdmaRecvNumTokensMixed_apply sh Row Weight inps stale _ _ _
      (NodeShape.rdmaRank_lt rank.isLt) slot.isLt (NodeShape.nvlRank_lt rank) _ word.isLt
    rw [NodeShape.rank_eq] at here
    exact (agrees _ v stored).trans here.symm
  | streaming =>
    have here := @streamingRdmaRecv_apply sh Row Weight inps stale _ _ _
      (NodeShape.rdmaRank_lt rank.isLt) slot.isLt (NodeShape.nvlRank_lt rank) _ word.isLt
    rw [NodeShape.rank_eq] at here
    exact (agrees _ v stored).trans here.symm
  | reduced =>
    obtain ⟨all, sum⟩ := Option.ite_none_right_eq_some.1 stored
    obtain rfl := Option.some.inj sum
    show _ = ∑ i ∈ range sh.numRdmaRanks, _
    rw [← Fin.sum_univ_eq_sum_range (fun i => rdmaRecvNumTokensMixed inps stale (rank, i, _))]
    refine sum_congr rfl fun i _ => ?_
    obtain ⟨w, got⟩ := Option.isSome_iff_exists.1 (all i)
    rw [got]
    exact agrees _ w got
  | perRank =>
    exact (agrees _ v stored).trans (nodeInbox_apply rank slot word.isLt
      (fun r m i => rdmaRecvNumTokensMixed inps stale (r, i, m)) _).symm
  | perExpert =>
    exact (agrees _ v stored).trans (nodeInbox_apply rank slot word.isLt
      (fun r m i => nvlReducedNumTokensPerExpert inps stale r
        (m * sh.numExpertsPerRank + i)) _).symm
  | nvlStreaming =>
    exact (agrees _ v stored).trans (nodeInbox_apply rank slot word.isLt
      (fun r m idx => streamingRdmaRecv inps stale
        (r, srcRdmaOf sh idx, slabWord sh m idx)) _).symm

/-- What is stored needs what its writer has fetched by then. -/
theorem isSome_value {got : SlabCell sh → Option ℕ} {x : SlabCell sh}
    (before : ∀ y : SlabCell sh, y.rank = x.writer →
      y.readStage.idx ≤ x.writeStage.idx → (got y).isSome) :
    (x.value inps stale got).isSome := by
  obtain ⟨kind, rank, slot, word⟩ := x
  cases kind with
  | countsSend | streamingSend => rfl
  | counts | streaming => exact before _ rfl (by decide : 1 ≤ 1)
  | reduced =>
    have received : ∀ i, (got ⟨.counts, rank, i, ⟨_, reduced_word word⟩⟩).isSome := by
      refine fun i => before _ rfl (le_of_eq ?_)
      exact congrArg MetadataStage.idx
        (if_pos ⟨Nat.le_add_right _ _, Nat.add_lt_add_left word.isLt _⟩)
    exact congrArg Option.isSome (if_pos received)
  | perRank =>
    refine before _ rfl ?_
    show (if _ then MetadataStage.reduce else MetadataStage.aggregate).idx ≤ 4
    split_ifs <;> decide
  | perExpert => exact before _ rfl (by decide : 4 ≤ 4)
  | nvlStreaming => exact before _ rfl (by decide : 9 ≤ 9)

end SlabCell

/-! ### All dispatches -/

section Runs

variable (experts : ℕ → ℕ+)
  (inps : (it : ℕ) → ℕ → DispatchInputs (sh.withExperts (experts it)).toShape Row Weight)
  (stale : ℕ → StaleSlabs)

/-- Phase A, Phase B, and the headers and prefixes of every dispatch. -/
def metadataStages : Stages (Fin sh.numRanks) (Fin sh.numRanks × MetadataRegion × ℕ) ℕ
    fun it => SlabCell (sh.withExperts (experts it)) where
  numStages := 13
  addr _ := SlabCell.addr
  writer _ := SlabCell.writer
  reader _ := SlabCell.rank
  writeStage _ x := x.writeStage.idx
  readStage _ x := x.readStage.idx
  write_lt _ x := by
    cases x.writeStage <;> decide
  read_lt _ x := by
    cases x.readStage <;> decide
  waits := waits
  value it x got := x.value (inps it) (stale it) got

/-- Everything is read before `dispatch_main`. -/
theorem readStage_lt (x : SlabCell sh) : x.readStage.idx < MetadataStage.dispatchMain.idx := by
  obtain ⟨kind, rank, slot, word⟩ := x
  cases kind with
  | counts =>
    show (if _ then MetadataStage.reduce else MetadataStage.aggregate).idx < 12
    split_ifs <;> decide
  | _ => exact Nat.le_of_ble_eq_true rfl

/-- A reader has been at the sync or at the barrier behind the store. -/
theorem knows_writer (x : SlabCell sh) :
    x.rank = x.writer ∧ x.writeStage.idx < x.readStage.idx ∨
      ∃ k < x.readStage.idx, ∃ k' ∈ waits k x.rank x.writer, x.writeStage.idx < k' := by
  obtain ⟨kind, rank, slot, word⟩ := x
  cases kind with
  | countsSend | streamingSend => exact Or.inl ⟨rfl, (by decide : 0 < 1)⟩
  | reduced => exact Or.inl ⟨rfl, (by decide : 3 < 4)⟩
  | counts =>
    refine Or.inr ⟨2, ?_, 2, if_pos (nvlRank_gpuPeer rank slot).symm, (by decide : 1 < 2)⟩
    show 2 < (if _ then MetadataStage.reduce else MetadataStage.aggregate).idx
    split_ifs <;> decide
  | streaming => exact Or.inr ⟨2, (by decide : 2 < 9), 2,
      if_pos (nvlRank_gpuPeer rank slot).symm, (by decide : 1 < 2)⟩
  | perRank | perExpert => exact Or.inr ⟨5, (by decide : 5 < 6), 5,
      if_pos (rdmaRank_nvlPeer rank slot).symm, (by decide : 4 < 5)⟩
  | nvlStreaming => exact Or.inr ⟨10, (by decide : 10 < 11), 10,
      if_pos (rdmaRank_nvlPeer rank slot).symm, (by decide : 9 < 10)⟩

theorem metadata_sound : Sound (metadataStages experts inps stale) where
  fresh _ x := knows_writer x
  alone _ := SlabCell.addr_injective
  -- between two dispatches the writer has been through `dispatch_main`
  free i j x y _ same := by
    have rank : x.rank = y.rank := congrArg Prod.fst same
    have met : waits _ y.writer x.rank = some _ := waits_dispatchMain (rank ▸ y.writer_near)
    exact Or.inl ⟨_, (by decide : 12 < 13), _, met, readStage_lt x⟩

theorem metadata_live : Live (metadataStages experts inps stale) where
  waits_le k r r' k' met := by
    have met : waits k r r' = some k' := met
    rw [waits] at met
    split_ifs at met with sync same last
    all_goals obtain rfl := Option.some.inj met
    · exact le_rfl
    · rw [last]
      decide
    · exact le_rfl
    · exact le_rfl
  defined it _ _ before := SlabCell.isSome_value (inps it) (stale it) before

theorem metadata_tabulated : Tabulated (metadataStages experts inps stale)
    fun it x => x.table (inps it) (stale it) :=
  fun it _ _ agrees _ stored => SlabCell.value_eq_table (inps it) (stale it) agrees stored

theorem metadata_current {before : Fin sh.numRanks × MetadataRegion × ℕ → ℕ}
    {s : Transfers.State (Fin sh.numRanks) _ (Fin sh.numRanks × MetadataRegion × ℕ) ℕ}
    (reach : (Transfers.system (metadataStages experts inps stale).protocol before).Reachable s) :
    Transfers.Current (metadataStages experts inps stale).protocol
      (fun x => x.2.table (inps x.1) (stale x.1)) s :=
  current_of_reachable (metadata_sound experts inps stale) (metadata_tabulated experts inps stale)
    reach

end Runs

/-- **Every count is read in the dispatch in which it was stored**, among nodes and inside one. -/
theorem metadata_counts_current (Row Weight : Type) :
    (∀ (sh : NodeShape) (experts : ℕ → ℕ+)
        (inps : (it : ℕ) → ℕ → DispatchInputs (sh.withExperts (experts it)).toShape Row Weight)
        (stale : ℕ → StaleSlabs) (before : Fin sh.numRanks × MetadataRegion × ℕ → ℕ)
        (s : Transfers.State (Fin sh.numRanks) (Σ it, SlabCell (sh.withExperts (experts it)))
          (Fin sh.numRanks × MetadataRegion × ℕ) ℕ),
      (Transfers.system (metadataStages experts inps stale).protocol before).Reachable s →
        Transfers.Current (metadataStages experts inps stale).protocol
          (fun x => x.2.table (inps x.1) (stale x.1)) s) ∧
    ∀ (sh : Shape) (experts : ℕ → ℕ+)
        (inps : (it : ℕ) → ℕ → DispatchInputs (sh.withExperts (experts it)) Row Weight)
        (stale : ℕ → ℕ → ℕ) (before : Fin sh.numRanks × ℕ → ℕ)
        (s : Transfers.State (Fin sh.numRanks)
          (Σ it, Intranode.InboxCell (sh.withExperts (experts it))) (Fin sh.numRanks × ℕ) ℕ),
      (Transfers.system (Intranode.metadataStages experts inps).protocol before).Reachable s →
        Transfers.Current (Intranode.metadataStages experts inps).protocol
          (fun x => x.2.table (inps x.1) (stale x.1)) s :=
  ⟨fun _ experts inps stale _ _ reach => metadata_current experts inps stale reach,
    fun _ experts inps stale _ _ reach => Intranode.metadata_current experts inps stale reach⟩

/-- Twice the experts, and tokens for the same ranks as in `exampleNodeInputs`. -/
def exampleMoreInputs : DispatchInputs (exampleNodes.withExperts (Nat.succPNat 1)).toShape ℕ ℕ where
  numTokens := 3
  x t := t
  topkIdx p := [7, 0, 2, -1, 4, 7].getD p (-1)
  topkWeights p := p + 1
  isTokenInRank i := [true, false, false, true, false, true, false, false,
    false, false, true, true].getD i false
  topkIdx_lower := by decide
  topkIdx_upper := by decide
  topkIdx_distinct := by decide
  isTokenInRank_iff := by decide

/-- From the second dispatch on there are more experts. -/
def exampleExperts : ℕ → ℕ+
  | 0 => Nat.succPNat 0
  | _ + 1 => Nat.succPNat 1

def exampleDispatches : (it : ℕ) → ℕ →
    DispatchInputs (exampleNodes.withExperts (exampleExperts it)).toShape ℕ ℕ
  | 0 => exampleNodesInputs
  | _ + 1 => fun _ => exampleMoreInputs

/-- Two nodes whose ranks are all about to read in Phase B of the second dispatch, and the ranks
of one node there. -/
theorem twoNodes_counts_current :
    (∃ s, (Transfers.system (metadataStages exampleExperts exampleDispatches
          fun _ => exampleSlabs).protocol fun _ => 7).Reachable s ∧
      (∀ r, s.clock r = 13 + MetadataStage.phaseB.idx) ∧
      Transfers.Current (metadataStages exampleExperts exampleDispatches
          fun _ => exampleSlabs).protocol
        (fun x => x.2.table (exampleDispatches x.1) exampleSlabs) s) ∧
    ∃ s, (Transfers.system (@Intranode.metadataStages exampleNodes.toShape ℕ ℕ exampleExperts
          exampleDispatches).protocol fun _ => 7).Reachable s ∧
      (∀ r, s.clock r = 4 + Intranode.MetadataStage.phaseB.idx) ∧
      Transfers.Current (@Intranode.metadataStages exampleNodes.toShape ℕ ℕ exampleExperts
          exampleDispatches).protocol
        (fun x => x.2.table (exampleDispatches x.1) fun _ => 7) s := by
  obtain ⟨s, reach, clock⟩ := Transfers.exists_reachable
    (metadata_sound exampleExperts exampleDispatches fun _ => exampleSlabs).protocol
    (metadata_live _ _ _).protocol (fun _ => 7) (13 + MetadataStage.phaseB.idx)
  obtain ⟨s', reach', clock'⟩ := Transfers.exists_reachable
    (@Intranode.metadata_sound exampleNodes.toShape ℕ ℕ exampleExperts exampleDispatches).protocol
    (Intranode.metadata_live _ _).protocol (fun _ => 7) (4 + Intranode.MetadataStage.phaseB.idx)
  exact ⟨⟨s, reach, clock, (metadata_counts_current ℕ ℕ).1 _ _ _ (fun _ => exampleSlabs) _ _ reach⟩,
    ⟨s', reach', clock',
      (metadata_counts_current ℕ ℕ).2 _ _ _ (fun _ _ => 7) _ _ reach'⟩⟩

end Internode

end StreamEP
