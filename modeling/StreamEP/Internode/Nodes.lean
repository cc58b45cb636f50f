import StreamEP.Substream

/-!
# Nodes

Internode, the ranks are arranged in nodes: rank `d * NUM_MAX_NVL_PEERS + n` is peer `n`
of node `d`.  Peers of one node reach each other over NVLink, and peers with the same
number on different nodes over RDMA, so whatever goes from a rank to an arbitrary other
one takes two hops.

A `NodeShape` is a `Shape` whose ranks fill a whole number of nodes, so that everything about
routing and pools applies to it as it is; `rdmaRank` and `nvlRank` are the two numbers of a
rank, and `rank_eq` puts them together again.

The number of peers is a parameter here.  Where the warps of a block are counted, it is
`numMaxNvlPeers`; the other counts of warps are beside it.
-/

namespace StreamEP

open Finset

/-- The sizes of an internode dispatch. -/
structure NodeShape extends Shape where
  /-- `kNumRDMARanks`: the nodes. -/
  numRdmaRanks : ℕ
  /-- `NUM_MAX_NVL_PEERS`: the ranks of a node. -/
  numNvlPeers : ℕ
  numRanks_eq : numRanks = numRdmaRanks * numNvlPeers

namespace NodeShape

variable (sh : NodeShape)

/-- `rdma_rank` -/
def rdmaRank (rank : ℕ) : ℕ := rank / sh.numNvlPeers

/-- `nvl_rank` -/
def nvlRank (rank : ℕ) : ℕ := rank % sh.numNvlPeers

theorem numNvlPeers_pos : 0 < sh.numNvlPeers := by
  have ranks := sh.numRanks_pos
  rw [sh.numRanks_eq] at ranks
  exact Nat.pos_of_mul_pos_left ranks

theorem numRdmaRanks_pos : 0 < sh.numRdmaRanks := by
  have ranks := sh.numRanks_pos
  rw [sh.numRanks_eq] at ranks
  exact Nat.pos_of_mul_pos_right ranks

variable {sh} {d n rank : ℕ}

theorem rank_lt (hd : d < sh.numRdmaRanks) (hn : n < sh.numNvlPeers) :
    d * sh.numNvlPeers + n < sh.numRanks := by
  rw [sh.numRanks_eq]
  exact PrefixSum.flat_lt hd hn

theorem nvlRank_lt (rank : ℕ) : sh.nvlRank rank < sh.numNvlPeers :=
  Nat.mod_lt _ sh.numNvlPeers_pos

theorem rdmaRank_lt (h : rank < sh.numRanks) : sh.rdmaRank rank < sh.numRdmaRanks := by
  rw [sh.numRanks_eq] at h
  exact (Nat.div_lt_iff_lt_mul sh.numNvlPeers_pos).2 h

theorem rank_eq (rank : ℕ) :
    sh.rdmaRank rank * sh.numNvlPeers + sh.nvlRank rank = rank := Nat.div_add_mod' _ _

theorem rdmaRank_flat (hn : n < sh.numNvlPeers) :
    sh.rdmaRank (d * sh.numNvlPeers + n) = d := PrefixSum.flat_div hn

theorem nvlRank_flat (hn : n < sh.numNvlPeers) :
    sh.nvlRank (d * sh.numNvlPeers + n) = n := PrefixSum.flat_mod hn

end NodeShape

/-! ### Tokens that go to a node -/

namespace DispatchInputs

variable {sh : NodeShape} {Row Weight : Type} (inp : DispatchInputs sh.toShape Row Weight)

/-- The token goes to some rank of node `d`. -/
def InNode (d t : ℕ) : Prop := ∃ n < sh.numNvlPeers, inp.InRank (d * sh.numNvlPeers + n) t

instance (d t : ℕ) : Decidable (inp.InNode d t) :=
  inferInstanceAs (Decidable (∃ n < sh.numNvlPeers, _))

end DispatchInputs

/-! ### Warps of a block -/

namespace Internode

/-- `kNumDispatchRDMASenderWarps`. -/
abbrev numDispatchRdmaSenderWarps : ℕ := 7

/-- `NUM_MAX_NVL_PEERS`; a dispatch block has one forwarder warp for each. -/
abbrev numMaxNvlPeers : ℕ := 8

theorem numMaxNvlPeers_pos : 0 < numMaxNvlPeers := Nat.succ_pos 7

/-- `kNumCombineForwarderWarps`. -/
abbrev numCombineForwarderWarps : ℕ := 24

/-- The nodes when there are two. -/
def firstNode : Fin 2 := ⟨0, Nat.two_pos⟩

def secondNode : Fin 2 := ⟨1, Nat.one_lt_two⟩

end Internode

end StreamEP
