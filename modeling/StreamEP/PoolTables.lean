import StreamEP.Lib.BlockScan
import StreamEP.Tiles

/-!
# Tables of the pool, per expert

Both metadata kernels end with the counts `seen_per_substream` of a rank, one for each
substream `cs = c * num_ranks + src` and local expert, and derive from them how many
rows every expert gets and where its tiles begin.

**Tiles, not rows.**  An expert's rows are padded to whole tiles, so the offsets count tiles and
the first row of an expert is its offset times the height of a tile.  `tileOffsets` is all that
the layers above know of the table: it starts at zero and grows by the tiles of each expert.

The counts of an expert are added up by one warp, whose lanes stride over the substreams; that
this is the sum is the reduction of the library.
-/

namespace StreamEP

open Finset

section Tables

variable (sh : Shape) (seen : ℕ → ℕ)

/-- `cs_total`: the number of substreams, indexed `c * num_ranks + src`. -/
def csTotal : ℕ := sh.numChannels * sh.numRanks

/-- `expert_frequency`: the lanes of one warp stride over the substreams, and the
warp reduces its partial sums. -/
def expertFrequency (e : ℕ) : ℕ :=
  Warp.reduceDown [16, 8, 4, 2, 1]
    (Warp.stridedSum Warp.width (csTotal sh) fun cs =>
      seen (cs * sh.numExpertsPerRank + e)) 0

/-- `expert_pool_block_offset`: running count of tiles. -/
def expertPoolBlockOffset : ℕ → ℕ
  | 0 => 0
  | e + 1 => expertPoolBlockOffset e + ceilDiv (expertFrequency sh seen e) sh.tileM

/-- `total_tiles`. -/
def totalTiles : ℕ := expertPoolBlockOffset sh seen sh.numExpertsPerRank

/-- `num_recv_per_expert_mapped`, aligned for the host. -/
def numRecvPerExpert (expertAlignment e : ℕ) : ℕ :=
  ceilDiv (expertFrequency sh seen e) expertAlignment * expertAlignment

variable {sh seen}

/-- The warp reduction adds up all substreams of an expert. -/
theorem expertFrequency_eq_sum (e : ℕ) :
    expertFrequency sh seen e =
      ∑ cs ∈ range (csTotal sh), seen (cs * sh.numExpertsPerRank + e) := by
  rw [expertFrequency, Warp.reduceDown_eq_sum, Warp.sum_stridedSum (by decide)]

/-- `expert_pool_block_offset` is the exclusive prefix of the tile counts. -/
theorem expertPoolBlockOffset_eq_sum (e : ℕ) :
    expertPoolBlockOffset sh seen e =
      ∑ e' ∈ range e, ceilDiv (expertFrequency sh seen e') sh.tileM := by
  induction e with
  | zero => rfl
  | succ e ih => rw [expertPoolBlockOffset, ih, sum_range_succ]

/-- The offsets count tiles. -/
theorem tileOffsets : TileOffsets sh.tileM (expertPoolBlockOffset sh seen)
    (expertFrequency sh seen) where
  pos := sh.tileM_pos
  zero := rfl
  succ _ := rfl

end Tables

end StreamEP
