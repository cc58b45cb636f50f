import StreamEP.Internode.MetadataExchange
import StreamEP.Slots

/-!
# The internode metadata kernel (Phase B)

From the counts that arrived, a rank derives its tables.  An expert's interval is divided
among the substreams in *partition order*: the substreams of its own node come first and
those that arrive over RDMA last, so that the first tiles of the pool do not wait for other
nodes.  `base_pool` is scanned in this order and written back through the permutation.

**Partition order.**  The kernel has two maps, from a position to a substream and back, both by
division with the sizes of the own node and of the others; `skipOwn` steps over the slice of the
own node.  They are inverse to each other, so sums over substreams do not depend on the order
(`sum_partition`).  What the order *means* is said by a key: the own node first, and otherwise by
index (`partitionKey_lt`).

**The tables.**  `seenPerSubstream` is the streaming histogram turned round, what every
substream brings for every expert.  `sScan` is the scan of one expert by 512 threads, for which
the general result about such scans is used, and `basePool` stores it through the permutation,
over whatever the table held before.  `basePool_apply` is its closed form: the first slot of the
expert and the counts of all substreams that come earlier.

**The plan.**  `phaseBPlan` is how the pool of a rank is divided, as a `PoolPlan`; the
receivers, the pool's maps and the readiness of tiles are about any plan.

`metadata_reference` puts both kernels together: the tables are those of the routing.
-/

namespace StreamEP.Internode

open Finset

variable {sh : NodeShape} {Row Weight : Type}

/-! ### Partition order -/

section Partition

variable (sh) (rdmaRank : ℕ)

/-- `N_nvl`: the substreams from the rank's own node. -/
def nNvl : ℕ := sh.numChannels * sh.numNvlPeers

/-- `rmt_per_channel`: the ranks of the other nodes. -/
def rmtPerChannel : ℕ := sh.numRanks - sh.numNvlPeers

/-- Steps over the slice of the own node. -/
def skipOwn (srcRdma : ℕ) : ℕ := if rdmaRank ≤ srcRdma then srcRdma + 1 else srcRdma

/-- `partition_pos_to_cs` -/
def partitionPosToCs (pos : ℕ) : ℕ :=
  if pos < nNvl sh then
    let c := pos / sh.numNvlPeers
    let srcNvl := pos - c * sh.numNvlPeers
    c * sh.numRanks + (rdmaRank * sh.numNvlPeers + srcNvl)
  else
    let rmt := pos - nNvl sh
    let c := rmt / rmtPerChannel sh
    let rmtPos := rmt - c * rmtPerChannel sh
    let srcRdma := rmtPos / sh.numNvlPeers
    let srcNvl := rmtPos - srcRdma * sh.numNvlPeers
    c * sh.numRanks + (skipOwn rdmaRank srcRdma * sh.numNvlPeers + srcNvl)

/-- The position of a substream. -/
def partitionPosOfCs (cs : ℕ) : ℕ :=
  let c := cs / sh.numRanks
  let srcWorld := cs % sh.numRanks
  let srcRdma := sh.rdmaRank srcWorld
  if srcRdma = rdmaRank then c * sh.numNvlPeers + sh.nvlRank srcWorld
  else nNvl sh + (c * rmtPerChannel sh +
    ((if rdmaRank < srcRdma then srcRdma - 1 else srcRdma) * sh.numNvlPeers + sh.nvlRank srcWorld))

variable {sh} {rdmaRank}

theorem rmtPerChannel_eq : rmtPerChannel sh = (sh.numRdmaRanks - 1) * sh.numNvlPeers := by
  rw [rmtPerChannel, sh.numRanks_eq, Nat.sub_mul, Nat.one_mul]

theorem csTotal_eq : csTotal sh.toShape = nNvl sh + sh.numChannels * rmtPerChannel sh := by
  have first : sh.numRanks = sh.numNvlPeers + rmtPerChannel sh := by
    rw [rmtPerChannel_eq, sh.numRanks_eq, Nat.add_comm, ← Nat.succ_mul,
      Nat.succ_eq_add_one, Nat.sub_add_cancel sh.numRdmaRanks_pos]
  rw [csTotal, nNvl, ← Nat.mul_add, ← first]

/-- The position of a substream of the own node. -/
theorem partitionPosToCs_own {c n : ℕ} (hc : c < sh.numChannels) (hn : n < sh.numNvlPeers) :
    partitionPosToCs sh rdmaRank (c * sh.numNvlPeers + n) =
      c * sh.numRanks + (rdmaRank * sh.numNvlPeers + n) := by
  have own : c * sh.numNvlPeers + n < nNvl sh := PrefixSum.flat_lt hc hn
  rw [partitionPosToCs, if_pos own]
  simp only [PrefixSum.flat_div hn, Nat.add_sub_cancel_left]

/-- The position of a substream that comes over RDMA. -/
theorem partitionPosToCs_remote {c s n : ℕ} (hs : s < sh.numRdmaRanks - 1)
    (hn : n < sh.numNvlPeers) :
    partitionPosToCs sh rdmaRank
        (nNvl sh + (c * rmtPerChannel sh + (s * sh.numNvlPeers + n))) =
      c * sh.numRanks + (skipOwn rdmaRank s * sh.numNvlPeers + n) := by
  have inside : s * sh.numNvlPeers + n < rmtPerChannel sh := by
    rw [rmtPerChannel_eq]
    exact PrefixSum.flat_lt hs hn
  rw [partitionPosToCs, if_neg (Nat.not_lt.2 (Nat.le_add_right _ _))]
  simp only [Nat.add_sub_cancel_left, PrefixSum.flat_div inside, PrefixSum.flat_div hn]

/-- A position is that of a substream of the own node or of another one. -/
theorem position_cases {pos : ℕ} (hpos : pos < csTotal sh.toShape) :
    (∃ c < sh.numChannels, ∃ n < sh.numNvlPeers, pos = c * sh.numNvlPeers + n) ∨
      ∃ c < sh.numChannels, ∃ s < sh.numRdmaRanks - 1, ∃ n < sh.numNvlPeers,
        pos = nNvl sh + (c * rmtPerChannel sh + (s * sh.numNvlPeers + n)) := by
  have peers := sh.numNvlPeers_pos
  by_cases own : pos < nNvl sh
  · refine Or.inl ⟨pos / sh.numNvlPeers, (Nat.div_lt_iff_lt_mul peers).2 own,
      pos % sh.numNvlPeers, Nat.mod_lt _ peers, (Nat.div_add_mod' _ _).symm⟩
  · have remote : pos - nNvl sh < sh.numChannels * rmtPerChannel sh := by
      rw [csTotal_eq] at hpos
      omega
    have some : 0 < rmtPerChannel sh := Nat.pos_of_lt_mul_left remote
    have row := Nat.mod_lt (pos - nNvl sh) some
    have node : (pos - nNvl sh) % rmtPerChannel sh / sh.numNvlPeers < sh.numRdmaRanks - 1 := by
      rw [Nat.div_lt_iff_lt_mul peers, ← rmtPerChannel_eq]
      exact row
    refine Or.inr ⟨(pos - nNvl sh) / rmtPerChannel sh,
      (Nat.div_lt_iff_lt_mul some).2 remote,
      _, node, (pos - nNvl sh) % rmtPerChannel sh % sh.numNvlPeers, Nat.mod_lt _ peers, ?_⟩
    rw [Nat.div_add_mod', Nat.div_add_mod']
    omega

theorem skipOwn_ne (s : ℕ) : skipOwn rdmaRank s ≠ rdmaRank := by
  unfold skipOwn
  split <;> omega

theorem skipOwn_lt {s : ℕ} (hs : s < sh.numRdmaRanks - 1) :
    skipOwn rdmaRank s < sh.numRdmaRanks := by
  unfold skipOwn
  split <;> omega

theorem skipOwn_strictMono : StrictMono (skipOwn rdmaRank) := by
  intro s s' lt
  unfold skipOwn
  split <;> split <;> omega

/-- The node that is listed at the place of `skipOwn`. -/
theorem unskip_skipOwn (s : ℕ) :
    (if rdmaRank < skipOwn rdmaRank s then skipOwn rdmaRank s - 1 else skipOwn rdmaRank s) =
      s := by
  unfold skipOwn
  split <;> split <;> omega

theorem skipOwn_unskip {s : ℕ} (other : s ≠ rdmaRank) :
    skipOwn rdmaRank (if rdmaRank < s then s - 1 else s) = s := by
  unfold skipOwn
  split <;> split <;> omega

/-! ### The order is a permutation -/

theorem partitionPosToCs_lt (hd : rdmaRank < sh.numRdmaRanks) {pos : ℕ}
    (hpos : pos < csTotal sh.toShape) : partitionPosToCs sh rdmaRank pos < csTotal sh.toShape := by
  rcases position_cases hpos with ⟨c, hc, n, hn, rfl⟩ | ⟨c, hc, s, hs, n, hn, rfl⟩
  · rw [partitionPosToCs_own hc hn]
    exact PrefixSum.flat_lt hc (NodeShape.rank_lt hd hn)
  · rw [partitionPosToCs_remote hs hn]
    exact PrefixSum.flat_lt hc (NodeShape.rank_lt (skipOwn_lt hs) hn)

/-- A remote substream has its place among the other nodes. -/
theorem unskip_lt (hd : rdmaRank < sh.numRdmaRanks) {s : ℕ} (hs : s < sh.numRdmaRanks)
    (other : s ≠ rdmaRank) : (if rdmaRank < s then s - 1 else s) < sh.numRdmaRanks - 1 := by
  split <;> omega

theorem partitionPosOfCs_lt (hd : rdmaRank < sh.numRdmaRanks) {cs : ℕ}
    (hcs : cs < csTotal sh.toShape) : partitionPosOfCs sh rdmaRank cs < csTotal sh.toShape := by
  have hc : cs / sh.numRanks < sh.numChannels := (Nat.div_lt_iff_lt_mul sh.numRanks_pos).2 hcs
  have rank : cs % sh.numRanks < sh.numRanks := Nat.mod_lt _ sh.numRanks_pos
  have hn := @NodeShape.nvlRank_lt sh (cs % sh.numRanks)
  rw [partitionPosOfCs, csTotal_eq]
  by_cases own : sh.rdmaRank (cs % sh.numRanks) = rdmaRank
  · have here : cs / sh.numRanks * sh.numNvlPeers + sh.nvlRank (cs % sh.numRanks) < nNvl sh :=
      PrefixSum.flat_lt hc hn
    simp only [if_pos own]
    omega
  · have node := unskip_lt hd (NodeShape.rdmaRank_lt rank) own
    simp only [if_neg own]
    refine Nat.add_lt_add_left (PrefixSum.flat_lt hc ?_) _
    rw [rmtPerChannel_eq]
    exact PrefixSum.flat_lt node hn

theorem partitionPosOfCs_partitionPosToCs (hd : rdmaRank < sh.numRdmaRanks) {pos : ℕ}
    (hpos : pos < csTotal sh.toShape) :
    partitionPosOfCs sh rdmaRank (partitionPosToCs sh rdmaRank pos) = pos := by
  rcases position_cases hpos with ⟨c, hc, n, hn, rfl⟩ | ⟨c, hc, s, hs, n, hn, rfl⟩
  · have rank := NodeShape.rank_lt hd hn
    rw [partitionPosToCs_own hc hn, partitionPosOfCs]
    simp only [PrefixSum.flat_div rank, PrefixSum.flat_mod rank, NodeShape.rdmaRank_flat hn,
      NodeShape.nvlRank_flat hn, if_true]
  · have rank := NodeShape.rank_lt (@skipOwn_lt sh rdmaRank s hs) hn
    rw [partitionPosToCs_remote hs hn, partitionPosOfCs]
    simp only [PrefixSum.flat_div rank, PrefixSum.flat_mod rank, NodeShape.rdmaRank_flat hn,
      NodeShape.nvlRank_flat hn, if_neg (skipOwn_ne s), unskip_skipOwn]

theorem partitionPosToCs_partitionPosOfCs (hd : rdmaRank < sh.numRdmaRanks) {cs : ℕ}
    (hcs : cs < csTotal sh.toShape) :
    partitionPosToCs sh rdmaRank (partitionPosOfCs sh rdmaRank cs) = cs := by
  have hc : cs / sh.numRanks < sh.numChannels := (Nat.div_lt_iff_lt_mul sh.numRanks_pos).2 hcs
  have rank : cs % sh.numRanks < sh.numRanks := Nat.mod_lt _ sh.numRanks_pos
  have hn := @NodeShape.nvlRank_lt sh (cs % sh.numRanks)
  rw [partitionPosOfCs]
  by_cases own : sh.rdmaRank (cs % sh.numRanks) = rdmaRank
  · simp only [if_pos own]
    rw [partitionPosToCs_own hc hn, ← own, NodeShape.rank_eq, Nat.div_add_mod']
  · simp only [if_neg own]
    have node := unskip_lt hd (NodeShape.rdmaRank_lt rank) own
    rw [partitionPosToCs_remote node hn, skipOwn_unskip own, NodeShape.rank_eq,
      Nat.div_add_mod']

/-- In partition order or by their indices, the substreams add up to the same. -/
theorem sum_partition (hd : rdmaRank < sh.numRdmaRanks) (f : ℕ → ℕ) :
    ∑ cs ∈ range (csTotal sh.toShape), f cs =
      ∑ pos ∈ range (csTotal sh.toShape), f (partitionPosToCs sh rdmaRank pos) := by
  refine sum_nbij' (partitionPosOfCs sh rdmaRank) (partitionPosToCs sh rdmaRank) ?_ ?_ ?_ ?_ ?_
  · exact fun cs hcs => mem_range.2 (partitionPosOfCs_lt hd (mem_range.1 hcs))
  · exact fun pos hpos => mem_range.2 (partitionPosToCs_lt hd (mem_range.1 hpos))
  · exact fun cs hcs => partitionPosToCs_partitionPosOfCs hd (mem_range.1 hcs)
  · exact fun pos hpos => partitionPosOfCs_partitionPosToCs hd (mem_range.1 hpos)
  · exact fun cs hcs =>
      congrArg f (partitionPosToCs_partitionPosOfCs hd (mem_range.1 hcs)).symm

variable (sh rdmaRank) in
/-- By this key the substreams of the own node come first, and otherwise the order is that of
the indices. -/
def partitionKey (cs : ℕ) : ℕ :=
  if sh.rdmaRank (cs % sh.numRanks) = rdmaRank then cs else csTotal sh.toShape + cs

theorem partitionKey_own {c n : ℕ} (hd : rdmaRank < sh.numRdmaRanks) (hn : n < sh.numNvlPeers) :
    partitionKey sh rdmaRank (c * sh.numRanks + (rdmaRank * sh.numNvlPeers + n)) =
      c * sh.numRanks + (rdmaRank * sh.numNvlPeers + n) := by
  rw [partitionKey, PrefixSum.flat_mod (NodeShape.rank_lt hd hn), NodeShape.rdmaRank_flat hn,
    if_pos rfl]

theorem partitionKey_remote {c s n : ℕ} (hs : s < sh.numRdmaRanks - 1)
    (hn : n < sh.numNvlPeers) :
    partitionKey sh rdmaRank (c * sh.numRanks + (skipOwn rdmaRank s * sh.numNvlPeers + n)) =
      csTotal sh.toShape +
        (c * sh.numRanks + (skipOwn rdmaRank s * sh.numNvlPeers + n)) := by
  rw [partitionKey, PrefixSum.flat_mod (NodeShape.rank_lt (skipOwn_lt hs) hn),
    NodeShape.rdmaRank_flat hn, if_neg (skipOwn_ne s)]

/-- **Partition order is the order of the keys.** -/
theorem partitionKey_lt (hd : rdmaRank < sh.numRdmaRanks) {pos pos' : ℕ} (lt : pos < pos')
    (hpos' : pos' < csTotal sh.toShape) :
    partitionKey sh rdmaRank (partitionPosToCs sh rdmaRank pos) <
      partitionKey sh rdmaRank (partitionPosToCs sh rdmaRank pos') := by
  rcases position_cases (lt.trans hpos') with ⟨c, hc, n, hn, rfl⟩ | ⟨c, hc, s, hs, n, hn, rfl⟩ <;>
  rcases position_cases hpos' with
    ⟨c', hc', n', hn', rfl⟩ | ⟨c', hc', s', hs', n', hn', rfl⟩
  · rw [partitionPosToCs_own hc hn, partitionPosToCs_own hc' hn', partitionKey_own hd hn,
      partitionKey_own hd hn',
      PrefixSum.flat_lt_flat (NodeShape.rank_lt hd hn) (NodeShape.rank_lt hd hn')]
    refine ((PrefixSum.flat_lt_flat hn hn').1 lt).imp_right (And.imp_right fun lt => ?_)
    exact Nat.add_lt_add_left lt _
  · rw [partitionPosToCs_own hc hn, partitionPosToCs_remote hs' hn', partitionKey_own hd hn,
      partitionKey_remote hs' hn']
    exact (PrefixSum.flat_lt hc (NodeShape.rank_lt hd hn)).trans_le (Nat.le_add_right _ _)
  · have own : c' * sh.numNvlPeers + n' < nNvl sh := PrefixSum.flat_lt hc' hn'
    omega
  · have column : s * sh.numNvlPeers + n < rmtPerChannel sh := by
      rw [rmtPerChannel_eq]
      exact PrefixSum.flat_lt hs hn
    have column' : s' * sh.numNvlPeers + n' < rmtPerChannel sh := by
      rw [rmtPerChannel_eq]
      exact PrefixSum.flat_lt hs' hn'
    rw [partitionPosToCs_remote hs hn, partitionPosToCs_remote hs' hn',
      partitionKey_remote hs hn, partitionKey_remote hs' hn']
    refine Nat.add_lt_add_left ((PrefixSum.flat_lt_flat
      (NodeShape.rank_lt (skipOwn_lt hs) hn) (NodeShape.rank_lt (skipOwn_lt hs') hn')).2 ?_) _
    refine ((PrefixSum.flat_lt_flat column column').1 (Nat.lt_of_add_lt_add_left lt)).imp_right
      (And.imp_right fun lt => (PrefixSum.flat_lt_flat hn hn').2 ?_)
    exact ((PrefixSum.flat_lt_flat hn hn').1 lt).imp (fun lt => skipOwn_strictMono lt)
      (And.imp_left (congrArg _))

end Partition

/-! ### The tables -/

section Tables

variable (inps : ℕ → DispatchInputs sh.toShape Row Weight) (stale : StaleSlabs) (g : ℕ)

/-- `seen_per_substream`, at `cs * E_local + e`. -/
def seenPerSubstream (idx : ℕ) : ℕ :=
  let cs := idx / sh.numExpertsPerRank
  let e := idx % sh.numExpertsPerRank
  let c := cs / sh.numRanks
  let srcWorld := cs - c * sh.numRanks
  let srcRdma := srcWorld / sh.numNvlPeers
  let srcNvl := srcWorld - srcRdma * sh.numNvlPeers
  nvlStreamingRecv inps stale
    (g, srcNvl, (srcRdma * sh.numChannels + c) * sh.numExpertsPerRank + e)

/-- `rank_prefix_matrix`, of which rank `g` fills column `g`, over what it held before. -/
def rankPrefixMatrix (uninit : ℕ → ℕ) (idx : ℕ) : ℕ :=
  if idx % sh.numRanks = g ∧ idx / sh.numRanks < sh.numRanks then
    recvGblRankPrefixSum inps stale g (idx / sh.numRanks)
  else uninit idx

/-- `s_scan` for expert `e`, after the scan: 512 threads, in partition order. -/
def sScan (e : ℕ) : ℕ → ℕ :=
  Warp.blockScan [1, 2, 4, 8] 16 (csTotal sh.toShape)
    (expertPoolBlockOffset sh.toShape (seenPerSubstream inps stale g) e * sh.tileM)
    fun pos => seenPerSubstream inps stale g
      (partitionPosToCs sh (sh.rdmaRank g) pos * sh.numExpertsPerRank + e)

/-- The stores of `base_pool` through the permutation. -/
def basePoolStores : List (Store.Write fun _ : ℕ => ℕ) :=
  (List.range sh.numExpertsPerRank).flatMap fun e =>
    (List.range (csTotal sh.toShape)).map fun pos =>
      ⟨partitionPosToCs sh (sh.rdmaRank g) pos * sh.numExpertsPerRank + e,
        sScan inps stale g e pos⟩

/-- `base_pool`, at `cs * E_local + e`, over what it held before. -/
def basePool (uninit : ℕ → ℕ) : ℕ → ℕ := Store.run (basePoolStores inps stale g) uninit

end Tables

section Metadata

variable {inps : ℕ → DispatchInputs sh.toShape Row Weight} {stale : StaleSlabs} {g c src e : ℕ}

theorem seenPerSubstream_apply (hg : g < sh.numRanks) (hc : c < sh.numChannels)
    (hsrc : src < sh.numRanks) (he : e < sh.numExpertsPerRank) :
    seenPerSubstream inps stale g ((c * sh.numRanks + src) * sh.numExpertsPerRank + e) =
      (inps src).pairsIn g e c := by
  have peer : src - src / sh.numNvlPeers * sh.numNvlPeers = sh.nvlRank src := by
    have := @NodeShape.rank_eq sh src
    rw [NodeShape.rdmaRank] at this
    omega
  have here := @nvlStreamingRecv_apply sh Row Weight inps stale _ _ _ _ (NodeShape.rdmaRank_lt hg)
    (NodeShape.rdmaRank_lt hsrc) (NodeShape.nvlRank_lt src) (NodeShape.nvlRank_lt g) _ _ hc he
  rw [NodeShape.rank_eq, NodeShape.rank_eq] at here
  simp only [seenPerSubstream, PrefixSum.flat_div he, PrefixSum.flat_mod he,
    PrefixSum.flat_div hsrc, Nat.add_sub_cancel_left, peer]
  exact here

theorem seenPerSubstream_eq (hg : g < sh.numRanks) {cs : ℕ} (hcs : cs < csTotal sh.toShape)
    (he : e < sh.numExpertsPerRank) :
    seenPerSubstream inps stale g (cs * sh.numExpertsPerRank + e) =
      substreamPairs inps g e cs := by
  have channel : cs / sh.numRanks < sh.numChannels :=
    (Nat.div_lt_iff_lt_mul sh.numRanks_pos).2 hcs
  have source : cs % sh.numRanks < sh.numRanks := Nat.mod_lt _ sh.numRanks_pos
  have cell := @seenPerSubstream_apply sh Row Weight inps stale _ _ _ _ hg channel source he
  rw [Nat.div_add_mod'] at cell
  exact cell

/-- **`base_pool` is the exclusive prefix in partition order**, shifted to the expert's first
slot. -/
theorem basePool_apply (hg : g < sh.numRanks) (uninit : ℕ → ℕ) {pos : ℕ}
    (hpos : pos < csTotal sh.toShape) (he : e < sh.numExpertsPerRank) :
    basePool inps stale g uninit
        (partitionPosToCs sh (sh.rdmaRank g) pos * sh.numExpertsPerRank + e) =
      expertPoolBlockOffset sh.toShape (seenPerSubstream inps stale g) e * sh.tileM +
        ∑ i ∈ range pos, seenPerSubstream inps stale g
          (partitionPosToCs sh (sh.rdmaRank g) i * sh.numExpertsPerRank + e) := by
  have node := NodeShape.rdmaRank_lt hg
  have scanned : sScan inps stale g e pos = _ :=
    Warp.blockScan_apply (m := 4) (by decide) (by decide) _ _ _ hpos
  rw [← scanned]
  refine Store.run_of_agree ?_ ?_ uninit
  · exact List.mem_flatMap.2 ⟨e, List.mem_range.2 he,
      List.mem_map.2 ⟨pos, List.mem_range.2 hpos, rfl⟩⟩
  · intro w hw same
    obtain ⟨e', he', hw⟩ := List.mem_flatMap.1 hw
    obtain ⟨pos', hpos', rfl⟩ := List.mem_map.1 hw
    have he' := List.mem_range.1 he'
    have hpos' := List.mem_range.1 hpos'
    obtain ⟨cs, rfl⟩ := (PrefixSum.flat_inj he' he).1 same
    obtain rfl : pos' = pos := by
      rw [← partitionPosOfCs_partitionPosToCs node hpos', cs,
        partitionPosOfCs_partitionPosToCs node hpos]
    rfl

/-- How Phase B divides the pool of rank `g`. -/
def phaseBPlan (inps : ℕ → DispatchInputs sh.toShape Row Weight) (stale : StaleSlabs)
    (uninit : ℕ → ℕ) {g : ℕ} (hg : g < sh.numRanks) : PoolPlan sh.toShape inps g where
  expertPoolBlockOffset := expertPoolBlockOffset sh.toShape (seenPerSubstream inps stale g)
  expertFrequency := expertFrequency sh.toShape (seenPerSubstream inps stale g)
  base cs e := basePool inps stale g uninit (cs * sh.numExpertsPerRank + e)
  order := partitionPosToCs sh (sh.rdmaRank g)
  position := partitionPosOfCs sh (sh.rdmaRank g)
  offsets := tileOffsets
  order_lt _ hi := partitionPosToCs_lt (NodeShape.rdmaRank_lt hg) hi
  position_lt _ hcs := partitionPosOfCs_lt (NodeShape.rdmaRank_lt hg) hcs
  position_order _ hi := partitionPosOfCs_partitionPosToCs (NodeShape.rdmaRank_lt hg) hi
  order_position _ hcs := partitionPosToCs_partitionPosOfCs (NodeShape.rdmaRank_lt hg) hcs
  frequency_eq e he := by
    have node := NodeShape.rdmaRank_lt hg
    rw [expertFrequency_eq_sum, sum_partition node]
    exact sum_congr rfl fun pos hpos =>
      seenPerSubstream_eq hg (partitionPosToCs_lt node (mem_range.1 hpos)) he
  base_eq e he cs hcs := by
    have node := NodeShape.rdmaRank_lt hg
    have position := partitionPosOfCs_lt node hcs
    have based := @basePool_apply sh Row Weight inps stale _ _ hg uninit _ position he
    rw [partitionPosToCs_partitionPosOfCs node hcs] at based
    rw [based]
    congr 1
    refine sum_congr rfl fun pos hpos => seenPerSubstream_eq hg (partitionPosToCs_lt node ?_) he
    exact (mem_range.1 hpos).trans position

/-! ### The reference -/

/-- What the metadata kernels leave at rank `g`, over the routing. -/
structure ReferenceMetadata (inps : ℕ → DispatchInputs sh.toShape Row Weight)
    (stale : StaleSlabs) (uninit : ℕ → ℕ) (g : ℕ) : Prop where
  /-- Pairs of each channel and source for each local expert. -/
  seen : ∀ c < sh.numChannels, ∀ src < sh.numRanks, ∀ e < sh.numExpertsPerRank,
    seenPerSubstream inps stale g ((c * sh.numRanks + src) * sh.numExpertsPerRank + e) =
      (inps src).pairsIn g e c
  frequency : ∀ e < sh.numExpertsPerRank,
    expertFrequency sh.toShape (seenPerSubstream inps stale g) e =
      ∑ c ∈ range sh.numChannels, ∑ src ∈ range sh.numRanks, (inps src).pairsIn g e c
  blocks : ∀ e ≤ sh.numExpertsPerRank,
    expertPoolBlockOffset sh.toShape (seenPerSubstream inps stale g) e =
      ∑ e' ∈ range e,
        ceilDiv (expertFrequency sh.toShape (seenPerSubstream inps stale g) e') sh.tileM
  /-- The ranges of two substreams do not meet, -/
  ranges_disjoint : ∀ e < sh.numExpertsPerRank,
    ∀ cs < csTotal sh.toShape, ∀ cs' < csTotal sh.toShape, cs ≠ cs' → ∀ s : ℕ,
      ¬((basePool inps stale g uninit (cs * sh.numExpertsPerRank + e) ≤ s ∧
          s < basePool inps stale g uninit (cs * sh.numExpertsPerRank + e) +
            seenPerSubstream inps stale g (cs * sh.numExpertsPerRank + e)) ∧
        basePool inps stale g uninit (cs' * sh.numExpertsPerRank + e) ≤ s ∧
          s < basePool inps stale g uninit (cs' * sh.numExpertsPerRank + e) +
            seenPerSubstream inps stale g (cs' * sh.numExpertsPerRank + e))
  /-- together they are the expert's interval, -/
  ranges_cover : ∀ e < sh.numExpertsPerRank, ∀ s : ℕ,
    (∃ cs < csTotal sh.toShape,
        basePool inps stale g uninit (cs * sh.numExpertsPerRank + e) ≤ s ∧
          s < basePool inps stale g uninit (cs * sh.numExpertsPerRank + e) +
            seenPerSubstream inps stale g (cs * sh.numExpertsPerRank + e)) ↔
      expertPoolBlockOffset sh.toShape (seenPerSubstream inps stale g) e * sh.tileM ≤ s ∧
        s < expertPoolBlockOffset sh.toShape (seenPerSubstream inps stale g) e * sh.tileM +
          expertFrequency sh.toShape (seenPerSubstream inps stale g) e
  /-- and they follow each other in partition order, -/
  ranges_follow : ∀ e < sh.numExpertsPerRank, ∀ pos < csTotal sh.toShape,
    basePool inps stale g uninit
        (partitionPosToCs sh (sh.rdmaRank g) pos * sh.numExpertsPerRank + e) =
      expertPoolBlockOffset sh.toShape (seenPerSubstream inps stale g) e * sh.tileM +
        ∑ i ∈ range pos, seenPerSubstream inps stale g
          (partitionPosToCs sh (sh.rdmaRank g) i * sh.numExpertsPerRank + e)
  /-- which lists every substream, -/
  order_lists : ∀ cs < csTotal sh.toShape,
    ∃ pos < csTotal sh.toShape, partitionPosToCs sh (sh.rdmaRank g) pos = cs
  /-- once, and those of the own node first. -/
  order_sorted : ∀ pos pos', pos < pos' → pos' < csTotal sh.toShape →
    partitionKey sh (sh.rdmaRank g) (partitionPosToCs sh (sh.rdmaRank g) pos) <
      partitionKey sh (sh.rdmaRank g) (partitionPosToCs sh (sh.rdmaRank g) pos')
  /-- A sender's own tokens for each rank up to the end of a channel, -/
  gbl_prefix : ∀ dst < sh.numRanks, ∀ c < sh.numChannels,
    gblChannelPrefixMatrix (inps g) (dst * sh.numChannels + c) =
      Nat.count ((inps g).InRank dst) (channelEnd (inps g).numTokens sh.numChannels c)
  /-- and for each node. -/
  rdma_prefix : ∀ d < sh.numRdmaRanks, ∀ c < sh.numChannels,
    rdmaChannelPrefixMatrix (inps g) (d * sh.numChannels + c) =
      Nat.count ((inps g).InNode d) (channelEnd (inps g).numTokens sh.numChannels c)
  /-- What comes to the rank, by source, -/
  recv_gbl : ∀ src < sh.numRanks, recvGblRankPrefixSum inps stale g src =
    ∑ src' ∈ range (src + 1), numRouted inps g src'
  /-- and to its node, by source node. -/
  recv_rdma : ∀ s < sh.numRdmaRanks, recvRdmaRankPrefixSum inps stale g s =
    ∑ s' ∈ range (s + 1),
      Nat.count ((inps (s' * sh.numNvlPeers + sh.nvlRank g)).InNode (sh.rdmaRank g))
        (inps (s' * sh.numNvlPeers + sh.nvlRank g)).numTokens

/-- The range of a substream in the plan. -/
theorem range_eq_block (uninit : ℕ → ℕ) (hg : g < sh.numRanks) (he : e < sh.numExpertsPerRank)
    {cs : ℕ} (hcs : cs < csTotal sh.toShape) (s : ℕ) :
    (basePool inps stale g uninit (cs * sh.numExpertsPerRank + e) ≤ s ∧
        s < basePool inps stale g uninit (cs * sh.numExpertsPerRank + e) +
          seenPerSubstream inps stale g (cs * sh.numExpertsPerRank + e)) ↔
      expertPoolBlockOffset sh.toShape (seenPerSubstream inps stale g) e * sh.tileM ≤ s ∧
        (phaseBPlan inps stale uninit hg).blockStart e cs ≤
          s - expertPoolBlockOffset sh.toShape (seenPerSubstream inps stale g) e * sh.tileM ∧
        s - expertPoolBlockOffset sh.toShape (seenPerSubstream inps stale g) e * sh.tileM <
          (phaseBPlan inps stale uninit hg).blockStart e cs + substreamPairs inps g e cs := by
  have base : basePool inps stale g uninit (cs * sh.numExpertsPerRank + e) =
      expertPoolBlockOffset sh.toShape (seenPerSubstream inps stale g) e * sh.tileM +
        (phaseBPlan inps stale uninit hg).blockStart e cs :=
    (phaseBPlan inps stale uninit hg).base_eq e he cs hcs
  rw [base, seenPerSubstream_eq hg hcs he]
  omega

/-- **The metadata exchange computes the reference metadata.** -/
theorem metadata_reference (inps : ℕ → DispatchInputs sh.toShape Row Weight)
    (stale : StaleSlabs) (uninit : ℕ → ℕ) (hg : g < sh.numRanks) :
    ReferenceMetadata inps stale uninit g where
  seen c hc src hsrc e he := seenPerSubstream_apply hg hc hsrc he
  frequency e he := by
    rw [expertFrequency_eq_sum, csTotal, PrefixSum.sum_range_mul]
    exact sum_congr rfl fun c hc => sum_congr rfl fun src hsrc =>
      seenPerSubstream_apply hg (mem_range.1 hc) (mem_range.1 hsrc) he
  blocks e _ := expertPoolBlockOffset_eq_sum e
  ranges_disjoint e he cs hcs cs' hcs' other s := by
    rintro ⟨here, there⟩
    rw [range_eq_block uninit hg he hcs] at here
    rw [range_eq_block uninit hg he hcs'] at there
    exact other (PoolPlan.blockStart_unique hcs hcs' here.2 there.2)
  ranges_cover e he s := by
    constructor
    · rintro ⟨cs, hcs, inside⟩
      rw [range_eq_block uninit hg he hcs] at inside
      have le : (phaseBPlan inps stale uninit hg).blockStart e cs + substreamPairs inps g e cs ≤
          expertFrequency sh.toShape (seenPerSubstream inps stale g) e :=
        PoolPlan.blockStart_add_le he hcs
      omega
    · rintro ⟨lower, upper⟩
      have inside : s - expertPoolBlockOffset sh.toShape (seenPerSubstream inps stale g) e *
          sh.tileM < (phaseBPlan inps stale uninit hg).expertFrequency e :=
        Nat.sub_lt_left_of_lt_add lower upper
      obtain ⟨cs, hcs, block⟩ := PoolPlan.exists_blockStart he inside
      exact ⟨cs, hcs, (range_eq_block uninit hg he hcs s).2 ⟨lower, block⟩⟩
  ranges_follow e he pos hpos := basePool_apply hg uninit hpos he
  order_lists cs hcs :=
    ⟨_, partitionPosOfCs_lt (NodeShape.rdmaRank_lt hg) hcs,
      partitionPosToCs_partitionPosOfCs (NodeShape.rdmaRank_lt hg) hcs⟩
  order_sorted pos pos' lt hpos' := partitionKey_lt (NodeShape.rdmaRank_lt hg) lt hpos'
  gbl_prefix dst hdst c hc := gblChannelPrefixMatrix_apply (inps g) hdst hc
  rdma_prefix d hd c hc := rdmaChannelPrefixMatrix_apply (inps g) hd hc
  recv_gbl src hsrc := recvGblRankPrefixSum_apply hg hsrc
  recv_rdma s hs := recvRdmaRankPrefixSum_apply hg hs

end Metadata

/-! ### An instance -/

/-- Two nodes of two ranks with one expert each. -/
def exampleNodes : NodeShape where
  numRanks := 4
  numChannels := 2
  numExpertsPerRank := 1
  numTopk := 2
  tileM := 2
  numRanks_pos := Nat.succ_pos _
  numChannels_pos := Nat.succ_pos _
  numExpertsPerRank_pos := Nat.succ_pos _
  tileM_pos := Nat.succ_pos _
  numRdmaRanks := 2
  numNvlPeers := 2
  numRanks_eq := rfl

/-- Tokens go to both nodes, to one rank, or to both ranks of a node. -/
def exampleNodeInputs (numTokens : ℕ) (few : numTokens ≤ 3) :
    DispatchInputs exampleNodes.toShape ℕ ℕ where
  numTokens := numTokens
  x t := t
  topkIdx p := [3, 0, 1, -1, 2, 3].getD p (-1)
  topkWeights p := p + 1
  isTokenInRank i := [true, false, false, true, false, true, false, false,
    false, false, true, true].getD i false
  topkIdx_lower t ht := by
    have below : t < 3 := lt_of_lt_of_le ht few
    clear ht few
    revert t
    decide
  topkIdx_upper t ht := by
    have below : t < 3 := lt_of_lt_of_le ht few
    clear ht few
    revert t
    decide
  topkIdx_distinct t ht := by
    have below : t < 3 := lt_of_lt_of_le ht few
    clear ht few
    revert t
    decide
  isTokenInRank_iff t ht := by
    have below : t < 3 := lt_of_lt_of_le ht few
    clear ht few
    revert t
    decide

/-- Ranks with an even number have a token more. -/
def exampleNodesInputs (src : ℕ) : DispatchInputs exampleNodes.toShape ℕ ℕ :=
  if src % 2 = 0 then exampleNodeInputs 3 (Nat.le_refl (nat_lit 3))
  else exampleNodeInputs 2 (Nat.le_succ (nat_lit 2))

/-- Slabs full of what an earlier dispatch left. -/
def exampleSlabs : StaleSlabs := ⟨fun _ _ => 7, fun _ => 7, fun _ => 7, fun _ => 7, fun _ => 7,
  fun _ => 7⟩

theorem exampleNodes_reference :
    ReferenceMetadata exampleNodesInputs exampleSlabs (fun _ => 7) 3 :=
  metadata_reference _ _ _ (by decide)

end StreamEP.Internode
