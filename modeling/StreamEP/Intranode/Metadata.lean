import StreamEP.Histogram
import StreamEP.Lib.BlockScan
import StreamEP.PoolTables

/-!
# Intranode dispatch metadata

Before a token moves, every rank learns how many (token, k) pairs each source
will send it, per channel and per local expert.  Phase A counts on the sending
side and stores the counts into the peers' inboxes; Phase B turns a rank's inbox
into the tables the dispatch receivers allocate from.

* Phase A: `smemLocalE`, `smemLocalU` are the histograms one rank builds from
  `topk_idx`; `eInbox`, `uInbox` are what a rank finds after the exchange.
* Phase B: `rankPrefixMatrix` and `basePool`, the latter by the chunked block scan;
  the tables per expert are those of `PoolTables`.

**Inboxes.**  A cell of an inbox has one sender that stores into it, and the stores of all senders
cover it.  So after the barrier the inbox holds their counts, whatever an earlier dispatch left
there (`eInbox_apply`, `uInbox_apply`).

**Tables.**  The sections at the end say what the tables hold in terms of the routing alone.
`base_pool` has an entry for every substream and expert: the expert's first slot, and the pairs of
all substreams before (`basePool_eq_sum`).  One block of 256 threads scans each expert, in chunks;
that such a scan is the sum is a fact of the library.
-/

namespace StreamEP.Intranode

open Finset

variable {sh : Shape} {Row Weight : Type}

/-! ### Phase A: local histograms -/

/-- `slab_e_size`: one destination's part of the pair histogram. -/
def slabESize (sh : Shape) : ℕ := sh.numChannels * sh.numExpertsPerRank

/-- `slab_u_size`: one destination's part of the token histogram. -/
def slabUSize (sh : Shape) : ℕ := sh.numChannels

/-- `smem_local_e` after Phase 3: one addition for each chosen expert. -/
def smemLocalE (inp : DispatchInputs sh Row Weight) : ℕ → ℕ :=
  pairHistogram inp fun t eGlobal =>
    let dstRank := eGlobal / sh.numExpertsPerRank
    let eLocal := eGlobal - dstRank * sh.numExpertsPerRank
    dstRank * slabESize sh + channelId inp t * sh.numExpertsPerRank + eLocal

/-- `smem_local_u` after Phase 3: one addition for each rank that is not yet in
`dst_mask`. -/
def smemLocalU (inp : DispatchInputs sh Row Weight) : ℕ → ℕ :=
  tokenHistogram inp (· / sh.numExpertsPerRank) fun t dstRank =>
    dstRank * slabUSize sh + channelId inp t

/-! ### Phase A: stores into the peers' inboxes -/

section Exchange

variable (inps : ℕ → DispatchInputs sh Row Weight)

/-- Phase 4 stores of sender `rank` into the pair inbox of `dst`. -/
def storesE (dst rank : ℕ) : List (Store.Write fun _ : ℕ => ℕ) :=
  (List.range (slabESize sh)).map fun i =>
    let c := i / sh.numExpertsPerRank
    let e := i - c * sh.numExpertsPerRank
    ⟨c * sh.numRanks * sh.numExpertsPerRank + rank * sh.numExpertsPerRank + e,
      smemLocalE (inps rank) (dst * slabESize sh + i)⟩

/-- Phase 4 stores of sender `rank` into the token inbox of `dst`. -/
def storesU (dst rank : ℕ) : List (Store.Write fun _ : ℕ => ℕ) :=
  (List.range sh.numChannels).map fun c =>
    ⟨c * sh.numRanks + rank, smemLocalU (inps rank) (dst * slabUSize sh + c)⟩

/-- The pair inbox of rank `g` after the Phase 5 barrier, over what an earlier
dispatch left there. -/
def eInbox (stale : ℕ → ℕ) (g : ℕ) : ℕ → ℕ :=
  Store.run ((List.range sh.numRanks).flatMap (storesE inps g)) stale

/-- The token inbox of rank `g` after the Phase 5 barrier. -/
def uInbox (stale : ℕ → ℕ) (g : ℕ) : ℕ → ℕ :=
  Store.run ((List.range sh.numRanks).flatMap (storesU inps g)) stale

end Exchange

/-! ### Phase B -/

section PhaseB

variable (sh) (eIn uIn : ℕ → ℕ)

/-- `seen_per_substream`, at `cs * E + e`. -/
def seenPerSubstream : ℕ → ℕ := eIn

/-- `per_src`: the tokens source `i` sends to this rank. -/
def perSrc (i : ℕ) : ℕ :=
  ((List.range sh.numChannels).map fun c => uIn (c * sh.numRanks + i)).sum

/-- `cum_src` after source `i - 1`. -/
def cumSrc : ℕ → ℕ
  | 0 => 0
  | i + 1 => cumSrc i + perSrc sh uIn i

/-- `rank_prefix_matrix`, of which rank `g` fills column `g` on top of zeros. -/
def rankPrefixMatrix (g idx : ℕ) : ℕ :=
  if idx % sh.numRanks = g ∧ idx / sh.numRanks < sh.numRanks then
    cumSrc sh uIn (idx / sh.numRanks + 1)
  else 0

/-- `num_recv_mapped`: the tokens this rank receives. -/
def numRecvTokens : ℕ := cumSrc sh uIn sh.numRanks

/-- `base_pool`, at `cs * E + e`: one block of 256 threads scans each expert. -/
def basePool (idx : ℕ) : ℕ :=
  let e := idx % sh.numExpertsPerRank
  Warp.blockScan [1, 2, 4] 8 (csTotal sh) (expertPoolBlockOffset sh eIn e * sh.tileM)
    (fun cs => seenPerSubstream eIn (cs * sh.numExpertsPerRank + e))
    (idx / sh.numExpertsPerRank)

end PhaseB

/-! ### What the histograms hold -/

section Histograms

variable (inp : DispatchInputs sh Row Weight)

/-- Phase 3 counts the pairs of each channel by destination and local expert. -/
theorem smemLocalE_apply {dst c e : ℕ} (hc : c < sh.numChannels)
    (he : e < sh.numExpertsPerRank) :
    smemLocalE inp (dst * slabESize sh + c * sh.numExpertsPerRank + e) =
      inp.pairsIn dst e c := by
  refine pairHistogram_channel inp fun t ht eGlobal => ?_
  have channel : channelId inp t < sh.numChannels := channel_lt sh.numChannels_pos ht
  have lane : eGlobal % sh.numExpertsPerRank < sh.numExpertsPerRank :=
    Nat.mod_lt _ sh.numExpertsPerRank_pos
  have remainder : eGlobal - eGlobal / sh.numExpertsPerRank * sh.numExpertsPerRank =
      eGlobal % sh.numExpertsPerRank := by
    have := Nat.div_add_mod' eGlobal sh.numExpertsPerRank
    omega
  simp only [remainder]
  rw [Nat.add_assoc, Nat.add_assoc, slabESize,
    PrefixSum.flat_inj (PrefixSum.flat_lt channel lane) (PrefixSum.flat_lt hc he),
    PrefixSum.flat_inj lane he]
  constructor
  · rintro ⟨owner, same, local'⟩
    exact ⟨same, by rw [← owner, ← local', Nat.div_add_mod']⟩
  · rintro ⟨same, rfl⟩
    exact ⟨PrefixSum.flat_div he, same, PrefixSum.flat_mod he⟩

/-- Phase 3 counts each token once for every rank it goes to. -/
theorem smemLocalU_apply {dst c : ℕ} (hdst : dst < sh.numRanks) (hc : c < sh.numChannels) :
    smemLocalU inp (dst * slabUSize sh + c) = inp.tokensIn dst c := by
  have addr : ∀ t < inp.numTokens, ∀ d,
      d * slabUSize sh + channelId inp t = dst * slabUSize sh + c ↔
        channelId inp t = c ∧ d = dst := fun t ht d =>
    (PrefixSum.flat_inj (channel_lt sh.numChannels_pos ht) hc).trans and_comm
  rw [smemLocalU, tokenHistogram_apply inp addr fun t ht => mem_owners inp ht hdst]
  exact inp.sum_channel_window c

end Histograms

/-! ### What the inboxes hold -/

section Inboxes

variable (inps : ℕ → DispatchInputs sh Row Weight) (stale : ℕ → ℕ)

/-- Each pair count reaches the cell of its channel, source and expert. -/
theorem eInbox_apply {g c src e : ℕ} (hc : c < sh.numChannels) (hsrc : src < sh.numRanks)
    (he : e < sh.numExpertsPerRank) :
    eInbox inps stale g ((c * sh.numRanks + src) * sh.numExpertsPerRank + e) =
      (inps src).pairsIn g e c := by
  have lane : ∀ i < slabESize sh, i - i / sh.numExpertsPerRank * sh.numExpertsPerRank =
      i % sh.numExpertsPerRank := fun i _ => by
    have := Nat.div_add_mod' i sh.numExpertsPerRank
    omega
  have addr : ∀ c rank e : ℕ, c * sh.numRanks * sh.numExpertsPerRank +
      rank * sh.numExpertsPerRank + e = (c * sh.numRanks + rank) * sh.numExpertsPerRank + e :=
    fun c rank e => by rw [Nat.add_mul]
  have split : c * sh.numExpertsPerRank + e < slabESize sh := PrefixSum.flat_lt hc he
  refine Store.run_of_agree ?_ ?_ stale
  · refine List.mem_flatMap.2 ⟨src, List.mem_range.2 hsrc, List.mem_map.2
      ⟨c * sh.numExpertsPerRank + e, List.mem_range.2 split, ?_⟩⟩
    simp only [PrefixSum.flat_div he, Nat.add_sub_cancel_left, addr, ← Nat.add_assoc,
      smemLocalE_apply _ hc he]
  · intro w hw heq
    obtain ⟨rank, hrank, hw⟩ := List.mem_flatMap.1 hw
    obtain ⟨i, hi, rfl⟩ := List.mem_map.1 hw
    have hrank := List.mem_range.1 hrank
    have hi := List.mem_range.1 hi
    have mod_lt := Nat.mod_lt i sh.numExpertsPerRank_pos
    simp only [lane i hi, addr] at heq ⊢
    obtain ⟨row, rfl⟩ := (PrefixSum.flat_inj mod_lt he).1 heq
    obtain ⟨rfl, rfl⟩ := (PrefixSum.flat_inj hrank hsrc).1 row
    have cell : smemLocalE (inps rank) (g * slabESize sh +
        i / sh.numExpertsPerRank * sh.numExpertsPerRank + i % sh.numExpertsPerRank) =
          (inps rank).pairsIn g _ _ :=
      smemLocalE_apply (inps rank) hc mod_lt
    rw [Nat.add_assoc, Nat.div_add_mod'] at cell
    rw [cell]

/-- Each token count reaches the cell of its channel and source. -/
theorem uInbox_apply {g c src : ℕ} (hg : g < sh.numRanks) (hc : c < sh.numChannels)
    (hsrc : src < sh.numRanks) :
    uInbox inps stale g (c * sh.numRanks + src) = (inps src).tokensIn g c := by
  refine Store.run_of_agree ?_ ?_ stale
  · refine List.mem_flatMap.2 ⟨src, List.mem_range.2 hsrc, List.mem_map.2
      ⟨c, List.mem_range.2 hc, ?_⟩⟩
    rw [smemLocalU_apply _ hg hc]
  · intro w hw heq
    obtain ⟨rank, hrank, hw⟩ := List.mem_flatMap.1 hw
    obtain ⟨c', hc', rfl⟩ := List.mem_map.1 hw
    have hc' := List.mem_range.1 hc'
    obtain ⟨rfl, rfl⟩ := (PrefixSum.flat_inj (List.mem_range.1 hrank) hsrc).1 heq
    rw [smemLocalU_apply _ hg hc']

end Inboxes

/-! ### What Phase B computes -/

section Tables

variable (eIn uIn : ℕ → ℕ)

/-- **`base_pool` is the exclusive prefix over the substreams** of an expert,
shifted to the expert's first slot. -/
theorem basePool_eq_sum {cs e : ℕ} (hcs : cs < csTotal sh) (he : e < sh.numExpertsPerRank) :
    basePool sh eIn (cs * sh.numExpertsPerRank + e) =
      expertPoolBlockOffset sh eIn e * sh.tileM +
        ∑ cs' ∈ range cs, eIn (cs' * sh.numExpertsPerRank + e) := by
  rw [basePool, PrefixSum.flat_div he, PrefixSum.flat_mod he]
  exact Warp.blockScan_apply (m := 3) (by decide) (by decide) _ _ _ hcs

theorem cumSrc_eq_sum (i : ℕ) : cumSrc sh uIn i = ∑ i' ∈ range i, perSrc sh uIn i' := by
  induction i with
  | zero => rfl
  | succ i ih => rw [cumSrc, ih, sum_range_succ]

theorem rankPrefixMatrix_apply {g i : ℕ} (hg : g < sh.numRanks) (hi : i < sh.numRanks) :
    rankPrefixMatrix sh uIn g (i * sh.numRanks + g) = cumSrc sh uIn (i + 1) := by
  rw [rankPrefixMatrix, PrefixSum.flat_mod hg, PrefixSum.flat_div hg, if_pos ⟨rfl, hi⟩]

end Tables

end StreamEP.Intranode
