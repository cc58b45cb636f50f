import StreamEP.Lib.Warp
import StreamEP.Routing

/-!
# The streaming tile scheduler

The grouped GEMMs of `stream_moe` take their work from one counter.  A claim is an
index into all (tile, column group) pairs, tile by tile; `delinearizeWorkIdx` decodes
it.  The expert of a tile is found by a ballot: every lane compares its entries of
`expert_pool_block_offset` with the tile, and the number of entries that are not
beyond it is one more than the expert.

Column groups count clusters, not CTAs: `num_pid_n` is divided by the cluster width
with rounding up, and the peers of the leading CTA take the next columns.

An expert without slots has the offset of the next one, and the ballot counts both, so the tile
goes to the last expert that begins at or before it, which is the one that owns it
(`expertId_spec`).  The epilogue computes the tile again from the expert and the row of tiles
within it; `tileId_eq` says that it is the tile the claim was for.
-/

namespace StreamEP.StreamMoe

open Finset

/-- `MAX_LOCAL_EXPERTS`. -/
def maxLocalExperts : ℕ := 64

/-- `kNumExpertsPerLane`. -/
def kNumExpertsPerLane : ℕ := maxLocalExperts / 32

/-- What a streaming kernel tells its scheduler. -/
structure SchedulerArguments where
  numLocalExperts : ℕ
  expertPoolBlockOffset : ℕ → ℕ
  totalTiles : ℕ
  /-- Column tiles of the output, the entry `[1]` of `problem_shape_ntile_mnl`. -/
  problemTilesN : ℕ
  clusterN : ℕ
  numLocalExperts_le : numLocalExperts ≤ maxLocalExperts
  offset_zero : expertPoolBlockOffset 0 = 0
  offset_mono : ∀ e < numLocalExperts,
    expertPoolBlockOffset e ≤ expertPoolBlockOffset (e + 1)
  /-- The last of the `E_local + 1` offsets. -/
  offset_last : expertPoolBlockOffset numLocalExperts = totalTiles
  /-- `total_tiles` is an `Int32`. -/
  totalTiles_le : totalTiles ≤ 0x7FFFFFFF
  clusterN_pos : 0 < clusterN

/-- A decoded claim, the coordinates of the leading CTA. -/
structure WorkTile where
  pidM : ℕ
  pidN : ℕ
  expertId : ℕ

namespace SchedulerArguments

variable (args : SchedulerArguments)

/-- `num_pid_n` of the scheduler: column groups of one cluster each. -/
def numPidN : ℕ := ceilDiv args.problemTilesN args.clusterN

/-- `total_work`. -/
def totalWork : ℕ := args.totalTiles * args.numPidN

/-- `cum_slots[i]` of a lane; entries past the last offset never match. -/
def cumSlot (i lane : ℕ) : ℕ :=
  let eIdx := lane + i * 32
  if eIdx ≤ args.numLocalExperts then args.expertPoolBlockOffset eIdx else 0x7FFFFFFF

/-- `popc(vote_ballot_sync(cum_slots[i] <= tile_id))`. -/
def ballotPopc (i tileId : ℕ) : ℕ :=
  ∑ lane ∈ range 32, if args.cumSlot i lane ≤ tileId then 1 else 0

/-- `n_matched_total`. -/
def nMatchedTotal (tileId : ℕ) : ℕ :=
  ∑ i ∈ range kNumExpertsPerLane, args.ballotPopc i tileId

/-- `_delinearize_work_idx` of a valid index. -/
def delinearizeWorkIdx (workIdx : ℕ) : WorkTile :=
  let tileId := workIdx / args.numPidN
  let clusterPidN := workIdx % args.numPidN
  let pidN := clusterPidN * args.clusterN
  let expertId := args.nMatchedTotal tileId - 1
  let expertLane := expertId % 32
  let expertSlot := expertId / 32
  let expertCum := if expertSlot < kNumExpertsPerLane then args.cumSlot expertSlot expertLane else 0
  { pidM := tileId - expertCum, pidN := pidN, expertId := expertId }

/-- `expert_pool_block_offset[batch_idx] + pid_m`, the tile as the epilogue
reconstructs it. -/
def tileId (workIdx : ℕ) : ℕ :=
  let tile := args.delinearizeWorkIdx workIdx
  args.expertPoolBlockOffset tile.expertId + tile.pidM

/-! ### The ballot -/

variable {args}

variable (args) in
theorem offset_le {e e' : ℕ} (h : e ≤ e') (bound : e' ≤ args.numLocalExperts) :
    args.expertPoolBlockOffset e ≤ args.expertPoolBlockOffset e' := by
  induction e', h using Nat.le_induction with
  | base => exact le_rfl
  | succ e' _ ih => exact (ih (by omega)).trans (args.offset_mono e' bound)

/-- The ballots together count the offsets that are not beyond the tile. -/
theorem nMatchedTotal_eq {tileId : ℕ} (valid : tileId < args.totalTiles) :
    args.nMatchedTotal tileId =
      Nat.count (fun e => args.expertPoolBlockOffset e ≤ tileId) args.numLocalExperts := by
  have slot : ∀ e < kNumExpertsPerLane * 32, (args.cumSlot (e / 32) (e % 32) ≤ tileId) ↔
      e < args.numLocalExperts ∧ args.expertPoolBlockOffset e ≤ tileId := by
    intro e _
    have entry : e % 32 + e / 32 * 32 = e := Nat.mod_add_div' e 32
    have last := args.offset_last
    have top := args.totalTiles_le
    simp only [cumSlot, entry]
    by_cases inside : e ≤ args.numLocalExperts
    · rw [if_pos inside]
      refine ⟨fun le => ⟨lt_of_le_of_ne inside fun eq => ?_, le⟩, fun h => h.2⟩
      rw [eq, last] at le
      omega
    · rw [if_neg inside]
      omega
  have flat : args.nMatchedTotal tileId =
      ∑ e ∈ range (kNumExpertsPerLane * 32),
        if e < args.numLocalExperts ∧ args.expertPoolBlockOffset e ≤ tileId then 1 else 0 := by
    rw [nMatchedTotal, PrefixSum.sum_range_mul]
    refine sum_congr rfl fun i hi => sum_congr rfl fun lane hlane => ?_
    have below := mem_range.1 hlane
    have flat := slot (i * 32 + lane) (PrefixSum.flat_lt (mem_range.1 hi) below)
    rw [PrefixSum.flat_div below, PrefixSum.flat_mod below] at flat
    simp only [flat]
  have fits : args.numLocalExperts ≤ kNumExpertsPerLane * 32 := args.numLocalExperts_le
  rw [flat, Nat.count_eq_card_filter_range, ← sum_filter, card_eq_sum_ones]
  refine sum_congr (Finset.ext fun e => ?_) fun _ _ => rfl
  simp only [mem_filter, mem_range]
  omega

/-- **The ballot finds the expert that owns the tile.** -/
theorem expertId_spec {tileId : ℕ} (valid : tileId < args.totalTiles) :
    args.nMatchedTotal tileId - 1 < args.numLocalExperts ∧
      args.expertPoolBlockOffset (args.nMatchedTotal tileId - 1) ≤ tileId ∧
      tileId < args.expertPoolBlockOffset (args.nMatchedTotal tileId - 1 + 1) := by
  rw [nMatchedTotal_eq valid]
  have last := args.offset_last
  -- the matching experts are those before the first offset beyond the tile
  obtain ⟨e, he, lower, upper⟩ : ∃ e < args.numLocalExperts,
      args.expertPoolBlockOffset e ≤ tileId ∧ tileId < args.expertPoolBlockOffset (e + 1) := by
    by_contra none
    have all : ∀ e ≤ args.numLocalExperts, args.expertPoolBlockOffset e ≤ tileId := by
      intro e
      induction e with
      | zero =>
          intro _
          rw [args.offset_zero]
          exact Nat.zero_le _
      | succ e ih =>
          intro he
          by_contra beyond
          exact none ⟨e, he, ih (by omega), by omega⟩
    have := all _ le_rfl
    omega
  have counted : Nat.count (fun e => args.expertPoolBlockOffset e ≤ tileId)
      args.numLocalExperts = e + 1 := by
    rw [Nat.count_eq_card_filter_range]
    have segment : ((range args.numLocalExperts).filter fun e' =>
        args.expertPoolBlockOffset e' ≤ tileId) = range (e + 1) := by
      ext e'
      simp only [mem_filter, mem_range]
      constructor
      · rintro ⟨inside, le⟩
        by_contra beyond
        have := offset_le args (show e + 1 ≤ e' by omega) (by omega)
        omega
      · intro h
        exact ⟨by omega, (offset_le args (by omega) (by omega)).trans lower⟩
    rw [segment, card_range]
  rw [counted, Nat.add_sub_cancel]
  exact ⟨he, lower, upper⟩

theorem numPidN_pos (pos : 0 < args.problemTilesN) : 0 < args.numPidN :=
  Nat.div_pos (by have := args.clusterN_pos; omega) args.clusterN_pos

theorem tile_lt {workIdx : ℕ} (h : workIdx < args.totalWork) :
    workIdx / args.numPidN < args.totalTiles :=
  Nat.div_lt_of_lt_mul (by rw [Nat.mul_comm]; exact h)

/-- **Decoding and reconstructing a claim gives the tile it was claimed for.** -/
theorem tileId_eq {workIdx : ℕ} (h : workIdx < args.totalWork) :
    args.tileId workIdx = workIdx / args.numPidN := by
  obtain ⟨inside, lower, -⟩ := expertId_spec (tile_lt h)
  have fits := args.numLocalExperts_le
  set e := args.nMatchedTotal (workIdx / args.numPidN) - 1 with he
  have slot : e / 32 < kNumExpertsPerLane := by
    unfold maxLocalExperts at fits
    show e / 32 < 2
    omega
  have cum : args.cumSlot (e / 32) (e % 32) = args.expertPoolBlockOffset e := by
    have entry : e % 32 + e / 32 * 32 = e := Nat.mod_add_div' e 32
    simp only [cumSlot, entry]
    rw [if_pos (by omega)]
  simp only [tileId, delinearizeWorkIdx, ← he, if_pos slot, cum]
  omega

end SchedulerArguments

end StreamEP.StreamMoe
