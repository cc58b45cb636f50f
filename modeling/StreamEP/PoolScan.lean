import StreamEP.Internode.PhaseB
import StreamEP.Intranode.Layout

/-!
# The scan of `base_pool`, at any block size

Both metadata kernels scan the substream counts of an expert with one block.  The chunks of the
scan follow the number of threads of the launch, while the number of warp sums is a constant of
the kernel, eight intranode and sixteen internode, which matches the launcher.

**Two parameters that have to agree.**  `basePoolBy` is the kernel with the number of threads as
a parameter and the constant as it is; with the launched number it is the `basePool` that all
other modules use (`basePool_eq_basePoolBy`, once for each topology).  The scan itself is
`blockScan` of the library, which knows nothing of pools.

**Scratch.**  The warp sums are in shared memory that an earlier expert, or nothing, has written.
`stale` is what they hold when the block comes to an expert, and the scan has to be right for
every such content: a scan that reads a sum that no warp has written is right by accident only.

`basePool_scan_iff`: with that number of threads the scan is the exclusive prefix sum whatever
the length, and with another one exactly if the substreams fit into one chunk and one warp more
than the kernel knows of.  `basePool_scan_one_warp` is a launch with one warp, where the second
chunk starts at what the scratch held.
-/

namespace StreamEP

open Finset

/-! ### Intranode -/

namespace Intranode

variable (sh : Shape) (numThreads : ℕ) (stale : ℕ → ℕ → ℕ) (eIn : ℕ → ℕ)

/-- `base_pool` by blocks of `numThreads` threads; `stale e` is what `s_warp_sums` holds when the
block comes to expert `e`. -/
def basePoolBy (idx : ℕ) : ℕ :=
  let e := idx % sh.numExpertsPerRank
  Warp.launchedScan [1, 2, 4] 8 numThreads (csTotal sh) (expertPoolBlockOffset sh eIn e * sh.tileM)
    (stale e) (fun cs => seenPerSubstream eIn (cs * sh.numExpertsPerRank + e))
    (idx / sh.numExpertsPerRank)

/-- For all counts and scratch, `base_pool` is the exclusive prefix over the substreams. -/
def ScansCorrectly : Prop :=
  ∀ (stale : ℕ → ℕ → ℕ) (eIn : ℕ → ℕ), ∀ e < sh.numExpertsPerRank, ∀ cs < csTotal sh,
    basePoolBy sh numThreads stale eIn (cs * sh.numExpertsPerRank + e) =
      expertPoolBlockOffset sh eIn e * sh.tileM +
        ∑ cs' ∈ range cs, seenPerSubstream eIn (cs' * sh.numExpertsPerRank + e)

variable {sh numThreads}

/-- The kernel is launched with 256 threads. -/
theorem basePool_eq_basePoolBy : basePool sh eIn = basePoolBy sh 256 stale eIn := by
  funext idx
  exact (congrFun (Warp.launchedScan_eq_blockScan [1, 2, 4] (by decide) _ _ _) _).symm

theorem scansCorrectly_iff {warps : ℕ} (some : 0 < warps) :
    ScansCorrectly sh (warps * Warp.width) ↔
      warps = 8 ∨ csTotal sh ≤ min warps 9 * Warp.width := by
  constructor
  · intro correct
    by_contra unfit
    obtain ⟨value, junk, cs, hcs, wrong⟩ :=
      Warp.exists_wrong (m := 3) (by decide) (by decide) some unfit
    have distances : Warp.doublings 3 = [1, 2, 4] := by decide
    rw [distances] at wrong
    -- an input with `value` everywhere: the first expert starts at slot 0
    have first := correct (fun _ _ => junk) (fun _ => value) 0 sh.numExpertsPerRank_pos cs hcs
    have expert := sh.numExpertsPerRank_pos
    rw [basePoolBy, PrefixSum.flat_div expert, PrefixSum.flat_mod expert] at first
    refine wrong ?_
    simpa [seenPerSubstream, expertPoolBlockOffset] using first
  · intro fits stale eIn e he cs hcs
    rw [basePoolBy, PrefixSum.flat_div he, PrefixSum.flat_mod he]
    exact Warp.launchedScan_apply (m := 3) (by decide) (by decide) fits _ _ _ hcs

end Intranode

/-! ### Internode -/

namespace Internode

variable (sh : NodeShape) (rdmaRank numThreads : ℕ) (stale : ℕ → ℕ → ℕ) (seen uninit : ℕ → ℕ)

/-- `s_scan` of expert `e` after the scan, by a block of `numThreads` threads. -/
def sScanBy (e : ℕ) : ℕ → ℕ :=
  Warp.launchedScan [1, 2, 4, 8] 16 numThreads (csTotal sh.toShape)
    (expertPoolBlockOffset sh.toShape seen e * sh.tileM) (stale e)
    fun pos => seen (partitionPosToCs sh rdmaRank pos * sh.numExpertsPerRank + e)

/-- `base_pool` by blocks of `numThreads` threads, stored through the permutation. -/
def basePoolBy : ℕ → ℕ :=
  Store.run ((List.range sh.numExpertsPerRank).flatMap fun e =>
    (List.range (csTotal sh.toShape)).map fun pos =>
      (⟨partitionPosToCs sh rdmaRank pos * sh.numExpertsPerRank + e,
        sScanBy sh rdmaRank numThreads stale seen e pos⟩ : Store.Write fun _ : ℕ => ℕ)) uninit

/-- For all counts and scratch, `base_pool` is the exclusive prefix in partition order. -/
def ScansCorrectly : Prop :=
  ∀ (stale : ℕ → ℕ → ℕ) (seen uninit : ℕ → ℕ), ∀ e < sh.numExpertsPerRank,
    ∀ pos < csTotal sh.toShape,
      basePoolBy sh rdmaRank numThreads stale seen uninit
          (partitionPosToCs sh rdmaRank pos * sh.numExpertsPerRank + e) =
        expertPoolBlockOffset sh.toShape seen e * sh.tileM +
          ∑ i ∈ range pos, seen (partitionPosToCs sh rdmaRank i * sh.numExpertsPerRank + e)

variable {sh rdmaRank numThreads stale seen uninit}

/-- Every position keeps the store of its own scan value, because the order is a permutation. -/
theorem basePoolBy_apply (node : rdmaRank < sh.numRdmaRanks) {e pos : ℕ}
    (he : e < sh.numExpertsPerRank) (hpos : pos < csTotal sh.toShape) :
    basePoolBy sh rdmaRank numThreads stale seen uninit
        (partitionPosToCs sh rdmaRank pos * sh.numExpertsPerRank + e) =
      sScanBy sh rdmaRank numThreads stale seen e pos := by
  refine Store.run_of_agree ?_ ?_ uninit
  · exact List.mem_flatMap.2 ⟨e, List.mem_range.2 he,
      List.mem_map.2 ⟨pos, List.mem_range.2 hpos, rfl⟩⟩
  · intro w hw same
    obtain ⟨e', he', hw⟩ := List.mem_flatMap.1 hw
    obtain ⟨pos', hpos', rfl⟩ := List.mem_map.1 hw
    have he' := List.mem_range.1 he'
    have hpos' := List.mem_range.1 hpos'
    obtain ⟨cs, rfl⟩ := (PrefixSum.flat_inj he' he).1 same
    obtain rfl : pos' = pos := by
      rw [← partitionPosOfCs_partitionPosToCs node hpos', cs,
        partitionPosOfCs_partitionPosToCs node hpos]
    rfl

/-- The kernel is launched with 512 threads. -/
theorem basePool_eq_basePoolBy {Row Weight : Type}
    (inps : ℕ → DispatchInputs sh.toShape Row Weight) (slabs : StaleSlabs) (g : ℕ)
    (stale : ℕ → ℕ → ℕ) (uninit : ℕ → ℕ) :
    basePool inps slabs g uninit =
      basePoolBy sh (sh.rdmaRank g) 512 stale (seenPerSubstream inps slabs g) uninit := by
  have scans : ∀ e, sScanBy sh (sh.rdmaRank g) 512 stale (seenPerSubstream inps slabs g) e =
      sScan inps slabs g e := fun e =>
    Warp.launchedScan_eq_blockScan [1, 2, 4, 8] (by decide) _ _ _
  simp only [basePool, basePoolStores, basePoolBy, scans]

theorem scansCorrectly_iff (node : rdmaRank < sh.numRdmaRanks) {warps : ℕ} (some : 0 < warps) :
    ScansCorrectly sh rdmaRank (warps * Warp.width) ↔
      warps = 16 ∨ csTotal sh.toShape ≤ min warps 17 * Warp.width := by
  constructor
  · intro correct
    by_contra unfit
    obtain ⟨value, junk, pos, hpos, wrong⟩ :=
      Warp.exists_wrong (m := 4) (by decide) (by decide) some unfit
    have distances : Warp.doublings 4 = [1, 2, 4, 8] := by decide
    rw [distances] at wrong
    have first := correct (fun _ _ => junk) (fun _ => value) (fun _ => 0) 0
      sh.numExpertsPerRank_pos pos hpos
    rw [basePoolBy_apply node sh.numExpertsPerRank_pos hpos, sScanBy] at first
    refine wrong ?_
    simpa [expertPoolBlockOffset] using first
  · intro fits stale seen uninit e he pos hpos
    rw [basePoolBy_apply node he hpos]
    exact Warp.launchedScan_apply (m := 4) (by decide) (by decide) fits _ _ _ hpos

end Internode

/-! ### Both kernels -/

/-- **The scan of `base_pool` is the exclusive prefix sum for the launched number of threads, and
for which others.**  For every number of substreams, counts and scratch contents. -/
theorem basePool_scan_iff :
    (∀ (sh : Shape) (warps : ℕ), 0 < warps →
      (Intranode.ScansCorrectly sh (warps * 32) ↔
        warps = 8 ∨ csTotal sh ≤ min warps 9 * 32)) ∧
    ∀ (sh : NodeShape) (rdmaRank warps : ℕ), rdmaRank < sh.numRdmaRanks → 0 < warps →
      (Internode.ScansCorrectly sh rdmaRank (warps * 32) ↔
        warps = 16 ∨ csTotal sh.toShape ≤ min warps 17 * 32) :=
  ⟨fun _ _ some => Intranode.scansCorrectly_iff some,
    fun _ _ _ node some => Internode.scansCorrectly_iff node some⟩

theorem basePool_scan_launched :
    Intranode.ScansCorrectly Intranode.World.exampleShape 256 ∧
      Internode.ScansCorrectly Internode.exampleNodes 0 512 :=
  ⟨(basePool_scan_iff.1 _ 8 (by decide)).2 (Or.inl rfl),
    (basePool_scan_iff.2 _ 0 16 (by decide) (by decide)).2 (Or.inl rfl)⟩

/-- One expert a rank, and 33 substreams. -/
def exampleScanShape : Shape where
  numRanks := 1
  numChannels := 33
  numExpertsPerRank := 1
  numTopk := 1
  tileM := 1
  numRanks_pos := Nat.one_pos
  numChannels_pos := Nat.succ_pos (nat_lit 32)
  numExpertsPerRank_pos := Nat.one_pos
  tileM_pos := Nat.one_pos

/-- With one warp and no tokens at all, the second chunk starts at what the scratch held. -/
theorem basePool_scan_one_warp :
    32 < csTotal exampleScanShape ∧
      Intranode.basePoolBy exampleScanShape 32 (fun _ _ => 1) (fun _ => 0) 32 = 7 ∧
      ¬Intranode.ScansCorrectly exampleScanShape 32 := by
  have long : 32 < csTotal exampleScanShape := by decide
  have second : Intranode.basePoolBy exampleScanShape 32 (fun _ _ => 1) (fun _ => 0) 32 = 7 := by
    decide +kernel
  refine ⟨long, second, fun correct => ?_⟩
  have none := correct (fun _ _ => 1) (fun _ => 0) 0 Nat.one_pos 32 long
  have index : 32 * exampleScanShape.numExpertsPerRank + 0 = 32 := rfl
  rw [index, second] at none
  simp [Intranode.seenPerSubstream, expertPoolBlockOffset] at none

end StreamEP
