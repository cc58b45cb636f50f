import StreamEP.PairSums
import StreamEP.StreamMoe.Completion
import StreamEP.StreamMoe.GroupedGemm

/-!
# Launches on a dispatched pool

The streaming kernels get the tables and maps of the dispatch as they are: the scheduler the tile
offsets, the scatter epilogue `pool_recv_token` and the counters of the recv tokens.  What
dispatch leaves is what the launches require (`scatterLaunch`).

**Requirements.**  A launch has its assumptions as fields, so building one from a dispatched
pool is the proof that they hold: the offsets rise and end at the number of tiles, every slot
names a recv token or none (`recvToken_range`), and the counters start at the number of slots of
each token (`CountsSlots`).  Only the limits of the scheduler itself are assumed of the pool
(`Schedulable`).

**Gates.**  A sender of combine waits for `y_done_per_token[r] >= combine_seq`, a stamp of this
call. A row that passes is stamped (`stamped_of_gate`), and at the end of the kernel every row
passes (`gate_of_finished`), since every recv token has a slot (`hasSlot`).
-/

namespace StreamEP

open Finset StreamMoe

variable {sh : Shape} {Row Weight : Type}

namespace PoolPlan

variable {inputs : ℕ → DispatchInputs sh Row Weight} {g : ℕ} (plan : PoolPlan sh inputs g)

/-- A pool that the tile scheduler can take: `assert E_local <= MAX_LOCAL_EXPERTS`, and the
number of tiles is an `Int32`. -/
structure Schedulable : Prop where
  experts : sh.numExpertsPerRank ≤ maxLocalExperts
  tiles : plan.totalTiles ≤ 0x7FFFFFFF

end PoolPlan

/-- Rounding up does nothing to a multiple. -/
theorem ceilDiv_mul_of_dvd {n C : ℕ} (pos : 0 < C) (dvd : C ∣ n) : ceilDiv n C * C = n := by
  obtain ⟨q, rfl⟩ := dvd
  have enough := le_ceilDiv_mul pos (C * q)
  have few := ceilDiv_mul_lt pos (C * q)
  rw [Nat.mul_comm C q] at enough few ⊢
  have upper : ceilDiv (q * C) C < q + 1 := by
    refine Nat.lt_of_mul_lt_mul_right (a := C) ?_
    rw [Nat.add_mul, Nat.one_mul]
    exact few
  have lower : q ≤ ceilDiv (q * C) C := Nat.le_of_mul_le_mul_right enough pos
  rw [show ceilDiv (q * C) C = q by omega]

/-- How a kernel cuts the columns of its product. -/
structure ColumnTiles where
  tileN : ℕ
  clusterN : ℕ
  tileN_pos : 0 < tileN
  clusterN_pos : 0 < clusterN

/-- How a scattering kernel cuts its tiles, and what it runs on. -/
structure ScatterTiles (tileM hidden : ℕ) extends ColumnTiles where
  epiTileM : ℕ
  epiTileN : ℕ
  numEpiWarps : ℕ
  numClusters : ℕ
  /-- `assert H % tile_n == 0`. -/
  tileN_dvd : hidden % toColumnTiles.tileN = 0
  epiTileM_dvd : epiTileM ∣ tileM
  epiTileN_dvd : epiTileN ∣ toColumnTiles.tileN
  chunk_dvd : 8 ∣ epiTileN
  tileM_le : tileM ≤ 32 * numEpiWarps
  numClusters_pos : 0 < numClusters

namespace PoolPlan

variable {inputs : ℕ → DispatchInputs sh Row Weight} {g : ℕ} {plan : PoolPlan sh inputs g}
  {packet : ℕ → ℕ → Packet Row Weight} {m : PoolMemory Row Weight}

theorem offset_mono (plan : PoolPlan sh inputs g) (e : ℕ) :
    plan.expertPoolBlockOffset e ≤ plan.expertPoolBlockOffset (e + 1) :=
  plan.offsets.mono (Nat.le_succ e)

/-- What a kernel with `width` columns tells its scheduler. -/
def schedulerArguments (plan : PoolPlan sh inputs g) (fit : plan.Schedulable) (width : ℕ)
    (tiles : ColumnTiles) : SchedulerArguments where
  numLocalExperts := sh.numExpertsPerRank
  expertPoolBlockOffset := plan.expertPoolBlockOffset
  totalTiles := plan.totalTiles
  problemTilesN := ceilDiv width tiles.tileN
  clusterN := tiles.clusterN
  numLocalExperts_le := fit.experts
  offset_zero := plan.offsets.zero
  offset_mono e _ := offset_mono plan e
  offset_last := rfl
  totalTiles_le := fit.tiles
  clusterN_pos := tiles.clusterN_pos

/-- The stripes cover the columns. -/
theorem width_le (fit : plan.Schedulable) (width : ℕ) (tiles : ColumnTiles) :
    width ≤ (plan.schedulerArguments fit width tiles).numPidN *
      (plan.schedulerArguments fit width tiles).clusterN * tiles.tileN :=
  (le_ceilDiv_mul tiles.tileN_pos width).trans
    (Nat.mul_le_mul_right _ (le_ceilDiv_mul tiles.clusterN_pos _))

/-- They are the columns, when nothing is rounded up. -/
theorem width_eq (fit : plan.Schedulable) {width : ℕ} {tiles : ColumnTiles}
    (dvd : tiles.tileN ∣ width) (whole : tiles.clusterN ∣ width / tiles.tileN) :
    (plan.schedulerArguments fit width tiles).numPidN *
      (plan.schedulerArguments fit width tiles).clusterN * tiles.tileN = width := by
  have stripes : ceilDiv width tiles.tileN = width / tiles.tileN :=
    (Nat.div_eq_of_eq_mul_left tiles.tileN_pos
      (ceilDiv_mul_of_dvd tiles.tileN_pos dvd).symm).symm
  show ceilDiv (ceilDiv width tiles.tileN) tiles.clusterN * tiles.clusterN * tiles.tileN = width
  rw [stripes, ceilDiv_mul_of_dvd tiles.clusterN_pos whole, Nat.div_mul_cancel dvd]

/-- The scheduler finds the expert whose interval holds the slot. -/
theorem expertOf_slot (fit : plan.Schedulable) (width : ℕ) (tiles : ColumnTiles) {e i : ℕ}
    (he : e < sh.numExpertsPerRank) (hi : i < plan.expertFrequency e) :
    (plan.schedulerArguments fit width tiles).nMatchedTotal
      ((plan.expertPoolBlockOffset e * sh.tileM + i) / sh.tileM) - 1 = e := by
  have inside : (plan.expertPoolBlockOffset e * sh.tileM + i) / sh.tileM <
      (plan.schedulerArguments fit width tiles).totalTiles := by
    show _ < plan.totalTiles
    rw [Nat.div_lt_iff_lt_mul sh.tileM_pos]
    have block : plan.expertPoolBlockOffset e * sh.tileM + plan.expertFrequency e ≤
        plan.totalTiles * sh.tileM := expert_block_le_totalTiles he
    omega
  obtain ⟨-, lower, upper⟩ := SchedulerArguments.expertId_spec inside
  have ends := expert_block_le plan e
  refine plan.offsets.expert_unique ⟨lower, upper⟩ ⟨?_, ?_⟩
  · exact (Nat.le_div_iff_mul_le sh.tileM_pos).2 (Nat.le_add_right _ _)
  · exact (Nat.div_lt_iff_lt_mul sh.tileM_pos).2 (by omega)

section Left

variable (left : LeftBy sh.numTopk (plan.landedTokens packet) m)

include left

/-- A slot names a token that reached the rank, or none. -/
theorem recvToken_range (hg : g < sh.numRanks) (s : ℕ) :
    (m (.poolRecvToken s) : ℤ) = -1 ∨
      0 ≤ (m (.poolRecvToken s) : ℤ) ∧ (m (.poolRecvToken s) : ℤ) < tRecv inputs g := by
  by_cases real : plan.RealSlot s
  · right
    obtain ⟨src, hsrc, c, hc, t, ht, k, hk, slot⟩ := (realSlot_iff hg).1 real
    rw [(left_pair left hsrc hc ht hk slot).2.2.1]
    exact ⟨Int.natCast_nonneg _, Int.ofNat_lt.2 (recvTokenId_lt hsrc ht)⟩
  · exact Or.inl (left_padding left hg real)

end Left

theorem schedulable_problemTilesN (fit : plan.Schedulable) (hidden : ℕ) (tiles : ColumnTiles) :
    (plan.schedulerArguments fit hidden tiles).problemTilesN = ceilDiv hidden tiles.tileN := rfl

/-- Counters that start at the number of slots of each recv token. -/
def CountsSlots (plan : PoolPlan sh inputs g) (m : PoolMemory Row Weight)
    (remaining : ℕ → ℕ) : Prop :=
  ∀ r : Fin (tRecv inputs g), (remaining r : ℤ) =
    ((range (plan.totalTiles * sh.tileM)).filter fun s =>
      (m (.poolRecvToken s) : ℤ) = (r : ℕ)).card

/-- `k_local_remaining` for kernel Y, -/
theorem countsSlots_remaining (hg : g < sh.numRanks)
    (left : LeftBy sh.numTopk (plan.landedTokens packet) m) :
    plan.CountsSlots m fun r => m (.kLocalRemaining r) :=
  fun r => congrArg _ (counters_eq left hg r.isLt).1

/-- and its copy `k_local_total`, that the backward kernel A starts with. -/
theorem countsSlots_total (hg : g < sh.numRanks)
    (left : LeftBy sh.numTopk (plan.landedTokens packet) m) :
    plan.CountsSlots m fun r => m (.kLocalTotal r) :=
  fun r => congrArg _ (counters_eq left hg r.isLt).2

/-- The launch of a scattering kernel on what dispatch left.  The stamps of the tokens start at
zero. -/
def scatterLaunch {hidden : ℕ} (hidden_pos : 0 < hidden) (hg : g < sh.numRanks)
    (fit : plan.Schedulable) (left : LeftBy sh.numTopk (plan.landedTokens packet) m)
    {remaining : ℕ → ℕ} (counts : plan.CountsSlots m remaining)
    (tiles : ScatterTiles sh.tileM hidden) (combineSeq : ℤ) :
    ScatterLaunch where
  toSchedulerArguments := plan.schedulerArguments fit hidden tiles.toColumnTiles
  hidden := hidden
  tileM := sh.tileM
  tileN := tiles.tileN
  tRecv := tRecv inputs g
  poolRecvToken s := m (.poolRecvToken s)
  kLocalRemaining r := (remaining r : ℤ)
  yDonePerToken _ := 0
  combineSeq := combineSeq
  epiTileM := tiles.epiTileM
  epiTileN := tiles.epiTileN
  numEpiWarps := tiles.numEpiWarps
  numClusters := tiles.numClusters
  hidden_pos := hidden_pos
  tileN_pos := tiles.tileN_pos
  tileN_dvd := tiles.tileN_dvd
  problemTilesN_eq := schedulable_problemTilesN fit hidden tiles.toColumnTiles
  epiTileM_dvd := tiles.epiTileM_dvd
  epiTileN_dvd := tiles.epiTileN_dvd
  chunk_dvd := tiles.chunk_dvd
  tileM_pos := sh.tileM_pos
  tileM_le := tiles.tileM_le
  numClusters_pos := tiles.numClusters_pos
  poolRecvToken_range s _ := recvToken_range left hg s
  kLocalRemaining_eq := counts

/-- Every recv token has a slot. -/
theorem hasSlot {hidden : ℕ} (hidden_pos : 0 < hidden) (hg : g < sh.numRanks)
    (fit : plan.Schedulable) (left : LeftBy sh.numTopk (plan.landedTokens packet) m)
    {remaining : ℕ → ℕ} (counts : plan.CountsSlots m remaining)
    (tiles : ScatterTiles sh.tileM hidden) (combineSeq : ℤ)
    (r : Fin (scatterLaunch hidden_pos hg fit left counts tiles combineSeq).tRecv) :
    (scatterLaunch hidden_pos hg fit left counts tiles combineSeq).HasSlot r := by
  obtain ⟨l, mem, id⟩ : ∃ l ∈ plan.landedTokens packet, l.recvTokenId = r :=
    exists_landedTokens_id r.isLt
  obtain ⟨src, hsrc, c, hc, t, ht, rfl⟩ := mem_landedTokens.1 mem
  obtain ⟨k, hk, s, slot⟩ : ∃ k < sh.numTopk, ∃ s : ℕ,
      plan.pairSlot c src (t * sh.numTopk + k) = s := exists_slot hg hsrc hc ht
  have real : plan.RealSlot s := (realSlot_iff hg).2 ⟨src, hsrc, c, hc, t, ht, k, hk, slot⟩
  refine ⟨s, real.lt, (left_pair left hsrc hc ht hk slot).2.2.1.trans ?_⟩
  rw [← id]
  rfl

/-- A row that passes the sender's gate `y_done_per_token[r] >= combine_seq` is stamped. -/
theorem stamped_of_gate {hidden : ℕ} {hidden_pos : 0 < hidden} {hg : g < sh.numRanks}
    {fit : plan.Schedulable} {left : LeftBy sh.numTopk (plan.landedTokens packet) m}
    {remaining : ℕ → ℕ} {counts : plan.CountsSlots m remaining}
    {tiles : ScatterTiles sh.tileM hidden} {combineSeq : ℤ} (pos : 0 < combineSeq)
    {st : (scatterLaunch hidden_pos hg fit left counts tiles combineSeq).KernelState}
    {r : Fin (scatterLaunch hidden_pos hg fit left counts tiles combineSeq).tRecv}
    (gate : combineSeq ≤ st.yDonePerToken r) : 0 < st.tasks.stamps r := by
  by_contra none
  rw [ScatterLaunch.KernelState.yDonePerToken, if_neg none] at gate
  have start : (scatterLaunch hidden_pos hg fit left counts tiles combineSeq).yDonePerToken r = 0 :=
    rfl
  omega

/-- At the end of a scattering kernel every row passes it. -/
theorem gate_of_finished {hidden : ℕ} {hidden_pos : 0 < hidden} {hg : g < sh.numRanks}
    {fit : plan.Schedulable} {left : LeftBy sh.numTopk (plan.landedTokens packet) m}
    {remaining : ℕ → ℕ} {counts : plan.CountsSlots m remaining}
    {tiles : ScatterTiles sh.tileM hidden} {combineSeq : ℤ}
    {st : (scatterLaunch hidden_pos hg fit left counts tiles combineSeq).KernelState}
    (reach : (scatterLaunch hidden_pos hg fit left counts tiles combineSeq).kernelSystem.Reachable
      st) (finished : st.Finished)
    (r : Fin (scatterLaunch hidden_pos hg fit left counts tiles combineSeq).tRecv) :
    combineSeq ≤ st.yDonePerToken r := by
  have slot := hasSlot hidden_pos hg fit left counts tiles combineSeq r
  have stamps := (ScatterLaunch.stamps_finished reach finished r).2
  rw [if_pos (ScatterLaunch.total_pos_iff.2 slot)] at stamps
  rw [ScatterLaunch.KernelState.yDonePerToken, if_pos (stamps ▸ Nat.one_pos)]
  exact le_rfl

end PoolPlan

end StreamEP
