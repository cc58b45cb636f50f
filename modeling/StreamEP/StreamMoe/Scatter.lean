import Mathlib.Data.Finset.Card
import Mathlib.Algebra.BigOperators.Fin
import StreamEP.StreamMoe.ScatterStore
import StreamEP.StreamMoe.TileScheduler

/-!
# The scattering epilogue

Kernel Y and the backward kernel A add the rows of an output tile into `o`, each row
at its recv token.  One CTA has one column stripe of one tile.  Its epilogue walks the
subtiles; in a subtile every warp has some rows, and every lane of it adds chunks of
eight columns (`scatterStore`).  At the end of the tile the rows that hold a token
are released (`members`).

A `ScatterLaunch` is a launch as the host function accepts it, on top of what the scheduler is
told: its assertions are fields.  The lanes of a subtile are those of `ScatterSubtile`, at the
place where the subtile lies; here their words are taken apart into columns (`columnsOf`), and
every column is an `Addition` by slot, recv token and column.

`mem_additions` is the meaning of the loops: a stripe adds exactly the columns
`[pid_n * tile_n, (pid_n + 1) * tile_n)` of the rows with a token.  Whether these
columns lie inside `o` is not checked anywhere in the kernel.

The counters of the tokens start at the number of their slots, and a tile releases a token once
for each of its slots there (`count_members`), so the releases of all tiles are as many as the
counter says (`sum_count_members`).
-/

namespace StreamEP.StreamMoe

open Finset

/-- The launch of a streaming kernel with scatter epilogue, as its host function
accepts it. -/
structure ScatterLaunch extends SchedulerArguments where
  /-- `H`, the number of columns of `o`. -/
  hidden : ℕ
  tileM : ℕ
  tileN : ℕ
  /-- `T_recv`, the number of rows of `o`. -/
  tRecv : ℕ
  poolRecvToken : ℕ → ℤ
  kLocalRemaining : Fin tRecv → ℤ
  yDonePerToken : Fin tRecv → ℤ
  combineSeq : ℤ
  /-- Subtiles of the epilogue and the warps that share them. -/
  epiTileM : ℕ
  epiTileN : ℕ
  numEpiWarps : ℕ
  /-- Persistent clusters on the device. -/
  numClusters : ℕ
  hidden_pos : 0 < hidden
  tileN_pos : 0 < tileN
  /-- `assert H % tile_n == 0`. -/
  tileN_dvd : hidden % tileN = 0
  problemTilesN_eq : toSchedulerArguments.problemTilesN = ceilDiv hidden tileN
  epiTileM_dvd : epiTileM ∣ tileM
  epiTileN_dvd : epiTileN ∣ tileN
  /-- Stripes are cut into chunks of eight columns. -/
  chunk_dvd : 8 ∣ epiTileN
  tileM_pos : 0 < tileM
  /-- There is a thread for every row of a tile. -/
  tileM_le : tileM ≤ 32 * numEpiWarps
  numClusters_pos : 0 < numClusters
  /-- A slot of the pool holds a recv token, padding `-1`. -/
  poolRecvToken_range : ∀ s < toSchedulerArguments.totalTiles * tileM,
    poolRecvToken s = -1 ∨ 0 ≤ poolRecvToken s ∧ poolRecvToken s < tRecv
  /-- The counters start at the number of slots of each token. -/
  kLocalRemaining_eq : ∀ r, kLocalRemaining r =
    ((range (toSchedulerArguments.totalTiles * tileM)).filter fun s =>
      poolRecvToken s = (r : ℕ)).card

/-- One column of one row of a tile, added at `row * H + column` of the flat `o`.  The slot says
which row of the tile's result is added. -/
structure Addition where
  slot : ℕ
  row : ℕ
  column : ℕ
  deriving DecidableEq

namespace ScatterLaunch

variable (la : ScatterLaunch)

/-- `num_pid_n` of the scatter parameters, `(H + tile_n - 1) // tile_n`. -/
def scatterNumPidN : ℕ := (la.hidden + la.tileN - 1) / la.tileN

/-! ### One stripe -/

/-- `pool_start`, with `cu_seqlens_m = expert_pool_block_offset * tile_m`. -/
def poolStart (workIdx : ℕ) : ℕ :=
  let tile := la.delinearizeWorkIdx workIdx
  la.expertPoolBlockOffset tile.expertId * la.tileM + tile.pidM * la.tileM

/-- The column stripe of peer `j` of the cluster. -/
def pidN (workIdx j : ℕ) : ℕ := (la.delinearizeWorkIdx workIdx).pidN + j

variable {la}

theorem epiTileM_pos : 0 < la.epiTileM := Nat.pos_of_dvd_of_pos la.epiTileM_dvd la.tileM_pos

theorem epiTileN_pos : 0 < la.epiTileN := Nat.pos_of_dvd_of_pos la.epiTileN_dvd la.tileN_pos

theorem numEpiWarps_pos : 0 < la.numEpiWarps := by
  have := la.tileM_pos
  have := la.tileM_le
  omega

variable (la)

/-- A subtile of the stripe of a CTA. -/
def subtile (poolStart pidN epiM epiN : ℕ) : ScatterSubtile where
  epiTileM := la.epiTileM
  epiTileN := la.epiTileN
  numEpiWarps := la.numEpiWarps
  ctaTileN := la.tileN
  pidN := pidN
  epiM := epiM
  epiN := epiN
  tRecv := la.tRecv
  recvToken m := la.poolRecvToken (poolStart + m)
  epiTileM_pos := la.epiTileM_pos
  epiTileN_pos := la.epiTileN_pos
  numEpiWarps_pos := la.numEpiWarps_pos
  chunk_dvd := la.chunk_dvd

/-- The columns of the eight values that a lane adds. -/
def columnsOf (poolStart epiM : ℕ) (a : V4Add) : List Addition :=
  (List.range 8).map fun b =>
    ⟨poolStart + (epiM * la.epiTileM + a.stagingRow), a.row, a.target * 2 + b⟩

/-- `_scatter_store` of one subtile, all warps together, column by column. -/
def scatterStore (poolStart pidN epiM epiN : ℕ) : List Addition :=
  let t := la.subtile poolStart pidN epiM epiN
  t.triples.flatMap fun x =>
    (t.issued x.1 x.2.1 x.2.2).flatMap (la.columnsOf poolStart epiM)

/-- What one CTA adds into `o` for one work tile. -/
def additions (workIdx j : ℕ) : List Addition :=
  (List.range (la.tileM / la.epiTileM)).flatMap fun epiM =>
    (List.range (la.tileN / la.epiTileN)).flatMap fun epiN =>
      la.scatterStore (la.poolStart workIdx) (la.pidN workIdx j) epiM epiN

/-- The tokens that the last stripe of a tile releases, thread by thread. -/
def members (tileId : ℕ) : List (Fin la.tRecv) :=
  (List.range (32 * la.numEpiWarps)).filterMap fun tidx =>
    if tidx < la.tileM then
      let r := la.poolRecvToken (tileId * la.tileM + tidx)
      if h : 0 ≤ r ∧ r < la.tRecv then some ⟨r.toNat, by omega⟩ else none
    else none

/-! ### Sizes -/

variable {la}

variable (la) in
theorem tileN_mul : la.hidden / la.tileN * la.tileN = la.hidden :=
  Nat.div_mul_cancel (Nat.dvd_of_mod_eq_zero la.tileN_dvd)

theorem scatterNumPidN_eq : la.scatterNumPidN = la.hidden / la.tileN := by
  have whole := tileN_mul la
  have pos := la.tileN_pos
  rw [scatterNumPidN, Nat.div_eq_iff pos]
  omega

theorem scatterNumPidN_pos : 0 < la.scatterNumPidN :=
  Nat.div_pos (by have := la.hidden_pos; omega) la.tileN_pos

theorem numPidN_pos : 0 < la.numPidN :=
  SchedulerArguments.numPidN_pos (la.problemTilesN_eq ▸ scatterNumPidN_pos)

theorem poolStart_eq {workIdx : ℕ} (h : workIdx < la.totalWork) :
    la.poolStart workIdx = workIdx / la.numPidN * la.tileM := by
  rw [← SchedulerArguments.tileId_eq h, poolStart, SchedulerArguments.tileId, Nat.add_mul]

/-! ### What a stripe adds -/

variable (la) in
/-- Stripes and subtiles begin at whole chunks. -/
theorem nOrigin_even (poolStart pidN epiM epiN ch : ℕ) :
    ((la.subtile poolStart pidN epiM epiN).nOrigin + ch * 8) / 2 * 2 =
      pidN * la.tileN + epiN * la.epiTileN + ch * 8 := by
  have stripe : 8 ∣ pidN * la.tileN := (la.chunk_dvd.trans la.epiTileN_dvd).mul_left _
  have subtile : 8 ∣ epiN * la.epiTileN := la.chunk_dvd.mul_left _
  show (pidN * la.tileN + epiN * la.epiTileN + ch * 8) / 2 * 2 = _
  omega

variable (la) in
/-- The lanes add the chunks of the rows. -/
theorem scatterStore_eq (poolStart pidN epiM epiN : ℕ) :
    la.scatterStore poolStart pidN epiM epiN =
      (la.subtile poolStart pidN epiM epiN).chunkAdds.flatMap (la.columnsOf poolStart epiM) := by
  rw [← ScatterSubtile.issued_triples, List.flatMap_assoc]
  rfl

/-- A subtile adds its columns, for every row with a token. -/
theorem mem_scatterStore {poolStart pidN epiM epiN : ℕ} (a : Addition) :
    a ∈ la.scatterStore poolStart pidN epiM epiN ↔
      ∃ m < la.epiTileM, a.slot = poolStart + (epiM * la.epiTileM + m) ∧
        la.poolRecvToken a.slot = a.row ∧ a.row < la.tRecv ∧
        ∃ n < la.epiTileN, a.column = pidN * la.tileN + epiN * la.epiTileN + n := by
  have whole : la.epiTileN / 8 * 8 = la.epiTileN := Nat.div_mul_cancel la.chunk_dvd
  rw [scatterStore_eq, ScatterSubtile.chunkAdds]
  simp only [List.mem_flatMap, List.mem_range]
  constructor
  · rintro ⟨x, ⟨m, hm, mem⟩, column⟩
    split_ifs at mem with token
    · obtain ⟨ch, hch, rfl⟩ := List.mem_map.1 mem
      obtain ⟨b, hb, rfl⟩ := List.mem_map.1 column
      have inside := PrefixSum.flat_lt (List.mem_range.1 hch) (List.mem_range.1 hb)
      refine ⟨m, hm, rfl, (Int.toNat_of_nonneg token.1).symm, (Int.toNat_lt token.1).2 token.2,
        ch * 8 + b, inside.trans_eq whole, ?_⟩
      show ((la.subtile poolStart pidN epiM epiN).nOrigin + ch * 8) / 2 * 2 + b = _
      rw [la.nOrigin_even, Nat.add_assoc]
    · cases mem
  · rintro ⟨m, hm, slot, token, row, n, hn, column⟩
    obtain ⟨s, r, k⟩ := a
    dsimp only at slot token row column
    subst slot column
    have here : la.poolRecvToken (poolStart + (epiM * la.epiTileM + m)) = r := token
    have has : (la.subtile poolStart pidN epiM epiN).HasToken m :=
      ⟨(Int.natCast_nonneg r).trans_eq here.symm, here.trans_lt (Int.ofNat_lt.2 row)⟩
    have chunk : n / 8 < la.epiTileN / 8 := Nat.div_lt_div_of_lt_of_dvd la.chunk_dvd hn
    refine ⟨(la.subtile poolStart pidN epiM epiN).chunkAdd m (n / 8), ⟨m, hm, ?_⟩, ?_⟩
    · rw [if_pos has]
      exact List.mem_map_of_mem (List.mem_range.2 chunk)
    · have column := la.nOrigin_even poolStart pidN epiM epiN (n / 8)
      have parts := Nat.div_add_mod' n 8
      refine List.mem_map.2 ⟨n % 8, List.mem_range.2 (Nat.mod_lt _ (by omega)), ?_⟩
      have named : (la.poolRecvToken (poolStart + (epiM * la.epiTileM + m))).toNat = r := by
        rw [here, Int.toNat_natCast]
      refine congrArg₂ (Addition.mk _) named ?_
      show ((la.subtile poolStart pidN epiM epiN).nOrigin + n / 8 * 8) / 2 * 2 + n % 8 = _
      omega

/-- **What a stripe adds**: the columns of the stripe, for every row with a token. -/
theorem mem_additions {workIdx j : ℕ} (h : workIdx < la.totalWork) (a : Addition) :
    a ∈ la.additions workIdx j ↔
      a.slot / la.tileM = workIdx / la.numPidN ∧
        la.poolRecvToken a.slot = a.row ∧ a.row < la.tRecv ∧
        la.pidN workIdx j * la.tileN ≤ a.column ∧
        a.column < (la.pidN workIdx j + 1) * la.tileN := by
  simp only [additions, List.mem_flatMap, List.mem_range, mem_scatterStore, poolStart_eq h]
  constructor
  · rintro ⟨epiM, hM, epiN, hN, m, hm, slot, token, row, n, hn, column⟩
    have rows := PrefixSum.flat_lt hM hm
    rw [Nat.div_mul_cancel la.epiTileM_dvd] at rows
    have columns := PrefixSum.flat_lt hN hn
    rw [Nat.div_mul_cancel la.epiTileN_dvd] at columns
    refine ⟨?_, token, row, ?_, ?_⟩
    · rw [slot, PrefixSum.flat_div rows]
    · omega
    · rw [Nat.add_mul, Nat.one_mul]
      omega
  · rintro ⟨tile, token, row, lower, upper⟩
    obtain ⟨n, inStripe⟩ := Nat.exists_eq_add_of_le lower
    rw [Nat.add_mul, Nat.one_mul] at upper
    have hn : n < la.tileN := by omega
    have hm : a.slot % la.tileM < la.tileM := Nat.mod_lt _ la.tileM_pos
    have slotAt := Nat.div_add_mod' a.slot la.tileM
    have rowAt := Nat.div_add_mod' (a.slot % la.tileM) la.epiTileM
    have columnAt := Nat.div_add_mod' n la.epiTileN
    rw [tile] at slotAt
    -- the subtile that the row and the column are in
    refine ⟨a.slot % la.tileM / la.epiTileM, Nat.div_lt_div_of_lt_of_dvd la.epiTileM_dvd hm,
      n / la.epiTileN, Nat.div_lt_div_of_lt_of_dvd la.epiTileN_dvd hn,
      a.slot % la.tileM % la.epiTileM, Nat.mod_lt _ epiTileM_pos, ?_, token, row,
      n % la.epiTileN, Nat.mod_lt _ epiTileN_pos, ?_⟩
    · rw [rowAt, slotAt]
    · omega

/-! ### Who is released -/

/-- The tokens a tile releases are those of its slots. -/
theorem mem_members {tileId : ℕ} {r : Fin la.tRecv} :
    r ∈ la.members tileId ↔
      ∃ m < la.tileM, la.poolRecvToken (tileId * la.tileM + m) = (r : ℕ) := by
  have threads := la.tileM_le
  unfold members
  simp only [List.mem_filterMap, List.mem_range, Option.ite_none_right_eq_some,
    Option.dite_none_right_eq_some, Option.some.injEq]
  constructor
  · rintro ⟨m, -, hm, ⟨lower, upper⟩, rfl⟩
    exact ⟨m, hm, (Int.toNat_of_nonneg lower).symm⟩
  · rintro ⟨m, hm, token⟩
    have := r.isLt
    exact ⟨m, by omega, hm, ⟨by omega, by omega⟩, Fin.ext (by simp only; omega)⟩

/-- A token is released once for each of its slots in the tile. -/
theorem count_members (tileId : ℕ) (r : Fin la.tRecv) :
    (la.members tileId).count r =
      ∑ m ∈ range la.tileM,
        if la.poolRecvToken (tileId * la.tileM + m) = (r : ℕ) then 1 else 0 := by
  have threads := la.tileM_le
  have row : ∀ m, ((if m < la.tileM then
      (if h : 0 ≤ la.poolRecvToken (tileId * la.tileM + m) ∧
          la.poolRecvToken (tileId * la.tileM + m) < la.tRecv then
        some (⟨(la.poolRecvToken (tileId * la.tileM + m)).toNat, by omega⟩ : Fin la.tRecv)
      else none) else none) == some r) =
        decide (m < la.tileM ∧ la.poolRecvToken (tileId * la.tileM + m) = (r : ℕ)) := by
    intro m
    have := r.isLt
    rw [Bool.eq_iff_iff, beq_iff_eq, decide_eq_true_iff, Option.ite_none_right_eq_some,
      Option.dite_none_right_eq_some]
    refine and_congr_right fun _ => ⟨?_, fun token => ⟨by omega, ?_⟩⟩
    · rintro ⟨⟨lower, upper⟩, same⟩
      rw [← Option.some.inj same]
      exact (Int.toNat_of_nonneg lower).symm
    · exact congrArg some (Fin.ext (by simp only; omega))
  have positions : ((range (32 * la.numEpiWarps)).filter fun m =>
      m < la.tileM ∧ la.poolRecvToken (tileId * la.tileM + m) = (r : ℕ)) =
        (range la.tileM).filter fun m =>
          la.poolRecvToken (tileId * la.tileM + m) = (r : ℕ) := by
    ext m
    simp only [mem_filter, mem_range]
    omega
  unfold members
  rw [List.count_filterMap]
  simp only [row]
  rw [← card_filter, ← positions]
  exact (List.countP_eq_length_filter).trans rfl

/-- A token has a slot. -/
def HasSlot (la : ScatterLaunch) (r : Fin la.tRecv) : Prop :=
  ∃ s < la.totalTiles * la.tileM, la.poolRecvToken s = (r : ℕ)

/-- The counters start at the number of releases. -/
theorem sum_count_members (r : Fin la.tRecv) :
    (∑ tileId : Fin la.totalTiles, (la.members tileId).count r : ℕ) = la.kLocalRemaining r := by
  rw [la.kLocalRemaining_eq, card_filter, PrefixSum.sum_range_mul,
    ← Fin.sum_univ_eq_sum_range fun tileId => ∑ m ∈ range la.tileM,
      if la.poolRecvToken (tileId * la.tileM + m) = (r : ℕ) then 1 else 0]
  simp only [count_members]

end ScatterLaunch

end StreamEP.StreamMoe
