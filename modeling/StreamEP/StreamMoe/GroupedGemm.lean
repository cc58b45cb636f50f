import Mathlib.Algebra.BigOperators.Ring.Finset
import StreamEP.Lib.PrefixSum
import StreamEP.Lib.Store
import StreamEP.StreamMoe.TileScheduler

/-!
# The grouped matrix products

The streaming kernels multiply every row of a pool by the matrix of the expert that owns the
row's tile.  A CTA computes one tile of the product: a claim names the tile of rows, and the CTA
takes the column stripe of its place in the cluster.  The main loop is not part of the program;
here it is the sum of products.

**Tiles.**  `tileStores` are the stores of an epilogue that writes its tile into a matrix, where
columns behind the last one are dropped.  An element belongs to one claim and to one CTA of the
cluster (`claimOf`, `peerOf`).  `run_tiles` says what such a kernel leaves: every element
is what the one CTA computed that owns the element, in any order of the stores.  The values are
arbitrary, and may depend on what the CTA has read.

**Sums of rows.**  Another epilogue adds the sums over its stripe to one number for every row.
All CTAs together add every element of a row once, when the stripes are the columns
(`added_allRowSums`); with a stripe too many there would be something else in the sum.

**Plain products.**  `GroupedM` and `GroupedK` are what the plain products leave that the backward
pass leaves to the library: rows grouped by expert, and sums over the rows of an expert.
-/

namespace StreamEP.StreamMoe

open Finset

namespace SchedulerArguments

variable (args : SchedulerArguments)

/-- The first row of a claim's tile, `cu_seqlens_m[expert_id] + pid_m * tile_m`. -/
def firstRow (tileM workIdx : ℕ) : ℕ :=
  let tile := args.delinearizeWorkIdx workIdx
  args.expertPoolBlockOffset tile.expertId * tileM + tile.pidM * tileM

/-- The first column of the stripe of peer `j` of the cluster. -/
def firstColumn (tileN workIdx j : ℕ) : ℕ :=
  ((args.delinearizeWorkIdx workIdx).pidN + j) * tileN

/-- The expert whose matrix a claim uses. -/
def expertOf (workIdx : ℕ) : ℕ := (args.delinearizeWorkIdx workIdx).expertId

section Stores

variable {V : Type} (tileM tileN width : ℕ)

/-- What one CTA stores of its tile; `value` gives the elements by row and column. -/
def tileStores (value : ℕ → ℕ → V) (workIdx j : ℕ) : List (Store.Write fun _ : ℕ × ℕ => V) :=
  (List.range tileM).flatMap fun m =>
    (List.range tileN).flatMap fun n =>
      let row := args.firstRow tileM workIdx + m
      let column := args.firstColumn tileN workIdx j + n
      if column < width then [⟨(row, column), value row column⟩] else []

/-- What all CTAs store; each computes its own values. -/
def allTileStores (value : ℕ → ℕ → ℕ → ℕ → V) : List (Store.Write fun _ : ℕ × ℕ => V) :=
  (List.range args.totalWork).flatMap fun workIdx =>
    (List.range args.clusterN).flatMap fun j =>
      args.tileStores tileM tileN width (value workIdx j) workIdx j

/-- The claim that an element belongs to, -/
def claimOf (row column : ℕ) : ℕ := row / tileM * args.numPidN + column / tileN / args.clusterN

/-- and the CTA of the cluster. -/
def peerOf (column : ℕ) : ℕ := column / tileN % args.clusterN

end Stores

variable {args} {V : Type} {tileM tileN width : ℕ}

theorem firstRow_eq {workIdx : ℕ} (h : workIdx < args.totalWork) :
    args.firstRow tileM workIdx = workIdx / args.numPidN * tileM := by
  rw [← tileId_eq h, firstRow, tileId, Nat.add_mul]

/-- One claim's tile and stripe determine which elements a CTA stores. -/
theorem mem_tileStores (tileM_pos : 0 < tileM) (tileN_pos : 0 < tileN) {value : ℕ → ℕ → V}
    {workIdx j row column : ℕ} (h : workIdx < args.totalWork) {v : V} :
    (⟨(row, column), v⟩ : Store.Write fun _ : ℕ × ℕ => V) ∈
        args.tileStores tileM tileN width value workIdx j ↔
      row / tileM = workIdx / args.numPidN ∧
        column / tileN = workIdx % args.numPidN * args.clusterN + j ∧
          column < width ∧ v = value row column := by
  have column_eq : args.firstColumn tileN workIdx j =
      (workIdx % args.numPidN * args.clusterN + j) * tileN := rfl
  simp only [tileStores, List.mem_flatMap, List.mem_range, firstRow_eq h, column_eq]
  constructor
  · rintro ⟨m, hm, n, hn, mem⟩
    split_ifs at mem with inside
    · cases List.mem_singleton.1 mem
      exact ⟨PrefixSum.flat_div hm, PrefixSum.flat_div hn, inside, rfl⟩
    · cases mem
  · rintro ⟨rowTile, columnTile, inside, rfl⟩
    have row_eq := Nat.div_add_mod' row tileM
    have column_eq := Nat.div_add_mod' column tileN
    rw [rowTile] at row_eq
    rw [columnTile] at column_eq
    refine ⟨row % tileM, Nat.mod_lt _ tileM_pos, column % tileN, Nat.mod_lt _ tileN_pos, ?_⟩
    rw [row_eq, column_eq, if_pos inside]
    exact List.mem_singleton.2 rfl

/-- The element's own claim is a claim in range. -/
theorem claimOf_lt (tileM_pos : 0 < tileM) (tileN_pos : 0 < tileN)
    (covers : width ≤ args.numPidN * args.clusterN * tileN) {row column : ℕ}
    (hrow : row < args.totalTiles * tileM) (hcolumn : column < width) :
    column / tileN / args.clusterN < args.numPidN ∧
      args.claimOf tileM tileN row column < args.totalWork := by
  have tile : row / tileM < args.totalTiles := (Nat.div_lt_iff_lt_mul tileM_pos).2 hrow
  have stripe : column / tileN < args.numPidN * args.clusterN :=
    (Nat.div_lt_iff_lt_mul tileN_pos).2 (hcolumn.trans_le covers)
  have group : column / tileN / args.clusterN < args.numPidN :=
    (Nat.div_lt_iff_lt_mul args.clusterN_pos).2 stripe
  exact ⟨group, PrefixSum.flat_lt tile group⟩

/-- **Every element is what its own CTA computed**, in any order of the stores. -/
theorem run_tiles (tileM_pos : 0 < tileM) (tileN_pos : 0 < tileN)
    (covers : width ≤ args.numPidN * args.clusterN * tileN) {value : ℕ → ℕ → ℕ → ℕ → V}
    {stores : List (Store.Write fun _ : ℕ × ℕ => V)}
    (all : stores.Perm (args.allTileStores tileM tileN width value)) {row column : ℕ}
    (hrow : row < args.totalTiles * tileM) (hcolumn : column < width)
    (init : (a : ℕ × ℕ) → V) :
    Store.run stores init (row, column) =
      value (args.claimOf tileM tileN row column) (args.peerOf tileN column) row column := by
  obtain ⟨group, inRange⟩ := claimOf_lt tileM_pos tileN_pos covers hrow hcolumn
  have peer : args.peerOf tileN column < args.clusterN := Nat.mod_lt _ args.clusterN_pos
  have mem_all : ∀ a, a ∈ stores ↔ ∃ workIdx < args.totalWork, ∃ j < args.clusterN,
      a ∈ args.tileStores tileM tileN width (value workIdx j) workIdx j := by
    intro a
    rw [all.mem_iff]
    simp only [allTileStores, List.mem_flatMap, List.mem_range]
  refine Store.run_of_agree ((mem_all _).2 ⟨_, inRange, _, peer, ?_⟩) ?_ init
  · refine (mem_tileStores tileM_pos tileN_pos inRange).2 ⟨?_, ?_, hcolumn, rfl⟩
    · exact (PrefixSum.flat_div group).symm
    · rw [claimOf, PrefixSum.flat_mod group]
      exact (Nat.div_add_mod' _ _).symm
  · rintro ⟨⟨row', column'⟩, v⟩ mem same
    obtain ⟨workIdx, h, j, hj, mem⟩ := (mem_all _).1 mem
    obtain ⟨rfl, rfl⟩ := Prod.mk.inj same
    obtain ⟨rowTile, columnTile, -, rfl⟩ := (mem_tileStores tileM_pos tileN_pos h).1 mem
    -- tile and stripe give back the claim and the CTA
    have claim : args.claimOf tileM tileN row' column' = workIdx := by
      rw [claimOf, rowTile, columnTile, PrefixSum.flat_div hj]
      exact Nat.div_add_mod' _ _
    have cta : args.peerOf tileN column' = j := by
      rw [peerOf, columnTile, PrefixSum.flat_mod hj]
    rw [claim, cta]

/-! ### Sums of rows -/

section RowSums

variable {V : Type} [AddCommMonoid V] (args : SchedulerArguments) (tileM tileN : ℕ)

/-- What one CTA adds to the sums of its rows: the sums over its stripe. -/
def rowSums (value : ℕ → ℕ → V) (workIdx j : ℕ) : List (ℕ × V) :=
  (List.range tileM).map fun m =>
    let row := args.firstRow tileM workIdx + m
    (row, ∑ n ∈ range tileN, value row (args.firstColumn tileN workIdx j + n))

/-- What all CTAs add. -/
def allRowSums (value : ℕ → ℕ → ℕ → ℕ → V) : List (ℕ × V) :=
  (List.range args.totalWork).flatMap fun workIdx =>
    (List.range args.clusterN).flatMap fun j =>
      args.rowSums tileM tileN (value workIdx j) workIdx j

variable {args tileM tileN}

/-- A CTA adds to the rows of its tile, to each once. -/
theorem added_rowSums {value : ℕ → ℕ → V} {workIdx j : ℕ} (h : workIdx < args.totalWork)
    (tileM_pos : 0 < tileM) (row : ℕ) :
    Store.added (args.rowSums tileM tileN value workIdx j) row =
      if row / tileM = workIdx / args.numPidN then
        ∑ n ∈ range tileN, value row (args.firstColumn tileN workIdx j + n) else 0 := by
  have listed : Store.added (args.rowSums tileM tileN value workIdx j) row =
      ∑ m ∈ range tileM, if workIdx / args.numPidN * tileM + m = row then
        ∑ n ∈ range tileN, value row (args.firstColumn tileN workIdx j + n) else 0 := by
    rw [rowSums, firstRow_eq h, ← List.flatMap_pure_eq_map, Store.added_flatMap_range]
    refine sum_congr rfl fun m _ => ?_
    show Store.added [_] row = _
    rw [Store.added_cons, Store.added_nil, add_zero]
    split_ifs with same
    · subst same
      rfl
    · rfl
  rw [listed]
  split_ifs with tile
  · have row_eq := Nat.div_add_mod' row tileM
    rw [tile] at row_eq
    rw [sum_eq_single (row % tileM), if_pos row_eq]
    · intro m _ other
      refine if_neg fun same => other ?_
      omega
    · exact fun outside => absurd (mem_range.2 (Nat.mod_lt _ tileM_pos)) outside
  · refine sum_eq_zero fun m hm => if_neg fun same => tile ?_
    rw [← same, PrefixSum.flat_div (mem_range.1 hm)]

/-- **All CTAs together add every element of a row once**, when the stripes are the columns. -/
theorem added_allRowSums (tileM_pos : 0 < tileM) (value : ℕ → ℕ → ℕ → ℕ → V) {row : ℕ}
    (hrow : row < args.totalTiles * tileM) :
    Store.added (args.allRowSums tileM tileN value) row =
      ∑ column ∈ range (args.numPidN * args.clusterN * tileN),
        value (args.claimOf tileM tileN row column) (args.peerOf tileN column) row column := by
  have tile : row / tileM < args.totalTiles := (Nat.div_lt_iff_lt_mul tileM_pos).2 hrow
  rw [allRowSums, Store.added_flatMap_range, totalWork, PrefixSum.sum_range_mul,
    sum_eq_single (row / tileM), PrefixSum.sum_range_mul, PrefixSum.sum_range_mul]
  · refine sum_congr rfl fun p hp => ?_
    have hp := mem_range.1 hp
    rw [Store.added_flatMap_range]
    refine sum_congr rfl fun j hj => ?_
    have hj := mem_range.1 hj
    rw [added_rowSums (PrefixSum.flat_lt tile hp) tileM_pos, if_pos (PrefixSum.flat_div hp).symm]
    refine sum_congr rfl fun n hn => ?_
    have hn := mem_range.1 hn
    have column : args.firstColumn tileN (row / tileM * args.numPidN + p) j =
        (p * args.clusterN + j) * tileN := by
      show ((row / tileM * args.numPidN + p) % args.numPidN * args.clusterN + j) * tileN = _
      rw [PrefixSum.flat_mod hp]
    rw [column, claimOf, peerOf, PrefixSum.flat_div hn, PrefixSum.flat_div hj,
      PrefixSum.flat_mod hj]
  · intro other hother ne
    refine sum_eq_zero fun p hp => ?_
    have hp := mem_range.1 hp
    rw [Store.added_flatMap_range]
    refine sum_eq_zero fun j _ => ?_
    rw [added_rowSums (PrefixSum.flat_lt (mem_range.1 hother) hp) tileM_pos, if_neg]
    rw [PrefixSum.flat_div hp]
    exact fun same => ne same.symm
  · exact fun outside => absurd (mem_range.2 tile) outside

end RowSums

end SchedulerArguments

/-! ### Plain grouped products -/

section Plain

variable {S : Type} [CommSemiring S]

/-- `gemm` with `cu_seqlens_m`: rows from `cuSeqlensM e` on are multiplied by the matrix of `e`. -/
def GroupedM (experts : ℕ) (cuSeqlensM : ℕ → ℕ) (n k : ℕ) (a : ℕ → ℕ → S) (b : ℕ → ℕ → ℕ → S)
    (d : ℕ → ℕ → S) : Prop :=
  ∀ e < experts, ∀ row, cuSeqlensM e ≤ row → row < cuSeqlensM (e + 1) → ∀ j < n,
    d row j = ∑ h ∈ range k, a row h * b e j h

/-- `gemm` with `cu_seqlens_k` and `seqused_k`: the product of the columns of two matrices, over
the first `sequsedK e` rows of group `e`. -/
def GroupedK (experts : ℕ) (cuSeqlensK sequsedK : ℕ → ℕ) (m n : ℕ) (a b : ℕ → ℕ → S)
    (d : ℕ → ℕ → ℕ → S) : Prop :=
  ∀ e < experts, ∀ i < m, ∀ j < n,
    d e i j = ∑ q ∈ range (sequsedK e), a (cuSeqlensK e + q) i * b (cuSeqlensK e + q) j

/-- Where the groups follow one another, a row is multiplied by one matrix. -/
theorem exists_groupedM {cuSeqlensM : ℕ → ℕ} (mono : Monotone cuSeqlensM) (experts n k : ℕ)
    (a : ℕ → ℕ → S) (b : ℕ → ℕ → ℕ → S) : ∃ d, GroupedM experts cuSeqlensM n k a b d := by
  have matrix : ∀ row, ∃ w : ℕ → ℕ → S, ∀ e, cuSeqlensM e ≤ row → row < cuSeqlensM (e + 1) →
      w = b e := by
    intro row
    by_cases grouped : ∃ e, cuSeqlensM e ≤ row ∧ row < cuSeqlensM (e + 1)
    · obtain ⟨e, from_le, to_lt⟩ := grouped
      refine ⟨b e, fun e' from_le' to_lt' => congrArg b ?_⟩
      have before : e < e' + 1 := mono.reflect_lt (from_le.trans_lt to_lt')
      have after : e' < e + 1 := mono.reflect_lt (from_le'.trans_lt to_lt)
      omega
    · exact ⟨b 0, fun e from_le to_lt => absurd ⟨e, from_le, to_lt⟩ grouped⟩
  choose w rows using matrix
  refine ⟨fun row j => ∑ h ∈ range k, a row h * w row j h, ?_⟩
  intro e _ row from_le to_lt j _
  show ∑ h ∈ range k, a row h * w row j h = _
  rw [rows row e from_le to_lt]

end Plain

end StreamEP.StreamMoe
