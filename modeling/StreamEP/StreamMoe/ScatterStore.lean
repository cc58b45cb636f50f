import StreamEP.Routing

/-!
# The work decomposition of the scatter

`_scatter_store` adds the staged rows of one subtile into `o`, eight columns at a time.  Every
warp has some rows; the chunks of its rows are numbered, and its lanes take them in turn.  A
lane without a chunk, or with one past the last row, goes on with a valid address, and so does
a lane whose row is padding; one predicate keeps all of them from adding.

`scatterStore_covers`: whatever the shape and the number of warps, what is added is every chunk
of every row with a token, once, and all reads stay in the subtile.

**One lane.**  `laneAccess` is the body of the loop with all that it reads, clamped addresses
included, and `issued` what it adds.  There are four cases, and each has a lemma: past the work
of the warp, past the last row, a padding row, and a row with a token.

**All lanes.**  What is added is counted as a list up to its order.  The lanes with the chunks
of one row add that row (`issued_rowChunks`); the work of a warp is numbered by rows and chunks,
so a warp adds its rows (`issued_warp`), and the warps have all rows between them
(`issued_triples`).
-/

namespace StreamEP.StreamMoe

/-- What `_scatter_store` knows of a subtile. -/
structure ScatterSubtile where
  epiTileM : ℕ
  epiTileN : ℕ
  numEpiWarps : ℕ
  /-- `cta_tile_N` -/
  ctaTileN : ℕ
  /-- `tile_coord_mnkl[1]` -/
  pidN : ℕ
  /-- `epi_coord` -/
  epiM : ℕ
  epiN : ℕ
  tRecv : ℕ
  /-- `recv_token_t`, of the whole tile. -/
  recvToken : ℕ → ℤ
  epiTileM_pos : 0 < epiTileM
  epiTileN_pos : 0 < epiTileN
  numEpiWarps_pos : 0 < numEpiWarps
  chunk_dvd : 8 ∣ epiTileN

/-- What one lane does in one iteration. -/
structure LaneAccess where
  /-- The row of the staging it reads, `m_safe`. -/
  stagingRow : ℕ
  /-- The first of the four words it reads there, `i32_base`. -/
  i32Base : ℕ
  /-- The entry of `recv_token_t` it reads. -/
  mLocalInTile : ℕ
  atomicPred : Bool
  /-- The row of `o`, `r_safe`. -/
  rSafe : ℤ
  /-- The first column, `n_global`. -/
  nGlobal : ℕ

/-- One `red.global.add.v4.bf16x2`: four words of a staging row, and the row and the first word
of `o` that they are added to. -/
structure V4Add where
  stagingRow : ℕ
  i32Base : ℕ
  row : ℕ
  target : ℕ
  deriving DecidableEq

namespace ScatterSubtile

variable (t : ScatterSubtile)

/-! ### The loops -/

def nOrigin : ℕ := t.pidN * t.ctaTileN + t.epiN * t.epiTileN

def mSubtileOrigin : ℕ := t.epiM * t.epiTileM

def v4ChunksPerRow : ℕ := (t.epiTileN + 7) / 8

def rowsPerWarp : ℕ := (t.epiTileM + t.numEpiWarps - 1) / t.numEpiWarps

def workPerWarp : ℕ := t.rowsPerWarp * t.v4ChunksPerRow

def workItersPerWarp : ℕ := (t.workPerWarp + 32 - 1) / 32

/-- The body of the loop over `w`. -/
def laneAccess (warpIdx w laneIdx : ℕ) : LaneAccess :=
  let workIdx := w * 32 + laneIdx
  let workInRange := decide (workIdx < t.workPerWarp)
  let workSafe := if workInRange then workIdx else 0
  let mOff := workSafe / t.v4ChunksPerRow
  let v4Chunk := workSafe % t.v4ChunksPerRow
  let mInSubtile := warpIdx * t.rowsPerWarp + mOff
  let rowInRange := decide (mInSubtile < t.epiTileM) && workInRange
  let mSafe := if rowInRange then mInSubtile else 0
  let mLocalInTile := t.mSubtileOrigin + mSafe
  let rRaw := t.recvToken mLocalInTile
  let atomicPred := decide (0 ≤ rRaw) && decide (rRaw < t.tRecv) && rowInRange
  { stagingRow := mSafe
    i32Base := v4Chunk * 4
    mLocalInTile := mLocalInTile
    atomicPred := atomicPred
    rSafe := if atomicPred then rRaw else 0
    nGlobal := t.nOrigin + v4Chunk * 8 }

/-- The addition, if the predicate lets it through. -/
def issued (warpIdx w laneIdx : ℕ) : List V4Add :=
  let a := t.laneAccess warpIdx w laneIdx
  if a.atomicPred then [⟨a.stagingRow, a.i32Base, a.rSafe.toNat, a.nGlobal / 2⟩] else []

/-- All warps, iterations and lanes. -/
def triples : List (ℕ × ℕ × ℕ) :=
  (List.range t.numEpiWarps).flatMap fun warpIdx =>
    (List.range t.workItersPerWarp).flatMap fun w =>
      (List.range 32).map fun laneIdx => (warpIdx, w, laneIdx)

/-- A row of the subtile with a recv token. -/
def HasToken (m : ℕ) : Prop :=
  0 ≤ t.recvToken (t.mSubtileOrigin + m) ∧ t.recvToken (t.mSubtileOrigin + m) < t.tRecv

instance (m : ℕ) : Decidable (t.HasToken m) := inferInstanceAs (Decidable (_ ∧ _))

/-- Chunk `ch` of row `m`. -/
def chunkAdd (m ch : ℕ) : V4Add where
  stagingRow := m
  i32Base := ch * 4
  row := (t.recvToken (t.mSubtileOrigin + m)).toNat
  target := (t.nOrigin + ch * 8) / 2

/-- What a subtile is to add: every chunk of every row with a token. -/
def chunkAdds : List V4Add :=
  (List.range t.epiTileM).flatMap fun m =>
    if t.HasToken m then (List.range (t.epiTileN / 8)).map (t.chunkAdd m) else []

/-- The reads of a lane stay in the subtile. -/
structure ReadsInside (a : LaneAccess) : Prop where
  row : a.stagingRow < t.epiTileM
  words : ∀ i < 4, 2 * (a.i32Base + i) + 1 < t.epiTileN
  token : t.mSubtileOrigin ≤ a.mLocalInTile ∧ a.mLocalInTile < t.mSubtileOrigin + t.epiTileM

variable {t}

/-! ### Sizes -/

theorem v4ChunksPerRow_mul : t.v4ChunksPerRow * 8 = t.epiTileN := by
  obtain ⟨k, hk⟩ := t.chunk_dvd
  rw [v4ChunksPerRow]
  omega

theorem v4ChunksPerRow_eq : t.v4ChunksPerRow = t.epiTileN / 8 := by
  have whole := @v4ChunksPerRow_mul t
  omega

theorem v4ChunksPerRow_pos : 0 < t.v4ChunksPerRow := by
  have whole := @v4ChunksPerRow_mul t
  have := t.epiTileN_pos
  omega

/-- The warps have all rows between them. -/
theorem epiTileM_le : t.epiTileM ≤ t.numEpiWarps * t.rowsPerWarp := by
  rw [Nat.mul_comm]
  exact le_ceilDiv_mul t.numEpiWarps_pos _

/-- The iterations have all chunks of a warp. -/
theorem workPerWarp_le : t.workPerWarp ≤ t.workItersPerWarp * 32 :=
  le_ceilDiv_mul (by decide) _

/-! ### One lane -/

/-- A clamped row is a row of the subtile. -/
theorem clamped_lt (mInSubtile : ℕ) (workInRange : Bool) :
    (if decide (mInSubtile < t.epiTileM) && workInRange then mInSubtile else 0) < t.epiTileM := by
  split_ifs with rowInRange
  · rw [Bool.and_eq_true, decide_eq_true_eq] at rowInRange
    exact rowInRange.1
  · exact t.epiTileM_pos

/-- Whatever a lane does, its reads stay in the subtile. -/
theorem readsInside (warpIdx w laneIdx : ℕ) :
    t.ReadsInside (t.laneAccess warpIdx w laneIdx) where
  row := clamped_lt _ _
  words i hi := by
    have chunk : ∀ work : ℕ, work % t.v4ChunksPerRow < t.v4ChunksPerRow :=
      fun work => Nat.mod_lt work v4ChunksPerRow_pos
    have whole := @v4ChunksPerRow_mul t
    have here := chunk (if decide (w * 32 + laneIdx < t.workPerWarp) = true then w * 32 + laneIdx
      else 0)
    show 2 * (_ % t.v4ChunksPerRow * 4 + i) + 1 < t.epiTileN
    omega
  token := ⟨Nat.le_add_right _ _, Nat.add_lt_add_left (clamped_lt _ _) _⟩

/-- A lane past the work of its warp adds nothing. -/
theorem issued_past {warpIdx w laneIdx : ℕ} (past : t.workPerWarp ≤ w * 32 + laneIdx) :
    t.issued warpIdx w laneIdx = [] := by
  have out : ¬w * 32 + laneIdx < t.workPerWarp := not_lt.2 past
  simp [issued, laneAccess, out]

/-- A lane with a chunk past the last row adds nothing. -/
theorem issued_pastRow {warpIdx w laneIdx r ch : ℕ} (hch : ch < t.v4ChunksPerRow)
    (work : w * 32 + laneIdx = r * t.v4ChunksPerRow + ch)
    (past : t.epiTileM ≤ warpIdx * t.rowsPerWarp + r) : t.issued warpIdx w laneIdx = [] := by
  by_cases inRange : w * 32 + laneIdx < t.workPerWarp
  · have out : ¬warpIdx * t.rowsPerWarp + r < t.epiTileM := not_lt.2 past
    have row : (w * 32 + laneIdx) / t.v4ChunksPerRow = r := by
      rw [work, PrefixSum.flat_div hch]
    simp [issued, laneAccess, inRange, row, out]
  · exact issued_past (not_lt.1 inRange)

/-- A lane with a chunk of row `m` adds it if the row has a token. -/
theorem issued_row {warpIdx w laneIdx r ch : ℕ} (hr : r < t.rowsPerWarp)
    (hch : ch < t.v4ChunksPerRow) (work : w * 32 + laneIdx = r * t.v4ChunksPerRow + ch)
    (inside : warpIdx * t.rowsPerWarp + r < t.epiTileM) :
    t.issued warpIdx w laneIdx =
      if t.HasToken (warpIdx * t.rowsPerWarp + r) then
        [t.chunkAdd (warpIdx * t.rowsPerWarp + r) ch] else [] := by
  have inRange : w * 32 + laneIdx < t.workPerWarp := by
    rw [work]
    exact PrefixSum.flat_lt hr hch
  have row : (w * 32 + laneIdx) / t.v4ChunksPerRow = r := by
    rw [work, PrefixSum.flat_div hch]
  have chunk : (w * 32 + laneIdx) % t.v4ChunksPerRow = ch := by
    rw [work, PrefixSum.flat_mod hch]
  by_cases token : t.HasToken (warpIdx * t.rowsPerWarp + r)
  · obtain ⟨lower, upper⟩ := token
    simp [issued, laneAccess, inRange, row, chunk, inside, HasToken, lower, upper, chunkAdd]
  · have none : ¬(0 ≤ t.recvToken (t.mSubtileOrigin + (warpIdx * t.rowsPerWarp + r)) ∧
        t.recvToken (t.mSubtileOrigin + (warpIdx * t.rowsPerWarp + r)) < t.tRecv) := token
    simp [issued, laneAccess, inRange, row, inside, token, none]

/-! ### The subtile -/

variable (t) in
/-- What is added for row `m`. -/
def rowAdds (m : ℕ) : List V4Add :=
  if m < t.epiTileM ∧ t.HasToken m then (List.range t.v4ChunksPerRow).map (t.chunkAdd m) else []

/-- The lanes that have the chunks of one row. -/
theorem issued_rowChunks {warpIdx r : ℕ} (hr : r < t.rowsPerWarp) :
    ((List.range t.v4ChunksPerRow).flatMap fun ch =>
        t.issued warpIdx ((r * t.v4ChunksPerRow + ch) / 32) ((r * t.v4ChunksPerRow + ch) % 32)) =
      t.rowAdds (warpIdx * t.rowsPerWarp + r) := by
  have work : ∀ x : ℕ, x / 32 * 32 + x % 32 = x := fun x => Nat.div_add_mod' x 32
  by_cases inside : warpIdx * t.rowsPerWarp + r < t.epiTileM
  · rw [rowAdds, List.flatMap_congr fun ch hch =>
      issued_row hr (List.mem_range.1 hch) (work _) inside]
    by_cases token : t.HasToken (warpIdx * t.rowsPerWarp + r)
    · simp only [if_pos token, if_pos (And.intro inside token)]
      exact List.map_eq_flatMap.symm
    · simp [token]
  · rw [rowAdds, List.flatMap_congr fun ch hch =>
      issued_pastRow (List.mem_range.1 hch) (work _) (not_lt.1 inside)]
    simp [inside]

/-- One warp adds its rows, because its work is numbered by rows and chunks. -/
theorem issued_warp (warpIdx : ℕ) :
    ((List.range t.workItersPerWarp).flatMap fun w =>
        (List.range 32).flatMap fun laneIdx => t.issued warpIdx w laneIdx) =
      (List.range t.rowsPerWarp).flatMap fun r => t.rowAdds (warpIdx * t.rowsPerWarp + r) := by
  let byWork (x : ℕ) : List V4Add := t.issued warpIdx (x / 32) (x % 32)
  have lanes : ∀ w ∈ List.range t.workItersPerWarp,
      ((List.range 32).flatMap fun laneIdx => t.issued warpIdx w laneIdx) =
        (List.range 32).flatMap fun laneIdx => byWork (w * 32 + laneIdx) := by
    intro w _
    refine List.flatMap_congr fun laneIdx hlane => ?_
    have hlane := List.mem_range.1 hlane
    simp only [byWork, PrefixSum.flat_div hlane, PrefixSum.flat_mod hlane]
  have past : ∀ x, t.workPerWarp ≤ x → byWork x = [] := by
    intro x le
    refine issued_past (le.trans_eq ?_)
    exact (Nat.div_add_mod' x 32).symm
  rw [List.flatMap_congr lanes, ← PrefixSum.flatMap_range_mul byWork,
    PrefixSum.flatMap_range_of_le workPerWarp_le past, workPerWarp,
    PrefixSum.flatMap_range_mul byWork]
  exact List.flatMap_congr fun r hr => issued_rowChunks (List.mem_range.1 hr)

/-- All warps together add every row. -/
theorem issued_triples :
    (t.triples.flatMap fun x => t.issued x.1 x.2.1 x.2.2) = t.chunkAdds := by
  have warps : (t.triples.flatMap fun x => t.issued x.1 x.2.1 x.2.2) =
      (List.range t.numEpiWarps).flatMap fun warpIdx =>
        (List.range t.rowsPerWarp).flatMap fun r => t.rowAdds (warpIdx * t.rowsPerWarp + r) := by
    rw [triples, List.flatMap_assoc]
    refine List.flatMap_congr fun warpIdx _ => ?_
    rw [← issued_warp, List.flatMap_assoc]
    refine List.flatMap_congr fun w _ => ?_
    rw [List.flatMap_map]
  have past : ∀ m, t.epiTileM ≤ m → t.rowAdds m = [] := by
    intro m le
    exact if_neg fun row => absurd row.1 (not_lt.2 le)
  rw [warps, ← PrefixSum.flatMap_range_mul, PrefixSum.flatMap_range_of_le epiTileM_le past,
    chunkAdds]
  refine List.flatMap_congr fun m hm => ?_
  rw [rowAdds, v4ChunksPerRow_eq]
  simp only [List.mem_range.1 hm, true_and]

/-- **The scatter covers a subtile exactly once.**  In whatever order the warps, iterations and
lanes come, they add every chunk of every row with a token once and nothing else, and no read
leaves the subtile. -/
theorem scatterStore_covers (t : ScatterSubtile) :
    (∀ order : List (ℕ × ℕ × ℕ), order.Perm t.triples →
      (order.flatMap fun x => t.issued x.1 x.2.1 x.2.2).Perm t.chunkAdds) ∧
    ∀ x ∈ t.triples, t.ReadsInside (t.laneAccess x.1 x.2.1 x.2.2) := by
  refine ⟨fun order all => ?_, fun x _ => readsInside _ _ _⟩
  have same := all.flatMap_right fun x => t.issued x.1 x.2.1 x.2.2
  rwa [issued_triples] at same

/-- Three rows for four warps: one with a token, a padding row, and one with an id out of
range. -/
def exampleSubtile : ScatterSubtile where
  epiTileM := 3
  epiTileN := 16
  numEpiWarps := 4
  ctaTileN := 32
  pidN := 1
  epiM := 1
  epiN := 1
  tRecv := 4
  recvToken m := [7, 7, 7, 2, -1, 5].getD m (-1)
  epiTileM_pos := Nat.succ_pos (nat_lit 2)
  epiTileN_pos := Nat.succ_pos (nat_lit 15)
  numEpiWarps_pos := Nat.succ_pos (nat_lit 3)
  chunk_dvd := Nat.dvd_mul_right (nat_lit 8) (nat_lit 2)

theorem scatterStore_covers_example :
    exampleSubtile.chunkAdds = [⟨0, 0, 2, 24⟩, ⟨0, 4, 2, 28⟩] ∧
      (exampleSubtile.triples.reverse.flatMap fun x =>
        exampleSubtile.issued x.1 x.2.1 x.2.2).Perm exampleSubtile.chunkAdds :=
  ⟨by decide, (scatterStore_covers exampleSubtile).1 _ (List.reverse_perm _)⟩

end ScatterSubtile

end StreamEP.StreamMoe
