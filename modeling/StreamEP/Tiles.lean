import StreamEP.Lib.Store
import StreamEP.Routing

/-!
# Tiles of the pool and their arrival counts

The grouped GEMM works on tiles of `tile_m` consecutive slots.  For each tile the
pool keeps a count of rows that have arrived and a target.  Receivers announce the
rows they wrote as slot ranges: `firePoolBlocks` splits a range at the tile
boundaries and adds to each tile what falls into it.  Targets come from another
kernel, `poolArrivalTarget`, which looks only at the experts' totals.

**One measure for both sides.**  `overlap` is how many slots of a range lie in a tile.  A range
fires its overlap with every tile (`added_firePoolBlocks`), overlaps of consecutive
ranges add up (`overlap_sum`), and the target of a tile is the overlap of all
experts' intervals with it (`poolArrivalTarget_eq`).  Announcements of any granularity, one for a
substream or one for each token, therefore add up to the same.

**Padding.**  The interval of an expert begins at a tile and need not fill its last one.  The
target of that tile is what is really in it, and no range reaches into the tiles of another
expert (`TileOffsets.overlap_of_ne`); so a tile is waited for as long as its real rows are
missing and not longer.
-/

namespace StreamEP

open Finset

/-! ### Firing a slot range -/

/-- `fire_pool_blocks`: the additions for slots `[slotStartE, slotStartE +
nWritesForE)`, block by block. -/
def firePoolBlocks (slotStartE nWritesForE tileM : ℕ) : List (ℕ × ℕ) :=
  let slotEndE := slotStartE + nWritesForE
  let firstBlock := slotStartE / tileM
  let lastBlock := (slotEndE - 1) / tileM
  (List.range' firstBlock (lastBlock + 1 - firstBlock)).map fun blockId =>
    let blockSlotStart := blockId * tileM
    let blockSlotEnd := blockSlotStart + tileM
    (blockId, min slotEndE blockSlotEnd - max slotStartE blockSlotStart)

/-- How many of the `n` slots from `start` on lie in tile `b`. -/
def overlap (tileM start n b : ℕ) : ℕ :=
  min (start + n) (b * tileM + tileM) - max start (b * tileM)

section Overlap

variable {tileM : ℕ}

/-- Consecutive ranges share out their slots. -/
theorem overlap_add (start n n' b : ℕ) :
    overlap tileM start (n + n') b =
      overlap tileM start n b + overlap tileM (start + n) n' b := by
  unfold overlap
  omega

@[simp] theorem overlap_zero (start b : ℕ) : overlap tileM start 0 b = 0 := by
  unfold overlap
  omega

/-- A family of consecutive ranges overlaps a tile as their union does. -/
theorem overlap_sum (start : ℕ) (f : ℕ → ℕ) (n b : ℕ) :
    overlap tileM start (∑ i ∈ range n, f i) b =
      ∑ i ∈ range n, overlap tileM (start + ∑ j ∈ range i, f j) (f i) b := by
  induction n with
  | zero => simp
  | succ n ih => rw [sum_range_succ, overlap_add, ih, sum_range_succ]

/-- A slot of a range that lies in the tile makes the overlap positive. -/
theorem overlap_pos {start n b s : ℕ} (pos : 0 < tileM) (lower : start ≤ s)
    (upper : s < start + n) (tile : s / tileM = b) : 0 < overlap tileM start n b := by
  obtain ⟨lo, hi⟩ := (Nat.div_eq_iff pos).1 tile
  unfold overlap
  omega

/-- Outside the tiles between the first and the last, the overlap is zero. -/
theorem overlap_eq_zero {start n b : ℕ} (pos : 0 < tileM)
    (outside : b < start / tileM ∨ (start + n - 1) / tileM < b) :
    overlap tileM start n b = 0 := by
  unfold overlap
  rcases outside with before | after
  · have := (Nat.lt_div_iff_mul_lt pos).1 before
    have next : (b + 1) * tileM ≤ start := (Nat.le_div_iff_mul_le pos).1 before
    rw [Nat.succ_mul] at next
    omega
  · have := (Nat.div_lt_iff_lt_mul pos).1 after
    omega

/-- **A fired range adds its overlap to every tile.** -/
theorem added_firePoolBlocks (pos : 0 < tileM) {start n : ℕ} (nonempty : 0 < n) (b : ℕ) :
    Store.added (firePoolBlocks start n tileM) b = overlap tileM start n b := by
  have walk : ∀ first len, Store.added
      ((List.range' first len).map fun blockId => (blockId, overlap tileM start n blockId)) b =
        if first ≤ b ∧ b < first + len then overlap tileM start n b else 0 := by
    intro first len
    induction len generalizing first with
    | zero =>
        rw [if_neg (by omega)]
        rfl
    | succ len ih =>
        rw [List.range'_succ, List.map_cons, Store.added_cons, ih]
        by_cases here : first = b
        · subst here
          rw [if_pos rfl, if_neg (by omega), if_pos (by omega), Nat.add_zero]
        · rw [if_neg here, Nat.zero_add]
          have same : (first + 1 ≤ b ∧ b < first + 1 + len) ↔
              (first ≤ b ∧ b < first + (len + 1)) := by omega
          simp only [same]
  have ordered : start / tileM ≤ (start + n - 1) / tileM :=
    Nat.div_le_div_right (by omega)
  show Store.added ((List.range' (start / tileM) _).map fun blockId =>
    (blockId, overlap tileM start n blockId)) b = _
  rw [walk]
  by_cases inside : start / tileM ≤ b ∧ b < start / tileM +
      ((start + n - 1) / tileM + 1 - start / tileM)
  · rw [if_pos inside]
  · rw [if_neg inside, overlap_eq_zero pos (by omega)]

end Overlap

/-! ### Targets -/

section Targets

variable (numExpertsPerRank tileM : ℕ) (expertPoolBlockOffset expertFrequency : ℕ → ℕ)

/-- `e_found` of `fill_tile_metadata_kernel`: the first expert whose tiles reach
past `tileId`, also stored in `tile_id_to_expert`. -/
def tileIdToExpert (tileId : ℕ) : ℕ :=
  ((List.range numExpertsPerRank).find? fun e =>
    decide (tileId < expertPoolBlockOffset (e + 1))).getD 0

/-- `pool_arrival_target`. -/
def poolArrivalTarget (tileId : ℕ) : ℕ :=
  let eFound := tileIdToExpert numExpertsPerRank expertPoolBlockOffset tileId
  let eStart := expertPoolBlockOffset eFound
  let nTilesE := expertPoolBlockOffset (eFound + 1) - eStart
  let nE := expertFrequency eFound
  let t := tileId - eStart
  if t = nTilesE - 1 then nE - t * tileM else tileM

variable {numExpertsPerRank tileM expertPoolBlockOffset expertFrequency}

/-- The offsets are the running count of the experts' tiles. -/
structure TileOffsets (tileM : ℕ) (expertPoolBlockOffset expertFrequency : ℕ → ℕ) : Prop where
  pos : 0 < tileM
  zero : expertPoolBlockOffset 0 = 0
  succ : ∀ e, expertPoolBlockOffset (e + 1) =
    expertPoolBlockOffset e + ceilDiv (expertFrequency e) tileM

theorem TileOffsets.mono (offsets : TileOffsets tileM expertPoolBlockOffset expertFrequency)
    {e e' : ℕ} (h : e ≤ e') : expertPoolBlockOffset e ≤ expertPoolBlockOffset e' := by
  induction e', h using Nat.le_induction with
  | base => exact le_rfl
  | succ e' _ ih =>
      rw [offsets.succ]
      omega

/-- The expert found for a tile owns the tile. -/
theorem TileOffsets.tileIdToExpert_spec
    (offsets : TileOffsets tileM expertPoolBlockOffset expertFrequency) {tileId : ℕ}
    (h : tileId < expertPoolBlockOffset numExpertsPerRank) :
    tileIdToExpert numExpertsPerRank expertPoolBlockOffset tileId < numExpertsPerRank ∧
      expertPoolBlockOffset
        (tileIdToExpert numExpertsPerRank expertPoolBlockOffset tileId) ≤ tileId ∧
      tileId < expertPoolBlockOffset
        (tileIdToExpert numExpertsPerRank expertPoolBlockOffset tileId + 1) := by
  have nonempty : numExpertsPerRank ≠ 0 := by
    rintro rfl
    rw [offsets.zero] at h
    omega
  cases found : (List.range numExpertsPerRank).find? fun e =>
      decide (tileId < expertPoolBlockOffset (e + 1)) with
  | none =>
      have last := List.find?_eq_none.1 found (numExpertsPerRank - 1)
        (List.mem_range.2 (by omega))
      rw [Nat.sub_add_cancel (by omega)] at last
      exact absurd (decide_eq_true h) last
  | some e =>
      obtain ⟨reaches, he, earlier⟩ := List.find?_range_eq_some.1 found
      have chosen : tileIdToExpert numExpertsPerRank expertPoolBlockOffset tileId = e := by
        rw [tileIdToExpert, found]
        rfl
      rw [chosen]
      refine ⟨List.mem_range.1 he, ?_, of_decide_eq_true reaches⟩
      cases e with
      | zero =>
          rw [offsets.zero]
          exact Nat.zero_le _
      | succ e =>
          have short := earlier e (Nat.lt_succ_self e)
          simpa using short

/-- A tile belongs to one expert. -/
theorem TileOffsets.expert_unique
    (offsets : TileOffsets tileM expertPoolBlockOffset expertFrequency) {tileId e e' : ℕ}
    (h : expertPoolBlockOffset e ≤ tileId ∧ tileId < expertPoolBlockOffset (e + 1))
    (h' : expertPoolBlockOffset e' ≤ tileId ∧ tileId < expertPoolBlockOffset (e' + 1)) :
    e = e' := by
  rcases lt_trichotomy e e' with lt | eq | gt
  · have next : e + 1 ≤ e' := lt
    have := offsets.mono next
    omega
  · exact eq
  · have next : e' + 1 ≤ e := gt
    have := offsets.mono next
    omega

/-- An expert's interval does not reach into the tiles of the others. -/
theorem TileOffsets.overlap_of_ne
    (offsets : TileOffsets tileM expertPoolBlockOffset expertFrequency) {tileId e : ℕ}
    (h : ¬(expertPoolBlockOffset e ≤ tileId ∧ tileId < expertPoolBlockOffset (e + 1))) :
    overlap tileM (expertPoolBlockOffset e * tileM) (expertFrequency e) tileId = 0 := by
  have covered := le_ceilDiv_mul offsets.pos (expertFrequency e)
  unfold overlap
  by_cases before : tileId < expertPoolBlockOffset e
  · have next : (tileId + 1) * tileM ≤ expertPoolBlockOffset e * tileM :=
      Nat.mul_le_mul_right tileM before
    rw [Nat.succ_mul] at next
    omega
  · have past : expertPoolBlockOffset (e + 1) ≤ tileId := by omega
    have next := Nat.mul_le_mul_right tileM past
    rw [offsets.succ, Nat.add_mul] at next
    omega

/-- **The target of a tile is the number of real slots in it.** -/
theorem TileOffsets.poolArrivalTarget_eq
    (offsets : TileOffsets tileM expertPoolBlockOffset expertFrequency) {tileId : ℕ}
    (h : tileId < expertPoolBlockOffset numExpertsPerRank) :
    poolArrivalTarget numExpertsPerRank tileM expertPoolBlockOffset expertFrequency tileId =
      ∑ e ∈ range numExpertsPerRank,
        overlap tileM (expertPoolBlockOffset e * tileM) (expertFrequency e) tileId := by
  obtain ⟨he, lower, upper⟩ := offsets.tileIdToExpert_spec h
  set e := tileIdToExpert numExpertsPerRank expertPoolBlockOffset tileId with hfound
  have alone : ∀ e' ∈ range numExpertsPerRank, e' ≠ e →
      overlap tileM (expertPoolBlockOffset e' * tileM) (expertFrequency e') tileId = 0 :=
    fun e' _ other => offsets.overlap_of_ne fun owns =>
      other (offsets.expert_unique owns ⟨lower, upper⟩)
  have single := sum_eq_single e alone fun outside => absurd (mem_range.2 he) outside
  rw [single, poolArrivalTarget, ← hfound]
  clear_value e
  obtain ⟨t, rfl⟩ := Nat.exists_eq_add_of_le lower
  have tiles := offsets.succ e
  have covered := le_ceilDiv_mul offsets.pos (expertFrequency e)
  have needed := ceilDiv_mul_lt offsets.pos (expertFrequency e)
  rw [Nat.add_sub_cancel_left, tiles, Nat.add_sub_cancel_left, overlap, Nat.add_mul]
  by_cases last : t = ceilDiv (expertFrequency e) tileM - 1
  · have end' : ceilDiv (expertFrequency e) tileM = t + 1 := by omega
    rw [end', Nat.succ_mul] at covered
    rw [if_pos last]
    omega
  · -- an inner tile is full, because the expert has rows beyond it
    have beyond : t + 2 ≤ ceilDiv (expertFrequency e) tileM := by omega
    have scaled := Nat.mul_le_mul_right tileM beyond
    rw [Nat.add_mul] at scaled
    rw [if_neg last]
    omega

end Targets

end StreamEP
