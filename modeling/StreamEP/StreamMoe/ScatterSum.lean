import StreamEP.StreamMoe.Completion
import StreamEP.StreamMoe.ScatterStore

/-!
# What the scattering kernels add up

The rows of `o` start at zero, and every stripe of every tile adds its values to them with
atomics, in an order that the device chooses.  A row that is stamped is sent off while other
rows are still being added to.

The tensor is flat, and no column is compared with its width: what a stripe adds behind the
last column of a row goes to the first columns of the next one.  That happens when the clusters
are not whole, for the stripes that a cluster has too many.

`rows_exact`: whatever the order, no value is added twice; a row that is stamped holds the sum
over all slots of its token when the clusters are whole, so nothing of it was missing and
nothing will still come; and at the end all rows do, also with other clusters if their stripes
behind the last column hold zeros (`ZeroBehind`).  The values are those of any commutative
monoid.

**By address.**  `contribution` asks of an addition at which place of the flat tensor it lands.
Inside the rows a place is a row and a column (`place_inj`), and with zeros behind the last
column nothing else contributes (`slotSum_contribution`).

**In any state.**  What all stripes add to a place is a finite sum (`sum_planned`); what has
been added and what is to come make it up in every state (`oRow_add_pending`), by the countdown
of the kernel. So a row is complete when nothing of it is to come: at the end, or when its token
is stamped, since then the stripes of all its tiles have added (`row_ne_of_stamped`).
-/

namespace StreamEP.StreamMoe

open Finset

namespace ScatterLaunch

variable (la : ScatterLaunch) {M : Type} [AddCommMonoid M]

/-! ### One stripe -/

/-- A slot that holds a token. -/
def HasToken (slot : ℕ) : Prop := 0 ≤ la.poolRecvToken slot ∧ la.poolRecvToken slot < la.tRecv

instance : DecidablePred la.HasToken := fun _ => inferInstanceAs (Decidable (_ ∧ _))

/-- The additions for columns `[first, first + columns)` of a slot. -/
def slotSum (f : Addition → M) (first columns slot : ℕ) : M :=
  if la.HasToken slot then
    ∑ n ∈ range columns, f ⟨slot, (la.poolRecvToken slot).toNat, first + n⟩
  else 0

variable {la} (f : Addition → M)

/-- The chunks of a row are its columns, eight at a time. -/
theorem sum_scatterStore (poolStart pidN epiM epiN : ℕ) :
    ((la.scatterStore poolStart pidN epiM epiN).map f).sum =
      ∑ m ∈ range la.epiTileM, la.slotSum f (pidN * la.tileN + epiN * la.epiTileN) la.epiTileN
        (poolStart + (epiM * la.epiTileM + m)) := by
  have chunks : la.epiTileN / 8 * 8 = la.epiTileN := Nat.div_mul_cancel la.chunk_dvd
  rw [scatterStore_eq, ScatterSubtile.chunkAdds, List.flatMap_assoc, PrefixSum.sum_flatMap_range]
  refine sum_congr rfl fun m _ => ?_
  by_cases token : la.HasToken (poolStart + (epiM * la.epiTileM + m))
  · have here : (la.subtile poolStart pidN epiM epiN).HasToken m := token
    rw [slotSum, if_pos token, if_pos here, List.flatMap_map, PrefixSum.sum_flatMap_range]
    conv_rhs => rw [← chunks, PrefixSum.sum_range_mul, chunks]
    refine sum_congr rfl fun ch _ => ?_
    have first := la.nOrigin_even poolStart pidN epiM epiN ch
    rw [columnsOf, List.map_map, ← List.sum_toFinset _ List.nodup_range, List.toFinset_range]
    refine sum_congr rfl fun b _ => congrArg f ?_
    simp only [ScatterSubtile.chunkAdd, first, Nat.add_assoc]
    rfl
  · have none : ¬(la.subtile poolStart pidN epiM epiN).HasToken m := token
    rw [slotSum, if_neg token, if_neg none]
    rfl

/-- A stripe adds its columns for every slot of its tile. -/
theorem sum_additions {workIdx : ℕ} (h : workIdx < la.totalWork) (j : ℕ) :
    ((la.additions workIdx j).map f).sum =
      ∑ m ∈ range la.tileM, la.slotSum f (la.pidN workIdx j * la.tileN) la.tileN
        (workIdx / la.numPidN * la.tileM + m) := by
  have rows : la.tileM / la.epiTileM * la.epiTileM = la.tileM :=
    Nat.div_mul_cancel la.epiTileM_dvd
  have columns : la.tileN / la.epiTileN * la.epiTileN = la.tileN :=
    Nat.div_mul_cancel la.epiTileN_dvd
  rw [additions, PrefixSum.sum_flatMap_range, poolStart_eq h]
  simp only [PrefixSum.sum_flatMap_range, sum_scatterStore]
  conv_rhs => rw [← rows, PrefixSum.sum_range_mul, rows]
  refine sum_congr rfl fun epiM _ => ?_
  rw [sum_comm]
  refine sum_congr rfl fun m _ => ?_
  simp only [slotSum]
  by_cases token : la.HasToken
      (workIdx / la.numPidN * la.tileM + (epiM * la.epiTileM + m))
  · simp only [if_pos token]
    conv_rhs => rw [← columns, PrefixSum.sum_range_mul, columns]
    simp only [Nat.add_assoc]
  · simp only [if_neg token, sum_const_zero]

/-- **All stripes together** add every column of their width for every slot. -/
theorem sum_planned :
    ∑ i, ((la.scatterPlan.writes i).map f).sum =
      ∑ slot ∈ range (la.totalTiles * la.tileM),
        la.slotSum f 0 (la.numPidN * la.clusterN * la.tileN) slot := by
  have stripe : ∀ i : la.Task, ((la.scatterPlan.writes i).map f).sum =
      ∑ m ∈ range la.tileM, la.slotSum f (la.pidN i.1 i.2 * la.tileN) la.tileN
        (i.1 / la.numPidN * la.tileM + m) := fun i => sum_additions f i.1.isLt i.2
  have claims : ∀ w : ℕ, ∑ j : Fin la.clusterN, ∑ m ∈ range la.tileM,
      la.slotSum f (la.pidN w j * la.tileN) la.tileN (w / la.numPidN * la.tileM + m) =
        ∑ j ∈ range la.clusterN, ∑ m ∈ range la.tileM,
          la.slotSum f (la.pidN w j * la.tileN) la.tileN (w / la.numPidN * la.tileM + m) :=
    fun w => Fin.sum_univ_eq_sum_range (fun j => ∑ m ∈ range la.tileM,
      la.slotSum f (la.pidN w j * la.tileN) la.tileN (w / la.numPidN * la.tileM + m)) _
  rw [sum_congr rfl fun i _ => stripe i, Fintype.sum_prod_type]
  simp only [claims]
  rw [Fin.sum_univ_eq_sum_range fun w => ∑ j ∈ range la.clusterN, ∑ m ∈ range la.tileM,
      la.slotSum f (la.pidN w j * la.tileN) la.tileN (w / la.numPidN * la.tileM + m),
    SchedulerArguments.totalWork, PrefixSum.sum_range_mul, PrefixSum.sum_range_mul]
  refine sum_congr rfl fun tileId _ => ?_
  -- the columns of a slot come stripe by stripe, the stripes of a cluster one after the other
  have inTile : ∀ q ∈ range la.numPidN, ∑ j ∈ range la.clusterN, ∑ m ∈ range la.tileM,
      la.slotSum f (la.pidN (tileId * la.numPidN + q) j * la.tileN) la.tileN
        ((tileId * la.numPidN + q) / la.numPidN * la.tileM + m) =
      ∑ j ∈ range la.clusterN, ∑ m ∈ range la.tileM,
        la.slotSum f ((q * la.clusterN + j) * la.tileN) la.tileN (tileId * la.tileM + m) := by
    intro q hq
    have hq := mem_range.1 hq
    simp only [pidN_eq, PrefixSum.flat_div hq, PrefixSum.flat_mod hq]
  rw [sum_congr rfl inTile, ← PrefixSum.sum_range_mul fun p => ∑ m ∈ range la.tileM,
    la.slotSum f (p * la.tileN) la.tileN (tileId * la.tileM + m), sum_comm]
  refine sum_congr rfl fun m _ => ?_
  simp only [slotSum]
  by_cases token : la.HasToken (tileId * la.tileM + m)
  · simp only [if_pos token, PrefixSum.sum_range_mul, Nat.zero_add]
  · simp only [if_neg token, sum_const_zero]

/-! ### Rows -/

section Rows

variable (value : ℕ → ℕ → M)

variable (la) in
/-- What an addition contributes to column `n` of row `r`.  `o` is one flat tensor, row behind
row, so what is added behind the last column of a row goes to the next one.  `value` gives the
columns of the rows of the tiles. -/
def contribution (r n : ℕ) (a : Addition) : M :=
  if a.row * la.hidden + a.column = r * la.hidden + n then value a.slot a.column else 0

/-- `o[r, n]`: from zero, what has been added. -/
def KernelState.oRow (s : KernelState la) (r n : ℕ) : M :=
  (s.issued.map (la.contribution value r n)).sum

variable (la) in
/-- What belongs there: the sum over the slots of the token. -/
def rowSum (r n : ℕ) : M :=
  ∑ slot ∈ (range (la.totalTiles * la.tileM)).filter (la.poolRecvToken · = (r : ℤ)), value slot n

variable (la) in
/-- Nothing but zeros is added behind the last column: either the clusters are whole, or the
operands of the product are filled with zeros there. -/
def ZeroBehind : Prop :=
  la.clusterN ∣ la.hidden / la.tileN ∨ ∀ slot n, la.hidden ≤ n → value slot n = 0

/-- What holds of `o` in state `s`. -/
structure RowsExact (s : KernelState la) : Prop where
  /-- Nothing is added twice. -/
  once : s.issued.Nodup
  /-- The row of a stamped token is complete, if the clusters are whole. -/
  stamped : la.clusterN ∣ la.hidden / la.tileN → ∀ r, 0 < s.tasks.stamps r →
    ∀ n < la.hidden, s.oRow value r n = la.rowSum value r n
  /-- In the end all rows are, if no row gets anything but zeros from the one before it. -/
  finished : la.ZeroBehind value → s.Finished → ∀ r < la.tRecv, ∀ n < la.hidden,
    s.oRow value r n = la.rowSum value r n

/-- Inside the rows, places are told apart by row and column. -/
theorem place_inj {r n r' n' : ℕ} (hn : n < la.hidden) (hn' : n' < la.hidden)
    (same : r' * la.hidden + n' = r * la.hidden + n) : r' = r ∧ n' = n :=
  (PrefixSum.flat_inj hn' hn).1 same

/-- What a slot adds up to in a place of a row. -/
theorem slotSum_contribution (zero : la.ZeroBehind value) {r n : ℕ} (hr : r < la.tRecv)
    (hn : n < la.hidden) (slot : ℕ) :
    la.slotSum (la.contribution value r n) 0 (la.numPidN * la.clusterN * la.tileN) slot =
      if la.poolRecvToken slot = r then value slot n else 0 := by
  have wide : la.hidden ≤ la.numPidN * la.clusterN * la.tileN := by
    rw [← scatterNumPidN_mul]
    exact Nat.mul_le_mul_right _ (scatterNumPidN_le la)
  -- behind the last column the contribution is zero, or there is none
  have behind : ∀ n' < la.numPidN * la.clusterN * la.tileN, la.hidden ≤ n' →
      value slot n' = 0 := by
    intro n' inside beyond
    rcases zero with whole | zeros
    · rw [← scatterNumPidN_eq] at whole
      rw [numPidN_mul_eq_iff.2 whole, scatterNumPidN_mul] at inside
      exact absurd beyond inside.not_ge
    · exact zeros slot n' beyond
  have column : ∀ n' < la.numPidN * la.clusterN * la.tileN,
      la.contribution value r n ⟨slot, (la.poolRecvToken slot).toNat, 0 + n'⟩ =
        if (la.poolRecvToken slot).toNat = r ∧ n' = n then value slot n else 0 := by
    intro n' inside
    simp only [contribution, Nat.zero_add]
    rcases lt_or_ge n' la.hidden with here | beyond
    · by_cases same : (la.poolRecvToken slot).toNat = r ∧ n' = n
      · rw [if_pos same, same.1, same.2, if_pos rfl]
      · rw [if_neg same, if_neg fun place => same (place_inj hn here place)]
    · have other : n' ≠ n := (hn.trans_le beyond).ne'
      rw [behind n' inside beyond, ite_self, if_neg fun same => other same.2]
  by_cases own : la.poolRecvToken slot = r
  · have token : la.HasToken slot := ⟨by omega, by omega⟩
    rw [slotSum, if_pos token, if_pos own,
      sum_congr rfl fun n' inside => column n' (mem_range.1 inside), sum_eq_single n]
    · exact if_pos ⟨by rw [own, Int.toNat_natCast], rfl⟩
    · exact fun n' _ other => if_neg fun same => other same.2
    · exact fun outside => absurd (mem_range.2 (hn.trans_le wide)) outside
  · rw [slotSum, if_neg own]
    split
    case isTrue token =>
      rw [sum_congr rfl fun n' inside => column n' (mem_range.1 inside)]
      refine sum_eq_zero fun n' _ => if_neg fun same => own ?_
      rw [← same.1, Int.toNat_of_nonneg token.1]
    case isFalse => rfl

/-- The sum of all contributions. -/
theorem sum_contribution (zero : la.ZeroBehind value) {r n : ℕ} (hr : r < la.tRecv)
    (hn : n < la.hidden) :
    ∑ i, ((la.scatterPlan.writes i).map (la.contribution value r n)).sum =
      la.rowSum value r n := by
  rw [sum_planned, rowSum, sum_filter]
  exact sum_congr rfl fun slot _ => slotSum_contribution value zero hr hn slot

variable {s : KernelState la} (reach : la.kernelSystem.Reachable s)

include reach

/-- What has been added and what is to come add up to the whole row. -/
theorem oRow_add_pending (zero : la.ZeroBehind value) {r n : ℕ} (hr : r < la.tRecv)
    (hn : n < la.hidden) :
    s.oRow value r n +
        ∑ i, ((s.tasks.phase i).writes.map (la.contribution value r n)).sum =
      la.rowSum value r n := by
  rw [← sum_contribution value zero hr hn]
  exact Countdown.reachable_sum (la.contribution value r n) (kernel_inv reach).tasks

/-- Then the row is complete when nothing of it is to come. -/
theorem oRow_eq (zero : la.ZeroBehind value) {r n : ℕ} (hr : r < la.tRecv) (hn : n < la.hidden)
    (none : ∀ i, ∀ a ∈ (s.tasks.phase i).writes, la.contribution value r n a = 0) :
    s.oRow value r n = la.rowSum value r n := by
  have pending : ∑ i, ((s.tasks.phase i).writes.map
      (la.contribution value r n)).sum = 0 := by
    refine sum_eq_zero fun i _ => List.sum_eq_zero fun v mem => ?_
    obtain ⟨a, later, rfl⟩ := List.mem_map.1 mem
    exact none i a later
  rw [← oRow_add_pending value reach zero hr hn, pending, add_zero]

omit [AddCommMonoid M] in
/-- **Nothing is added twice.** -/
theorem nodup_issued : s.issued.Nodup := by
  rw [List.nodup_iff_count_le_one]
  intro a
  -- count the occurrences of one addition as a sum of indicators
  have all := Countdown.reachable_sum (fun b => if b = a then 1 else 0 : Addition → ℕ)
    (kernel_inv reach).tasks
  rw [Countdown.State.sum, sum_planned, PrefixSum.sum_indicator] at all
  have column : ∀ slot, la.slotSum (fun b => if b = a then 1 else 0) 0
      (la.numPidN * la.clusterN * la.tileN) slot ≤ if slot = a.slot then 1 else 0 := by
    intro slot
    rw [slotSum]
    split
    case isFalse => exact Nat.zero_le _
    case isTrue =>
      by_cases own : slot = a.slot
      · rw [if_pos own]
        refine (sum_le_sum (g := fun n => if n = a.column then 1 else 0) fun n _ => ?_).trans ?_
        · by_cases same : n = a.column
          · rw [if_pos same]
            split
            · exact le_rfl
            · exact Nat.zero_le _
          · rw [if_neg same, if_neg]
            rintro rfl
            exact same (Nat.zero_add n).symm
        · rw [sum_ite_eq']
          split
          · exact le_rfl
          · exact Nat.zero_le _
      · rw [if_neg own]
        refine (sum_eq_zero fun n _ => if_neg ?_).le
        rintro rfl
        exact own rfl
  have bounded : ∑ slot ∈ range (la.totalTiles * la.tileM),
      la.slotSum (fun b => if b = a then 1 else 0) 0 (la.numPidN * la.clusterN * la.tileN) slot ≤
        1 := by
    refine (sum_le_sum fun slot _ => column slot).trans ?_
    rw [sum_ite_eq']
    split
    · exact le_rfl
    · exact Nat.zero_le _
  rw [KernelState.issued]
  omega

/-- A stamped token has nothing to come, with whole clusters. -/
theorem row_ne_of_stamped (whole : la.numPidN * la.clusterN = la.scatterNumPidN)
    {r : Fin la.tRecv} (stamped : 0 < s.tasks.stamps r) (i : la.Task) :
    ∀ a ∈ (s.tasks.phase i).writes, a.row ≠ r := by
  intro a later same
  have planned := (countdown_inv reach).writes.pending i a later
  obtain ⟨tile, token, -⟩ := (mem_additions i.1.isLt a).1 planned
  have atMost : ∀ tileId, (Countdown.crew la.scatterPlan tileId).card ≤
      la.scatterPlan.threshold := fun tileId => (card_crew tileId).le.trans whole.le
  have member : r ∈ la.scatterPlan.members (la.scatterPlan.group i) := by
    refine mem_members.2 ⟨a.slot % la.tileM, Nat.mod_lt _ la.tileM_pos, ?_⟩
    rw [group_eq, ← tile, Nat.div_add_mod', token, same]
  rw [Countdown.writes_of_stamped (countdown_inv reach) atMost stamped member] at later
  cases later

/-- A stamped row is complete, with whole clusters. -/
theorem oRow_of_stamped (divides : la.clusterN ∣ la.hidden / la.tileN) (r : Fin la.tRecv)
    (stamped : 0 < s.tasks.stamps r) {n : ℕ} (hn : n < la.hidden) :
    s.oRow value r n = la.rowSum value r n := by
  have whole : la.numPidN * la.clusterN = la.scatterNumPidN := by
    rw [← scatterNumPidN_eq] at divides
    exact numPidN_mul_eq_iff.2 divides
  refine oRow_eq value reach (Or.inl divides) r.isLt hn fun i a later => if_neg fun place => ?_
  have planned := (countdown_inv reach).writes.pending i a later
  exact row_ne_of_stamped reach whole stamped i a later
    (place_inj hn (column_lt whole planned) place).1

/-- **A stamped row holds the sum over all slots of its token**, whatever the order of the
additions, and no value is added twice. -/
theorem rows_exact : RowsExact value s where
  once := nodup_issued reach
  stamped divides r stamped _ hn := oRow_of_stamped value reach divides r stamped hn
  finished zero finished r hr n hn := by
    refine oRow_eq value reach zero hr hn fun i a later => ?_
    rw [done_of_finished reach finished i] at later
    cases later

end Rows

/-- The values of a tile whose operands are filled with zeros behind column 768. -/
def zeroFilled (slot n : ℕ) : ℕ := if n < 768 then slot + n else 0

/-- Three stripes on clusters of two: a fourth stripe adds zeros, and at the end of the kernel
the row of the token is complete. -/
theorem raggedLaunch_rows : ∃ s, raggedLaunch.kernelSystem.Reachable s ∧ s.Finished ∧
    0 < s.tasks.stamps ⟨0, Nat.one_pos⟩ ∧ RowsExact zeroFilled s ∧
      ∀ n < 768, s.oRow zeroFilled 0 n = raggedLaunch.rowSum zeroFilled 0 n := by
  obtain ⟨s, reach, finished⟩ := exists_finished raggedLaunch
  have token : raggedLaunch.HasSlot ⟨0, Nat.one_pos⟩ := ⟨0, Nat.succ_pos 127, rfl⟩
  have stamps := (stamps_finished reach finished ⟨0, Nat.one_pos⟩).2
  rw [if_pos (total_pos_iff.2 token)] at stamps
  have zero : raggedLaunch.ZeroBehind zeroFilled :=
    Or.inr fun _ _ beyond => if_neg (not_lt.2 beyond)
  have exact := rows_exact zeroFilled reach
  exact ⟨s, reach, finished, stamps.symm ▸ Nat.one_pos, exact,
    exact.finished zero finished 0 Nat.one_pos⟩

end ScatterLaunch

end StreamEP.StreamMoe
