import Mathlib.Algebra.BigOperators.Fin
import StreamEP.Lib.Tickets
import StreamEP.Lib.TransitionSystem
import StreamEP.StreamMoe.TileScheduler
import StreamEP.Tiles

/-!
# Concurrent claims of tiles

The persistent clusters of a streaming kernel claim their work with atomic additions to
`consumer_head`.  After a claim in range the scheduler warp waits until the arrival count of
the tile has met its target; then it decodes the claim.  A claim out of range reads neither
array, and its cluster stops.

`tiles_claimed_once`: whatever the order of the claims, the valid ones are all pairs of a pool
tile and a cluster column, each once.

**Decoding.**  A claim is an index into the pairs of a tile and a column group.  `Decodes` says
what the decoded coordinates are: the leading column of the cluster, the expert that owns the
tile, and the tile's place within it.  The kernel that fills the tables by tile finds the expert
by a linear search, and ends at the same one (`tileIdToExpert_eq`).

**Claims.**  The claims below the counter are tickets of the library: each is held by one
cluster or was decoded once.  Beyond that the invariant says that only claims in range have
looked at the arrays, and that a cluster stops behind the last of them.

**Progress.**  Tiles arrive at any time, as an event.  Once all have arrived, some cluster can
go on until all have stopped (`leads_drained`); a valid claim lets its cluster fetch again,
which the weight of a phase takes into account.
-/

namespace StreamEP.StreamMoe

open Function Finset

/-- `WorkTileInfo`: the coordinates of the leading CTA, and whether there is work. -/
structure WorkTileInfo where
  tile : WorkTile
  isValid : Bool

/-- What `_delinearize_work_idx` returns. -/
def SchedulerArguments.workTileInfo (args : SchedulerArguments) (workIdx : ℕ) : WorkTileInfo :=
  if workIdx < args.totalWork then ⟨args.delinearizeWorkIdx workIdx, true⟩
  else ⟨⟨0, 0, 0⟩, false⟩

/-- Where the scheduler warp of a cluster is. -/
inductive ClaimPhase where
  | fetching
  /-- It has claimed `linear_idx` and waits for the tile. -/
  | claimed (linearIdx : ℕ)
  /-- `_fetch_next_work_idx` has returned. -/
  | fetched (linearIdx : ℕ)
  /-- Its last work tile was not valid. -/
  | drained
  deriving DecidableEq

/-- The claim that a scheduler warp has and has not decoded. -/
def ClaimPhase.held : ClaimPhase → Option ℕ
  | fetching => none
  | claimed linearIdx => some linearIdx
  | fetched linearIdx => some linearIdx
  | drained => none

/-- The counter and the arrays of a launch with `m` clusters. -/
structure TileClaims (m : ℕ) where
  consumerHead : ℕ
  /-- `started_flag` of the kernels that have one. -/
  startedFlag : ℕ
  phase : Fin m → ClaimPhase
  /-- Tiles whose `arrival_count` has met `arrival_target`. -/
  arrived : ℕ → Bool
  /-- Claims that read the arrival arrays, and the entry. -/
  arrivalReads : List (ℕ × ℕ)
  /-- Decoded claims. -/
  work : List (ℕ × WorkTileInfo)

namespace TileClaims

variable {m : ℕ}

/-- The launch; the counter is fresh. -/
def start : TileClaims m where
  consumerHead := 0
  startedFlag := 0
  phase _ := .fetching
  arrived _ := false
  arrivalReads := []
  work := []

inductive Event (m : ℕ) where
  /-- The producer of a tile brings its count to the target. -/
  | arrive (tile : ℕ)
  /-- `atomic_add(consumer_head, 1)` -/
  | claim (c : Fin m)
  /-- One load of the wait, or none for a claim out of range. -/
  | wait (c : Fin m)
  /-- `_delinearize_work_idx` -/
  | decode (c : Fin m)

/-- A step. -/
def step (args : SchedulerArguments) (s : TileClaims m) : Event m → Option (TileClaims m)
  | .arrive tile => some { s with arrived := update s.arrived tile true }
  | .claim c =>
      match s.phase c with
      | .fetching =>
          some
            { s with
              consumerHead := s.consumerHead + 1
              startedFlag := if s.consumerHead = 0 then s.startedFlag + 1 else s.startedFlag
              phase := update s.phase c (.claimed s.consumerHead) }
      | _ => none
  | .wait c =>
      match s.phase c with
      | .claimed linearIdx =>
          if linearIdx < args.totalWork then
            let tileId := linearIdx / args.numPidN
            some
              { s with
                arrivalReads := s.arrivalReads ++ [(linearIdx, tileId)]
                phase := if s.arrived tileId = true then update s.phase c (.fetched linearIdx)
                  else s.phase }
          else some { s with phase := update s.phase c (.fetched linearIdx) }
      | _ => none
  | .decode c =>
      match s.phase c with
      | .fetched linearIdx =>
          let info := args.workTileInfo linearIdx
          some
            { s with
              work := s.work ++ [(linearIdx, info)]
              phase := update s.phase c (if info.isValid = true then .fetching else .drained) }
      | _ => none

end TileClaims

/-- The claims of a launch. -/
def tileClaims (args : SchedulerArguments) (m : ℕ) :
    TransitionSystem (TileClaims m) (TileClaims.Event m) where
  init := .start
  step := TileClaims.step args

namespace TileClaims

/-! ### What a decoded claim says -/

variable {args : SchedulerArguments} {workIdx : ℕ}

/-- The linear search of `fill_tile_metadata_kernel` ends at the expert that owns the tile. -/
theorem tileIdToExpert_eq {tileId e : ℕ} (he : e < args.numLocalExperts)
    (lower : args.expertPoolBlockOffset e ≤ tileId)
    (upper : tileId < args.expertPoolBlockOffset (e + 1)) :
    tileIdToExpert args.numLocalExperts args.expertPoolBlockOffset tileId = e := by
  have found : (List.range args.numLocalExperts).find? (fun e =>
      decide (tileId < args.expertPoolBlockOffset (e + 1))) = some e := by
    rw [List.find?_range_eq_some]
    refine ⟨decide_eq_true upper, List.mem_range.2 he, ?_⟩
    intro earlier before
    have le := args.offset_le (show earlier + 1 ≤ e from before) he.le
    simp only [Bool.not_eq_true', decide_eq_false_iff_not, not_lt]
    exact le.trans lower
  rw [tileIdToExpert, found]
  rfl

/-- A claim in range decodes to the leading column of its cluster and to the expert that owns
its tile, and to the tile's place within the expert. -/
structure Decodes (args : SchedulerArguments) (info : WorkTileInfo) (tile column : ℕ) :
    Prop where
  valid : info.isValid = true
  column : info.tile.pidN = args.clusterN * column
  expert_lt : info.tile.expertId < args.numLocalExperts
  lower : args.expertPoolBlockOffset info.tile.expertId ≤ tile
  upper : tile < args.expertPoolBlockOffset (info.tile.expertId + 1)
  place : info.tile.pidM = tile - args.expertPoolBlockOffset info.tile.expertId
  agrees : tileIdToExpert args.numLocalExperts args.expertPoolBlockOffset tile =
    info.tile.expertId

theorem decodes (inRange : workIdx < args.totalWork) :
    Decodes args (args.workTileInfo workIdx) (workIdx / args.numPidN)
      (workIdx % args.numPidN) := by
  have owner := SchedulerArguments.expertId_spec (SchedulerArguments.tile_lt inRange)
  have tile := SchedulerArguments.tileId_eq inRange
  have whole : args.workTileInfo workIdx = ⟨args.delinearizeWorkIdx workIdx, true⟩ :=
    if_pos inRange
  rw [whole]
  refine ⟨rfl, Nat.mul_comm _ _, owner.1, owner.2.1, owner.2.2, ?_, ?_⟩
  · show (args.delinearizeWorkIdx workIdx).pidM =
      workIdx / args.numPidN -
        args.expertPoolBlockOffset (args.delinearizeWorkIdx workIdx).expertId
    rw [← tile, SchedulerArguments.tileId, Nat.add_sub_cancel_left]
  · exact tileIdToExpert_eq owner.1 owner.2.1 owner.2.2

/-- A claim out of range decodes to no work. -/
theorem workTileInfo_of_ge (outside : args.totalWork ≤ workIdx) :
    args.workTileInfo workIdx = ⟨⟨0, 0, 0⟩, false⟩ :=
  if_neg (Nat.not_lt.2 outside)

theorem isValid_iff : (args.workTileInfo workIdx).isValid = true ↔ workIdx < args.totalWork := by
  by_cases inRange : workIdx < args.totalWork
  · exact ⟨fun _ => inRange, fun _ => (decodes inRange).valid⟩
  · rw [workTileInfo_of_ge (Nat.not_lt.1 inRange)]
    exact ⟨fun no => absurd no Bool.false_ne_true, fun h => absurd h inRange⟩

/-- A valid claim is for one pool tile and cluster column. -/
def For (args : SchedulerArguments) (info : WorkTileInfo) (tile column : ℕ) : Prop :=
  info.isValid = true ∧
    args.expertPoolBlockOffset info.tile.expertId + info.tile.pidM = tile ∧
    info.tile.pidN = args.clusterN * column

instance (info : WorkTileInfo) (tile column : ℕ) : Decidable (For args info tile column) :=
  inferInstanceAs (Decidable (_ ∧ _))

/-- The claims of a pair are those with its index. -/
theorem for_iff {tile column : ℕ} :
    For args (args.workTileInfo workIdx) tile column ↔
      (tile < args.totalTiles ∧ column < args.numPidN) ∧
        workIdx = tile * args.numPidN + column := by
  constructor
  · rintro ⟨valid, at_tile, at_column⟩
    have inRange := isValid_iff.1 valid
    have decoded := decodes inRange
    have groups : 0 < args.numPidN := Nat.pos_of_ne_zero fun none => by
      rw [SchedulerArguments.totalWork, none] at inRange
      omega
    have tile_eq : workIdx / args.numPidN = tile := by
      rw [decoded.place] at at_tile
      have lower := decoded.lower
      omega
    have column_eq : workIdx % args.numPidN = column :=
      Nat.eq_of_mul_eq_mul_left args.clusterN_pos (decoded.column.symm.trans at_column)
    refine ⟨⟨?_, ?_⟩, ?_⟩
    · exact tile_eq ▸ SchedulerArguments.tile_lt inRange
    · exact column_eq ▸ Nat.mod_lt _ groups
    · rw [← tile_eq, ← column_eq, Nat.mul_comm]
      exact (Nat.div_add_mod _ _).symm
  · rintro ⟨⟨ht, hc⟩, rfl⟩
    have inRange : tile * args.numPidN + column < args.totalWork := PrefixSum.flat_lt ht hc
    have decoded := decodes inRange
    rw [PrefixSum.flat_div hc, PrefixSum.flat_mod hc] at decoded
    refine ⟨decoded.valid, ?_, decoded.column⟩
    have lower := decoded.lower
    rw [decoded.place]
    omega

/-! ### The invariant -/

variable {m : ℕ} {s s' : TileClaims m}

/-- Every claim is held or decoded once, only claims in range have looked at the arrays, and a
cluster stops behind the last of them. -/
structure Inv (args : SchedulerArguments) (s : TileClaims m) : Prop where
  tickets : Tickets.Inv s.consumerHead (ClaimPhase.held ∘ s.phase) (s.work.map Prod.fst)
  decoded : ∀ w ∈ s.work, w.2 = args.workTileInfo w.1
  reads : ∀ r ∈ s.arrivalReads, r.1 < args.totalWork ∧ r.2 = r.1 / args.numPidN
  drained : ∀ c, s.phase c = .drained → args.totalWork < s.consumerHead
  started : s.startedFlag = min s.consumerHead 1

theorem start_inv : Inv args (start : TileClaims m) where
  tickets := Tickets.Inv.start
  decoded _ mem := absurd mem List.not_mem_nil
  reads _ mem := absurd mem List.not_mem_nil
  drained _ h := nomatch h
  started := rfl

/-- A change of one phase, seen by the claims held. -/
theorem held_update (phase : Fin m → ClaimPhase) (c : Fin m) (ph : ClaimPhase) :
    ClaimPhase.held ∘ update phase c ph = update (ClaimPhase.held ∘ phase) c ph.held :=
  comp_update _ _ _ _

/-- What is true of the other clusters stays true when one does not stop. -/
theorem drained_update {head : ℕ} {phase : Fin m → ClaimPhase} {c : Fin m} {ph : ClaimPhase}
    (drained : ∀ c, phase c = .drained → args.totalWork < head)
    (stops : ph = .drained → args.totalWork < head) (c' : Fin m)
    (h : update phase c ph c' = .drained) : args.totalWork < head := by
  by_cases same : c' = c
  · rw [same, update_self] at h
    exact stops h
  · rw [update_of_ne same] at h
    exact drained c' h

/-- Going on from `claimed` to `fetched` holds the same claim. -/
theorem held_fetched {c : Fin m} {linearIdx : ℕ} (here : s.phase c = .claimed linearIdx) :
    ClaimPhase.held ∘ update s.phase c (.fetched linearIdx) = ClaimPhase.held ∘ s.phase := by
  rw [held_update]
  refine update_eq_self_iff.2 ?_
  rw [comp_apply, here]
  rfl

theorem step_inv (inv : Inv args s) {e : Event m}
    (fires : (tileClaims args m).step s e = some s') : Inv args s' := by
  change step args s e = some s' at fires
  cases e with
  | arrive tile =>
    cases fires
    exact ⟨inv.tickets, inv.decoded, inv.reads, inv.drained, inv.started⟩
  | claim c =>
    dsimp only [step] at fires
    split at fires
    case h_1 here =>
      cases fires
      refine ⟨?_, inv.decoded, inv.reads, ?_, ?_⟩
      · rw [held_update]
        exact inv.tickets.take (by rw [comp_apply, here]; rfl)
      · refine drained_update ?_ (fun h => nomatch h)
        intro c' stopped
        exact Nat.lt_succ_of_lt (inv.drained c' stopped)
      · have flag := inv.started
        show (if s.consumerHead = 0 then s.startedFlag + 1 else s.startedFlag) =
          min (s.consumerHead + 1) 1
        split_ifs <;> omega
    case h_2 => cases fires
  | wait c =>
    dsimp only [step] at fires
    split at fires
    case h_1 linearIdx here =>
      -- only a claim in range looks at the arrival counts
      split_ifs at fires with inRange arrived
      · cases fires
        refine ⟨?_, inv.decoded, ?_, drained_update inv.drained (fun h => nomatch h), inv.started⟩
        · rw [held_fetched here]
          exact inv.tickets
        · intro r mem
          rcases List.mem_append.1 mem with old | new
          · exact inv.reads r old
          · rw [List.mem_singleton.1 new]
            exact ⟨inRange, rfl⟩
      · cases fires
        refine ⟨inv.tickets, inv.decoded, ?_, inv.drained, inv.started⟩
        intro r mem
        rcases List.mem_append.1 mem with old | new
        · exact inv.reads r old
        · rw [List.mem_singleton.1 new]
          exact ⟨inRange, rfl⟩
      · cases fires
        refine ⟨?_, inv.decoded, inv.reads, drained_update inv.drained (fun h => nomatch h),
          inv.started⟩
        rw [held_fetched here]
        exact inv.tickets
    case h_2 => cases fires
  | decode c =>
    dsimp only [step] at fires
    split at fires
    case h_1 linearIdx here =>
      cases fires
      have holds : (ClaimPhase.held ∘ s.phase) c = some linearIdx := by
        rw [comp_apply, here]
        rfl
      refine ⟨?_, ?_, inv.reads, drained_update inv.drained ?_, inv.started⟩
      · have finished := inv.tickets.finish holds
        rw [held_update, List.map_append]
        split_ifs <;> exact finished
      · intro w mem
        rcases List.mem_append.1 mem with old | new
        · exact inv.decoded w old
        · rw [List.mem_singleton.1 new]
      -- a cluster that stops has drawn a ticket behind the last tile
      · intro stops
        split_ifs at stops with valid
        exact lt_of_le_of_lt (Nat.not_lt.1 (mt isValid_iff.2 valid))
          (inv.tickets.held_lt c linearIdx holds)
    case h_2 => cases fires

theorem inv_of_reachable (reach : (tileClaims args m).Reachable s) : Inv args s := by
  refine reach.invariant start_inv ?_
  intro before e after inv fires
  exact step_inv inv fires

/-! ### Progress -/

/-- What a scheduler warp still has to do; a valid claim lets it fetch again. -/
def weight (args : SchedulerArguments) : ClaimPhase → ℕ
  | .fetching => 3
  | .claimed linearIdx => if linearIdx < args.totalWork then 5 else 2
  | .fetched linearIdx => if linearIdx < args.totalWork then 4 else 1
  | .drained => 0

theorem weight_fetching : weight args .fetching = 3 := rfl

theorem weight_drained : weight args .drained = 0 := rfl

theorem weight_claimed {linearIdx : ℕ} :
    weight args (.claimed linearIdx) = weight args (.fetched linearIdx) + 1 := by
  show (if _ then 5 else 2) = (if _ then 4 else 1) + 1
  split_ifs <;> rfl

theorem weight_fetched {linearIdx : ℕ} :
    weight args (.fetched linearIdx) = if linearIdx < args.totalWork then 4 else 1 := rfl

/-- What the launch still has to do. -/
def fuel (args : SchedulerArguments) (s : TileClaims m) : ℕ :=
  3 * (args.totalWork - s.consumerHead) + ∑ c, weight args (s.phase c)

theorem sum_weight_update (phase : Fin m → ClaimPhase) (c : Fin m) (ph : ClaimPhase) :
    ∑ c', weight args (update phase c ph c') + weight args (phase c) =
      ∑ c', weight args (phase c') + weight args ph := by
  have split (f : Fin m → ClaimPhase) :
      ∑ c', weight args (f c') = weight args (f c) + ∑ c' ∈ univ.erase c, weight args (f c') :=
    (Finset.add_sum_erase univ (fun c' => weight args (f c')) (mem_univ c)).symm
  have rest : ∑ c' ∈ univ.erase c, weight args (update phase c ph c') =
      ∑ c' ∈ univ.erase c, weight args (phase c') :=
    sum_congr rfl fun c' mem => by rw [update_of_ne (ne_of_mem_erase mem)]
  rw [split (update phase c ph), split phase, rest, update_self]
  omega

/-- Once every tile has arrived some cluster can go on until all have stopped. -/
theorem leads_drained (all : ∀ tile < args.totalTiles, s.arrived tile = true) :
    ∃ s', (tileClaims args m).Leads s s' ∧ (∀ tile < args.totalTiles, s'.arrived tile = true) ∧
      ∀ c, s'.phase c = .drained := by
  refine TransitionSystem.exists_leads (fuel args) ?_ all
  intro t arrived busy
  obtain ⟨c, working⟩ := not_forall.1 busy
  have count : ∀ ph, ∑ c', weight args (update t.phase c ph c') + weight args (t.phase c) =
      ∑ c', weight args (t.phase c') + weight args ph := sum_weight_update t.phase c
  cases here : t.phase c with
  | fetching =>
    have fires : (tileClaims args m).step t (.claim c) = some
        { t with
          consumerHead := t.consumerHead + 1
          startedFlag := if t.consumerHead = 0 then t.startedFlag + 1 else t.startedFlag
          phase := update t.phase c (.claimed t.consumerHead) } := by
      show step args t (.claim c) = _
      simp only [step, here]
    refine ⟨_, _, fires, arrived, ?_⟩
    have change := count (.claimed t.consumerHead)
    rw [here, weight_fetching, weight_claimed, weight_fetched] at change
    show 3 * (args.totalWork - (t.consumerHead + 1)) +
        ∑ c', weight args (update t.phase c (.claimed t.consumerHead) c') <
      3 * (args.totalWork - t.consumerHead) + ∑ c', weight args (t.phase c')
    split_ifs at change <;> omega
  | claimed linearIdx =>
    have change := count (.fetched linearIdx)
    rw [here, weight_claimed] at change
    by_cases inRange : linearIdx < args.totalWork
    · have fires : (tileClaims args m).step t (.wait c) = some
          { t with
            arrivalReads := t.arrivalReads ++ [(linearIdx, linearIdx / args.numPidN)]
            phase := update t.phase c (.fetched linearIdx) } := by
        show step args t (.wait c) = _
        simp only [step, here, if_pos inRange,
          if_pos (arrived _ (SchedulerArguments.tile_lt inRange))]
      refine ⟨_, _, fires, arrived, Nat.add_lt_add_left ?_ _⟩
      show ∑ c', weight args (update t.phase c (.fetched linearIdx) c') < _
      omega
    · have fires : (tileClaims args m).step t (.wait c) = some
          { t with phase := update t.phase c (.fetched linearIdx) } := by
        show step args t (.wait c) = _
        simp only [step, here, if_neg inRange]
      refine ⟨_, _, fires, arrived, Nat.add_lt_add_left ?_ _⟩
      show ∑ c', weight args (update t.phase c (.fetched linearIdx) c') < _
      omega
  | fetched linearIdx =>
    by_cases inRange : linearIdx < args.totalWork
    · have fires : (tileClaims args m).step t (.decode c) = some
          { t with
            work := t.work ++ [(linearIdx, args.workTileInfo linearIdx)]
            phase := update t.phase c .fetching } := by
        show step args t (.decode c) = _
        simp only [step, here, if_pos (isValid_iff.2 inRange)]
      refine ⟨_, _, fires, arrived, Nat.add_lt_add_left ?_ _⟩
      have change := count .fetching
      rw [here, weight_fetching, weight_fetched, if_pos inRange] at change
      show ∑ c', weight args (update t.phase c .fetching c') < _
      omega
    · have fires : (tileClaims args m).step t (.decode c) = some
          { t with
            work := t.work ++ [(linearIdx, args.workTileInfo linearIdx)]
            phase := update t.phase c .drained } := by
        show step args t (.decode c) = _
        simp only [step, here, if_neg (mt isValid_iff.1 inRange)]
      refine ⟨_, _, fires, arrived, Nat.add_lt_add_left ?_ _⟩
      have change := count .drained
      rw [here, weight_drained, weight_fetched, if_neg inRange] at change
      show ∑ c', weight args (update t.phase c .drained c') < _
      omega
  | drained => exact absurd here working

/-! ### Every tile once -/

/-- How often a pair of a tile and a column was claimed. -/
def claimsFor (args : SchedulerArguments) (s : TileClaims m) (tile column : ℕ) : ℕ :=
  s.work.countP fun w => For args w.2 tile column

/-- The claims of a pair are counted by their index. -/
theorem claimsFor_eq (inv : Inv args s) {tile column : ℕ} :
    claimsFor args s tile column =
      if tile < args.totalTiles ∧ column < args.numPidN then
        (s.work.map Prod.fst).count (tile * args.numPidN + column)
      else 0 := by
  have pair : ∀ w ∈ s.work, For args w.2 tile column ↔
      (tile < args.totalTiles ∧ column < args.numPidN) ∧
        w.1 = tile * args.numPidN + column := by
    intro w mem
    rw [inv.decoded w mem]
    exact for_iff
  split_ifs with bounds
  · rw [List.count, List.countP_map]
    refine List.countP_congr ?_
    intro w mem
    rw [decide_eq_true_iff, pair w mem, comp_apply, beq_iff_eq]
    exact and_iff_right bounds
  · refine List.countP_eq_zero.2 ?_
    intro w mem claimed
    exact bounds ((pair w mem).1 (decide_eq_true_iff.1 claimed)).1

theorem claimsFor_le_one (inv : Inv args s) (tile column : ℕ) :
    claimsFor args s tile column ≤ 1 := by
  rw [claimsFor_eq inv]
  split_ifs
  · exact List.nodup_iff_count_le_one.1 inv.tickets.nodup _
  · exact Nat.zero_le 1

/-- When a cluster has stopped, the counter is past all work. -/
theorem claimsFor_drained (inv : Inv args s) (workers : 0 < m)
    (ended : ∀ c, s.phase c = .drained) {tile column : ℕ} (ht : tile < args.totalTiles)
    (hc : column < args.numPidN) : claimsFor args s tile column = 1 := by
  have free : ∀ c, (ClaimPhase.held ∘ s.phase) c = none := by
    intro c
    rw [comp_apply, ended c]
    rfl
  have past := inv.drained ⟨0, workers⟩ (ended _)
  have index : tile * args.numPidN + column < args.totalWork := PrefixSum.flat_lt ht hc
  rw [claimsFor_eq inv, if_pos ⟨ht, hc⟩, (inv.tickets.perm_range free).count_eq,
    List.count_eq_one_of_mem List.nodup_range (List.mem_range.2 (index.trans past))]

end TileClaims

open TileClaims in
/-- Whatever the order of the claims, the valid ones decode to the leading column of their
cluster and to the expert that owns their tile, each pair of a pool tile and a cluster column is
claimed at most once, and nothing outside the pool is claimed as valid or looked up in the
arrival arrays.  When all clusters have stopped every pair was claimed once; once the tiles have
arrived the clusters can stop. -/
theorem tiles_claimed_once {args : SchedulerArguments} {m : ℕ} (workers : 0 < m)
    {s : TileClaims m} (reach : (tileClaims args m).Reachable s) :
    (∀ w ∈ s.work, (w.2.isValid = true ↔ w.1 < args.totalWork) ∧
      (w.2.isValid = true → w.1 / args.numPidN < args.totalTiles ∧
        w.1 % args.numPidN < args.numPidN ∧
          Decodes args w.2 (w.1 / args.numPidN) (w.1 % args.numPidN))) ∧
    (∀ r ∈ s.arrivalReads, r.1 < args.totalWork ∧ r.2 = r.1 / args.numPidN ∧
      r.2 < args.totalTiles) ∧
    (∀ tile column, claimsFor args s tile column ≤ 1 ∧
      (claimsFor args s tile column ≠ 0 → tile < args.totalTiles ∧ column < args.numPidN)) ∧
    ((∀ c, s.phase c = .drained) → ∀ tile < args.totalTiles, ∀ column < args.numPidN,
      claimsFor args s tile column = 1) ∧
    ((∀ tile < args.totalTiles, s.arrived tile = true) →
      ∃ s', (tileClaims args m).Leads s s' ∧ ∀ c, s'.phase c = .drained) := by
  have inv := inv_of_reachable reach
  refine ⟨?_, ?_, ?_, ?_, ?_⟩
  · intro w mem
    rw [inv.decoded w mem]
    refine ⟨isValid_iff, fun valid => ?_⟩
    have inRange := isValid_iff.1 valid
    have groups : 0 < args.numPidN := Nat.pos_of_ne_zero fun none => by
      rw [SchedulerArguments.totalWork, none] at inRange
      exact absurd inRange (Nat.not_lt_zero _)
    exact ⟨SchedulerArguments.tile_lt inRange, Nat.mod_lt _ groups, decodes inRange⟩
  · intro r mem
    obtain ⟨inRange, entry⟩ := inv.reads r mem
    exact ⟨inRange, entry, entry ▸ SchedulerArguments.tile_lt inRange⟩
  · intro tile column
    refine ⟨claimsFor_le_one inv tile column, fun claimed => ?_⟩
    by_contra outside
    exact claimed ((claimsFor_eq inv).trans (if_neg outside))
  · intro ended tile ht column hc
    exact claimsFor_drained inv workers ended ht hc
  · intro all
    obtain ⟨s', leads, -, ended⟩ := leads_drained all
    exact ⟨s', leads, ended⟩

/-- Offsets of three experts with one tile, none and one tile. -/
def emptyMiddleOffset (e : ℕ) : ℕ := [0, 1, 1, 2].getD e 2

theorem emptyMiddleOffset_mono :
    ∀ e < 3, emptyMiddleOffset e ≤ emptyMiddleOffset (e + 1) := by decide

theorem emptyMiddle_le : 3 ≤ maxLocalExperts := by decide

theorem emptyMiddle_totalTiles_le : 2 ≤ 0x7FFFFFFF := by decide

/-- Three column tiles for clusters of two. -/
def emptyMiddle : SchedulerArguments where
  numLocalExperts := 3
  expertPoolBlockOffset := emptyMiddleOffset
  totalTiles := 2
  problemTilesN := 3
  clusterN := 2
  numLocalExperts_le := emptyMiddle_le
  offset_zero := rfl
  offset_mono := emptyMiddleOffset_mono
  offset_last := rfl
  totalTiles_le := emptyMiddle_totalTiles_le
  clusterN_pos := Nat.two_pos

open TileClaims in
/-- Two clusters take all four claims and one more each. -/
theorem reachable_emptyMiddle : ∃ s, (tileClaims emptyMiddle 2).Reachable s ∧
    ∀ c, s.phase c = .drained := by
  obtain ⟨s, replay, ended⟩ := (Option.any_eq_true _ _).1 (show
    ((tileClaims emptyMiddle 2).run start [.claim 0, .claim 1, .arrive 0, .wait 1, .arrive 1,
      .wait 0, .decode 0, .claim 0, .wait 0, .decode 1, .claim 1, .wait 1, .decode 1, .claim 1,
      .wait 1, .decode 0, .claim 0, .wait 0, .decode 0, .decode 1]).any (fun s =>
        decide (∀ c, s.phase c = .drained)) = true by decide)
  exact ⟨s, TransitionSystem.Reachable.run .init replay, of_decide_eq_true ended⟩

theorem tiles_claimed_once_emptyMiddle : ∃ s, (tileClaims emptyMiddle 2).Reachable s ∧
    TileClaims.claimsFor emptyMiddle s 1 1 = 1 := by
  obtain ⟨s, reach, ended⟩ := reachable_emptyMiddle
  exact ⟨s, reach, (tiles_claimed_once (by decide) reach).2.2.2.1 ended 1 (by decide) 1 (by decide)⟩

end StreamEP.StreamMoe
