import StreamEP.Intranode.Combine
import StreamEP.StreamMoe.LayerGrads

/-!
# The layer between dispatch and combine

Dispatch and combine differ inside a node and between nodes; what they enclose is the same.
Dispatch hands over memories: the one that a CTA finds when it goes on from its wait for a tile,
and the one that is left when all tiles have arrived (`Handed`, `HandedGrads`).  Combine finds
rows that kernels still add to, each stamped by the time it is sent.

`ForwardRun` and `BackwardRun` are what the kernels of all ranks make of it, every kernel at its
own pace.  What they feed to combine adds up to the output of the layer (`ForwardRun.sum_x`) and
to its gradients (`BackwardRun.sum_x`, `BackwardRun.sum_weight`, `BackwardRun.matrices`).

**What is told.**  `LayerRanks` is what kernel A of all ranks gets; `ForwardRanks` adds the
tiles of kernel Y, and `GradRanks` the gradients, the checkpoint level and the tiles of the
backward kernels. The two extend the same structure side by side, so that the backward pass asks
for nothing that is about kernel Y.

**What runs.**  Runs are built in the same order: kernel A, then kernel Y or the backward
kernels on top of it.  A row that is sent is complete (`io_x`), because the gate lets nothing
through that is not stamped; the rest of the rank's rows may still be added to.

**Runs exist.**  Whatever dispatch hands over, the kernels have a run, forward
(`exists_forwardRun`) and backward at every known level (`exists_backwardRun`).  They are built
stage by stage, so that a topology has to provide a dispatch and nothing else.  Level 2 computes
offsets of 32 bits, and asks for pools that are small enough (`KnownLevel`).
-/

namespace StreamEP.StreamMoe

open Finset PoolPlan Intranode

variable {sh : Shape} {S : Type} [CommSemiring S]

/-- What kernel A of all ranks is told. -/
structure LayerRanks (inputs : ℕ → DispatchInputs sh (ℕ → S) S) where
  layer : MoeLayer S
  tilesA : ATiles
  plan : (r : Fin sh.numRanks) → PoolPlan sh inputs r
  packets : Fin sh.numRanks → ℕ → ℕ → Packet (ℕ → S) S
  carries : ∀ r : Fin sh.numRanks, Carries inputs r (packets r)
  fit : ∀ r, (plan r).Schedulable

namespace LayerRanks

variable {inputs : ℕ → DispatchInputs sh (ℕ → S) S} (x : LayerRanks inputs)

/-- What kernel A tells its scheduler. -/
def argsA (r : Fin sh.numRanks) : SchedulerArguments :=
  (x.plan r).schedulerArguments (x.fit r) (2 * x.layer.inter) x.tilesA.toColumnTiles

/-- What dispatch hands over, while it is under way and when it is done. -/
structure Handed where
  /-- What a CTA of kernel A finds when it goes on from its wait for the tile. -/
  view : Fin sh.numRanks → ℕ → ℕ → PoolMemory (ℕ → S) S
  memory : Fin sh.numRanks → PoolMemory (ℕ → S) S
  waits : ∀ r, ∀ workIdx < (x.argsA r).totalWork, ∀ j, (x.plan r).TileArrived (x.packets r)
    (workIdx / (x.argsA r).numPidN) (view r workIdx j)
  left : ∀ r, LeftBy sh.numTopk ((x.plan r).landedTokens (x.packets r)) (memory r)

variable {x}

/-- Kernel A on every rank. -/
structure KernelARuns (h : x.Handed) where
  stores : Fin sh.numRanks → List (Store.Write fun _ : ℕ × ℕ => S)
  initA : (a : ℕ × ℕ) → S
  all : ∀ r, (stores r).Perm
    ((x.argsA r).allTileStores sh.tileM (x.tilesA.tileN / 2) x.layer.inter
      fun workIdx j row column => x.layer.postact r ((x.argsA r).expertOf workIdx)
        (h.view r workIdx j (.pool row)) row column)

namespace KernelARuns

variable {h : x.Handed} (run : KernelARuns h) (r : Fin sh.numRanks)

/-- The run of kernel A. -/
def kernelA : KernelARun x.layer (x.plan r) (x.packets r) (x.fit r) x.tilesA.toColumnTiles where
  view := h.view r
  stores := run.stores r
  init := run.initA
  waits := h.waits r
  all := run.all r

end KernelARuns

/-- Whatever dispatch hands over, kernel A has a run. -/
theorem exists_kernelARuns (h : x.Handed) : Nonempty (KernelARuns h) :=
  ⟨{ stores := _
     initA := fun _ => 0
     all := fun _ => List.Perm.refl _ }⟩

end LayerRanks

/-! ### The forward pass -/

/-- What the forward kernels are told: kernel Y's part on top of that. -/
structure ForwardRanks (inputs : ℕ → DispatchInputs sh (ℕ → S) S) extends LayerRanks inputs where
  tilesY : YTiles toLayerRanks.layer sh.tileM
  combineSeq : ℤ
  /-- `y_done_per_token` starts at zero. -/
  combineSeq_pos : 0 < combineSeq

namespace ForwardRanks

variable {inputs : ℕ → DispatchInputs sh (ℕ → S) S} {x : ForwardRanks inputs}

/-- The launch of kernel Y. -/
def kernelY (h : x.Handed) (r : Fin sh.numRanks) : ScatterLaunch :=
  scatterLaunch x.layer.hidden_pos r.isLt (x.fit r) (h.left r)
    (countsSlots_remaining r.isLt (h.left r)) x.tilesY.toScatterTiles x.combineSeq

/-- Kernel Y on every rank as combine finds it, on top of a run of kernel A. -/
structure ForwardRun (h : x.Handed) extends LayerRanks.KernelARuns h where
  /-- Kernel Y when combine sends the row of a recv token. -/
  sent : (r : Fin sh.numRanks) → ℕ → (kernelY h r).KernelState
  sent_reach : ∀ r id, (kernelY h r).kernelSystem.Reachable (sent r id)
  /-- The sender waits for `y_done_per_token[id] >= combine_seq`. -/
  gate : ∀ r (id : Fin (kernelY h r).tRecv), x.combineSeq ≤ (sent r id).yDonePerToken id

namespace ForwardRun

variable {h : x.Handed} (run : ForwardRun h)

/-- What kernel Y adds. -/
def valueY (r : Fin sh.numRanks) : ℕ → ℕ → S :=
  kernelYValue x.layer (x.plan r) (x.fit r) x.tilesY.toColumnTiles (h.memory r)
    (run.kernelA r).postactA

/-- What the ranks feed to combine. -/
def io : CombineInputs (ℕ → S) S where
  x r id n :=
    if hr : r < sh.numRanks then (run.sent ⟨r, hr⟩ id).oRow (run.valueY ⟨r, hr⟩) id n else 0
  perSlotWeights r slot :=
    if hr : r < sh.numRanks then h.memory ⟨r, hr⟩ (.poolTopkWeight slot) else 0
  recvTokenToSlots r idx :=
    if hr : r < sh.numRanks then h.memory ⟨r, hr⟩ (.recvTokenToSlots idx) else -1

variable {g t : ℕ} (hg : g < sh.numRanks) (ht : t < (inputs g).numTokens)

include hg ht

/-- A row that is sent is complete. -/
theorem io_x {n r : ℕ} (hn : n < x.layer.hidden) (hr : r < sh.numRanks)
    (goes : (inputs g).InRank r t) :
    run.io.x r (recvTokenId inputs r g t) n =
      x.layer.part inputs run.io.recvTokenToSlots r g t n := by
  have chosen := mem_selected_channelOf ht goes
  have stamped := stamped_of_gate x.combineSeq_pos
    (run.gate ⟨r, hr⟩ ⟨recvTokenId inputs r g t, recvTokenId_lt hg chosen⟩)
  have row := oRow_eq_part hr (x.carries ⟨r, hr⟩) (h.left ⟨r, hr⟩) (run.kernelA ⟨r, hr⟩) x.tilesY
    (run.sent_reach ⟨r, hr⟩ (recvTokenId inputs r g t)) hg (channelOf_lt ht) chosen stamped hn
  simp only [io, dif_pos hr]
  refine row.trans ?_
  unfold MoeLayer.part
  simp only [dif_pos hr]

/-- **What is fed to combine for a token adds up to the output of the layer.** -/
theorem sum_x {n : ℕ} (hn : n < x.layer.hidden) :
    ∑ r ∈ (range sh.numRanks).filter fun r => (inputs g).InRank r t,
        run.io.x r (recvTokenId inputs r g t) n =
      x.layer.moe inputs run.io.recvTokenToSlots g t n := by
  rw [MoeLayer.moe, sum_filter]
  refine sum_congr rfl fun r hr => ?_
  have hr := mem_range.1 hr
  by_cases goes : (inputs g).InRank r t
  · rw [if_pos goes]
    exact run.io_x hg ht hn hr goes
  · -- a rank that the token does not go to has no part in it
    rw [if_neg goes]
    refine (sum_eq_zero fun e he => sum_eq_zero fun k mem => absurd ?_ goes).symm
    obtain ⟨hk, routed⟩ := mem_filter.1 mem
    exact (inputs g).inRank_of_routedTo ht (mem_range.1 hk) hr (mem_range.1 he) routed

end ForwardRun

/-- Whatever dispatch hands over, the kernels have a run. -/
theorem exists_forwardRun (h : x.Handed) : Nonempty (ForwardRun h) := by
  obtain ⟨run⟩ := LayerRanks.exists_kernelARuns h
  have scattered := fun r : Fin sh.numRanks => ScatterLaunch.exists_finished (kernelY h r)
  choose y reach finished using scattered
  exact ⟨{ run with
    sent := fun r _ => y r
    sent_reach := fun r _ => reach r
    gate := fun r => gate_of_finished (reach r) (finished r) }⟩

end ForwardRanks

/-! ### The backward pass -/

/-- What the backward kernels are told on top of what kernel A was. -/
structure GradRanks (inputs : ℕ → DispatchInputs sh (ℕ → S) S) extends LayerRanks inputs where
  grad : ActGrad layer
  dLdy : ℕ → ℕ → ℕ → S
  /-- `activation_checkpoint_level`. -/
  level : ℕ
  tilesYBwd : YBwdTiles layer.inter
  tilesABwd : ScatterTiles sh.tileM layer.hidden
  dispatchSeq : ℤ
  aBwd_whole : tilesABwd.clusterN ∣ layer.hidden / tilesABwd.tileN
  /-- `bwd_a_done_per_token` starts at zero. -/
  dispatchSeq_pos : 0 < dispatchSeq

namespace GradRanks

variable {inputs : ℕ → DispatchInputs sh (ℕ → S) S} (x : GradRanks inputs)

/-- What kernel Y bwd tells its scheduler. -/
def argsYBwd (r : Fin sh.numRanks) : SchedulerArguments := x.tilesYBwd.args (x.fit r)

/-- What dispatch of gradients hands over. -/
structure HandedGrads where
  /-- What a CTA of kernel Y bwd finds when it goes on from its wait for the tile. -/
  view : Fin sh.numRanks → ℕ → ℕ → ℕ → ℕ → S
  memory : Fin sh.numRanks → ℕ → ℕ → S
  waits : ∀ r, ∀ workIdx < (x.argsYBwd r).totalWork, ∀ j,
    (x.plan r).GradArrived x.dLdy (workIdx / (x.argsYBwd r).numPidN) (view r workIdx j)
  arrived : ∀ r tile, tile < (x.plan r).totalTiles →
    (x.plan r).GradArrived x.dLdy tile (memory r)

variable {x}

/-- Kernel Y bwd on every rank, on top of what dispatch and a forward run left. -/
structure KernelYBwdRuns (h : x.Handed) (dy : x.HandedGrads) where
  /-- The pool and the pre-activations, kept or recomputed. -/
  pool : Fin sh.numRanks → ℕ → ℕ → S
  preactA : Fin sh.numRanks → ℕ → ℕ → S
  storesXY : Fin sh.numRanks → List (Store.Write fun _ : ℕ × ℕ => S × S)
  storesPostact : Fin sh.numRanks → List (Store.Write fun _ : ℕ × ℕ => S)
  addsWeight : Fin sh.numRanks → List (ℕ × S)
  initXY : (a : ℕ × ℕ) → S × S
  initPostact : (a : ℕ × ℕ) → S
  restored : ∀ r, Restored x.layer (x.plan r) (x.packets r) (h.memory r) (x.fit r)
    x.tilesA.toColumnTiles x.level (pool r) (preactA r)
  allXY : ∀ r, (storesXY r).Perm ((x.argsYBwd r).allTileStores sh.tileM x.tilesYBwd.tileN
    x.layer.inter fun workIdx j row column =>
      (visit x.grad (x.plan r) (x.fit r) x.tilesYBwd (h.memory r) (preactA r)
        (dy.view r workIdx j) workIdx row column).dXY)
  allPostact : ∀ r, (storesPostact r).Perm ((x.argsYBwd r).allTileStores sh.tileM
    x.tilesYBwd.tileN x.layer.inter fun workIdx j row column =>
      (visit x.grad (x.plan r) (x.fit r) x.tilesYBwd (h.memory r) (preactA r)
        (dy.view r workIdx j) workIdx row column).postact)
  allWeight : ∀ r, (addsWeight r).Perm ((x.argsYBwd r).allRowSums sh.tileM x.tilesYBwd.tileN
    fun workIdx j row column =>
      (visit x.grad (x.plan r) (x.fit r) x.tilesYBwd (h.memory r) (preactA r)
        (dy.view r workIdx j) workIdx row column).term)

namespace KernelYBwdRuns

variable {h : x.Handed} {dy : x.HandedGrads} (run : KernelYBwdRuns h dy) (r : Fin sh.numRanks)

/-- The run of kernel Y bwd. -/
def kernelYBwd : KernelYBwdRun x.grad (x.plan r) x.dLdy (h.memory r) (run.preactA r) (x.fit r)
    x.tilesYBwd where
  view := dy.view r
  storesXY := run.storesXY r
  storesPostact := run.storesPostact r
  addsWeight := run.addsWeight r
  initXY := run.initXY
  initPostact := run.initPostact
  waits := dy.waits r
  allXY := run.allXY r
  allPostact := run.allPostact r
  allWeight := run.allWeight r

/-- The launch of kernel A bwd. -/
def kernelABwd (_ : KernelYBwdRuns h dy) (r : Fin sh.numRanks) : ScatterLaunch :=
  scatterLaunch x.layer.hidden_pos r.isLt (x.fit r) (h.left r)
    (countsSlots_total r.isLt (h.left r)) x.tilesABwd x.dispatchSeq

/-- What kernel A bwd adds. -/
def valueABwd : ℕ → ℕ → S :=
  kernelABwdValue x.layer (x.plan r) (x.fit r) x.tilesABwd.toColumnTiles
    (run.kernelYBwd r).dLdswigluIn

theorem saved : SavedRows x.layer (x.plan r) (run.pool r) (run.preactA r) :=
  (run.restored r).savedRows r.isLt (x.carries r) (h.left r)

end KernelYBwdRuns

/-- Kernel A bwd on every rank as combine of gradients finds it, and the weight products. -/
structure BackwardRun (h : x.Handed) (dy : x.HandedGrads) extends KernelYBwdRuns h dy where
  /-- Kernel A bwd when combine sends the gradient of a recv token. -/
  sent : (r : Fin sh.numRanks) → ℕ → (toKernelYBwdRuns.kernelABwd r).KernelState
  dW1Local : Fin sh.numRanks → ℕ → ℕ → ℕ → S
  dW2Local : Fin sh.numRanks → ℕ → ℕ → ℕ → S
  sent_reach : ∀ r id, (toKernelYBwdRuns.kernelABwd r).kernelSystem.Reachable (sent r id)
  /-- The sender waits for `bwd_a_done_per_token[id] >= dispatch_seq`. -/
  gate : ∀ r (id : Fin (toKernelYBwdRuns.kernelABwd r).tRecv),
    x.dispatchSeq ≤ (sent r id).yDonePerToken id
  gemms : ∀ r, WeightGemms x.layer (x.plan r)
    (toKernelYBwdRuns.kernelYBwd r).dLdswigluIn (toKernelYBwdRuns.kernelYBwd r).postactAForDW2
    (dy.memory r) (toKernelYBwdRuns.pool r) (dW1Local r) (dW2Local r)

namespace BackwardRun

variable {h : x.Handed} {dy : x.HandedGrads} (run : BackwardRun h dy)

/-- What the ranks feed to combine of gradients. -/
def io : CombineInputs (ℕ → S) S where
  x r id n :=
    if hr : r < sh.numRanks then (run.sent ⟨r, hr⟩ id).oRow (run.valueABwd ⟨r, hr⟩) id n else 0
  perSlotWeights r slot :=
    if hr : r < sh.numRanks then (run.kernelYBwd ⟨r, hr⟩).dLdweight slot else 0
  recvTokenToSlots r idx :=
    if hr : r < sh.numRanks then h.memory ⟨r, hr⟩ (.recvTokenToSlots idx) else -1

theorem io_slots {r : ℕ} (hr : r < sh.numRanks) (idx : ℕ) :
    run.io.recvTokenToSlots r idx = h.memory ⟨r, hr⟩ (.recvTokenToSlots idx) := dif_pos hr

section Token

variable {g t : ℕ} (hg : g < sh.numRanks) (ht : t < (inputs g).numTokens)

include hg ht

/-- The gradient of a row that is sent is complete. -/
theorem io_x {n r : ℕ} (hn : n < x.layer.hidden) (hr : r < sh.numRanks)
    (goes : (inputs g).InRank r t) :
    run.io.x r (recvTokenId inputs r g t) n =
      x.grad.dxPart inputs run.io.recvTokenToSlots x.dLdy r g t n := by
  have chosen := mem_selected_channelOf ht goes
  have stamped := stamped_of_gate x.dispatchSeq_pos
    (run.gate ⟨r, hr⟩ ⟨recvTokenId inputs r g t, recvTokenId_lt hg chosen⟩)
  have row := oRow_eq_dxPart (run.kernelYBwd ⟨r, hr⟩) hr (h.left ⟨r, hr⟩) (x.carries ⟨r, hr⟩)
    (run.saved ⟨r, hr⟩) x.aBwd_whole (run.sent_reach ⟨r, hr⟩ (recvTokenId inputs r g t)) hg
    (channelOf_lt ht) chosen stamped hn
  simp only [io, dif_pos hr]
  refine row.trans ?_
  unfold ActGrad.dxPart MoeLayer.slotOf
  simp only [dif_pos hr]

/-- **The gradients fed to combine for a token add up to that of its row**, -/
theorem sum_x {n : ℕ} (hn : n < x.layer.hidden) :
    ∑ r ∈ (range sh.numRanks).filter fun r => (inputs g).InRank r t,
        run.io.x r (recvTokenId inputs r g t) n =
      x.grad.dx inputs run.io.recvTokenToSlots x.dLdy g t n := by
  rw [ActGrad.dx, sum_filter]
  refine sum_congr rfl fun r hr => ?_
  have hr := mem_range.1 hr
  by_cases goes : (inputs g).InRank r t
  · rw [if_pos goes]
    exact run.io_x hg ht hn hr goes
  · rw [if_neg goes]
    refine (sum_eq_zero fun e he => sum_eq_zero fun k mem => absurd ?_ goes).symm
    obtain ⟨hk, routed⟩ := mem_filter.1 mem
    exact (inputs g).inRank_of_routedTo ht (mem_range.1 hk) hr (mem_range.1 he) routed

/-- The weight of a choice comes from the rank of its expert. -/
theorem packet_weight {k r : ℕ} (hk : k < sh.numTopk) (hr : r < sh.numRanks)
    (goes : (inputs g).InRank r t) :
    (combinePacket sh run.io r (recvTokenId inputs r g t)).2 k =
      ∑ e ∈ range sh.numExpertsPerRank,
        if (inputs g).RoutedTo r e (t * sh.numTopk + k) then
          x.layer.dWeight r e ((inputs g).x t) (x.dLdy g t)
            (MoeLayer.slotOf inputs run.io.recvTokenToSlots r g t k) else 0 := by
  have chosen := mem_selected_channelOf ht goes
  have channel := channelOf_lt ht
  rw [sum_choice]
  simp only [combinePacket, MoeLayer.slotOf, run.io_slots hr]
  by_cases here : (inputs g).LocalAt r t k
  · obtain ⟨s, pair⟩ := exists_pairAt (x.plan ⟨r, hr⟩) hg channel chosen hk here
    rw [if_pos here, pair.inverse (h.left ⟨r, hr⟩), if_pos (Int.natCast_nonneg s),
      Int.toNat_natCast]
    refine (dif_pos hr).trans ?_
    exact dLdweight_pair (run.kernelYBwd ⟨r, hr⟩) hr (h.left ⟨r, hr⟩) (x.carries ⟨r, hr⟩)
      (run.saved ⟨r, hr⟩) pair
  · have slot : (h.memory ⟨r, hr⟩ (.recvTokenToSlots
        (recvTokenId inputs r g t * sh.numTopk + k)) : ℤ) =
          (x.plan ⟨r, hr⟩).pairSlot (channelOf (inputs g) t) g (t * sh.numTopk + k) :=
      inverseMap_of_left (h.left ⟨r, hr⟩) g hg _ channel t chosen k hk
    rw [if_neg here, slot]
    exact if_neg (mt (pairSlot_nonneg_iff (x.plan ⟨r, hr⟩) channel hg chosen hk).1 here)

/-- **and to those of its weights.** -/
theorem sum_weight {k : ℕ} (hk : k < sh.numTopk) :
    ∑ r ∈ (range sh.numRanks).filter fun r => (inputs g).InRank r t,
        (combinePacket sh run.io r (recvTokenId inputs r g t)).2 k =
      x.layer.dTopkWeight inputs run.io.recvTokenToSlots x.dLdy g t k := by
  rw [MoeLayer.dTopkWeight, sum_filter]
  refine sum_congr rfl fun r hr => ?_
  have hr := mem_range.1 hr
  by_cases goes : (inputs g).InRank r t
  · rw [if_pos goes]
    exact run.packet_weight hg ht hk hr goes
  · rw [if_neg goes]
    exact (sum_eq_zero fun e he => if_neg fun routed => goes
      ((inputs g).inRank_of_routedTo ht hk hr (mem_range.1 he) routed)).symm

end Token

/-- **Every rank ends with the gradients of its matrices.** -/
theorem matrices (r : Fin sh.numRanks) {e : ℕ} (he : e < sh.numExpertsPerRank) :
    (∀ j < 2 * x.layer.inter, ∀ n < x.layer.hidden, run.dW1Local r e j n =
      x.grad.dW1 inputs run.io.recvTokenToSlots x.dLdy r e j n) ∧
    ∀ n < x.layer.hidden, ∀ i < x.layer.inter, run.dW2Local r e n i =
      x.layer.dW2 inputs run.io.recvTokenToSlots x.dLdy r e n i := by
  have rows : ∀ src c t k s, (x.plan r).PairAt src c t k s → dy.memory r s = x.dLdy src t := by
    intro src c t k s pair
    have htile : s / sh.tileM < (x.plan r).totalTiles :=
      (Nat.div_lt_iff_lt_mul sh.tileM_pos).2 (pair.real r.isLt).lt
    exact dy.arrived r _ htile src c t k s pair rfl
  exact weightGemms_eq (run.kernelYBwd r) r.isLt (h.left r) (x.carries r) (run.saved r) rows
    (run.gemms r) (run.io_slots r.isLt) he

end BackwardRun

/-- A level that the layer knows, on pools whose offsets level 2 can compute. -/
structure KnownLevel (x : GradRanks inputs) : Prop where
  known : x.level ≤ 2
  small : x.level = 2 → ∀ r, (x.plan r).totalTiles * sh.tileM * x.layer.hidden < int32Max

omit [CommSemiring S] in
/-- The levels that keep the pool compute no offsets. -/
theorem KnownLevel.of_kept (kept : x.level < 2) : x.KnownLevel where
  known := kept.le
  small two := absurd two kept.ne

/-- Whatever is handed over, the kernels have a run at every level. -/
theorem exists_backwardRun {h : x.Handed} (dy : x.HandedGrads)
    (forward : LayerRanks.KernelARuns h) (level : x.KnownLevel) :
    Nonempty (BackwardRun h dy) := by
  have saved := fun r : Fin sh.numRanks => exists_restored (m := h.memory r)
    (forward.kernelA r) level.known fun two => level.small two r
  choose pool preactA restored using saved
  let run : KernelYBwdRuns h dy :=
    { pool := pool
      preactA := preactA
      storesXY := _
      storesPostact := _
      addsWeight := _
      initXY := fun _ => (0, 0)
      initPostact := fun _ => 0
      restored := restored
      allXY := fun _ => List.Perm.refl _
      allPostact := fun _ => List.Perm.refl _
      allWeight := fun _ => List.Perm.refl _ }
  have scattered := fun r : Fin sh.numRanks => ScatterLaunch.exists_finished (run.kernelABwd r)
  choose a reach finished using scattered
  have products := fun r : Fin sh.numRanks => exists_weightGemms x.layer (x.plan r)
    (run.kernelYBwd r).dLdswigluIn (run.kernelYBwd r).postactAForDW2 (dy.memory r) (run.pool r)
  choose dW1 dW2 gemms using products
  exact ⟨{ run with
    sent := fun r _ => a r
    dW1Local := dW1
    dW2Local := dW2
    sent_reach := fun r _ => reach r
    gate := fun r => gate_of_finished (reach r) (finished r)
    gemms := gemms }⟩

end GradRanks

end StreamEP.StreamMoe
