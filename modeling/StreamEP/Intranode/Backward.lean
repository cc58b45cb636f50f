import StreamEP.Intranode.DispatchGrads
import StreamEP.Intranode.Forward

/-!
# The backward pass inside a node

Dispatch of gradients, kernel Y bwd, kernel A bwd and combine of gradients overlap as the kernels
of the forward pass do, and the two weight products follow on the stream of the kernels.
`BackwardRun` is such a run on top of a forward run, at any checkpoint level.

**The arrival of gradients.**  The receivers of gradients are programs as those of the forward
pass, but what they fire is not counted again: they take the counts of the metadata kernel
(`gradProgram`).  The shares come out the same (`gradShare_eq`), so a tile has its gradients
when it is at its target (`gradArrived`).

**Setups and runs.**  `BackwardSetup` extends what the ranks bring to dispatch by the gradients
and by what the backward kernels are told; kernel Y of the forward pass has no part in it.  A
`GradsRun` has the receivers of both directions, each seen at the moments at which a kernel goes
on from its wait, and a `BackwardRun` the kernels on top of them.

`backward_returns_grads` says that whatever is returned for a token is the gradient of its row
and of its weights by the formulas of `ActGrad`, and that every rank ends with the gradients of
its matrices.

Every setup at a known level has a run (`exists_backwardRun`); the example is at level 2, where
the pool is expanded again from the rows of the tokens, and is combined to its end.
-/

namespace StreamEP.Intranode

open Finset StreamMoe PoolPlan

variable {sh : Shape}

namespace World

/-! ### The arrival of gradients -/

section Arrived

variable {Row Weight Grad : Type} (w : World sh Row Weight) (g : ℕ)
  (m : PoolMemory Row Weight) (slots : ℕ) (batches : ℕ → ℕ → List (Batches.Batch Grad))

/-- The program of receiver `cs = c * num_ranks + src` of gradients: the rows, then Pass 2 with
the counts of the metadata kernel. -/
def gradProgram (cs : Fin (csTotal sh)) : Publication.Work (fun _ : ℕ => Grad) ℕ :=
  let c := cs / sh.numRanks
  let src := cs % sh.numRanks
  { stores := (w.landedGrads g slots batches c src).flatMap (LandedGrad.stores sh.numTopk m)
    adds := pass2 sh (w.basePoolSubstream g c src) fun e =>
      seenPerSubstream (w.eIn g) ((c * sh.numRanks + src) * sh.numExpertsPerRank + e) }

/-- The receivers of gradients of rank `g`; `dL_do_pool` is not initialised. -/
def gradArrivalSystem (init : ℕ → Grad) :
    TransitionSystem (Publication.State (Fin (csTotal sh)) (fun _ : ℕ => Grad) ℕ)
      (Publication.Event (Fin (csTotal sh))) :=
  Publication.system (w.gradProgram g m slots batches) init

variable {w g m slots batches}

/-- The counts of the metadata kernel give every receiver its share of the forward pass. -/
theorem gradShare_eq (cs : Fin (csTotal sh)) (tile : ℕ) :
    Publication.share (w.gradProgram g m slots batches) tile cs = (w.plan g).share tile cs := by
  rw [Publication.share, gradProgram, added_pass2, PoolPlan.share]
  refine sum_congr rfl fun e he => ?_
  rw [Nat.div_add_mod', seenPerSubstream, eIn,
    eInbox_eq_substreamPairs _ _ _ cs.isLt (mem_range.1 he), basePoolSubstream, Nat.div_add_mod']
  rfl

theorem gradTotal_eq {tile : ℕ} (htile : tile < totalTiles sh (w.eIn g)) :
    Publication.total (w.gradProgram g m slots batches) tile = w.arrivalTarget g tile := by
  have sum : ∑ cs ∈ range (csTotal sh), (w.plan g).share tile cs = w.arrivalTarget g tile :=
    PoolPlan.sum_share htile
  rw [← sum, Publication.total]
  simp only [gradShare_eq]
  exact Fin.sum_univ_eq_sum_range _ _

variable (hg : g < sh.numRanks) {dLdy : ℕ → ℕ → Grad}
  (delivers : w.DeliversGrads g slots dLdy batches) (maps : (w.plan g).InverseMap m)

include hg delivers

/-- A receiver stores what the plan says. -/
theorem gradProgram_stores (cs : Fin (csTotal sh)) :
    (w.gradProgram g m slots batches cs).stores =
      (gradsOf w.inputs g dLdy (cs / sh.numRanks) (cs % sh.numRanks)).flatMap
        (LandedGrad.stores sh.numTopk m) := by
  have channel : cs / sh.numRanks < sh.numChannels :=
    (Nat.div_lt_iff_lt_mul sh.numRanks_pos).2 cs.isLt
  have source : (cs : ℕ) % sh.numRanks < sh.numRanks := Nat.mod_lt _ sh.numRanks_pos
  exact congrArg (List.flatMap (LandedGrad.stores sh.numTopk m)) (landedGrads_eq hg source
    (delivers _ channel _ source))

include maps

/-- No two stores of gradients disagree. -/
theorem gradProgram_agree (cs cs' : Fin (csTotal sh)) :
    ∀ st ∈ (w.gradProgram g m slots batches cs).stores,
      ∀ st' ∈ (w.gradProgram g m slots batches cs').stores, st'.1 = st.1 → st' = st := by
  have all : ∀ (cs : Fin (csTotal sh)), ∀ st ∈ (w.gradProgram g m slots batches cs).stores,
      st ∈ allGradStores sh m (gradsOf w.inputs g dLdy) := by
    intro cs st hst
    rw [gradProgram_stores hg delivers] at hst
    refine List.mem_flatMap.2 ⟨cs % sh.numRanks, ?_, List.mem_flatMap.2
      ⟨cs / sh.numRanks, ?_, hst⟩⟩
    · exact List.mem_range.2 (Nat.mod_lt _ sh.numRanks_pos)
    · exact List.mem_range.2 ((Nat.div_lt_iff_lt_mul sh.numRanks_pos).2 cs.isLt)
  intro st hst st' hst' same
  exact List.inj_on_of_nodup_map (nodup_allGradStores maps) (all cs' st' hst') (all cs st hst) same

/-- **At its target, the gradients of a tile have arrived.** -/
theorem gradArrived {init : ℕ → Grad}
    {st : Publication.State (Fin (csTotal sh)) (fun _ : ℕ => Grad) ℕ}
    (reach : (w.gradArrivalSystem g m slots batches init).Reachable st) {tile : ℕ}
    (full : st.count tile = w.arrivalTarget g tile) :
    (w.plan g).GradArrived dLdy tile st.memory := by
  intro src c t k s pair inTile
  subst inTile
  have htile : s / sh.tileM < totalTiles sh (w.eIn g) :=
    (Nat.div_lt_iff_lt_mul sh.tileM_pos).2 (pair.real hg).lt
  rw [← gradTotal_eq htile] at full
  have shared : 0 < Publication.share (w.gradProgram g m slots batches) (s / sh.tileM)
      ⟨c * sh.numRanks + src, PrefixSum.flat_lt pair.channel pair.source⟩ := by
    rw [gradShare_eq]
    exact pair.share_pos
  have stored := Publication.stored_of_count_eq reach full shared
  refine Publication.memory_of_stored reach (gradProgram_agree hg delivers maps) stored
    (w := ⟨s, dLdy src t⟩) ?_
  rw [gradProgram_stores hg delivers, PrefixSum.flat_div pair.source,
    PrefixSum.flat_mod pair.source]
  refine List.mem_flatMap.2 ⟨_, List.mem_map.2 ⟨t, pair.token, rfl⟩, ?_⟩
  exact (mem_stores maps pair.source pair.channel pair.token).2 ⟨⟨k, pair.choice, pair.slot⟩, rfl⟩

end Arrived

/-! ### Runs of the backward pass -/

variable {S : Type} [CommSemiring S]

/-- What every rank brings to the backward pass. -/
structure BackwardSetup (w : World sh (ℕ → S) S) extends DispatchSetup w where
  grad : ActGrad toDispatchSetup.layer
  dLdy : ℕ → ℕ → ℕ → S
  /-- The slots of the rings. -/
  slots : ℕ
  gradBatches : ℕ → ℕ → ℕ → List (Batches.Batch (ℕ → S))
  /-- `activation_checkpoint_level`. -/
  level : ℕ
  tilesYBwd : YBwdTiles toDispatchSetup.layer.inter
  tilesABwd : ScatterTiles sh.tileM toDispatchSetup.layer.hidden
  dispatchSeq : ℤ
  deliversGrads : ∀ r : Fin sh.numRanks, w.DeliversGrads r slots dLdy (gradBatches r)
  aBwd_whole : tilesABwd.clusterN ∣ toDispatchSetup.layer.hidden / tilesABwd.tileN
  /-- `bwd_a_done_per_token` starts at zero. -/
  dispatchSeq_pos : 0 < dispatchSeq

namespace BackwardSetup

variable {w : World sh (ℕ → S) S} (x : BackwardSetup w)

/-- What the backward kernels are told. -/
def gradRanks : GradRanks w.inputs where
  toLayerRanks := x.ranks
  grad := x.grad
  dLdy := x.dLdy
  level := x.level
  tilesYBwd := x.tilesYBwd
  tilesABwd := x.tilesABwd
  dispatchSeq := x.dispatchSeq
  aBwd_whole := x.aBwd_whole
  dispatchSeq_pos := x.dispatchSeq_pos

/-- A state of the receivers of gradients of a rank. -/
abbrev GradReceivers (_ : BackwardSetup w) : Type :=
  Publication.State (Fin (csTotal sh)) (fun _ : ℕ => ℕ → S) ℕ

/-- The receivers of gradients, on top of what the forward pass left. -/
abbrev gradSystem (run : x.toDispatchSetup.DispatchRun) (r : Fin sh.numRanks) (init : ℕ → ℕ → S) :
    TransitionSystem x.GradReceivers (Publication.Event (Fin (csTotal sh))) :=
  w.gradArrivalSystem r (run.handed.memory r) x.slots (x.gradBatches r) init

/-- Dispatch of gradients on every rank, as the kernels find it, on top of a forward dispatch. -/
structure GradsRun extends x.toDispatchSetup.DispatchRun where
  initGrads : Fin sh.numRanks → ℕ → ℕ → S
  /-- The receivers when a CTA of kernel Y bwd goes on from its wait for the tile. -/
  seenGrads : Fin sh.numRanks → ℕ → ℕ → x.GradReceivers
  /-- The receivers when kernel Y bwd is through with its tiles. -/
  arrivedGrads : Fin sh.numRanks → x.GradReceivers
  seenGrads_reach : ∀ (r : Fin sh.numRanks) workIdx j,
    (x.gradSystem toDispatchRun r (initGrads r)).Reachable (seenGrads r workIdx j)
  seenGrads_full : ∀ (r : Fin sh.numRanks) workIdx j, workIdx < (x.gradRanks.argsYBwd r).totalWork →
    (seenGrads r workIdx j).count (workIdx / (x.gradRanks.argsYBwd r).numPidN) =
      w.arrivalTarget r (workIdx / (x.gradRanks.argsYBwd r).numPidN)
  arrivedGrads_reach : ∀ r : Fin sh.numRanks,
    (x.gradSystem toDispatchRun r (initGrads r)).Reachable (arrivedGrads r)
  arrivedGrads_full : ∀ r : Fin sh.numRanks, ∀ tile < totalTiles sh (w.eIn r),
    (arrivedGrads r).count tile = w.arrivalTarget r tile

/-- What it hands over. -/
def GradsRun.handedGrads {x : BackwardSetup w} (run : x.GradsRun) : x.gradRanks.HandedGrads where
  view r workIdx j := (run.seenGrads r workIdx j).memory
  memory r := (run.arrivedGrads r).memory
  waits r workIdx h j := gradArrived r.isLt (x.deliversGrads r)
    (inverseMap_of_left (run.handed.left r)) (run.seenGrads_reach r workIdx j)
    (run.seenGrads_full r workIdx j h)
  arrived r tile htile := gradArrived r.isLt (x.deliversGrads r)
    (inverseMap_of_left (run.handed.left r)) (run.arrivedGrads_reach r)
    (run.arrivedGrads_full r tile htile)

/-- The kernels of every rank, on top of such a dispatch. -/
structure BackwardRun extends x.GradsRun where
  kernels : GradRanks.BackwardRun (x := x.gradRanks) toGradsRun.handed toGradsRun.handedGrads

end BackwardSetup

/-- What combine of gradients returns at rank `g` for channel `c`, compared with the formulas. -/
structure ReturnsGrads {w : World sh (ℕ → S) S} (x : BackwardSetup w) (slots : ℕ → ℕ → ℤ)
    (g c : ℕ) (cfg : Config) (uninitHead : ℕ → ℤ)
    (s : ReplayRings.State (Fin sh.numRanks) (Fin numReduceWarps) ((ℕ → S) × (ℕ → S))) :
    Prop where
  row : ∀ t v, channelStart (w.inputs g).numTokens sh.numChannels c ≤ t →
    t < channelEnd (w.inputs g).numTokens sh.numChannels c → s.out t = some v →
      ∀ h < x.layer.hidden, v.1 h = x.grad.dx w.inputs slots x.dLdy g t h
  weight : ∀ t v, channelStart (w.inputs g).numTokens sh.numChannels c ≤ t →
    t < channelEnd (w.inputs g).numTokens sh.numChannels c → s.out t = some v →
      ∀ k < sh.numTopk, v.2 k = x.layer.dTopkWeight w.inputs slots x.dLdy g t k
  complete : w.CombineDone g c cfg uninitHead s →
    ∀ t, channelStart (w.inputs g).numTokens sh.numChannels c ≤ t →
      t < channelEnd (w.inputs g).numTokens sh.numChannels c → ∃ v, s.out t = some v

/-- **The backward pass computes the gradients of the layer**, whatever the pace of its kernels
and the checkpoint level: those of the rows and of the weights are returned to the rank of the
token, those of the matrices stay at the rank of the expert. -/
theorem backward_returns_grads {w : World sh (ℕ → S) S} {x : BackwardSetup w}
    (run : x.BackwardRun) {g c : ℕ} (hg : g < sh.numRanks) (hc : c < sh.numChannels)
    {cfg : Config} {uninitHead : ℕ → ℤ}
    {ringSlots : Fin sh.numRanks → ℕ → (ℕ → S) × (ℕ → S)}
    {s : ReplayRings.State (Fin sh.numRanks) (Fin numReduceWarps) ((ℕ → S) × (ℕ → S))}
    (reach : (w.combineSystem g c cfg uninitHead run.kernels.io ringSlots).Reachable s) :
    w.ReturnsGrads x run.kernels.io.recvTokenToSlots g c cfg uninitHead s ∧
      ∀ r : Fin sh.numRanks, ∀ e < sh.numExpertsPerRank,
        (∀ j < 2 * x.layer.inter, ∀ h < x.layer.hidden, run.kernels.dW1Local r e j h =
          x.grad.dW1 w.inputs run.kernels.io.recvTokenToSlots x.dLdy r e j h) ∧
        ∀ n < x.layer.hidden, ∀ i < x.layer.inter, run.kernels.dW2Local r e n i =
          x.layer.dW2 w.inputs run.kernels.io.recvTokenToSlots x.dLdy r e n i := by
  refine ⟨⟨fun t v lo hi got h hh => ?_, fun t v lo hi got k hk => ?_, fun done t lo hi => ?_⟩,
    fun r e he => run.kernels.matrices r he⟩
  · rw [out_eq_sum hg hc reach lo hi got, Prod.fst_sum, Finset.sum_apply]
    exact run.kernels.sum_x hg (hi.trans_le (channelEnd_le _ _ _)) hh
  · rw [out_eq_sum hg hc reach lo hi got, Prod.snd_sum, Finset.sum_apply]
    exact run.kernels.sum_weight hg (hi.trans_le (channelEnd_le _ _ _)) hk
  · exact Option.isSome_iff_exists.1 (done.combined t lo hi)

/-- Every setup has a run, at every level. -/
theorem exists_backwardRun {w : World sh (ℕ → S) S} (x : BackwardSetup w)
    (level : x.gradRanks.KnownLevel) : Nonempty x.BackwardRun := by
  obtain ⟨dispatch⟩ := exists_dispatchRun x.toDispatchSetup
  obtain ⟨forward⟩ := LayerRanks.exists_kernelARuns dispatch.handed
  have dispatched := fun r : Fin sh.numRanks => Publication.exists_finished
    (w.gradProgram r (dispatch.handed.memory r) x.slots (x.gradBatches r)) fun _ _ => 0
  choose st reach finished using dispatched
  have full : ∀ r : Fin sh.numRanks, ∀ tile < totalTiles sh (w.eIn r),
      (st r).count tile = w.arrivalTarget r tile := by
    intro r tile htile
    rw [← gradTotal_eq htile]
    exact Publication.count_eq_total (reach r) (finished r) tile
  let grads : x.GradsRun :=
    { dispatch with
      initGrads := fun _ _ _ => 0
      seenGrads := fun r _ _ => st r
      arrivedGrads := st
      seenGrads_reach := fun r _ _ => reach r
      seenGrads_full := fun r _ _ h => full r _ (SchedulerArguments.tile_lt h)
      arrivedGrads_reach := reach
      arrivedGrads_full := full }
  obtain ⟨kernels⟩ := GradRanks.exists_backwardRun (x := x.gradRanks) grads.handedGrads
    forward level
  exact ⟨⟨grads, kernels⟩⟩

/-! ### An example -/

/-- The example layer with the derivative of gates times ups. -/
def exampleGrad : ActGrad exampleLayer where
  dactFn gate up dout := (dout * up, dout * gate, gate * up)
  dactFn_postact _ _ _ := rfl

/-- What the two ranks of the example bring to the backward pass. -/
def exampleBackward : BackwardSetup exampleLayerWorld where
  toDispatchSetup := exampleSetup.toDispatchSetup
  grad := exampleGrad
  dLdy src t n := 100 * src + 10 * t + n
  slots := 2
  gradBatches r c src := Batches.oneByOne
    (gradSubstream (exampleLayerWorld.inputs src) r (fun t n => 100 * src + 10 * t + n) c)
  level := 2
  tilesYBwd :=
    { tileN := 2
      clusterN := 1
      tileN_pos := Nat.two_pos
      clusterN_pos := Nat.one_pos
      tileN_dvd := Dvd.intro 2 rfl
      whole := one_dvd _ }
  tilesABwd := exampleTiles
  dispatchSeq := 1
  deliversGrads _ _ _ _ _ := Batches.delivers_oneByOne _ _
  aBwd_whole := dvd_rfl
  dispatchSeq_pos := Int.one_pos

theorem exampleBackward_level : exampleBackward.gradRanks.KnownLevel where
  known := le_rfl
  small _ := by decide +kernel

/-- The example layer, its gradients combined to their end. -/
theorem exampleLayerWorld_backward :
    ∃ (run : exampleBackward.BackwardRun) (s : _), (exampleLayerWorld.combineSystem 0 0
        exampleConfig (fun _ => 0) run.kernels.io fun _ _ => 0).Reachable s ∧
      exampleLayerWorld.CombineDone 0 0 exampleConfig (fun _ => 0) s ∧
        exampleLayerWorld.ReturnsGrads exampleBackward run.kernels.io.recvTokenToSlots 0 0
          exampleConfig (fun _ => 0) s := by
  obtain ⟨run⟩ := exists_backwardRun exampleBackward exampleBackward_level
  obtain ⟨s, reach, done⟩ : ∃ s, (exampleLayerWorld.combineSystem 0 0 exampleConfig (fun _ => 0)
      run.kernels.io fun _ _ => 0).Reachable s ∧
        exampleLayerWorld.CombineDone 0 0 exampleConfig (fun _ => 0) s :=
    exists_combineRun (by decide) (by decide) (by decide) (Or.inl (by decide)) _ _ _
  exact ⟨run, s, reach, done, (backward_returns_grads run (by decide) (by decide) reach).1⟩

end World

end StreamEP.Intranode
