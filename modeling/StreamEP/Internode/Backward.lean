import StreamEP.Internode.Forward
import StreamEP.Intranode.Backward

/-!
# The backward pass between nodes

Gradients take the way of the activations, and their receivers fire tiles as eagerly.  The kernels
are those inside a node, at any checkpoint level, and combine of gradients goes over the two
levels of rings.

**Setups and runs.**  `BackwardSetup` is what the ranks bring: the layer and its derivative, tile
shapes, the gradients of the outputs, and deliveries of both passes.  `GradsRun` is a dispatch of
gradients on top of a forward dispatch as the kernels find it: for every CTA of kernel Y bwd a
reachable state of the receivers in which its tile is full, so every CTA may have looked at a
moment of its own.  `BackwardRun` has the kernels on top.

**What is reused.**  The warps fire the same ranges as those of the forward pass, because the
experts of a token are looked up in what that left; their shares and totals are therefore the
forward ones (`gradShare_eq`, `gradTotal_eq`), and readiness of gradients follows from the same
library (`gradArrived`).  The kernels come from `GradRanks`, which both topologies instantiate.

`returns_grads` says that whatever is returned for a token is the gradient of its row and of its
weights, and that every rank ends with the gradients of its matrices.  It is about one combine
whose counters begin at what its receivers took as their baseline: no credit of an earlier
combine is still under way.

The example is the token of `Forward`, with pre-activations that are computed again.
-/

namespace StreamEP.Internode

open Finset StreamMoe PoolPlan

variable {sh : NodeShape}

namespace NodeWorld

/-! ### The arrival of gradients -/

section Arrived

variable {Row Weight Grad : Type} (w : NodeWorld sh Row Weight) (g : ℕ)
  (m : PoolMemory Row Weight) (slots : ℕ) (batches : GradDeliveries Grad)

/-- The rounds of warp `c * num_nvl_peers + n` of gradients. -/
def gradRounds (i : Fin (sh.numChannels * sh.numNvlPeers)) :
    List (FencedRounds.Round (fun _ : ℕ => Grad) ℕ) :=
  let c := i / sh.numNvlPeers
  let n := i % sh.numNvlPeers
  w.rounds g c n (fun x => x.landed.stores sh.numTopk m) GradTaken.fired
    (w.gradsTaken g c n m slots (batches c n))

/-- The receivers of gradients of rank `g`; `dL_do_pool` is not initialised. -/
def gradArrivalSystem (init : ℕ → Grad) :
    TransitionSystem
      (FencedRounds.State (Fin (sh.numChannels * sh.numNvlPeers)) (fun _ : ℕ => Grad) ℕ)
      (FencedRounds.Event (Fin (sh.numChannels * sh.numNvlPeers))) :=
  FencedRounds.system (w.gradRounds g m slots batches) init

variable {w g m slots batches} {dLdy : ℕ → ℕ → Grad}

/-- A token's gradient lands under the token's id. -/
theorem gradTakenAt_landed {c n s t : ℕ} (dLdy : ℕ → ℕ → Grad) (hg : g < sh.numRanks)
    (hc : c < sh.numChannels) (hs : s < sh.numRdmaRanks) (hn : n < sh.numNvlPeers)
    (ht : t ∈ selected (w.inputs (srcWorld sh s n)) g c) :
    (w.gradTakenAt g c n dLdy s (ringPos (w.inputs (srcWorld sh s n)) g c t)).landed =
      ⟨recvTokenId w.inputs g (srcWorld sh s n) t, dLdy (srcWorld sh s n) t⟩ := by
  have source : (w.localAt g c n s (ringPos (w.inputs (srcWorld sh s n)) g c t)).srcIdx = t := by
    rw [localAt, List.getD_eq_getElem?_getD, getElem?_selected ht]
    rfl
  simp only [gradTakenAt, totalOffset_add_ringPos hg hc hs hn ht, source]

/-- The stores of the warps are those of all gradients. -/
theorem mem_gradRounds {v : Store.Write fun _ : ℕ => Grad} :
    (∃ i, v ∈ FencedRounds.storesOf (w.gradRounds g m slots batches) i) ↔
      v ∈ w.allGradStores g m slots batches := by
  simp only [FencedRounds.storesOf, gradRounds, rounds, allGradStores, List.mem_flatMap,
    List.mem_map, List.mem_range]
  constructor
  · rintro ⟨i, -, ⟨x, mem, rfl⟩, store⟩
    obtain ⟨channel, peer⟩ := warp_lt i
    exact ⟨_, peer, _, channel, x, mem, store⟩
  · rintro ⟨n, hn, c, hc, x, mem, store⟩
    refine ⟨⟨c * sh.numNvlPeers + n, PrefixSum.flat_lt hc hn⟩, _, ⟨x, ?_, rfl⟩, store⟩
    rw [PrefixSum.flat_div hn, PrefixSum.flat_mod hn]
    exact mem

variable (hg : g < sh.numRanks) (maps : (w.plan hg).InverseMap m)
  (delivers : w.DeliversAllGrads g slots dLdy batches)

include maps delivers

/-- A warp's share in a tile is that of the forward pass, -/
theorem gradShare_eq (i : Fin (sh.numChannels * sh.numNvlPeers)) (tile : ℕ) :
    FencedRounds.share (w.gradRounds g m slots batches) tile i =
      ∑ s ∈ range sh.numRdmaRanks, (w.plan hg).share tile
        (i / sh.numNvlPeers * sh.numRanks + srcWorld sh s (i % sh.numNvlPeers)) := by
  obtain ⟨channel, peer⟩ := warp_lt i
  exact added_rounds (fun x : GradTaken Grad => x.landed.stores sh.numTopk m) GradTaken.fired hg
    channel peer (gradsTaken_interleaves hg channel peer maps (delivers _ channel _ peer))
    (fun _ _ => rfl) tile

/-- and so is the total. -/
theorem gradTotal_eq {tile : ℕ} (htile : tile < (w.plan hg).totalTiles) :
    FencedRounds.total (w.gradRounds g m slots batches) tile =
      (w.plan hg).arrivalTarget tile := by
  rw [FencedRounds.total, ← sum_warps hg htile]
  exact sum_congr rfl fun i _ => gradShare_eq hg maps delivers i tile

/-- No two stores of gradients disagree. -/
theorem gradRounds_agree : FencedRounds.Agree (w.gradRounds g m slots batches) := by
  have all : ∀ i, ∀ v ∈ FencedRounds.storesOf (w.gradRounds g m slots batches) i,
      v ∈ StreamEP.allGradStores sh.toShape m (gradsOf w.inputs g dLdy) := by
    intro i v mem
    have landed := (allGradStores_perm hg maps delivers).mem_iff.1 (mem_gradRounds.1 ⟨i, mem⟩)
    obtain ⟨src, hsrc, rest⟩ := List.mem_flatMap.1 landed
    obtain ⟨c, hc, store⟩ := List.mem_flatMap.1 rest
    -- a landed gradient is stored at the slots of its token, as inside a node
    rw [landedGrads_eq hg maps delivers (List.mem_range.1 hc) (List.mem_range.1 hsrc)] at store
    exact List.mem_flatMap.2 ⟨src, hsrc, List.mem_flatMap.2 ⟨c, hc, store⟩⟩
  intro i i' v mem v' mem' same
  exact List.inj_on_of_nodup_map (nodup_allGradStores maps) (all i' v' mem') (all i v mem) same

/-- **At its target, the gradients of a tile have arrived.** -/
theorem gradArrived {init : ℕ → Grad}
    {st : FencedRounds.State (Fin (sh.numChannels * sh.numNvlPeers)) (fun _ : ℕ => Grad) ℕ}
    (reach : (w.gradArrivalSystem g m slots batches init).Reachable st) {tile : ℕ}
    (full : st.count tile = (w.plan hg).arrivalTarget tile) :
    (w.plan hg).GradArrived dLdy tile st.memory := by
  intro src c t k s pair inTile
  subst inTile
  have htile : s / sh.tileM < (w.plan hg).totalTiles :=
    (Nat.div_lt_iff_lt_mul sh.tileM_pos).2 (pair.real hg).lt
  have hs := NodeShape.rdmaRank_lt pair.source
  have hn : sh.nvlRank src < sh.numNvlPeers := NodeShape.nvlRank_lt src
  have self : srcWorld sh (sh.rdmaRank src) (sh.nvlRank src) = src := NodeShape.rank_eq src
  rw [← gradTotal_eq hg maps delivers htile] at full
  have mixed := gradsTaken_interleaves hg pair.channel hn maps (delivers c pair.channel _ hn)
  have pair' : (w.plan hg).PairAt (srcWorld sh (sh.rdmaRank src) (sh.nvlRank src)) c t k s :=
    self.symm ▸ pair
  -- the gradient's stores are performed before its expert is fired
  obtain ⟨pre, r, post, split, shared, r', before, stores⟩ :=
    exists_voucher (fun x : GradTaken Grad => x.landed.stores sh.numTopk m) GradTaken.fired hg
      pair.channel hn mixed (fun _ _ => rfl) hs pair'
  have landed := gradTakenAt_landed dLdy hg pair.channel hs hn pair'.token
  have mine : w.gradRounds g m slots batches
      ⟨c * sh.numNvlPeers + sh.nvlRank src, PrefixSum.flat_lt pair.channel hn⟩ =
        pre ++ r :: post := by
    rw [← split, gradRounds, PrefixSum.flat_div hn, PrefixSum.flat_mod hn]
  refine FencedRounds.memory_of_count_eq reach (gradRounds_agree hg maps delivers) full mine shared
    before (w := ⟨s, dLdy src t⟩) ?_
  rw [stores, landed, self]
  exact (mem_stores maps pair.source pair.channel pair.token).2 ⟨⟨k, pair.choice, pair.slot⟩, rfl⟩

end Arrived

/-! ### Runs of the backward pass -/

variable {S : Type} [CommSemiring S]

/-- What every rank brings to the backward pass. -/
structure BackwardSetup (w : NodeWorld sh (ℕ → S) S) extends DispatchSetup w where
  grad : ActGrad toDispatchSetup.layer
  dLdy : ℕ → ℕ → ℕ → S
  /-- The slots of the rings. -/
  slots : ℕ
  gradBatches : ℕ → GradDeliveries (ℕ → S)
  /-- `activation_checkpoint_level`. -/
  level : ℕ
  tilesYBwd : YBwdTiles toDispatchSetup.layer.inter
  tilesABwd : ScatterTiles sh.tileM toDispatchSetup.layer.hidden
  dispatchSeq : ℤ
  deliversGrads : ∀ r : Fin sh.numRanks, w.DeliversAllGrads r slots dLdy (gradBatches r)
  aBwd_whole : tilesABwd.clusterN ∣ toDispatchSetup.layer.hidden / tilesABwd.tileN
  /-- `bwd_a_done_per_token` starts at zero. -/
  dispatchSeq_pos : 0 < dispatchSeq

namespace BackwardSetup

variable {w : NodeWorld sh (ℕ → S) S} (x : BackwardSetup w)

/-- What the backward kernels are told. -/
def gradRanks : GradRanks w.inputs where
  toLayerRanks := x.ranks
  grad := x.grad
  dLdy := x.dLdy
  level := x.level
  tilesYBwd := x.tilesYBwd
  tilesABwd := x.tilesABwd
  dispatchSeq := x.dispatchSeq
  aBwd_whole := x.aBwd_whole
  dispatchSeq_pos := x.dispatchSeq_pos

/-- A state of the receivers of gradients of a rank. -/
abbrev GradReceivers (_ : BackwardSetup w) : Type :=
  FencedRounds.State (Fin (sh.numChannels * sh.numNvlPeers)) (fun _ : ℕ => ℕ → S) ℕ

/-- The receivers of gradients, on top of what the forward pass left. -/
abbrev gradSystem (run : x.toDispatchSetup.DispatchRun) (r : Fin sh.numRanks) (init : ℕ → ℕ → S) :
    TransitionSystem x.GradReceivers
      (FencedRounds.Event (Fin (sh.numChannels * sh.numNvlPeers))) :=
  w.gradArrivalSystem r (run.handed.memory r) x.slots (x.gradBatches r) init

/-- Dispatch of gradients on every rank, as the kernels find it, on top of a forward dispatch. -/
structure GradsRun extends x.toDispatchSetup.DispatchRun where
  initGrads : Fin sh.numRanks → ℕ → ℕ → S
  /-- The receivers when a CTA of kernel Y bwd goes on from its wait for the tile. -/
  seenGrads : Fin sh.numRanks → ℕ → ℕ → x.GradReceivers
  /-- The receivers when kernel Y bwd is through with its tiles. -/
  arrivedGrads : Fin sh.numRanks → x.GradReceivers
  seenGrads_reach : ∀ (r : Fin sh.numRanks) workIdx j,
    (x.gradSystem toDispatchRun r (initGrads r)).Reachable (seenGrads r workIdx j)
  seenGrads_full : ∀ (r : Fin sh.numRanks) workIdx j,
    workIdx < (x.gradRanks.argsYBwd r).totalWork →
      (seenGrads r workIdx j).count (workIdx / (x.gradRanks.argsYBwd r).numPidN) =
        (w.plan r.isLt).arrivalTarget (workIdx / (x.gradRanks.argsYBwd r).numPidN)
  arrivedGrads_reach : ∀ r : Fin sh.numRanks,
    (x.gradSystem toDispatchRun r (initGrads r)).Reachable (arrivedGrads r)
  arrivedGrads_full : ∀ r : Fin sh.numRanks, ∀ tile < (w.plan r.isLt).totalTiles,
    (arrivedGrads r).count tile = (w.plan r.isLt).arrivalTarget tile

omit [CommSemiring S] in
/-- A CTA of kernel Y bwd waits until it can read the gradients of its tile, -/
theorem GradsRun.seen_gradArrived {x : BackwardSetup w} (run : x.GradsRun) (r : Fin sh.numRanks)
    (workIdx : ℕ) (h : workIdx < (x.gradRanks.argsYBwd r).totalWork) (j : ℕ) :
    (x.gradRanks.plan r).GradArrived x.dLdy (workIdx / (x.gradRanks.argsYBwd r).numPidN)
      (run.seenGrads r workIdx j).memory :=
  gradArrived r.isLt (inverseMap_of_left (run.handed.left r)) (x.deliversGrads r)
    (run.seenGrads_reach r workIdx j) (run.seenGrads_full r workIdx j h)

omit [CommSemiring S] in
/-- and after all of them every gradient is there. -/
theorem GradsRun.arrived_gradArrived {x : BackwardSetup w} (run : x.GradsRun)
    (r : Fin sh.numRanks) (tile : ℕ) (htile : tile < (x.gradRanks.plan r).totalTiles) :
    (x.gradRanks.plan r).GradArrived x.dLdy tile (run.arrivedGrads r).memory :=
  gradArrived r.isLt (inverseMap_of_left (run.handed.left r)) (x.deliversGrads r)
    (run.arrivedGrads_reach r) (run.arrivedGrads_full r tile htile)

/-- What it hands over. -/
def GradsRun.handedGrads {x : BackwardSetup w} (run : x.GradsRun) : x.gradRanks.HandedGrads where
  view r workIdx j := (run.seenGrads r workIdx j).memory
  memory r := (run.arrivedGrads r).memory
  waits := run.seen_gradArrived
  arrived := run.arrived_gradArrived

/-- The kernels of every rank, on top of such a dispatch. -/
structure BackwardRun extends x.GradsRun where
  kernels : GradRanks.BackwardRun (x := x.gradRanks) toGradsRun.handed toGradsRun.handedGrads

end BackwardSetup

/-! ### What combine of gradients returns -/

section Combine

variable {w : NodeWorld sh (ℕ → S) S} {g c : ℕ} {cfg : Config}
  {heads : Fin sh.numRdmaRanks → NvlHeads} {uninit : ℕ → ℤ}

/-- What combine of gradients returns at rank `g` for channel `c`, compared with the formulas. -/
structure ReturnsGrads (x : BackwardSetup w) (slots : ℕ → ℕ → ℤ) (g c : ℕ) (cfg : Config)
    (heads : Fin sh.numRdmaRanks → NvlHeads) (uninit : ℕ → ℤ)
    (s : CreditedRings.State (Fin sh.numRdmaRanks) (Fin numMaxNvlPeers)
      (Fin (numWarpsPerForwarder sh.numRdmaRanks)) (Fin (numRdmaReceivers sh.numRdmaRanks))
      ((ℕ → S) × (ℕ → S))) : Prop where
  row : ∀ t v, tokenStartIdx (w.inputs g) c ≤ t → t < tokenEndIdx (w.inputs g) c →
    s.rings.second.out t = some v →
      ∀ h < x.layer.hidden, v.1 h = x.grad.dx w.inputs slots x.dLdy g t h
  weight : ∀ t v, tokenStartIdx (w.inputs g) c ≤ t → t < tokenEndIdx (w.inputs g) c →
    s.rings.second.out t = some v →
      ∀ k < sh.numTopk, v.2 k = x.layer.dTopkWeight w.inputs slots x.dLdy g t k
  /-- When the receivers are through, every ring has been emptied and every token returned. -/
  complete : s.rings.second.Completed (w.rdmaPlan g c cfg heads uninit) →
    w.CombineDone g c cfg heads uninit s

/-- **The backward pass between nodes computes the gradients of the layer**, whatever the pace of
its kernels and the checkpoint level: those of the rows and of the weights are returned to the
rank of the token, those of the matrices stay at the rank of the expert. -/
theorem returns_grads {x : BackwardSetup w} (run : x.BackwardRun) (hg : g < sh.numRanks)
    (hc : c < sh.numChannels) (peers : sh.numNvlPeers = numMaxNvlPeers)
    (launch : CombineLaunch sh.numRdmaRanks cfg)
    (left : ∀ d : Fin sh.numRdmaRanks, w.HeadsLeft (sameGpuIdx sh g d) (heads d))
    {nvlSlots : Fin sh.numRdmaRanks → Fin numMaxNvlPeers → ℕ → (ℕ → S) × (ℕ → S)}
    {rdmaSlots : Fin sh.numRdmaRanks → ℕ → (ℕ → S) × (ℕ → S)}
    {s : CreditedRings.State (Fin sh.numRdmaRanks) (Fin numMaxNvlPeers)
      (Fin (numWarpsPerForwarder sh.numRdmaRanks)) (Fin (numRdmaReceivers sh.numRdmaRanks))
      ((ℕ → S) × (ℕ → S))}
    (reach : (w.combineSystemWithCredit g c cfg heads uninit run.kernels.io nvlSlots
      rdmaSlots).Reachable s) :
    w.ReturnsGrads x run.kernels.io.recvTokenToSlots g c cfg heads uninit s ∧
      ∀ r : Fin sh.numRanks, ∀ e < sh.numExpertsPerRank,
        (∀ j < 2 * x.layer.inter, ∀ h < x.layer.hidden, run.kernels.dW1Local r e j h =
          x.grad.dW1 w.inputs run.kernels.io.recvTokenToSlots x.dLdy r e j h) ∧
        ∀ n < x.layer.hidden, ∀ i < x.layer.inter, run.kernels.dW2Local r e n i =
          x.layer.dW2 w.inputs run.kernels.io.recvTokenToSlots x.dLdy r e n i := by
  have inv := CreditedRings.reachable_inv (combine_sound hg hc left peers launch) reach
  refine ⟨⟨fun t v lo hi got h hh => ?_, fun t v lo hi got k hk => ?_,
    combineDone_of_completed hg hc left peers launch inv⟩, fun r e he => run.kernels.matrices r he⟩
  · rw [out_eq_sum hg hc peers launch left reach lo hi got, Prod.fst_sum, Finset.sum_apply]
    exact run.kernels.sum_x hg (hi.trans_le (channelEnd_le _ _ _)) hh
  · rw [out_eq_sum hg hc peers launch left reach lo hi got, Prod.snd_sum, Finset.sum_apply]
    exact run.kernels.sum_weight hg (hi.trans_le (channelEnd_le _ _ _)) hk

end Combine

/-- Every setup has a run, at every level. -/
theorem exists_backwardRun {w : NodeWorld sh (ℕ → S) S} (x : BackwardSetup w)
    (level : x.gradRanks.KnownLevel) : Nonempty x.BackwardRun := by
  obtain ⟨dispatch⟩ := exists_dispatchRun x.toDispatchSetup
  obtain ⟨forward⟩ := LayerRanks.exists_kernelARuns dispatch.handed
  have dispatched := fun r : Fin sh.numRanks => FencedRounds.exists_finished
    (w.gradRounds r (dispatch.handed.memory r) x.slots (x.gradBatches r)) fun _ _ => 0
  choose st reach finished using dispatched
  have full : ∀ r : Fin sh.numRanks, ∀ tile < (w.plan r.isLt).totalTiles,
      (st r).count tile = (w.plan r.isLt).arrivalTarget tile := by
    intro r tile htile
    rw [← gradTotal_eq r.isLt (inverseMap_of_left (dispatch.handed.left r)) (x.deliversGrads r)
      htile]
    exact FencedRounds.count_eq_total (reach r) (finished r) tile
  let grads : x.GradsRun :=
    { dispatch with
      initGrads := fun _ _ _ => 0
      seenGrads := fun r _ _ => st r
      arrivedGrads := st
      seenGrads_reach := fun r _ _ => reach r
      seenGrads_full := fun r _ _ h => full r _ (SchedulerArguments.tile_lt h)
      arrivedGrads_reach := reach
      arrivedGrads_full := full }
  obtain ⟨kernels⟩ := GradRanks.exists_backwardRun (x := x.gradRanks) grads.handedGrads
    forward level
  exact ⟨⟨grads, kernels⟩⟩

/-! ### The gradients of one token -/

/-- What the ranks bring to the backward pass for the token. -/
def sixteenBackward : BackwardSetup sixteenLayerWorld where
  toDispatchSetup := sixteenSetup.toDispatchSetup
  grad := Intranode.World.exampleGrad
  dLdy src t n := 100 * src + 10 * t + n
  slots := 2
  gradBatches r c n := sixteenLayerWorld.inTurnGrads r c n fun src t n => 100 * src + 10 * t + n
  level := 1
  tilesYBwd :=
    { tileN := 2
      clusterN := 1
      tileN_pos := Nat.two_pos
      clusterN_pos := Nat.one_pos
      tileN_dvd := ⟨2, rfl⟩
      whole := Nat.one_dvd _ }
  tilesABwd := sixteenTiles
  dispatchSeq := 1
  deliversGrads _ _ _ _ _ := ⟨_, Lanes.interleaves_inTurn _ _, Batches.delivers_oneByOne _ _⟩
  aBwd_whole := Nat.dvd_refl _
  dispatchSeq_pos := Int.one_pos

theorem sixteenBackward_level : sixteenBackward.gradRanks.KnownLevel :=
  .of_kept Nat.one_lt_two

/-- The layer for the token, its gradients combined to their end. -/
theorem sixteenLayerWorld_grads :
    ∃ (run : sixteenBackward.BackwardRun) (heads : Fin 2 → NvlHeads) (s : _),
      (sixteenLayerWorld.combineSystemWithCredit 0 0 twoChunkConfig heads (fun _ => 7)
        run.kernels.io (fun _ _ _ => 0) fun _ _ => 0).Reachable s ∧
      sixteenLayerWorld.CombineDone 0 0 twoChunkConfig heads (fun _ => 7) s ∧
        sixteenLayerWorld.ReturnsGrads sixteenBackward run.kernels.io.recvTokenToSlots 0 0
          twoChunkConfig heads (fun _ => 7) s := by
  obtain ⟨run⟩ := exists_backwardRun sixteenBackward sixteenBackward_level
  obtain ⟨heads, s, left, reach, done⟩ := sixteen_combineDone run.kernels.io
  exact ⟨run, heads, s, reach, done,
    (returns_grads run (by decide) (by decide) rfl twoChunkConfig_launch left reach).1⟩

end NodeWorld

end StreamEP.Internode
