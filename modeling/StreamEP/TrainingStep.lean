import StreamEP.Internode.Backward
import StreamEP.StreamMoe.Derivative

/-!
# A training step

After a forward and a backward pass every rank holds gradients: those of its tokens and of their
weights, which combine has returned to it, and those of its matrices, which the weight products
have left.  Over the reals, with kernels that are given the derivative of the activation, they are
the derivatives of the layer's outputs, paired with the gradients that the ranks put in.

This is so after every run of the two passes, inside a node (`Intranode.World.backward_hasDerivAt`)
and between nodes (`Internode.NodeWorld.backwardBetween_hasDerivAt`).

**A direction for everything at once.**  `Direction` moves all rows, all weights of choices and
all matrices of all ranks, and `loss` is the sum of the outputs paired with the gradients that
were put in.  `heldPairing` pairs what the ranks hold with the direction.  One derivative along
every direction says more than one partial derivative after the other, and it needs no basis.

**What is composed.**  The backward theorems of the two topologies say that what has been
returned and left are certain sums over pairs; `loss_hasDerivAt` says that those sums are the
derivative.  Nothing is left to prove about kernels or rings here.

**What has to have happened.**  `AllCombined` is that every rank has combined all its channels:
for each channel a reachable state of the combine in which it is done.  Between nodes the heads
have to be those that a dispatch left, and each channel is one combine whose counters start at
what the receivers took as their baseline.

Slots, masks and tokens that no expert takes part in do not occur in the statement: dropout masks
are part of the layer, evaluated at the slots that dispatch assigned.  The examples are a step of
two ranks in one node, and one of sixteen ranks for a single token.
-/

namespace StreamEP

open Finset StreamMoe PoolPlan

/-! ### What the ranks hold -/

namespace StreamMoe

variable {sh : Shape} {inputs : ℕ → DispatchInputs sh (ℕ → ℝ) ℝ}

/-- What the ranks hold after a backward pass, paired with a direction. -/
def heldPairing (x : GradRanks inputs) (d : Direction) (returned : ℕ → ℕ → (ℕ → ℝ) × (ℕ → ℝ))
    (dW1Local dW2Local : Fin sh.numRanks → ℕ → ℕ → ℕ → ℝ) : ℝ :=
  ∑ g ∈ range sh.numRanks, ∑ t ∈ range (inputs g).numTokens,
      (∑ h ∈ range x.layer.hidden, (returned g t).1 h * d.x g t h +
        ∑ k ∈ range sh.numTopk, (returned g t).2 k * d.topkWeights g (t * sh.numTopk + k)) +
    ∑ r : Fin sh.numRanks, ∑ e ∈ range sh.numExpertsPerRank,
      (∑ j ∈ range (2 * x.layer.inter), ∑ h ∈ range x.layer.hidden,
          dW1Local r e j h * d.w1 r e j h +
        ∑ n ∈ range x.layer.hidden, ∑ i ∈ range x.layer.inter, dW2Local r e n i * d.w2 r e n i)

variable {x : GradRanks inputs} {h : x.Handed} {dy : x.HandedGrads}

/-- **What the kernels leave are derivatives**, once the rows that were sent have been added up. -/
theorem GradRanks.BackwardRun.hasDerivAt_loss (run : GradRanks.BackwardRun h dy)
    (isDeriv : x.grad.IsDeriv) (d : Direction) {returned : ℕ → ℕ → (ℕ → ℝ) × (ℕ → ℝ)}
    (returns : ∀ g < sh.numRanks, ∀ t < (inputs g).numTokens, returned g t =
      ∑ r ∈ (range sh.numRanks).filter fun r => (inputs g).InRank r t,
        Intranode.combinePacket sh run.io r (recvTokenId inputs r g t)) :
    HasDerivAt (fun a => loss (x.layer.along d a) (inputsAlong inputs d a)
        run.io.recvTokenToSlots x.dLdy)
      (heldPairing x d returned run.dW1Local run.dW2Local) 0 := by
  have collected := (hasDerivAt_sumExperts x.layer inputs run.io.recvTokenToSlots x.dLdy d x.grad
    isDeriv).congr_deriv (sumExperts_pairPairing _ _ _ _ _ _)
  refine collected.congr_deriv ?_
  unfold pairing heldPairing
  congr 1
  · -- what combine sends to the rank of the token
    refine sum_congr rfl fun g hg => sum_congr rfl fun t ht => ?_
    have hg := mem_range.1 hg
    have ht := mem_range.1 ht
    rw [returns g hg t ht]
    congr 1
    · refine sum_congr rfl fun n hn => ?_
      rw [Prod.fst_sum, Finset.sum_apply, ← run.sum_x hg ht (mem_range.1 hn)]
      rfl
    · refine sum_congr rfl fun k hk => ?_
      rw [Prod.snd_sum, Finset.sum_apply, ← run.sum_weight hg ht (mem_range.1 hk)]
  · -- what stays at the rank of the expert
    rw [sum_range]
    refine sum_congr rfl fun r _ => sum_congr rfl fun e he => ?_
    obtain ⟨w1, w2⟩ := run.matrices r (mem_range.1 he)
    congr 1
    · refine sum_congr rfl fun j hj => sum_congr rfl fun n hn => ?_
      rw [w1 j (mem_range.1 hj) n (mem_range.1 hn)]
    · refine sum_congr rfl fun n hn => sum_congr rfl fun i hi => ?_
      rw [w2 n (mem_range.1 hn) i (mem_range.1 hi)]

end StreamMoe

/-! ### Inside a node -/

namespace Intranode.World

variable {sh : Shape}

section Combined

variable {Row Weight X W : Type} [Zero Weight] [AddCommMonoid X] [AddCommMonoid W]

/-- Every rank has combined all its channels. -/
structure AllCombined (w : World sh Row Weight) (cfg : Config) (uninitHead : ℕ → ℕ → ℤ)
    (io : CombineInputs X W) (ringSlots : ℕ → ℕ → Fin sh.numRanks → ℕ → X × (ℕ → W))
    (s : ℕ → ℕ → ReplayRings.State (Fin sh.numRanks) (Fin numReduceWarps) (X × (ℕ → W))) :
    Prop where
  reach : ∀ g < sh.numRanks, ∀ c < sh.numChannels,
    (w.combineSystem g c cfg (uninitHead g) io (ringSlots g c)).Reachable (s g c)
  done : ∀ g < sh.numRanks, ∀ c < sh.numChannels, w.CombineDone g c cfg (uninitHead g) (s g c)

/-- Every rank can, with room in its rings. -/
theorem exists_allCombined (w : World sh Row Weight) (cfg : Config) (uninitHead : ℕ → ℕ → ℤ)
    (io : CombineInputs X W) (ringSlots : ℕ → ℕ → Fin sh.numRanks → ℕ → X × (ℕ → W))
    (few : ∀ g < sh.numRanks, (w.inputs g).numTokens ≤ kReverseScanSentinel)
    (room : RoomToCombine cfg) : ∃ s, w.AllCombined cfg uninitHead io ringSlots s := by
  have combined : ∀ g c, ∃ s, g < sh.numRanks → c < sh.numChannels →
      (w.combineSystem g c cfg (uninitHead g) io (ringSlots g c)).Reachable s ∧
        w.CombineDone g c cfg (uninitHead g) s := by
    intro g c
    obtain ⟨start, begins⟩ : ∃ s,
      (w.combineSystem g c cfg (uninitHead g) io (ringSlots g c)).Reachable s := ⟨_, .init⟩
    by_cases inside : g < sh.numRanks ∧ c < sh.numChannels
    · obtain ⟨s, reached⟩ := exists_combineRun inside.1 inside.2 (few g inside.1) room
        (uninitHead g) io (ringSlots g c)
      exact ⟨s, fun _ _ => reached⟩
    · -- nobody looks at the other channels
      exact ⟨start, fun hg hc => absurd ⟨hg, hc⟩ inside⟩
  choose s reached using combined
  exact ⟨s, fun g hg c hc => (reached g c hg hc).1, fun g hg c hc => (reached g c hg hc).2⟩

end Combined

/-- **A training step inside a node**: when everything has been combined, what the ranks hold is
the derivative of the layer's outputs. -/
theorem backward_hasDerivAt {w : World sh (ℕ → ℝ) ℝ} {x : BackwardSetup w} (run : x.BackwardRun)
    (isDeriv : x.grad.IsDeriv) (d : Direction) {cfg : Config} {uninitHead : ℕ → ℕ → ℤ}
    {ringSlots : ℕ → ℕ → Fin sh.numRanks → ℕ → (ℕ → ℝ) × (ℕ → ℝ)}
    {s : ℕ → ℕ →
      ReplayRings.State (Fin sh.numRanks) (Fin numReduceWarps) ((ℕ → ℝ) × (ℕ → ℝ))}
    (all : w.AllCombined cfg uninitHead run.kernels.io ringSlots s) :
    HasDerivAt (fun a => loss (x.layer.along d a) (inputsAlong w.inputs d a)
        run.kernels.io.recvTokenToSlots x.dLdy)
      (heldPairing x.gradRanks d
        (fun g t => ((s g (channelOf (w.inputs g) t)).out t).getD 0)
        run.kernels.dW1Local run.kernels.dW2Local) 0 := by
  refine run.kernels.hasDerivAt_loss isDeriv d fun g hg t ht => ?_
  -- the token has been returned with its channel
  have hc : channelOf (w.inputs g) t < sh.numChannels := channelOf_lt ht
  obtain ⟨lo, hi⟩ := (div_eq_channel_iff sh.numChannels_pos ht).1 rfl
  obtain ⟨v, got⟩ := Option.isSome_iff_exists.1 ((all.done g hg _ hc).combined t lo hi)
  simp only [got, Option.getD_some]
  exact out_eq_sum hg hc (all.reach g hg _ hc) lo hi got

/-- The example dispatch, with rows and weights of real numbers. -/
noncomputable def realLayerWorld : World exampleShape (ℕ → ℝ) ℝ where
  inputs := exampleRealInputs
  numRecvBufferTokens := exampleWorld.numRecvBufferTokens
  staleE := exampleWorld.staleE
  staleU := exampleWorld.staleU
  uninitSeen := exampleWorld.uninitSeen
  uninitSlot := exampleWorld.uninitSlot

/-- `exampleSwiglu`, as large as the tiles. -/
noncomputable def sixteenSwiglu : MoeLayer ℝ :=
  { exampleSwiglu with
    hidden := 16
    inter := 4
    hidden_pos := exampleHidden_pos }

theorem realLayerWorld_schedulable (r : Fin exampleShape.numRanks) :
    (realLayerWorld.plan r).Schedulable where
  experts := by decide
  tiles := by
    have few : ∀ r : Fin exampleShape.numRanks,
        expertPoolBlockOffset exampleShape (realLayerWorld.eIn r) 2 ≤ 4 := by decide
    exact (few r).trans (by decide)

theorem exampleShape_cleared : exampleShape.numExpertsPerRank ≤ numThreadsPerRank exampleShape :=
  Nat.le_of_ble_eq_true rfl

/-- What the two ranks bring to a training step. -/
noncomputable def realBackward : BackwardSetup realLayerWorld where
  layer := sixteenSwiglu
  tilesA := exampleSetup.tilesA
  batches r c src := Batches.oneByOne (substream (realLayerWorld.inputs src) r c)
  cleared := exampleShape_cleared
  delivers _ _ _ _ _ := Batches.delivers_oneByOne _ _
  fit := realLayerWorld_schedulable
  grad := swigluGrad rfl
  dLdy src t n := src - t + n
  slots := 2
  gradBatches r c src := Batches.oneByOne
    (gradSubstream (realLayerWorld.inputs src) r (fun t n => src - t + n) c)
  level := 0
  tilesYBwd := exampleBackward.tilesYBwd
  tilesABwd := exampleTiles
  dispatchSeq := 1
  deliversGrads _ _ _ _ _ := Batches.delivers_oneByOne _ _
  aBwd_whole := exampleBackward.aBwd_whole
  dispatchSeq_pos := Int.one_pos

/-- The step of the two ranks. -/
theorem realLayerWorld_hasDerivAt :
    ∃ (run : realBackward.BackwardRun) (s : ℕ → ℕ → ReplayRings.State
        (Fin exampleShape.numRanks) (Fin numReduceWarps) ((ℕ → ℝ) × (ℕ → ℝ))),
      realLayerWorld.AllCombined exampleConfig (fun _ _ => 0) run.kernels.io (fun _ _ _ _ => 0) s ∧
      HasDerivAt (fun a => loss (realBackward.layer.along exampleDirection a)
        (inputsAlong realLayerWorld.inputs exampleDirection a)
        run.kernels.io.recvTokenToSlots realBackward.dLdy)
      (heldPairing realBackward.gradRanks exampleDirection
        (fun g t => ((s g (channelOf (realLayerWorld.inputs g) t)).out t).getD 0)
        run.kernels.dW1Local run.kernels.dW2Local) 0 := by
  obtain ⟨run⟩ := exists_backwardRun realBackward (.of_kept Nat.two_pos)
  obtain ⟨s, all⟩ := exists_allCombined realLayerWorld exampleConfig (fun _ _ => 0)
    run.kernels.io (fun _ _ _ _ => 0) (by decide) (Or.inl (by decide))
  exact ⟨run, s, all, backward_hasDerivAt run (swigluGrad_isDeriv rfl) exampleDirection all⟩

end Intranode.World

/-! ### Between nodes -/

namespace Internode.NodeWorld

variable {sh : NodeShape}

section Combined

variable {Row Weight X W : Type} [AddCommMonoid X] [AddCommMonoid W]

/-- Every rank has combined all its channels, with heads that dispatch left. -/
structure AllCombined (w : NodeWorld sh Row Weight) (cfg : Config)
    (heads : ℕ → ℕ → Fin sh.numRdmaRanks → NvlHeads) (uninit : ℕ → ℕ → ℤ)
    (io : Intranode.CombineInputs X W)
    (nvlSlots : ℕ → ℕ → Fin sh.numRdmaRanks → Fin numMaxNvlPeers → ℕ → X × (ℕ → W))
    (rdmaSlots : ℕ → ℕ → Fin sh.numRdmaRanks → ℕ → X × (ℕ → W))
    (s : ℕ → ℕ → CreditedRings.State (Fin sh.numRdmaRanks) (Fin numMaxNvlPeers)
      (Fin (numWarpsPerForwarder sh.numRdmaRanks)) (Fin (numRdmaReceivers sh.numRdmaRanks))
      (X × (ℕ → W))) : Prop where
  left : ∀ g < sh.numRanks, ∀ c < sh.numChannels, ∀ d : Fin sh.numRdmaRanks,
    w.HeadsLeft (sameGpuIdx sh g d) (heads g c d)
  reach : ∀ g < sh.numRanks, ∀ c < sh.numChannels, (w.combineSystemWithCredit g c cfg
    (heads g c) (uninit g) io (nvlSlots g c) (rdmaSlots g c)).Reachable (s g c)
  done : ∀ g < sh.numRanks, ∀ c < sh.numChannels,
    w.CombineDone g c cfg (heads g c) (uninit g) (s g c)

/-- Every rank can, with a warp for every node and room in the rings. -/
theorem exists_allCombined (w : NodeWorld sh Row Weight) (cfg : Config) (uninit : ℕ → ℕ → ℤ)
    (io : Intranode.CombineInputs X W)
    (nvlSlots : ℕ → ℕ → Fin sh.numRdmaRanks → Fin numMaxNvlPeers → ℕ → X × (ℕ → W))
    (rdmaSlots : ℕ → ℕ → Fin sh.numRdmaRanks → ℕ → X × (ℕ → W))
    (peers : sh.numNvlPeers = numMaxNvlPeers) (launch : CombineLaunch sh.numRdmaRanks cfg)
    (nodes : sh.numRdmaRanks ≤ numMaxNvlPeers)
    (few : ∀ g < sh.numRanks, (w.inputs g).numTokens ≤ kReverseScanSentinel)
    (room : cfg.numMaxNvlChunkedSendTokens + numWarpsPerForwarder sh.numRdmaRanks +
      cfg.numMaxRdmaChunkedSendTokens % numWarpsPerForwarder sh.numRdmaRanks ≤
        cfg.numMaxNvlChunkedRecvTokens / sh.numRdmaRanks + 2) :
    ∃ heads s, w.AllCombined cfg heads uninit io nvlSlots rdmaSlots s := by
  have combined : ∀ g c, ∃ (heads : Fin sh.numRdmaRanks → NvlHeads) (s : _),
      g < sh.numRanks → c < sh.numChannels →
        (∀ d : Fin sh.numRdmaRanks, w.HeadsLeft (sameGpuIdx sh g d) (heads d)) ∧
        (w.combineSystemWithCredit g c cfg heads (uninit g) io (nvlSlots g c)
          (rdmaSlots g c)).Reachable s ∧
        w.CombineDone g c cfg heads (uninit g) s := by
    intro g c
    obtain ⟨start, begins⟩ : ∃ s, (w.combineSystemWithCredit g c cfg (fun _ => NvlHeads.start)
      (uninit g) io (nvlSlots g c) (rdmaSlots g c)).Reachable s := ⟨_, .init⟩
    by_cases inside : g < sh.numRanks ∧ c < sh.numChannels
    · obtain ⟨heads, s, reached⟩ := exists_combineRun inside.1 inside.2 peers launch nodes
        (few g inside.1) room (uninit g) io (nvlSlots g c) (rdmaSlots g c)
      exact ⟨heads, s, fun _ _ => reached⟩
    · -- nobody looks at the other channels
      exact ⟨fun _ => NvlHeads.start, start, fun hg hc => absurd ⟨hg, hc⟩ inside⟩
  choose heads s reached using combined
  exact ⟨heads, s, fun g hg c hc => (reached g c hg hc).1,
    fun g hg c hc => (reached g c hg hc).2.1, fun g hg c hc => (reached g c hg hc).2.2⟩

end Combined

/-- **A training step between nodes**: when everything has been combined, what the ranks hold is
the derivative of the layer's outputs. -/
theorem backwardBetween_hasDerivAt {w : NodeWorld sh (ℕ → ℝ) ℝ} {x : BackwardSetup w}
    (run : x.BackwardRun) (isDeriv : x.grad.IsDeriv) (d : Direction) {cfg : Config}
    (peers : sh.numNvlPeers = numMaxNvlPeers) (launch : CombineLaunch sh.numRdmaRanks cfg)
    {heads : ℕ → ℕ → Fin sh.numRdmaRanks → NvlHeads} {uninit : ℕ → ℕ → ℤ}
    {nvlSlots : ℕ → ℕ → Fin sh.numRdmaRanks → Fin numMaxNvlPeers → ℕ → (ℕ → ℝ) × (ℕ → ℝ)}
    {rdmaSlots : ℕ → ℕ → Fin sh.numRdmaRanks → ℕ → (ℕ → ℝ) × (ℕ → ℝ)}
    {s : ℕ → ℕ → CreditedRings.State (Fin sh.numRdmaRanks) (Fin numMaxNvlPeers)
      (Fin (numWarpsPerForwarder sh.numRdmaRanks)) (Fin (numRdmaReceivers sh.numRdmaRanks))
      ((ℕ → ℝ) × (ℕ → ℝ))}
    (all : w.AllCombined cfg heads uninit run.kernels.io nvlSlots rdmaSlots s) :
    HasDerivAt (fun a => loss (x.layer.along d a) (inputsAlong w.inputs d a)
        run.kernels.io.recvTokenToSlots x.dLdy)
      (heldPairing x.gradRanks d
        (fun g t => ((s g (channelOf (w.inputs g) t)).rings.second.out t).getD 0)
        run.kernels.dW1Local run.kernels.dW2Local) 0 := by
  refine run.kernels.hasDerivAt_loss isDeriv d fun g hg t ht => ?_
  -- the token has been returned with its channel
  have hc : channelOf (w.inputs g) t < sh.numChannels := channelOf_lt ht
  obtain ⟨lo, hi⟩ := (div_eq_channel_iff sh.numChannels_pos ht).1 rfl
  obtain ⟨v, got⟩ := Option.isSome_iff_exists.1 ((all.done g hg _ hc).combined t lo hi)
  simp only [got, Option.getD_some]
  exact out_eq_sum hg hc peers launch (all.left g hg _ hc) (all.reach g hg _ hc) lo hi got

/-- The token's world, with rows and weights of real numbers. -/
noncomputable def realTokenWorld : NodeWorld sixteenRanks (ℕ → ℝ) ℝ where
  inputs g :=
    { sixteenLayerWorld.inputs g with
      x := fun t h => g + t + h
      topkWeights := fun idx => g + idx }
  slabs := sixteenWorld.slabs
  uninitPool := sixteenWorld.uninitPool
  numMaxNvlChunkedRecvTokens := sixteenWorld.numMaxNvlChunkedRecvTokens
  uninitSlot := sixteenWorld.uninitSlot

theorem realTokenWorld_schedulable (r : Fin sixteenRanks.numRanks) :
    (realTokenWorld.plan r.isLt).Schedulable where
  experts := by decide
  tiles := by
    have few : ∀ r : Fin sixteenRanks.numRanks, expertPoolBlockOffset sixteenRanks.toShape
        (seenPerSubstream realTokenWorld.inputs realTokenWorld.slabs r) 1 ≤ 1 := by
      decide +kernel
    exact (few r).trans (by decide)

/-- What the ranks bring to a training step. -/
noncomputable def realTokenBackward : BackwardSetup realTokenWorld where
  layer := Intranode.World.sixteenSwiglu
  tilesA := sixteenSetup.tilesA
  batches r := realTokenWorld.inTurnBatches r
  delivers r := delivers_inTurnBatches _ r
  fit := realTokenWorld_schedulable
  grad := swigluGrad rfl
  dLdy src t n := src - t + n
  slots := 2
  gradBatches r c n := realTokenWorld.inTurnGrads r c n fun src t n => src - t + n
  level := 0
  tilesYBwd := sixteenBackward.tilesYBwd
  tilesABwd := sixteenTiles
  dispatchSeq := 1
  deliversGrads _ _ _ _ _ := ⟨_, Lanes.interleaves_inTurn _ _, Batches.delivers_oneByOne _ _⟩
  aBwd_whole := sixteenBackward.aBwd_whole
  dispatchSeq_pos := Int.one_pos

/-- The step for the token. -/
theorem realTokenWorld_hasDerivAt :
    ∃ (run : realTokenBackward.BackwardRun) (heads : ℕ → ℕ → Fin 2 → NvlHeads)
      (s : ℕ → ℕ → CreditedRings.State (Fin 2) (Fin numMaxNvlPeers)
        (Fin (numWarpsPerForwarder 2)) (Fin (numRdmaReceivers 2)) ((ℕ → ℝ) × (ℕ → ℝ))),
      realTokenWorld.AllCombined twoChunkConfig heads (fun _ _ => 7) run.kernels.io
        (fun _ _ _ _ _ => 0) (fun _ _ _ _ => 0) s ∧
      HasDerivAt (fun a => loss (realTokenBackward.layer.along exampleDirection a)
        (inputsAlong realTokenWorld.inputs exampleDirection a)
        run.kernels.io.recvTokenToSlots realTokenBackward.dLdy)
      (heldPairing realTokenBackward.gradRanks exampleDirection
        (fun g t => ((s g (channelOf (realTokenWorld.inputs g) t)).rings.second.out t).getD 0)
        run.kernels.dW1Local run.kernels.dW2Local) 0 := by
  obtain ⟨run⟩ := exists_backwardRun realTokenBackward (.of_kept Nat.two_pos)
  obtain ⟨heads, s, all⟩ := exists_allCombined realTokenWorld twoChunkConfig (fun _ _ => 7)
    run.kernels.io (fun _ _ _ _ _ => 0) (fun _ _ _ _ => 0) rfl twoChunkConfig_launch (by decide)
    (by decide) (by decide)
  exact ⟨run, heads, s, all, backwardBetween_hasDerivAt run (swigluGrad_isDeriv rfl)
    exampleDirection rfl twoChunkConfig_launch all⟩

end Internode.NodeWorld

end StreamEP
