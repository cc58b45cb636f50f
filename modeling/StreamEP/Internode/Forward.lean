import StreamEP.Internode.Arrival
import StreamEP.Internode.CombineProgress
import StreamEP.Internode.CombineSum
import StreamEP.Intranode.Forward

/-!
# The forward pass between nodes

The kernels of the layer are those inside a node.  A CTA of kernel A reads the rows of a tile when
the tile's count has met its target, with receivers that have fired it still busy with other
tokens; combine sends the row of a token when it is stamped, over two levels of rings.

`returns_moe` says that whatever is returned for a token in any such run is the output of the
layer.

**Setups and runs.**  What the ranks bring comes in two steps, `DispatchSetup` and on top of it
`LayerSetup`, since the backward pass shares the first and not the second.  A `DispatchRun` is a
reachable state of the receivers of every rank, so the stores of a rank may be anywhere in their
order and not at their end, and a `LayerRun` adds the kernels of every rank over what it hands to
them.

**Where the pace matters.**  A tile that has met its target has all its rows (`tileArrived`), by
the readiness of the receivers.  This is the only thing that the kernels ask of dispatch, and the
rest of their argument is the one inside a node.  For combine, a rank returns the sum of the
packets that were sent for the token (`out_eq_sum`), and each of them is a row that was stamped.

**What is assumed.**  Combine counts from exact baselines, with no credit of an earlier combine
under way, and the clusters of kernel Y divide its columns, without which a row may be stamped
early.

Every setup has a run (`exists_dispatchRun`, `exists_layerRun`), and the example at the end takes
one to the end of its combine.
-/

namespace StreamEP.Internode

open Finset StreamMoe PoolPlan

variable {sh : NodeShape}

namespace NodeWorld

/-- At its target, a tile has arrived. -/
theorem tileArrived {Row Weight : Type} {w : NodeWorld sh Row Weight} {g : ℕ}
    {batches : NodeDeliveries Row Weight} (hg : g < sh.numRanks)
    (delivers : w.DeliversAll g batches) {init : PoolMemory Row Weight}
    {st : FencedRounds.State (Fin (sh.numChannels * sh.numNvlPeers)) (Cell.Val Row Weight) ℕ}
    (reach : (w.arrivalSystem g batches init).Reachable st) {tile : ℕ}
    (full : st.count tile = (w.plan hg).arrivalTarget tile) :
    (w.plan hg).TileArrived (w.localMessage g) tile st.memory := by
  intro src c t k s pair inTile
  subst inTile
  exact (written_of_full hg delivers reach pair full).row

theorem carries_localMessage {Row Weight : Type} (w : NodeWorld sh Row Weight) (r : ℕ) :
    StreamEP.Carries w.inputs r (w.localMessage r) where
  x _ _ := rfl
  weight _ _ _ _ _ := rfl

/-! ### Runs of the layer -/

variable {S : Type} [CommSemiring S]

/-- What every rank brings to dispatch and to kernel A. -/
structure DispatchSetup (w : NodeWorld sh (ℕ → S) S) where
  layer : MoeLayer S
  tilesA : ATiles
  batches : ℕ → NodeDeliveries (ℕ → S) S
  delivers : ∀ r : Fin sh.numRanks, w.DeliversAll r (batches r)
  fit : ∀ r : Fin sh.numRanks, (w.plan r.isLt).Schedulable

namespace DispatchSetup

variable {w : NodeWorld sh (ℕ → S) S} (x : DispatchSetup w)

/-- What kernel A is told. -/
def ranks : LayerRanks w.inputs where
  layer := x.layer
  tilesA := x.tilesA
  plan r := w.plan r.isLt
  packets r := w.localMessage r
  carries r := w.carries_localMessage r
  fit := x.fit

/-- A state of the receivers of a rank. -/
abbrev Receivers (_ : DispatchSetup w) : Type :=
  FencedRounds.State (Fin (sh.numChannels * sh.numNvlPeers)) (Cell.Val (ℕ → S) S) ℕ

/-- Dispatch on every rank, as the kernels find it. -/
structure DispatchRun where
  init : Fin sh.numRanks → PoolMemory (ℕ → S) S
  /-- The receivers when a CTA of kernel A goes on from its wait for the tile. -/
  seen : Fin sh.numRanks → ℕ → ℕ → x.Receivers
  /-- The receivers when kernel A is through with its tiles and kernel Y starts. -/
  arrived : Fin sh.numRanks → x.Receivers
  fresh : ∀ r s, init r (.poolRecvToken s) = -1
  seen_reach : ∀ (r : Fin sh.numRanks) workIdx j,
    (w.arrivalSystem r (x.batches r) (init r)).Reachable (seen r workIdx j)
  seen_full : ∀ (r : Fin sh.numRanks) workIdx j, workIdx < (x.ranks.argsA r).totalWork →
    (seen r workIdx j).count (workIdx / (x.ranks.argsA r).numPidN) =
      (w.plan r.isLt).arrivalTarget (workIdx / (x.ranks.argsA r).numPidN)
  arrived_reach : ∀ r : Fin sh.numRanks,
    (w.arrivalSystem r (x.batches r) (init r)).Reachable (arrived r)
  arrived_full : ∀ r : Fin sh.numRanks, ∀ tile < (w.plan r.isLt).totalTiles,
    (arrived r).count tile = (w.plan r.isLt).arrivalTarget tile

/-- What it hands over. -/
def DispatchRun.handed {x : DispatchSetup w} (run : x.DispatchRun) : x.ranks.Handed where
  view r workIdx j := (run.seen r workIdx j).memory
  memory r := (run.arrived r).memory
  waits r workIdx h j := tileArrived r.isLt (x.delivers r) (run.seen_reach r workIdx j)
    (run.seen_full r workIdx j h)
  left r := left_of_full r.isLt (x.delivers r) (run.arrived_reach r) (run.fresh r)
    (run.arrived_full r)

end DispatchSetup

/-- What every rank brings to the layer. -/
structure LayerSetup (w : NodeWorld sh (ℕ → S) S) extends DispatchSetup w where
  tilesY : YTiles toDispatchSetup.layer sh.tileM
  combineSeq : ℤ
  /-- `y_done_per_token` starts at zero. -/
  combineSeq_pos : 0 < combineSeq

namespace LayerSetup

variable {w : NodeWorld sh (ℕ → S) S} (x : LayerSetup w)

/-- What the kernels are told. -/
def forwardRanks : ForwardRanks w.inputs where
  toLayerRanks := x.ranks
  tilesY := x.tilesY
  combineSeq := x.combineSeq
  combineSeq_pos := x.combineSeq_pos

/-- The kernels of every rank, on top of a dispatch. -/
structure LayerRun extends x.toDispatchSetup.DispatchRun where
  kernels : ForwardRanks.ForwardRun (x := x.forwardRanks) toDispatchRun.handed

end LayerSetup

/-! ### What combine returns -/

section Packets

variable {Row Weight X W : Type} [AddCommMonoid X] [AddCommMonoid W]
  {w : NodeWorld sh Row Weight} {io : Intranode.CombineInputs X W} {g c : ℕ} {cfg : Config}
  {heads : Fin sh.numRdmaRanks → NvlHeads} {uninit : ℕ → ℤ}

/-- Whatever is returned for a token is the sum of its packets. -/
theorem out_eq_sum (hg : g < sh.numRanks) (hc : c < sh.numChannels)
    (peers : sh.numNvlPeers = numMaxNvlPeers) (launch : CombineLaunch sh.numRdmaRanks cfg)
    (left : ∀ d : Fin sh.numRdmaRanks, w.HeadsLeft (sameGpuIdx sh g d) (heads d))
    {nvlSlots : Fin sh.numRdmaRanks → Fin numMaxNvlPeers → ℕ → X × (ℕ → W)}
    {rdmaSlots : Fin sh.numRdmaRanks → ℕ → X × (ℕ → W)}
    {s : CreditedRings.State (Fin sh.numRdmaRanks) (Fin numMaxNvlPeers)
      (Fin (numWarpsPerForwarder sh.numRdmaRanks)) (Fin (numRdmaReceivers sh.numRdmaRanks))
      (X × (ℕ → W))}
    (reach : (w.combineSystemWithCredit g c cfg heads uninit io nvlSlots rdmaSlots).Reachable s)
    {t : ℕ} (lo : tokenStartIdx (w.inputs g) c ≤ t) (hi : t < tokenEndIdx (w.inputs g) c)
    {v : X × (ℕ → W)} (got : s.rings.second.out t = some v) :
    v = ∑ r ∈ (range sh.numRanks).filter fun r => (w.inputs g).InRank r t,
      Intranode.combinePacket sh.toShape io r (recvTokenId w.inputs r g t) := by
  have inv := CreditedRings.reachable_inv (combine_sound hg hc left peers launch) reach
  have room := (Nat.le_add_right _ _).trans launch.room
  rw [inv.rings.second.readers.out t v got, combined_rdmaPlan hg hc peers room left uninit lo hi]
  rfl

end Packets

section Combine

variable {w : NodeWorld sh (ℕ → S) S} {g c : ℕ} {cfg : Config}
  {heads : Fin sh.numRdmaRanks → NvlHeads} {uninit : ℕ → ℤ}

/-- What combine returns at rank `g` for channel `c`, compared with the layer. -/
structure ReturnsMoe (x : LayerSetup w) (slots : ℕ → ℕ → ℤ) (g c : ℕ) (cfg : Config)
    (heads : Fin sh.numRdmaRanks → NvlHeads) (uninit : ℕ → ℤ)
    (s : CreditedRings.State (Fin sh.numRdmaRanks) (Fin numMaxNvlPeers)
      (Fin (numWarpsPerForwarder sh.numRdmaRanks)) (Fin (numRdmaReceivers sh.numRdmaRanks))
      ((ℕ → S) × (ℕ → S))) : Prop where
  returned : ∀ t v, tokenStartIdx (w.inputs g) c ≤ t → t < tokenEndIdx (w.inputs g) c →
    s.rings.second.out t = some v →
      ∀ n < x.layer.hidden, v.1 n = x.layer.moe w.inputs slots g t n
  /-- When the receivers are through, every ring has been emptied and every token returned. -/
  complete : s.rings.second.Completed (w.rdmaPlan g c cfg heads uninit) →
    w.CombineDone g c cfg heads uninit s

/-- **The forward pass between nodes computes the layer**: whatever the pace of the receivers,
the kernels and the two levels of combine on all ranks, what is returned for a token is the output
of the layer. -/
theorem returns_moe {x : LayerSetup w} (run : x.LayerRun) (hg : g < sh.numRanks)
    (hc : c < sh.numChannels) (peers : sh.numNvlPeers = numMaxNvlPeers)
    (launch : CombineLaunch sh.numRdmaRanks cfg)
    (left : ∀ d : Fin sh.numRdmaRanks, w.HeadsLeft (sameGpuIdx sh g d) (heads d))
    {nvlSlots : Fin sh.numRdmaRanks → Fin numMaxNvlPeers → ℕ → (ℕ → S) × (ℕ → S)}
    {rdmaSlots : Fin sh.numRdmaRanks → ℕ → (ℕ → S) × (ℕ → S)}
    {s : CreditedRings.State (Fin sh.numRdmaRanks) (Fin numMaxNvlPeers)
      (Fin (numWarpsPerForwarder sh.numRdmaRanks)) (Fin (numRdmaReceivers sh.numRdmaRanks))
      ((ℕ → S) × (ℕ → S))}
    (reach : (w.combineSystemWithCredit g c cfg heads uninit run.kernels.io nvlSlots
      rdmaSlots).Reachable s) :
    w.ReturnsMoe x run.kernels.io.recvTokenToSlots g c cfg heads uninit s where
  returned t v lo hi got n hn := by
    rw [out_eq_sum hg hc peers launch left reach lo hi got, Prod.fst_sum, Finset.sum_apply]
    exact run.kernels.sum_x hg (hi.trans_le (channelEnd_le _ _ _)) hn
  complete := combineDone_of_completed hg hc left peers launch
    (CreditedRings.reachable_inv (combine_sound hg hc left peers launch) reach)

end Combine

/-- Every setup has a dispatch: the receivers run to their end. -/
theorem exists_dispatchRun {w : NodeWorld sh (ℕ → S) S} (x : DispatchSetup w) :
    Nonempty x.DispatchRun := by
  have dispatched := fun r : Fin sh.numRanks =>
    FencedRounds.exists_finished (w.receiverRounds r (x.batches r)) (freshMemory 0 0)
  choose st reach finished using dispatched
  have full : ∀ r : Fin sh.numRanks, ∀ tile < (w.plan r.isLt).totalTiles,
      (st r).count tile = (w.plan r.isLt).arrivalTarget tile := by
    intro r tile htile
    rw [← receiverTotal_eq r.isLt (x.delivers r) htile]
    exact FencedRounds.count_eq_total (reach r) (finished r) tile
  exact ⟨{
    init := fun _ => freshMemory 0 0
    seen := fun r _ _ => st r
    arrived := st
    fresh := fun _ _ => rfl
    seen_reach := fun r _ _ => reach r
    seen_full := fun r workIdx _ h => full r _ (SchedulerArguments.tile_lt h)
    arrived_reach := reach
    arrived_full := full }⟩

/-- Every setup has a run: kernel A and kernel Y after that. -/
theorem exists_layerRun {w : NodeWorld sh (ℕ → S) S} (x : LayerSetup w) :
    Nonempty x.LayerRun := by
  obtain ⟨dispatch⟩ := exists_dispatchRun x.toDispatchSetup
  obtain ⟨kernels⟩ := ForwardRanks.exists_forwardRun (x := x.forwardRanks) dispatch.handed
  exact ⟨⟨dispatch, kernels⟩⟩

/-! ### One token for both nodes -/

/-- The token's world, with rows of sixteen numbers. -/
def sixteenLayerWorld : NodeWorld sixteenRanks (ℕ → ℕ) ℕ where
  inputs r := { sixteenInputs r with x := fun t n => (sixteenInputs r).x t + n }
  slabs := sixteenWorld.slabs
  uninitPool := sixteenWorld.uninitPool
  numMaxNvlChunkedRecvTokens := sixteenWorld.numMaxNvlChunkedRecvTokens
  uninitSlot := sixteenWorld.uninitSlot

/-- Columns in tiles of eight, clusters of two. -/
def sixteenTiles : ScatterTiles sixteenRanks.tileM 16 where
  tileN := 8
  clusterN := 2
  tileN_pos := Nat.succ_pos (nat_lit 7)
  clusterN_pos := Nat.two_pos
  epiTileM := 1
  epiTileN := 8
  numEpiWarps := 1
  numClusters := 2
  tileN_dvd := Nat.mul_mod_right (nat_lit 8) (nat_lit 2)
  epiTileM_dvd := Nat.dvd_refl _
  epiTileN_dvd := Nat.dvd_refl _
  chunk_dvd := Nat.dvd_refl _
  tileM_le := Nat.le_of_ble_eq_true rfl
  numClusters_pos := Nat.two_pos

theorem sixteenLayerWorld_schedulable (r : Fin sixteenRanks.numRanks) :
    (sixteenLayerWorld.plan r.isLt).Schedulable where
  experts := by decide
  tiles := by
    have few : ∀ r : Fin sixteenRanks.numRanks, expertPoolBlockOffset sixteenRanks.toShape
        (seenPerSubstream sixteenLayerWorld.inputs sixteenLayerWorld.slabs r) 1 ≤ 1 := by
      decide +kernel
    exact (few r).trans (by decide)

/-- What the ranks bring to the layer. -/
def sixteenSetup : LayerSetup sixteenLayerWorld where
  layer := Intranode.World.exampleLayer
  tilesA := ⟨⟨8, 1, Nat.succ_pos (nat_lit 7), Nat.one_pos⟩, ⟨4, rfl⟩⟩
  tilesY := ⟨sixteenTiles, Nat.dvd_refl _⟩
  batches r := sixteenLayerWorld.inTurnBatches r
  combineSeq := 1
  delivers r := delivers_inTurnBatches _ r
  fit := sixteenLayerWorld_schedulable
  combineSeq_pos := Int.one_pos

/-- Whatever is fed to it, the combine of the token has a run to its end. -/
theorem sixteen_combineDone {X W : Type} [AddCommMonoid X] [AddCommMonoid W]
    (io : Intranode.CombineInputs X W) :
    ∃ (heads : Fin 2 → NvlHeads) (s : _), (∀ d : Fin 2,
        sixteenLayerWorld.HeadsLeft (sameGpuIdx sixteenRanks 0 d) (heads d)) ∧
      (sixteenLayerWorld.combineSystemWithCredit 0 0 twoChunkConfig heads (fun _ => 7) io
        (fun _ _ _ => 0) fun _ _ => 0).Reachable s ∧
        sixteenLayerWorld.CombineDone 0 0 twoChunkConfig heads (fun _ => 7) s :=
  exists_combineRun (w := sixteenLayerWorld) (g := 0) (c := 0) (by decide) (by decide) rfl
    twoChunkConfig_launch (by decide) (by decide) (by decide) (fun _ => 7) io (fun _ _ _ => 0)
    fun _ _ => 0

/-- The layer for the token, combined to its end. -/
theorem sixteenLayerWorld_returns :
    ∃ (run : sixteenSetup.LayerRun) (heads : Fin 2 → NvlHeads) (s : _),
      (sixteenLayerWorld.combineSystemWithCredit 0 0 twoChunkConfig heads (fun _ => 7)
        run.kernels.io (fun _ _ _ => 0) fun _ _ => 0).Reachable s ∧
      sixteenLayerWorld.CombineDone 0 0 twoChunkConfig heads (fun _ => 7) s ∧
        sixteenLayerWorld.ReturnsMoe sixteenSetup run.kernels.io.recvTokenToSlots 0 0
          twoChunkConfig heads (fun _ => 7) s := by
  obtain ⟨run⟩ := exists_layerRun sixteenSetup
  obtain ⟨heads, s, left, reach, done⟩ := sixteen_combineDone run.kernels.io
  exact ⟨run, heads, s, reach, done,
    returns_moe run (by decide) (by decide) rfl twoChunkConfig_launch left reach⟩

end NodeWorld

end StreamEP.Internode
