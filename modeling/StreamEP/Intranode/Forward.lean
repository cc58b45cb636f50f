import StreamEP.Intranode.Arrival
import StreamEP.Intranode.CombineSum
import StreamEP.StreamMoe.LayerRun

/-!
# The forward pass inside a node

Dispatch, kernel A, kernel Y and combine overlap: a CTA of kernel A reads the rows of a tile when
the tile's count has met its target, with other tiles still on the way; combine sends a row when
its token is stamped, with kernel Y still adding to other rows.  `LayerRun` is such a run, with
every kernel at its own pace on every rank.

**What may be read.**  A tile at its target has arrived (`tileArrived`), which is the readiness of
tiles put into the words of the kernels: the rows of its real slots are in memory, and the others
are padding.  When all tiles are at their targets, memory is what the dispatch leaves
(`left_of_full`), and this is what combine starts from.

**Setups and runs.**  A `DispatchRun` has a state of the receivers for every moment at which a
CTA goes on from its wait, each reachable and with the tile full, and one for the end of kernel
A.  A `LayerRun` adds the kernels, over what the dispatch hands to them.  The setup is in two
steps since the backward pass shares the first.

`forward_returns_moe` says that whatever is returned for a token in any such run is the output of
the layer, and that something is returned for every token.  It is put together from the kernels of
the layer, which are the same for both topologies, and from the sums of combine.

Every setup has a run, which the example takes to the end of its combine.
-/

namespace StreamEP.Intranode

open Finset StreamMoe PoolPlan

variable {sh : Shape}

namespace World

/-! ### What kernels may read of a dispatch under way -/

section Arrived

variable {Row Weight : Type} [Zero Weight] {w : World sh Row Weight} {g : ℕ}
  {batches : Deliveries Row Weight} (hg : g < sh.numRanks)
  (cleared : sh.numExpertsPerRank ≤ numThreadsPerRank sh) (delivers : w.DeliversAll g batches)

include hg cleared delivers

/-- The receiver of a pair has a share in the tile of the pair's slot. -/
theorem share_pos_of_pair {src c t k s : ℕ} (pair : (w.plan g).PairAt src c t k s) :
    0 < Publication.share (w.receiverProgram g batches) (s / sh.tileM)
      ⟨c * sh.numRanks + src, PrefixSum.flat_lt pair.channel pair.source⟩ := by
  rw [share_eq hg cleared delivers]
  exact pair.share_pos

variable {init : PoolMemory Row Weight}
  {st : Publication.State (Fin (csTotal sh)) (Cell.Val Row Weight) ℕ}
  (reach : (w.arrivalSystem g batches init).Reachable st)

include reach

/-- **At its target, a tile has arrived.** -/
theorem tileArrived {tile : ℕ}
    (full : st.count tile = w.arrivalTarget g tile) :
    (w.plan g).TileArrived (fun src => packetOf (w.inputs src) g) tile st.memory := by
  intro src c t k s pair inTile
  subst inTile
  have htile : s / sh.tileM < totalTiles sh (w.eIn g) :=
    (Nat.div_lt_iff_lt_mul sh.tileM_pos).2 (pair.real hg).lt
  rw [← total_eq_target hg cleared delivers htile] at full
  have stored := Publication.stored_of_count_eq reach full
    (share_pos_of_pair hg cleared delivers pair)
  have mine : w.landedOf g c src t ∈ w.landed g batches
      ((c * sh.numRanks + src) / sh.numRanks) ((c * sh.numRanks + src) % sh.numRanks) := by
    rw [PrefixSum.flat_div pair.source, PrefixSum.flat_mod pair.source]
    exact (mem_landed hg cleared delivers pair.channel pair.source).2 ⟨t, pair.token, rfl⟩
  have here : (w.landedOf g c src t).slot k = s := (landedOf_slot pair.choice).trans pair.slot
  have store : (⟨.pool s, (packetOf (w.inputs src) g t).x⟩ : PoolStore Row Weight) ∈
      (w.receiverProgram g batches
        ⟨c * sh.numRanks + src, PrefixSum.flat_lt pair.channel pair.source⟩).stores := by
    refine List.mem_flatMap.2
      ⟨_, mine, Landed.mem_stores.2 (Or.inr (Or.inl ⟨k, pair.choice, ?_, ?_⟩))⟩
    · rw [here]
      exact Int.natCast_nonneg _
    · refine Landed.mem_slotStores.2 (Or.inl ?_)
      rw [here, Int.toNat_natCast]
      rfl
  exact Publication.memory_of_stored reach (receiverProgram_agree hg cleared delivers) stored store

/-- When all tiles are at their targets, every receiver has done its stores. -/
theorem stored_of_full
    (full : ∀ tile < totalTiles sh (w.eIn g), st.count tile = w.arrivalTarget g tile)
    (cs : Fin (csTotal sh)) : (st.work cs).stores = [] := by
  obtain ⟨-, -, -, pending, -⟩ := (Publication.reachable_inv reach).stores
  by_contra some
  obtain ⟨store, mem⟩ := List.exists_mem_of_ne_nil _ some
  obtain ⟨l, hl, -⟩ := List.mem_flatMap.1 (pending cs store mem)
  have channel : cs / sh.numRanks < sh.numChannels :=
    (Nat.div_lt_iff_lt_mul sh.numRanks_pos).2 cs.isLt
  have source : (cs : ℕ) % sh.numRanks < sh.numRanks := Nat.mod_lt _ sh.numRanks_pos
  obtain ⟨t, ht, rfl⟩ := (mem_landed hg cleared delivers channel source).1 hl
  obtain ⟨k, hk, s, slot⟩ : ∃ k < sh.numTopk, ∃ s : ℕ,
      (w.plan g).pairSlot (cs / sh.numRanks) (cs % sh.numRanks) (t * sh.numTopk + k) = s :=
    exists_slot hg source channel ht
  have pair : (w.plan g).PairAt _ _ t k s := .of_slot source channel ht hk slot
  have htile : s / sh.tileM < totalTiles sh (w.eIn g) :=
    (Nat.div_lt_iff_lt_mul sh.tileM_pos).2 (pair.real hg).lt
  have met := full _ htile
  rw [← total_eq_target hg cleared delivers htile] at met
  have shared := share_pos_of_pair hg cleared delivers pair
  have self : (⟨cs / sh.numRanks * sh.numRanks + cs % sh.numRanks,
      PrefixSum.flat_lt channel source⟩ : Fin (csTotal sh)) = cs :=
    Fin.ext (Nat.div_add_mod' _ _)
  rw [self] at shared
  exact some (Publication.stored_of_count_eq reach met shared)

/-- Then memory is what the dispatch leaves. -/
theorem left_of_full (fresh : ∀ s, init (.poolRecvToken s) = -1)
    (full : ∀ tile < totalTiles sh (w.eIn g), st.count tile = w.arrivalTarget g tile) :
    LeftBy sh.numTopk ((w.plan g).landedTokens fun src => packetOf (w.inputs src) g)
      st.memory := by
  refine ⟨init, allStores sh.numTopk (w.allLanded g batches), fresh, ?_, ?_⟩
  · rw [allLanded_eq hg cleared delivers]
  · refine (Publication.memory_eq_run reach (receiverProgram_agree hg cleared delivers)
      (stored_of_full hg cleared delivers reach full) fun store => ?_).symm
    simp only [allStores, allLanded, List.mem_flatMap, List.mem_range]
    constructor
    · rintro ⟨l, ⟨src, hsrc, c, hc, hl⟩, hstore⟩
      refine ⟨⟨c * sh.numRanks + src, PrefixSum.flat_lt hc hsrc⟩,
        List.mem_flatMap.2 ⟨l, ?_, hstore⟩⟩
      rw [PrefixSum.flat_div hsrc, PrefixSum.flat_mod hsrc]
      exact hl
    · rintro ⟨cs, mem⟩
      obtain ⟨l, hl, hstore⟩ := List.mem_flatMap.1 mem
      exact ⟨l, ⟨_, Nat.mod_lt _ sh.numRanks_pos, _,
        (Nat.div_lt_iff_lt_mul sh.numRanks_pos).2 cs.isLt, hl⟩, hstore⟩

end Arrived

/-! ### Runs of the layer -/

variable {S : Type} [CommSemiring S]

/-- The packets that reach rank `r`. -/
abbrev packetsTo (w : World sh (ℕ → S) S) (r : ℕ) : ℕ → ℕ → Packet (ℕ → S) S :=
  fun src => packetOf (w.inputs src) r

theorem carries_packetsTo (w : World sh (ℕ → S) S) (r : ℕ) :
    Carries w.inputs r (w.packetsTo r) where
  x _ _ := rfl
  weight src t k _ here := by
    obtain ⟨e, he, routed⟩ := here.routed
    have key := (transformIdx_eq_iff he).2 routed
    refine if_pos ?_
    rw [key]
    exact Int.natCast_nonneg e

/-- What every rank brings to dispatch and to kernel A. -/
structure DispatchSetup (w : World sh (ℕ → S) S) where
  layer : MoeLayer S
  tilesA : ATiles
  batches : ℕ → Deliveries (ℕ → S) S
  cleared : sh.numExpertsPerRank ≤ numThreadsPerRank sh
  delivers : ∀ r : Fin sh.numRanks, w.DeliversAll r (batches r)
  fit : ∀ r : Fin sh.numRanks, (w.plan r).Schedulable

namespace DispatchSetup

variable {w : World sh (ℕ → S) S} (x : DispatchSetup w)

/-- What kernel A is told. -/
def ranks : LayerRanks w.inputs where
  layer := x.layer
  tilesA := x.tilesA
  plan r := w.plan r
  packets r := w.packetsTo r
  carries r := w.carries_packetsTo r
  fit := x.fit

/-- A state of the receivers of a rank. -/
abbrev Receivers (_ : DispatchSetup w) : Type :=
  Publication.State (Fin (csTotal sh)) (Cell.Val (ℕ → S) S) ℕ

/-- Dispatch on every rank, as the kernels find it. -/
structure DispatchRun where
  init : Fin sh.numRanks → PoolMemory (ℕ → S) S
  /-- The receivers when a CTA of kernel A goes on from its wait for the tile. -/
  seen : Fin sh.numRanks → ℕ → ℕ → x.Receivers
  /-- The receivers when kernel A is through with its tiles and kernel Y starts. -/
  arrived : Fin sh.numRanks → x.Receivers
  fresh : ∀ r s, init r (.poolRecvToken s) = -1
  seen_reach : ∀ (r : Fin sh.numRanks) workIdx j,
    (w.arrivalSystem r (x.batches r) (init r)).Reachable (seen r workIdx j)
  seen_full : ∀ (r : Fin sh.numRanks) workIdx j, workIdx < (x.ranks.argsA r).totalWork →
    (seen r workIdx j).count (workIdx / (x.ranks.argsA r).numPidN) =
      w.arrivalTarget r (workIdx / (x.ranks.argsA r).numPidN)
  arrived_reach : ∀ r : Fin sh.numRanks,
    (w.arrivalSystem r (x.batches r) (init r)).Reachable (arrived r)
  arrived_full : ∀ r : Fin sh.numRanks, ∀ tile < totalTiles sh (w.eIn r),
    (arrived r).count tile = w.arrivalTarget r tile

/-- What it hands over. -/
def DispatchRun.handed {x : DispatchSetup w} (run : x.DispatchRun) : x.ranks.Handed where
  view r workIdx j := (run.seen r workIdx j).memory
  memory r := (run.arrived r).memory
  waits r workIdx h j := tileArrived r.isLt x.cleared (x.delivers r) (run.seen_reach r workIdx j)
    (run.seen_full r workIdx j h)
  left r := left_of_full r.isLt x.cleared (x.delivers r) (run.arrived_reach r) (run.fresh r)
    (run.arrived_full r)

end DispatchSetup

/-- What every rank brings to the layer. -/
structure LayerSetup (w : World sh (ℕ → S) S) extends DispatchSetup w where
  tilesY : YTiles toDispatchSetup.layer sh.tileM
  combineSeq : ℤ
  /-- `y_done_per_token` starts at zero. -/
  combineSeq_pos : 0 < combineSeq

namespace LayerSetup

variable {w : World sh (ℕ → S) S} (x : LayerSetup w)

/-- What the kernels are told. -/
def forwardRanks : ForwardRanks w.inputs where
  toLayerRanks := x.ranks
  tilesY := x.tilesY
  combineSeq := x.combineSeq
  combineSeq_pos := x.combineSeq_pos

/-- The kernels of every rank, on top of a dispatch. -/
structure LayerRun extends x.toDispatchSetup.DispatchRun where
  kernels : ForwardRanks.ForwardRun (x := x.forwardRanks) toDispatchRun.handed

end LayerSetup

/-- What combine returns at rank `g` for channel `c`, compared with the layer. -/
structure ReturnsMoe {w : World sh (ℕ → S) S} (x : LayerSetup w) (slots : ℕ → ℕ → ℤ) (g c : ℕ)
    (cfg : Config) (uninitHead : ℕ → ℤ)
    (s : ReplayRings.State (Fin sh.numRanks) (Fin numReduceWarps) ((ℕ → S) × (ℕ → S))) :
    Prop where
  returned : ∀ t v, channelStart (w.inputs g).numTokens sh.numChannels c ≤ t →
    t < channelEnd (w.inputs g).numTokens sh.numChannels c → s.out t = some v →
      ∀ n < x.layer.hidden, v.1 n = x.layer.moe w.inputs slots g t n
  complete : w.CombineDone g c cfg uninitHead s →
    ∀ t, channelStart (w.inputs g).numTokens sh.numChannels c ≤ t →
      t < channelEnd (w.inputs g).numTokens sh.numChannels c → ∃ v, s.out t = some v

/-- **The forward pass computes the layer**: whatever the pace of the receivers, the kernels and
combine on all ranks, what is returned for a token is the output of the layer. -/
theorem forward_returns_moe {w : World sh (ℕ → S) S} {x : LayerSetup w} (run : x.LayerRun)
    {g c : ℕ} (hg : g < sh.numRanks) (hc : c < sh.numChannels) {cfg : Config}
    {uninitHead : ℕ → ℤ} {ringSlots : Fin sh.numRanks → ℕ → (ℕ → S) × (ℕ → S)}
    {s : ReplayRings.State (Fin sh.numRanks) (Fin numReduceWarps) ((ℕ → S) × (ℕ → S))}
    (reach : (w.combineSystem g c cfg uninitHead run.kernels.io ringSlots).Reachable s) :
    w.ReturnsMoe x run.kernels.io.recvTokenToSlots g c cfg uninitHead s where
  returned t v lo hi got n hn := by
    rw [out_eq_sum hg hc reach lo hi got, Prod.fst_sum, Finset.sum_apply]
    exact run.kernels.sum_x hg (hi.trans_le (channelEnd_le _ _ _)) hn
  complete done t lo hi := Option.isSome_iff_exists.1 (done.combined t lo hi)

/-- Every setup has a dispatch: the receivers run to their end. -/
theorem exists_dispatchRun {w : World sh (ℕ → S) S} (x : DispatchSetup w) :
    Nonempty x.DispatchRun := by
  have dispatched := fun r : Fin sh.numRanks =>
    Publication.exists_finished (w.receiverProgram r (x.batches r)) (freshMemory 0 0)
  choose st reach finished using dispatched
  have full : ∀ r : Fin sh.numRanks, ∀ tile < totalTiles sh (w.eIn r),
      (st r).count tile = w.arrivalTarget r tile := by
    intro r tile htile
    rw [← total_eq_target r.isLt x.cleared (x.delivers r) htile]
    exact Publication.count_eq_total (reach r) (finished r) tile
  exact ⟨{
    init := fun _ => freshMemory 0 0
    seen := fun r _ _ => st r
    arrived := st
    fresh := fun _ _ => rfl
    seen_reach := fun r _ _ => reach r
    seen_full := fun r workIdx _ h => full r _ (SchedulerArguments.tile_lt h)
    arrived_reach := reach
    arrived_full := full }⟩

/-- Every setup has a run: kernel A and kernel Y after that. -/
theorem exists_layerRun {w : World sh (ℕ → S) S} (x : LayerSetup w) : Nonempty x.LayerRun := by
  obtain ⟨dispatch⟩ := exists_dispatchRun x.toDispatchSetup
  obtain ⟨kernels⟩ := ForwardRanks.exists_forwardRun (x := x.forwardRanks) dispatch.handed
  exact ⟨⟨dispatch, kernels⟩⟩

/-! ### An example -/

/-- The example dispatch, with rows of sixteen numbers. -/
def exampleLayerWorld : World exampleShape (ℕ → ℕ) ℕ where
  inputs r :=
    { exampleWorld.inputs r with x := fun t n => (exampleWorld.inputs r).x t + n }
  numRecvBufferTokens := exampleWorld.numRecvBufferTokens
  staleE := exampleWorld.staleE
  staleU := exampleWorld.staleU
  uninitSeen := exampleWorld.uninitSeen
  uninitSlot := exampleWorld.uninitSlot

/-- Columns in tiles of eight, clusters of two. -/
def exampleTiles : ScatterTiles exampleShape.tileM 16 where
  tileN := 8
  clusterN := 2
  tileN_pos := Nat.succ_pos 7
  clusterN_pos := Nat.two_pos
  epiTileM := 2
  epiTileN := 8
  numEpiWarps := 1
  numClusters := 2
  tileN_dvd := rfl
  epiTileM_dvd := dvd_rfl
  epiTileN_dvd := dvd_rfl
  chunk_dvd := dvd_rfl
  tileM_le := Nat.le_of_ble_eq_true rfl
  numClusters_pos := Nat.two_pos

theorem exampleHidden_pos : 0 < 16 := Nat.succ_pos 15

/-- Gates times ups. -/
def exampleLayer : MoeLayer ℕ where
  hidden := 16
  inter := 4
  actFn gate up := gate * up
  w1 r e j h := r + e + j + h
  w2 r e n i := r + e + n + i
  dropout := none
  hidden_pos := exampleHidden_pos

theorem exampleLayerWorld_schedulable (r : Fin exampleShape.numRanks) :
    (exampleLayerWorld.plan r).Schedulable where
  experts := by decide
  tiles := by
    have few : ∀ r : Fin exampleShape.numRanks,
        expertPoolBlockOffset exampleShape (exampleLayerWorld.eIn r) 2 ≤ 4 := by decide
    exact (few r).trans (by decide)

/-- What the two ranks bring to the example layer. -/
def exampleSetup : LayerSetup exampleLayerWorld where
  layer := exampleLayer
  tilesA := ⟨⟨8, 1, Nat.succ_pos 7, Nat.one_pos⟩, Dvd.intro 4 rfl⟩
  tilesY := ⟨exampleTiles, dvd_rfl⟩
  batches r c src := Batches.oneByOne (substream (exampleLayerWorld.inputs src) r c)
  combineSeq := 1
  cleared := Nat.le_of_ble_eq_true rfl
  delivers _ _ _ _ _ := Batches.delivers_oneByOne _ _
  fit := exampleLayerWorld_schedulable
  combineSeq_pos := Int.one_pos

/-- The example layer, combined to its end. -/
theorem exampleLayerWorld_forward :
    ∃ (run : exampleSetup.LayerRun) (s : _), (exampleLayerWorld.combineSystem 0 0 exampleConfig
        (fun _ => 0) run.kernels.io fun _ _ => 0).Reachable s ∧
      exampleLayerWorld.CombineDone 0 0 exampleConfig (fun _ => 0) s ∧
        exampleLayerWorld.ReturnsMoe exampleSetup run.kernels.io.recvTokenToSlots 0 0
          exampleConfig (fun _ => 0) s := by
  obtain ⟨run⟩ := exists_layerRun exampleSetup
  obtain ⟨s, reach, done⟩ : ∃ s, (exampleLayerWorld.combineSystem 0 0 exampleConfig (fun _ => 0)
      run.kernels.io fun _ _ => 0).Reachable s ∧
        exampleLayerWorld.CombineDone 0 0 exampleConfig (fun _ => 0) s :=
    exists_combineRun (by decide) (by decide) (by decide) (Or.inl (by decide)) _ _ _
  exact ⟨run, s, reach, done, forward_returns_moe run (by decide) (by decide) reach⟩

end World

end StreamEP.Intranode
