import StreamEP.Intranode.Layout
import StreamEP.Lib.Publication
import StreamEP.Tiles

/-!
# Tile readiness of the intranode dispatch

All receivers of a rank run concurrently.  Each performs its Pass B stores, its
warps in any order, and after the last of them walks the experts and fires the tiles
of its slot ranges (Pass 2).  The scheduler of the GEMM starts a tile when the
tile's count equals its target.

**The system.**  A receiver is a program of the library: a list of stores and, behind it, a list
of additions to counters (`receiverProgram`), one for every (channel, source).  `arrivalSystem`
runs all of them; its runs are all interleavings of the receivers, with the stores of one
receiver in any order as well.

**Shares.**  What a receiver adds to a tile is the part of its slot ranges that lies in the tile
(`share_eq`), because its counters end at the counts of its substream (`dispatchReceiver_seen`).
The shares of all receivers make up the target of the tile (`total_eq_target`), which the
metadata kernel computed from the same counts.  A slot that holds a row belongs to a receiver with
a share in its tile (`exists_owner`), so at the target that receiver has added, and has stored
before that.

`tile_readiness` says that the count is a sound and complete signal: it never
exceeds the target, it reaches the target only when every real slot of the tile has
been written, and it is at the target when the receivers are done, which every run
reaches.
-/

namespace StreamEP.Intranode

open Finset

variable {sh : Shape} {Row Weight : Type}

/-- Pass 2 of one receiver: fire the range of every expert it wrote rows for. -/
def pass2 (sh : Shape) (basePoolSubstream seenSubstream : ℕ → ℕ) : List (ℕ × ℕ) :=
  (List.range sh.numExpertsPerRank).flatMap fun e =>
    let nWritesForE := seenSubstream e
    if nWritesForE = 0 then []
    else firePoolBlocks (basePoolSubstream e) nWritesForE sh.tileM

/-- What Pass 2 adds to a tile. -/
theorem added_pass2 (basePoolSubstream seenSubstream : ℕ → ℕ) (tile : ℕ) :
    Store.added (pass2 sh basePoolSubstream seenSubstream) tile =
      ∑ e ∈ range sh.numExpertsPerRank,
        overlap sh.tileM (basePoolSubstream e) (seenSubstream e) tile := by
  rw [pass2, Store.added_flatMap_range]
  refine sum_congr rfl fun e _ => ?_
  by_cases none : seenSubstream e = 0
  · rw [if_pos none, none, overlap_zero, Store.added_nil]
  · rw [if_neg none, added_firePoolBlocks sh.tileM_pos (Nat.pos_of_ne_zero none)]

namespace World

variable [Zero Weight] (w : World sh Row Weight) (g : ℕ) (batches : Deliveries Row Weight)

/-! ### The system -/

/-- The program of receiver `cs = c * num_ranks + src`: Pass B, then Pass 2. -/
def receiverProgram (cs : Fin (csTotal sh)) : Publication.Work (Cell.Val Row Weight) ℕ :=
  let c := cs / sh.numRanks
  let src := cs % sh.numRanks
  let final := w.dispatchReceiver g c src (batches c src)
  { stores := allStores sh.numTopk final.landed
    adds := pass2 sh (w.basePoolSubstream g c src) final.alloc.seen }

/-- The receivers of rank `g`, on top of freshly allocated outputs. -/
def arrivalSystem (init : PoolMemory Row Weight) :
    TransitionSystem (Publication.State (Fin (csTotal sh)) (Cell.Val Row Weight) ℕ)
      (Publication.Event (Fin (csTotal sh))) :=
  Publication.system (w.receiverProgram g batches) init

/-- `pool_arrival_target` of rank `g`. -/
def arrivalTarget (tile : ℕ) : ℕ :=
  poolArrivalTarget sh.numExpertsPerRank sh.tileM (expertPoolBlockOffset sh (w.eIn g))
    (expertFrequency sh (w.eIn g)) tile

/-- A slot that holds a row, as opposed to padding. -/
def RealSlot (s : ℕ) : Prop :=
  ∃ e < sh.numExpertsPerRank,
    expertPoolBlockOffset sh (w.eIn g) e * sh.tileM ≤ s ∧
      s < expertPoolBlockOffset sh (w.eIn g) e * sh.tileM + expertFrequency sh (w.eIn g) e

/-- Slot `s` holds the row, weight and maps of a landed token. -/
def Written (m : PoolMemory Row Weight) (s : ℕ) : Prop :=
  ∃ l ∈ w.allLanded g batches, ∃ k < sh.numTopk, l.slot k = s ∧
    m (.pool s) = l.packet.x ∧ m (.poolTopkWeight s) = l.packet.topkWeights k ∧
      m (.poolRecvToken s) = (l.recvTokenId : ℤ) ∧ m (.poolKSlot s) = (k : ℤ)

/-- What a consumer of the tiles may rely on. -/
structure TileReadiness
    (st : Publication.State (Fin (csTotal sh)) (Cell.Val Row Weight) ℕ) : Prop where
  /-- No count passes its target. -/
  bounded : ∀ tile < totalTiles sh (w.eIn g), st.count tile ≤ w.arrivalTarget g tile
  /-- At the target, every real slot of the tile has been written. -/
  ready : ∀ tile < totalTiles sh (w.eIn g), st.count tile = w.arrivalTarget g tile →
    ∀ s, s / sh.tileM = tile → w.RealSlot g s → w.Written g batches st.memory s
  /-- When the receivers are done, every count is at its target. -/
  complete : Publication.Finished st →
    ∀ tile < totalTiles sh (w.eIn g), st.count tile = w.arrivalTarget g tile
  /-- Until they are done, some receiver can go on, -/
  live : Publication.Finished st ∨ ∃ e st', Publication.step st e = some st'
  /-- and every step brings the end nearer. -/
  shrinks : ∀ e st', Publication.step st e = some st' →
    Publication.pending st' + 1 = Publication.pending st

variable {w g batches} {c src : ℕ}

/-! ### What a receiver has counted -/

/-- At the end, the counters hold the substream's counts. -/
theorem dispatchReceiver_seen (hg : g < sh.numRanks)
    (cleared : sh.numExpertsPerRank ≤ numThreadsPerRank sh) (hsrc : src < sh.numRanks)
    {bs : List (Batches.Batch (Packet Row Weight))}
    (delivers : Batches.Delivers w.numRecvBufferTokens (substream (w.inputs src) g c) 0 bs) {e : ℕ}
    (he : e < sh.numExpertsPerRank) :
    (w.dispatchReceiver g c src bs).alloc.seen e =
      substreamPairs w.inputs g e (c * sh.numRanks + src) := by
  have inv := receiverLoop_inv (fun _ => getElem?_substream hg) delivers
    (receiverInit_inv hg cleared)
  rw [dispatchReceiver, inv.seen e he, length_substream hg,
    carriesExperts.seenBefore_all hg hsrc he]

section Readiness

variable (hg : g < sh.numRanks) (cleared : sh.numExpertsPerRank ≤ numThreadsPerRank sh)
  (delivers : w.DeliversAll g batches)

include hg cleared delivers

/-- A receiver's share in a tile is its substream's. -/
theorem share_eq (cs : Fin (csTotal sh)) (tile : ℕ) :
    Publication.share (w.receiverProgram g batches) tile cs = (w.plan g).share tile cs := by
  have channel : cs / sh.numRanks < sh.numChannels :=
    (Nat.div_lt_iff_lt_mul sh.numRanks_pos).2 cs.isLt
  have source : (cs : ℕ) % sh.numRanks < sh.numRanks := Nat.mod_lt _ sh.numRanks_pos
  rw [Publication.share, receiverProgram, added_pass2, PoolPlan.share]
  refine sum_congr rfl fun e he => ?_
  rw [dispatchReceiver_seen hg cleared source (delivers _ channel _ source) (mem_range.1 he),
    basePoolSubstream, Nat.div_add_mod']
  rfl

theorem total_eq_target {tile : ℕ} (htile : tile < totalTiles sh (w.eIn g)) :
    Publication.total (w.receiverProgram g batches) tile = w.arrivalTarget g tile := by
  have sum : ∑ cs ∈ range (csTotal sh), (w.plan g).share tile cs = w.arrivalTarget g tile :=
    PoolPlan.sum_share htile
  rw [← sum, Publication.total]
  simp only [share_eq hg cleared delivers]
  exact Fin.sum_univ_eq_sum_range _ _

/-- The stores of all receivers agree. -/
theorem receiverProgram_agree (cs cs' : Fin (csTotal sh)) :
    ∀ st ∈ (w.receiverProgram g batches cs).stores,
      ∀ st' ∈ (w.receiverProgram g batches cs').stores, st'.1 = st.1 → st' = st := by
  have all : ∀ (cs : Fin (csTotal sh)), ∀ st ∈ (w.receiverProgram g batches cs).stores,
      st ∈ allStores sh.numTopk (w.allLanded g batches) := by
    intro cs st hst
    obtain ⟨l, hl, hst⟩ := List.mem_flatMap.1 hst
    refine List.mem_flatMap.2 ⟨l, List.mem_flatMap.2 ⟨cs % sh.numRanks, ?_,
      List.mem_flatMap.2 ⟨cs / sh.numRanks, ?_, hl⟩⟩, hst⟩
    · exact List.mem_range.2 (Nat.mod_lt _ sh.numRanks_pos)
    · exact List.mem_range.2 ((Nat.div_lt_iff_lt_mul sh.numRanks_pos).2 cs.isLt)
  intro st hst st' hst' same
  exact allStores_agree (layout_placed hg cleared delivers) (all cs st hst) (all cs' st' hst')
    same

/-- A real slot belongs to a receiver that has a share in the slot's tile. -/
theorem exists_owner {s : ℕ} (real : w.RealSlot g s) :
    ∃ cs : Fin (csTotal sh), 0 < Publication.share (w.receiverProgram g batches)
        (s / sh.tileM) cs ∧
      ∃ l ∈ (w.dispatchReceiver g (cs / sh.numRanks) (cs % sh.numRanks)
          (batches (cs / sh.numRanks) (cs % sh.numRanks))).landed,
        ∃ k < sh.numTopk, l.slot k = s := by
  obtain ⟨e, he, lower, upper⟩ := real
  obtain ⟨c, hc, src, hsrc, l, hl, k, hk, key, slot⟩ :=
    (layout_slots_tile hg cleared delivers he s).2 ⟨lower, upper⟩
  have flat : c * sh.numRanks + src < csTotal sh := PrefixSum.flat_lt hc hsrc
  refine ⟨⟨c * sh.numRanks + src, flat⟩, ?_, l, ?_, k, hk, slot⟩
  · -- the slot lies in the range its receiver fires for expert `e`
    obtain ⟨t, ht, rfl⟩ := (mem_landed hg cleared delivers hc hsrc).1 hl
    rw [landedOf, PoolPlan.landedOf_slot hk] at slot
    rw [share_eq hg cleared delivers]
    exact PoolPlan.share_pos (isPair_of_selected hc hsrc ht hk key he) slot
  · rw [PrefixSum.flat_div hsrc, PrefixSum.flat_mod hsrc]
    exact hl

/-- The stores of a receiver that has finished Pass B are in memory. -/
theorem written_of_stored {init : PoolMemory Row Weight}
    {st : Publication.State (Fin (csTotal sh)) (Cell.Val Row Weight) ℕ}
    (reach : (w.arrivalSystem g batches init).Reachable st) {cs : Fin (csTotal sh)}
    (stored : (st.work cs).stores = []) {l : Landed Row Weight}
    (hl : l ∈ w.landed g batches (cs / sh.numRanks) (cs % sh.numRanks)) {k s : ℕ}
    (hk : k < sh.numTopk) (slot : l.slot k = s) : w.Written g batches st.memory s := by
  have nonneg : 0 ≤ l.slot k := by omega
  have here : (l.slot k).toNat = s := by omega
  have read : ∀ v ∈ l.slotStores k, st.memory v.1 = v.2 := by
    intro v hv
    refine Publication.memory_of_stored reach (receiverProgram_agree hg cleared delivers) stored
      (List.mem_flatMap.2 ⟨l, hl, ?_⟩)
    exact Landed.mem_stores.2 (Or.inr (Or.inl ⟨k, hk, nonneg, hv⟩))
  have all : l ∈ w.allLanded g batches := by
    refine List.mem_flatMap.2 ⟨cs % sh.numRanks, List.mem_range.2 (Nat.mod_lt _
      sh.numRanks_pos), List.mem_flatMap.2 ⟨cs / sh.numRanks, List.mem_range.2 ?_, hl⟩⟩
    exact (Nat.div_lt_iff_lt_mul sh.numRanks_pos).2 cs.isLt
  subst here
  refine ⟨l, all, k, hk, slot, ?_, ?_, ?_, ?_⟩
  · exact read _ (Landed.mem_slotStores.2 (Or.inl rfl))
  · exact read _ (Landed.mem_slotStores.2 (Or.inr (Or.inl rfl)))
  · exact read _ (Landed.mem_slotStores.2 (Or.inr (Or.inr (Or.inl rfl))))
  · exact read _ (Landed.mem_slotStores.2 (Or.inr (Or.inr (Or.inr rfl))))

end Readiness

/-- **Tile readiness is exact**, in every state of every run of the receivers. -/
theorem tile_readiness (hg : g < sh.numRanks)
    (cleared : sh.numExpertsPerRank ≤ numThreadsPerRank sh)
    (delivers : w.DeliversAll g batches) {init : PoolMemory Row Weight}
    {st : Publication.State (Fin (csTotal sh)) (Cell.Val Row Weight) ℕ}
    (reach : (w.arrivalSystem g batches init).Reachable st) :
    w.TileReadiness g batches st where
  bounded tile htile := by
    rw [← total_eq_target hg cleared delivers htile]
    exact Publication.count_le_total reach tile
  ready tile htile full s inTile real := by
    subst inTile
    obtain ⟨cs, shared, l, hl, k, hk, slot⟩ := exists_owner hg cleared delivers real
    rw [← total_eq_target hg cleared delivers htile] at full
    have stored := Publication.stored_of_count_eq reach full shared
    exact written_of_stored hg cleared delivers reach stored hl hk slot
  complete finished tile htile := by
    rw [← total_eq_target hg cleared delivers htile]
    exact Publication.count_eq_total reach finished tile
  live := by
    by_cases finished : Publication.Finished st
    · exact Or.inl finished
    · exact Or.inr (Publication.exists_step finished)
  shrinks _ _ fires := Publication.step_pending fires

/-- The example dispatch has a run that finishes, and it ends ready. -/
theorem exampleWorld_readiness :
    ∃ st, (exampleWorld.arrivalSystem 0
        (fun c src => Batches.oneByOne (substream (exampleWorld.inputs src) 0 c))
        (freshMemory 0 0)).Reachable st ∧ Publication.Finished st ∧
      exampleWorld.TileReadiness 0
        (fun c src => Batches.oneByOne (substream (exampleWorld.inputs src) 0 c)) st := by
  obtain ⟨st, reach, finished⟩ := Publication.exists_finished (exampleWorld.receiverProgram 0
    fun c src => Batches.oneByOne (substream (exampleWorld.inputs src) 0 c)) (freshMemory 0 0)
  exact ⟨st, reach, finished, tile_readiness (by decide) (by decide)
    (fun _ _ _ _ => Batches.delivers_oneByOne _ _) reach⟩

end World

end StreamEP.Intranode
