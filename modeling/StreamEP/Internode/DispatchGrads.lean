import StreamEP.GradLanding
import StreamEP.Internode.PoolLayout

/-!
# Internode dispatch of gradients

Gradients travel as the activations did, without their routing.  The receiver starts the ids
of every source where the forward receiver saved that it had started them, and counts.  The
experts of a token it gets from the tiles of its slots, so that it can tell, as the forward
receiver did, when a source is done with an expert.

**What the forward pass left.**  Three tables: the first id of every (channel, source)
(`recvGblChannelPrefixMatrix`), the slots of every token, and the expert of every tile
(`tileIdToExpertTable`).  The slots are those of a pool that the forward pass has filled, so the
theorems have its inverse map as a hypothesis (`InverseMap`), and the saved first ids are the ones
that the forward receivers computed from their headers.

**The warp.**  One warp for a (channel, peer), with a lane for every source node.  The lane of
`receiveGrad` has the fields of the forward lane, and what it does to a row has the id, the
slots and the fired ranges (`GradTaken`), but no weights and no maps: these were written forward.

* `gradExpertRow_eq`: the tiles of a token's slots name the experts it was routed to, because
  tiles are not shared between experts.
* `receiveGrad_inv`: a lane of the backward receiver goes through the states of the lane of the
  forward receiver, although it reads none of what determined them there.  It is the step lemma;
  the run lemma is `gradsTaken_interleaves`, over every mixture of the sources and every delivery
  in batches.
* `dispatchGrads_lands`: over all receivers of a rank, the gradients land where the activations of
  their tokens went.
-/

namespace StreamEP.Internode

open Finset Loop

variable {sh : NodeShape} {Row Weight Grad : Type}

/-- What the warp does to one gradient row: the stores, and after them the ranges it fires. -/
structure GradTaken (Grad : Type) where
  landed : LandedGrad Grad
  fired : List (ℕ × ℕ)

/-- Count one entry of `e_local_row`. -/
def countExpert (seenForSrc : ℕ → ℕ) (eLocal : ℤ) : ℕ → ℕ :=
  if eLocal < 0 then seenForSrc
  else Function.update seenForSrc eLocal.toNat (seenForSrc eLocal.toNat + 1)

namespace NodeWorld

variable (w : NodeWorld sh Row Weight) (g c n : ℕ) (m : PoolMemory Row Weight)

/-! ### What the forward pass left -/

/-- `recv_gbl_channel_prefix_matrix`, where the forward receivers saved their first ids. -/
def recvGblChannelPrefixMatrix (i : ℕ) : ℕ :=
  let srcWorld := i / sh.numChannels
  w.totalOffset g (i % sh.numChannels) (srcWorld % sh.numNvlPeers) (srcWorld / sh.numNvlPeers)

/-- `tile_id_to_expert` -/
def tileIdToExpertTable (tileId : ℕ) : ℕ :=
  tileIdToExpert sh.numExpertsPerRank (expertPoolBlockOffset sh.toShape (w.seenTable g)) tileId

/-! ### The warp -/

/-- `e_local_row`: the experts of a token, from the tiles of its slots. -/
def gradExpertRow (recvTokenIdx k : ℕ) : ℤ :=
  let slot : ℤ := m (.recvTokenToSlots (recvTokenIdx * sh.numTopk + k))
  if slot < 0 then -1 else (w.tileIdToExpertTable g (slot.toNat / sh.tileM) : ℤ)

def gradLaneInit (s : ℕ) : ReceiverLane where
  totalOffset := w.recvGblChannelPrefixMatrix g (srcWorld sh s n * sh.numChannels + c)
  seen _ := 0
  completedMask := 0

/-- One gradient row: the experts of its token are counted, and the eager fire follows. -/
def receiveGrad (s : ℕ) (lane : ReceiverLane) (row : Grad) : ReceiverLane × GradTaken Grad :=
  let eLocalRow := w.gradExpertRow g m lane.totalOffset
  let seen := for' sh.numTopk (fun seen k => countExpert seen (eLocalRow k)) lane.seen
  let newly := newlyComplete sh.numTopk (w.expected g c n s) seen eLocalRow lane.completedMask
  ({ totalOffset := lane.totalOffset + 1
     seen := seen
     completedMask := lane.completedMask ||| newly },
    { landed := ⟨lane.totalOffset, row⟩
      fired := firedRanges sh.numTopk sh.numExpertsPerRank (w.expected g c n s) seen eLocalRow
        lane.completedMask })

/-- The warp of (channel `c`, peer `n`), after its last batch, on rings of `slots` slots. -/
def nvlGradReceiver (slots : ℕ) (batches : List (Batches.Batch (ℕ × Grad))) :
    Batches.Consumer ((ℕ → ReceiverLane) × List (ℕ × GradTaken Grad)) :=
  Batches.drain slots (Lanes.take (w.receiveGrad g c n m)) batches
    ⟨0, w.numTokensToRecv g c n, w.gradLaneInit g c n, []⟩

/-- What it did, row by row, with the source node of each. -/
def gradsTaken (slots : ℕ) (batches : List (Batches.Batch (ℕ × Grad))) :
    List (ℕ × GradTaken Grad) := (w.nvlGradReceiver g c n m slots batches).regs.2

/-! ### What it is to receive -/

/-- The gradients of the source on node `s`. -/
def gradMessages (dLdy : ℕ → ℕ → Grad) (s : ℕ) : List Grad :=
  (selected (w.inputs (srcWorld sh s n)) g c).map (dLdy (srcWorld sh s n))

/-- The batches deliver a mixture of the substreams. -/
def GradsDelivered (slots : ℕ) (dLdy : ℕ → ℕ → Grad)
    (batches : List (Batches.Batch (ℕ × Grad))) : Prop :=
  ∃ arrivals, Lanes.Interleaves sh.numRdmaRanks (w.gradMessages g c n dLdy) arrivals ∧
    Batches.Delivers slots arrivals 0 batches

/-- What is done to the row at position `j` of the substream from node `s`. -/
def gradTakenAt (dLdy : ℕ → ℕ → Grad) (s j : ℕ) : GradTaken Grad where
  landed := ⟨w.totalOffset g c n s + j, dLdy (srcWorld sh s n) (w.localAt g c n s j).srcIdx⟩
  fired := firedAt sh.toShape (w.expected g c n s) (w.localAt g c n s) j

variable {w g c n m} {s j : ℕ}

/-! ### One lane -/

theorem recvGblChannelPrefixMatrix_eq (hc : c < sh.numChannels) (hn : n < sh.numNvlPeers) :
    w.recvGblChannelPrefixMatrix g (srcWorld sh s n * sh.numChannels + c) =
      w.totalOffset g c n s := by
  simp only [recvGblChannelPrefixMatrix, srcWorld, PrefixSum.flat_div hc, PrefixSum.flat_mod hc,
    PrefixSum.flat_div hn, PrefixSum.flat_mod hn]

/-- Counting the row of a token brings the counters past its positions. -/
theorem countRow {seen : ℕ → ℕ} {eLocalRow : ℕ → ℤ} {packets : ℕ → StreamEP.Packet Row Weight}
    (row : ∀ k < sh.numTopk, eLocalRow k = pairKey sh.toShape packets (j * sh.numTopk + k))
    (seen_eq : ∀ e < sh.numExpertsPerRank,
      seen e = seenBefore sh.toShape packets e (j * sh.numTopk)) :
    ∀ e < sh.numExpertsPerRank,
      for' sh.numTopk (fun seen k => countExpert seen (eLocalRow k)) seen e =
        seenBefore sh.toShape packets e ((j + 1) * sh.numTopk) := by
  have next : (j + 1) * sh.numTopk = j * sh.numTopk + sh.numTopk := Nat.succ_mul _ _
  rw [next]
  refine for_invariant (fun k (seen : ℕ → ℕ) => ∀ e < sh.numExpertsPerRank,
    seen e = seenBefore sh.toShape packets e (j * sh.numTopk + k)) seen_eq ?_
  intro k hk seen inv e he
  rw [countExpert, row k hk, ← Nat.add_assoc, seenBefore, Nat.count_succ, ← seenBefore,
    ← inv e he]
  by_cases none : pairKey sh.toShape packets (j * sh.numTopk + k) < 0
  · have other : pairKey sh.toShape packets (j * sh.numTopk + k) ≠ e := by omega
    rw [if_pos none, if_neg other]
    rfl
  · obtain ⟨e', key⟩ := Int.eq_ofNat_of_zero_le (not_lt.1 none)
    rw [if_neg none, key, Int.toNat_natCast]
    simp only [Nat.cast_inj]
    by_cases same : e' = e
    · subst same
      rw [Function.update_self, if_pos rfl]
    · rw [Function.update_of_ne (Ne.symm same), if_neg same]
      rfl

section Lane

variable (hg : g < sh.numRanks) (hc : c < sh.numChannels) (hs : s < sh.numRdmaRanks)
  (hn : n < sh.numNvlPeers)

include hg hc hs hn

/-- **The tiles of a token's slots name the experts it was routed to.** -/
theorem gradExpertRow_eq (maps : (w.plan hg).InverseMap m)
    (hj : j < (selected (w.inputs (srcWorld sh s n)) g c).length) {k : ℕ} (hk : k < sh.numTopk) :
    w.gradExpertRow g m (w.totalOffset g c n s + j) k =
      pairKey sh.toShape (w.localAt g c n s) (j * sh.numTopk + k) := by
  have ht := List.getElem_mem hj
  have pos := ringPos_selected hj
  set t := (selected (w.inputs (srcWorld sh s n)) g c)[j] with token
  have id := totalOffset_add_ringPos (w := w) hg hc hs hn ht
  have key := (carriesExperts (w := w) (n := n) (s := s)).pairKey_ringPos ht hk
  rw [pos] at id key
  have slot := maps _ (srcWorld_lt hs hn) c hc t ht k hk
  rw [key, gradExpertRow, id]
  simp only [slot]
  rcases PoolPlan.pairSlot_cases (w.plan hg) hc (srcWorld_lt hs hn) ht hk with
    ⟨none, off⟩ | ⟨e, here, pair⟩
  · rw [off, none, if_pos (by omega)]
  · rw [PoolPlan.pairSlot_of_isPair pair, here, if_neg (by omega), Int.toNat_natCast,
      Nat.cast_inj]
    exact PoolPlan.tileIdToExpert_slot pair.expert (PoolPlan.pairIndex_lt pair)

/-- **One gradient row takes its lane where the activation took the forward lane**, and the
same ranges are fired. -/
theorem receiveGrad_inv (maps : (w.plan hg).InverseMap m) {dLdy : ℕ → ℕ → Grad}
    (hj : j < (w.gradMessages g c n dLdy s).length) {lane : ReceiverLane}
    (inv : w.LaneInv g c n s j lane) :
    w.LaneInv g c n s (j + 1)
        (w.receiveGrad g c n m s lane (w.gradMessages g c n dLdy s)[j]).1 ∧
      (w.receiveGrad g c n m s lane (w.gradMessages g c n dLdy s)[j]).2 =
        w.gradTakenAt g c n dLdy s j := by
  have hj : j < (selected (w.inputs (srcWorld sh s n)) g c).length := by
    simpa [gradMessages] using hj
  have row : ∀ k < sh.numTopk, w.gradExpertRow g m lane.totalOffset k =
      pairKey sh.toShape (w.localAt g c n s) (j * sh.numTopk + k) := fun k hk => by
    rw [inv.offset, gradExpertRow_eq hg hc hs hn maps hj hk]
  have counted := countRow row inv.seen
  obtain ⟨mask, fired⟩ := eager_step row counted (fun e he => by
    rw [← seenBefore_all hg hc hs hn he]
    refine seenBefore_mono (Nat.mul_le_mul_right _ ?_)
    simpa [messages] using hj) inv.mask
  refine ⟨⟨?_, counted, mask⟩, ?_⟩
  · simp only [receiveGrad, inv.offset, Nat.add_assoc]
  · have source : (w.localAt g c n s j).srcIdx =
        (selected (w.inputs (srcWorld sh s n)) g c)[j] := by
      rw [localAt, List.getD_eq_getElem?_getD, List.getElem?_eq_getElem hj]
      rfl
    rw [inv.offset] at fired
    simp only [receiveGrad, gradTakenAt, fired, inv.offset, source, gradMessages,
      List.getElem_map]

end Lane

/-! ### The warp -/

/-- **The rows of one source are treated as the routing determines**, for every mixture of the
sources and every delivery in batches. -/
theorem gradsTaken_interleaves (hg : g < sh.numRanks) (hc : c < sh.numChannels)
    (hn : n < sh.numNvlPeers) (maps : (w.plan hg).InverseMap m) {slots : ℕ}
    {dLdy : ℕ → ℕ → Grad} {batches : List (Batches.Batch (ℕ × Grad))}
    (delivered : w.GradsDelivered g c n slots dLdy batches) :
    Lanes.Interleaves sh.numRdmaRanks
      (fun s => (List.range (w.messages g c n s).length).map (w.gradTakenAt g c n dLdy s))
      (w.gradsTaken g c n m slots batches) := by
  obtain ⟨arrivals, mixed, delivers⟩ := delivered
  have lengths : ∀ s, (w.gradMessages g c n dLdy s).length = (w.messages g c n s).length :=
    fun s => by rw [gradMessages, messages, List.length_map, List.length_map]
  have all : w.numTokensToRecv g c n =
      ∑ s ∈ range sh.numRdmaRanks, ((w.gradMessages g c n dLdy s).length : ℤ) := by
    rw [numTokensToRecv_eq hg hc]
    exact sum_congr rfl fun s _ => by rw [lengths s]
  have init : ∀ s, w.LaneInv g c n s 0 (w.gradLaneInit g c n s) := fun s => by
    rw [gradLaneInit, recvGblChannelPrefixMatrix_eq hc hn]
    exact laneInit_inv s
  have drained := Lanes.drain_interleaves mixed delivers all (w.LaneInv g c n)
    (fun s _ => init s) (fun s hs j hj lane inv => receiveGrad_inv hg hc hs hn maps hj inv)
  simp only [lengths] at drained
  exact drained

/-! ### All receivers of the rank -/

section Rank

variable (w g m)

/-- The batches of gradients of every (channel, peer) ring. -/
abbrev GradDeliveries (Grad : Type) : Type := ℕ → ℕ → List (Batches.Batch (ℕ × Grad))

/-- Every ring of rank `g` delivers a mixture of its substreams. -/
def DeliversAllGrads (slots : ℕ) (dLdy : ℕ → ℕ → Grad) (batches : GradDeliveries Grad) : Prop :=
  ∀ c < sh.numChannels, ∀ n < sh.numNvlPeers, w.GradsDelivered g c n slots dLdy (batches c n)

/-- The gradients landed of channel `c` and source rank `src`. -/
def landedGrads (slots : ℕ) (batches : GradDeliveries Grad) (c src : ℕ) :
    List (LandedGrad Grad) :=
  (Lanes.of (sh.rdmaRank src)
    (w.gradsTaken g c (sh.nvlRank src) m slots (batches c (sh.nvlRank src)))).map (·.landed)

/-- What all receivers of the rank store, by peer, then channel. -/
def allGradStores (slots : ℕ) (batches : GradDeliveries Grad) :
    List (Store.Write fun _ : ℕ => Grad) :=
  (List.range sh.numNvlPeers).flatMap fun n =>
    (List.range sh.numChannels).flatMap fun c =>
      (w.gradsTaken g c n m slots (batches c n)).flatMap fun x => x.2.landed.stores sh.numTopk m

variable {w g m} {slots : ℕ} {dLdy : ℕ → ℕ → Grad} {gradBatches : GradDeliveries Grad}
  (hg : g < sh.numRanks) (maps : (w.plan hg).InverseMap m)
  (delivers : w.DeliversAllGrads g slots dLdy gradBatches)

include maps delivers

/-- **The receivers derive the ids of the forward run.** -/
theorem landedGrads_eq {src : ℕ} (hc : c < sh.numChannels) (hsrc : src < sh.numRanks) :
    w.landedGrads g m slots gradBatches c src =
      PoolPlan.gradsOf w.inputs g dLdy c src := by
  have hs := NodeShape.rdmaRank_lt hsrc
  have hn : sh.nvlRank src < sh.numNvlPeers := NodeShape.nvlRank_lt src
  have same : srcWorld sh (sh.rdmaRank src) (sh.nvlRank src) = src := NodeShape.rank_eq src
  have lane := (gradsTaken_interleaves hg hc hn maps (delivers c hc _ hn)).streams _ hs
  rw [landedGrads, lane, PoolPlan.gradsOf, List.map_map]
  refine List.ext_getElem (by simp [messages, same]) fun j hj hj' => ?_
  have hj : j < (selected (w.inputs src) g c).length := by simpa using hj'
  have id := totalOffset_add_ringPos (w := w) hg hc hs hn
    (t := (selected (w.inputs src) g c)[j]) (by rw [same]; exact List.getElem_mem hj)
  rw [same, ringPos_selected hj] at id
  simp only [List.getElem_map, List.getElem_range, Function.comp_apply, gradTakenAt, id, localAt,
    same, List.getD_eq_getElem?_getD, List.getElem?_eq_getElem hj, Option.getD_some]
  rfl

/-- By source, the stores are those of the landed gradients. -/
theorem allGradStores_perm :
    (w.allGradStores g m slots gradBatches).Perm
      (StreamEP.allGradStores sh.toShape m (w.landedGrads g m slots gradBatches)) := by
  have warps : (w.allGradStores g m slots gradBatches).Perm
      ((List.range sh.numNvlPeers).flatMap fun n => (List.range sh.numChannels).flatMap fun c =>
        (List.range sh.numRdmaRanks).flatMap fun s =>
          (w.landedGrads g m slots gradBatches c (s * sh.numNvlPeers + n)).flatMap
            (LandedGrad.stores sh.numTopk m)) := by
    refine List.Perm.flatMap_left _ fun n hn => List.Perm.flatMap_left _ fun c hc => ?_
    have hn := List.mem_range.1 hn
    have hc := List.mem_range.1 hc
    have mixed := gradsTaken_interleaves hg hc hn maps (delivers c hc n hn)
    refine ((Lanes.perm_byLane mixed.lanes).flatMap_right _).trans ?_
    rw [Lanes.inTurn, List.flatMap_assoc]
    refine List.Perm.of_eq (List.flatMap_congr fun s hs => ?_)
    have node : sh.rdmaRank (s * sh.numNvlPeers + n) = s := NodeShape.rdmaRank_flat hn
    have peer : sh.nvlRank (s * sh.numNvlPeers + n) = n := NodeShape.nvlRank_flat hn
    rw [landedGrads, node, peer, List.flatMap_map, List.flatMap_map]
  refine warps.trans ?_
  rw [StreamEP.allGradStores, sh.numRanks_eq]
  exact PrefixSum.perm_flatMap_flat _ _ _ fun src c =>
    (w.landedGrads g m slots gradBatches c src).flatMap (LandedGrad.stores sh.numTopk m)

end Rank

/-- **Gradients land where the activations of their tokens went**, for any mixtures and batches
of either run and any order of the stores. -/
theorem dispatchGrads_lands (hg : g < sh.numRanks) {batches : NodeDeliveries Row Weight}
    (delivers : w.DeliversAll g batches) (left : LeftBy sh.numTopk (w.allLanded g batches) m)
    {slots : ℕ} {dLdy : ℕ → ℕ → Grad} {gradBatches : GradDeliveries Grad}
    (deliversGrads : w.DeliversAllGrads g slots dLdy gradBatches)
    {stores : List (Store.Write fun _ : ℕ => Grad)}
    (all : stores.Perm (w.allGradStores g m slots gradBatches)) :
    GradsLanded w.inputs (w.plan hg).RealSlot dLdy (w.landed g batches)
      (w.landedGrads g m slots gradBatches) m stores := by
  have left := left.perm (allLanded_perm hg delivers)
  have maps := PoolPlan.inverseMap_of_left left
  refine PoolPlan.gradsLanded hg left (fun _ _ => ⟨rfl, rfl⟩) ?_ ?_
    (all.trans (allGradStores_perm hg maps deliversGrads))
  · intro c hc src hsrc
    exact landed_eq hg delivers hc hsrc
  · intro c hc src hsrc
    exact landedGrads_eq hg maps deliversGrads hc hsrc

end NodeWorld

end StreamEP.Internode
