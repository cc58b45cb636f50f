import Mathlib.Algebra.BigOperators.Pi
import StreamEP.Intranode.CombineProgress
import StreamEP.Intranode.Layout

/-!
# Dispatch followed by combine

The rows that ranks feed to combine are indexed by the ids that dispatch gave their
tokens, and no token number travels with a packet.  `combine_returns` says that the sums
come out right all the same: in every reachable state of the combine of channel `c` at
rank `g`, a warp has read, for its token and for a rank that received it, the very packet
that rank sent for the token's id; so what is returned for a token is the sum over exactly
these ranks, and for the weight of `(t, k)` the value at the slot of `(t, k)` on the rank
that owns the expert.

**What dispatch left.**  `LeftByDispatch` says of the memories of all ranks that they are what
their receivers store, in some order, for some delivery of every substream.  Nothing else of the
dispatch enters.

**By position and by token.**  The rings know positions, and the statement is about tokens.
`combinePayload_expected` turns one into the other: the packet at the position recorded for a
token is the packet of the token's id.  So the sum that the rings return is a sum over ranks
(`out_eq_sum`).

**Weights.**  A packet has a weight for every `k`, zero where the expert is not on the rank that
sends it.  One rank owns the expert of `(t, k)`, and its packet has the weight of the slot that
`recv_token_to_slots` names (`recvTokenToSlots_landed`), so the sum of the weights has one term
(`snd_combined`).
-/

namespace StreamEP.Intranode

open Finset ReplayRings

variable {sh : Shape} {Row Weight : Type} [Zero Weight]

namespace World

/-- The memory of every rank is what dispatch left there, stored in some order. -/
def LeftByDispatch (w : World sh Row Weight) (batches : ℕ → Deliveries Row Weight)
    (memory : ℕ → PoolMemory Row Weight) : Prop :=
  ∀ r < sh.numRanks, ∃ stores init,
    List.Perm stores (allStores sh.numTopk (w.allLanded r (batches r))) ∧
      memory r = Store.run stores init

section Statements

variable {X W : Type} [AddCommMonoid X] [AddCommMonoid W] (w : World sh Row Weight)
  (batches : ℕ → Deliveries Row Weight) (io : CombineInputs X W) (g c : ℕ)

/-- The value `v` is right for token `t` of rank `g`. -/
structure Returned (t : ℕ) (v : X × (ℕ → W)) : Prop where
  /-- A rank that received the token landed it once, with this id. -/
  landed : ∀ r < sh.numRanks, (w.inputs g).InRank r t →
    ∃ l ∈ w.landed r (batches r) c g, l.packet.srcIdx = t
  id : ∀ r < sh.numRanks, ∀ l ∈ w.landed r (batches r) c g, l.packet.srcIdx = t →
    l.recvTokenId = recvTokenId w.inputs r g t
  /-- The rows of exactly these ranks are added up. -/
  row : v.1 = ∑ r ∈ (range sh.numRanks).filter fun r => (w.inputs g).InRank r t,
    io.x r (recvTokenId w.inputs r g t)
  /-- Where no expert was chosen, the weight is zero; -/
  unchosen : ∀ k < sh.numTopk, (w.inputs g).topkIdx (t * sh.numTopk + k) < 0 → v.2 k = 0
  /-- elsewhere it is the value at the slot on the rank that owns the expert. -/
  weight : ∀ k < sh.numTopk, ∀ r < sh.numRanks, ∀ e < sh.numExpertsPerRank,
    (w.inputs g).RoutedTo r e (t * sh.numTopk + k) →
      ∀ l ∈ w.landed r (batches r) c g, l.packet.srcIdx = t →
        0 ≤ l.slot k ∧ v.2 k = io.perSlotWeights r (l.slot k).toNat

/-- What holds of the combine in state `s`. -/
structure CombineReturns (cfg : Config) (uninitHead : ℕ → ℤ)
    (s : State (Fin sh.numRanks) (Fin numReduceWarps) (X × (ℕ → W))) : Prop where
  /-- A warp has read the packet that was sent for its token's id, -/
  read : ∀ i r v, s.reading i = true → s.regs i r = some v →
    (w.inputs g).InRank r ((w.combinePlan g c cfg uninitHead).current s i) ∧
      v = combinePacket sh io r
        (recvTokenId w.inputs r g ((w.combinePlan g c cfg uninitHead).current s i))
  /-- what has been returned is right, -/
  returned : ∀ t v, channelStart (w.inputs g).numTokens sh.numChannels c ≤ t →
    t < channelEnd (w.inputs g).numTokens sh.numChannels c → s.out t = some v →
      w.Returned batches io g c t v
  /-- and in the end something has been returned for every token. -/
  complete : w.CombineDone g c cfg uninitHead s →
    ∀ t, channelStart (w.inputs g).numTokens sh.numChannels c ≤ t →
      t < channelEnd (w.inputs g).numTokens sh.numChannels c → ∃ v, s.out t = some v

end Statements

variable {X W : Type} [AddCommMonoid X] [AddCommMonoid W] {w : World sh Row Weight}
  {batches : ℕ → Deliveries Row Weight} {memory : ℕ → PoolMemory Row Weight}
  {io : CombineInputs X W} {g c : ℕ} {cfg : Config} {uninitHead : ℕ → ℤ}

/-! ### Packets by token -/

omit [AddCommMonoid X] in
/-- The packet at a token's position is the packet of the token's id. -/
theorem combinePayload_expected (hg : g < sh.numRanks) (hc : c < sh.numChannels) {t : ℕ}
    (lo : channelStart (w.inputs g).numTokens sh.numChannels c ≤ t)
    (hi : t < channelEnd (w.inputs g).numTokens sh.numChannels c) {r : Fin sh.numRanks}
    (goes : (w.inputs g).InRank r t) :
    w.combinePayload g c io r ((w.combinePlan g c cfg uninitHead).expected t r).toNat =
      combinePacket sh io r (recvTokenId w.inputs r g t) := by
  rw [combinePlan_expected cfg uninitHead hc lo hi, encodedHead, if_pos goes,
    Int.toNat_natCast, combinePayload, combineTokenStart_add_ringPos r.isLt hg hc lo]

/-- A token's sum runs over the ranks that received it. -/
theorem combined_eq (hg : g < sh.numRanks) (hc : c < sh.numChannels) {t : ℕ}
    (lo : channelStart (w.inputs g).numTokens sh.numChannels c ≤ t)
    (hi : t < channelEnd (w.inputs g).numTokens sh.numChannels c) :
    combined (w.combinePlan g c cfg uninitHead) (w.combinePayload g c io) t =
      ∑ r ∈ (range sh.numRanks).filter fun r => (w.inputs g).InRank r t,
        combinePacket sh io r (recvTokenId w.inputs r g t) := by
  rw [sum_filter, ← Fin.sum_univ_eq_sum_range (fun r => if (w.inputs g).InRank r t then
    combinePacket sh io r (recvTokenId w.inputs r g t) else 0), combined]
  refine sum_congr rfl fun r _ => ?_
  have recorded := encodedHead_nonneg (w := w) (g := g) (c := c) (r := r) (t := t)
  rw [← combinePlan_expected cfg uninitHead hc lo hi] at recorded
  by_cases goes : (w.inputs g).InRank r t
  · rw [if_pos (recorded.2 goes), if_pos goes, combinePayload_expected hg hc lo hi goes]
  · rw [if_neg (mt recorded.1 goes), if_neg goes]

/-- Whatever is returned for a token is the sum of its packets. -/
theorem out_eq_sum (hg : g < sh.numRanks) (hc : c < sh.numChannels)
    {slots : Fin sh.numRanks → ℕ → X × (ℕ → W)}
    {s : ReplayRings.State (Fin sh.numRanks) (Fin numReduceWarps) (X × (ℕ → W))}
    (reach : (w.combineSystem g c cfg uninitHead io slots).Reachable s) {t : ℕ}
    (lo : channelStart (w.inputs g).numTokens sh.numChannels c ≤ t)
    (hi : t < channelEnd (w.inputs g).numTokens sh.numChannels c) {v : X × (ℕ → W)}
    (got : s.out t = some v) :
    v = ∑ r ∈ (range sh.numRanks).filter fun r => (w.inputs g).InRank r t,
      combinePacket sh io r (recvTokenId w.inputs r g t) := by
  have inv := ReplayRings.reachable_inv (combinePlan_sound cfg uninitHead hg hc) reach
  rw [inv.readers.out t v got, combined_eq hg hc lo hi]

/-! ### Landed tokens by token number -/

section Landed

variable {r : ℕ} (hr : r < sh.numRanks) (hg : g < sh.numRanks) (hc : c < sh.numChannels)
  (cleared : sh.numExpertsPerRank ≤ numThreadsPerRank sh)
  (delivers : w.DeliversAll r (batches r)) {t : ℕ}

include hr hg hc cleared delivers

theorem exists_landed (lo : channelStart (w.inputs g).numTokens sh.numChannels c ≤ t)
    (hi : t < channelEnd (w.inputs g).numTokens sh.numChannels c)
    (goes : (w.inputs g).InRank r t) :
    w.landedOf r c g t ∈ w.landed r (batches r) c g := by
  refine (mem_landed hr cleared delivers hc hg).2 ⟨t, mem_selected.2 ⟨⟨lo, hi⟩, goes⟩, rfl⟩

theorem landed_unique {l : Landed Row Weight} (hl : l ∈ w.landed r (batches r) c g)
    (same : l.packet.srcIdx = t) : l = w.landedOf r c g t := by
  obtain ⟨t', -, rfl⟩ := (mem_landed hr cleared delivers hc hg).1 hl
  have token : t' = t := same
  rw [token]

/-- `recv_token_to_slots` holds the slots of a landed token. -/
theorem recvTokenToSlots_landed (left : w.LeftByDispatch batches memory)
    (lo : channelStart (w.inputs g).numTokens sh.numChannels c ≤ t)
    (hi : t < channelEnd (w.inputs g).numTokens sh.numChannels c)
    (goes : (w.inputs g).InRank r t) {k : ℕ} (hk : k < sh.numTopk) :
    memory r (.recvTokenToSlots (recvTokenId w.inputs r g t * sh.numTopk + k)) =
      (w.plan r).pairSlot c g (t * sh.numTopk + k) := by
  obtain ⟨stores, init, all, memory_eq⟩ := left r hr
  have maps := poolMaps_of_perm (layout_placed hr cleared delivers) all init
  have member : w.landedOf r c g t ∈ w.allLanded r (batches r) := by
    rw [allLanded_eq hr cleared delivers]
    exact PoolPlan.mem_landedTokens.2
      ⟨g, hg, c, hc, t, mem_selected.2 ⟨⟨lo, hi⟩, goes⟩, rfl⟩
  rw [memory_eq, ← PoolPlan.landedOf_slot hk]
  exact maps.inverse _ member k hk

end Landed

/-! ### Weights -/

omit [AddCommMonoid X] [Zero Weight] in
/-- The sum of the packets' weights for one `k`, when slots are known. -/
theorem snd_sum_packets {t k : ℕ} {ranks : Finset ℕ}
    (slots : ∀ r ∈ ranks, io.recvTokenToSlots r (recvTokenId w.inputs r g t * sh.numTopk + k) =
      (w.plan r).pairSlot c g (t * sh.numTopk + k)) :
    ∑ r ∈ ranks, (combinePacket sh io r (recvTokenId w.inputs r g t)).2 k =
      ∑ r ∈ ranks, if 0 ≤ (w.plan r).pairSlot c g (t * sh.numTopk + k) then
        io.perSlotWeights r ((w.plan r).pairSlot c g (t * sh.numTopk + k)).toNat else 0 := by
  refine sum_congr rfl fun r hr => ?_
  simp only [combinePacket, slots r hr]

/-! ### The result -/

section Result

variable (hg : g < sh.numRanks) (hc : c < sh.numChannels)
  (cleared : sh.numExpertsPerRank ≤ numThreadsPerRank sh)
  (delivers : ∀ r < sh.numRanks, w.DeliversAll r (batches r))
  (left : w.LeftByDispatch batches memory)
  (persisted : ∀ r idx, io.recvTokenToSlots r idx = memory r (.recvTokenToSlots idx))

include hg hc cleared delivers left persisted

/-- The weight returned for one `k`. -/
theorem snd_combined {t k : ℕ} (lo : channelStart (w.inputs g).numTokens sh.numChannels c ≤ t)
    (hi : t < channelEnd (w.inputs g).numTokens sh.numChannels c) (hk : k < sh.numTopk) :
    (combined (w.combinePlan g c cfg uninitHead) (w.combinePayload g c io) t).2 k =
      ∑ r ∈ (range sh.numRanks).filter fun r => (w.inputs g).InRank r t,
        if 0 ≤ (w.plan r).pairSlot c g (t * sh.numTopk + k) then
          io.perSlotWeights r ((w.plan r).pairSlot c g (t * sh.numTopk + k)).toNat else 0 := by
  rw [combined_eq hg hc lo hi, Prod.snd_sum, Finset.sum_apply]
  refine snd_sum_packets fun r hr => ?_
  obtain ⟨hr, goes⟩ := mem_filter.1 hr
  have hr := mem_range.1 hr
  rw [persisted]
  exact recvTokenToSlots_landed hr hg hc cleared (delivers r hr) left lo hi goes hk

/-- The sum of a token's packets is what ought to be returned for it. -/
theorem returned_combined {t : ℕ}
    (lo : channelStart (w.inputs g).numTokens sh.numChannels c ≤ t)
    (hi : t < channelEnd (w.inputs g).numTokens sh.numChannels c) :
    w.Returned batches io g c t
      (combined (w.combinePlan g c cfg uninitHead) (w.combinePayload g c io) t) where
  landed r hr goes :=
    ⟨_, exists_landed hr hg hc cleared (delivers r hr) lo hi goes, rfl⟩
  id r hr l hl same := by
    rw [landed_unique hr hg hc cleared (delivers r hr) hl same]
    rfl
  row := by
    rw [combined_eq hg hc lo hi, Prod.fst_sum]
    rfl
  unchosen k hk none := by
    rw [snd_combined hg hc cleared delivers left persisted lo hi hk]
    refine sum_eq_zero fun r _ => if_neg ?_
    rw [PoolPlan.pairSlot_neg_of_unchosen none]
    decide
  weight k hk r hr e he routed l hl same := by
    have inside : t < (w.inputs g).numTokens := lt_of_lt_of_le hi (channelEnd_le _ _ _)
    have goes := (w.inputs g).inRank_of_routedTo inside hk hr he routed
    have pair : IsPair w.inputs r e c g (t * sh.numTopk + k) :=
      isPair_of_selected hc hg (mem_selected.2 ⟨⟨lo, hi⟩, goes⟩) hk
        ((transformIdx_eq_iff he).2 routed) he
    have slot : 0 ≤ (w.plan r).pairSlot c g (t * sh.numTopk + k) := by
      rw [PoolPlan.pairSlot_of_isPair pair]
      exact Int.natCast_nonneg _
    have alone : ∀ r' ∈ (range sh.numRanks).filter fun r => (w.inputs g).InRank r t, r' ≠ r →
        (if 0 ≤ (w.plan r').pairSlot c g (t * sh.numTopk + k) then
          io.perSlotWeights r' ((w.plan r').pairSlot c g (t * sh.numTopk + k)).toNat else 0) =
          0 := by
      intro r' _ other
      rw [PoolPlan.pairSlot_neg_of_ne he routed other]
      exact if_neg (by decide)
    have member : r ∈ (range sh.numRanks).filter fun r => (w.inputs g).InRank r t :=
      mem_filter.2 ⟨mem_range.2 hr, goes⟩
    rw [landed_unique hr hg hc cleared (delivers r hr) hl same, landedOf,
      PoolPlan.landedOf_slot hk, snd_combined hg hc cleared delivers left persisted lo hi hk,
      sum_eq_single r alone fun absent => absurd member absent, if_pos slot]
    exact ⟨slot, rfl⟩

/-- **Combine returns the sum over the ranks that received a token**, in every state of
every run. -/
theorem combine_returns {slots : Fin sh.numRanks → ℕ → X × (ℕ → W)}
    {s : State (Fin sh.numRanks) (Fin numReduceWarps) (X × (ℕ → W))}
    (reach : (w.combineSystem g c cfg uninitHead io slots).Reachable s) :
    w.CombineReturns batches io g c cfg uninitHead s where
  read i r v busy got := by
    have readers := (reachable_inv (combinePlan_sound cfg uninitHead hg hc) reach).readers
    have more := readers.arrived i busy
    obtain ⟨lo, hi⟩ := combinePlan_token more
    obtain ⟨has, rfl⟩ := readers.regs i busy r v got
    have goes : (w.inputs g).InRank r ((w.combinePlan g c cfg uninitHead).current s i) := by
      rw [ReplayRings.Plan.current, combinePlan_expected cfg uninitHead hc lo hi] at has
      exact encodedHead_nonneg.1 has
    exact ⟨goes, combinePayload_expected hg hc lo hi goes⟩
  returned t v lo hi got := by
    have readers := (reachable_inv (combinePlan_sound cfg uninitHead hg hc) reach).readers
    rw [readers.out t v got]
    exact returned_combined hg hc cleared delivers left persisted lo hi
  complete done t lo hi := Option.isSome_iff_exists.1 (done.combined t lo hi)

end Result

/-- A ring with room for a chunk of one packet and the lag of the warps. -/
def exampleConfig : Config :=
  { smallConfig with
    numMaxNvlChunkedSendTokens := 1
    numMaxNvlChunkedRecvTokens := 23
    nvlSend_pos := Nat.one_pos
    nvlSend_lt_recv := Nat.le_of_ble_eq_true rfl }

/-- One packet at a time to every rank of the example dispatch. -/
def exampleBatches (r : ℕ) : Deliveries ℕ ℕ := fun c src =>
  Batches.oneByOne (substream (exampleWorld.inputs src) r c)

/-- What the ranks of the example dispatch hold afterwards. -/
def exampleMemory (r : ℕ) : PoolMemory ℕ ℕ :=
  Store.run (allStores exampleShape.numTopk (exampleWorld.allLanded r (exampleBatches r)))
    (freshMemory 0 0)

/-- Every rank feeds the numbers of its rows and slots. -/
def exampleIO : CombineInputs ℕ ℕ where
  x r id := 10 * r + id
  perSlotWeights r slot := 10 * r + slot
  recvTokenToSlots r idx := exampleMemory r (.recvTokenToSlots idx)

/-- The example dispatch, combined to its end. -/
theorem exampleWorld_combine_returns :
    ∃ s, (exampleWorld.combineSystem 0 0 exampleConfig (fun _ => 0) exampleIO
        fun _ _ => 0).Reachable s ∧
      exampleWorld.CombineDone 0 0 exampleConfig (fun _ => 0) s ∧
        exampleWorld.CombineReturns exampleBatches exampleIO 0 0 exampleConfig (fun _ => 0) s := by
  have fit : exampleWorld.HeadsFit 0 0 := fun r _ =>
    (Nat.sub_le _ _).trans ((Nat.count_le _).trans ((channelEnd_le _ _ _).trans (by decide)))
  have begins : (exampleWorld.combineSystem 0 0 exampleConfig (fun _ => 0) exampleIO
    fun _ _ => 0).Reachable _ := .init
  obtain ⟨s, reach, done⟩ := combineSystem_completes (by decide) (by decide) fit
    (Or.inl (by decide)) begins
  exact ⟨s, reach, done, combine_returns (by decide) (by decide) (by decide)
    (fun _ _ _ _ _ _ => Batches.delivers_oneByOne _ _)
    (fun r _ => ⟨_, _, List.Perm.refl _, rfl⟩) (fun _ _ => rfl) reach⟩

end World

end StreamEP.Intranode
