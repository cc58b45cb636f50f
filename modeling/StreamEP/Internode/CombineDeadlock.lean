import StreamEP.Internode.CombineProgress
import StreamEP.Internode.CombineSum
import StreamEP.Lib.BaselineRings

/-!
# The configs with which internode combine cannot get stuck

`CombineProgress` tells for one routing when combine goes on.  For all of them that is a
condition on the config.

**Baselines.**  Tails go on from one iteration to the next.  A receiver warp reads where the last
one ended when it has passed `sync_rdma_receiver_smem`, and there is no barrier behind that; a
warp that has retired writes back the tails as they are.  So a warp that is late may take its
tokens for those of the last iteration (`lateBaseline_waits`), with any config.  Therefore all
results here are about runs in which every warp reads its baselines before another one writes
them back, `BaselineRings.InTime`.  The heads of the forwarders count from zero: no credit of an
earlier combine is still under way.

**A condition on the run, not on the state.**  `combineSystemWithBaselines` has the reads and the
write-backs as events of their own, with nothing that orders them.  `InTime` says of an event that
it is not a write-back while some other warp has yet to read, and a result about all states that
such runs reach is what can be said of the config.  Without it no config goes on
(`not_completed_of_late`).

**One routing.**  `NodeWorld.combineGoesOn_iff` is exact for a config and a routing: it goes on
exactly when there is room behind the forwarders that sit the last chunk out.  `lastChunk_stalls`
is a run without that room, with a config that the launch accepts and 33 tokens.

**Configs.**  `deadlockFree_iff_roomForLastChunk`: besides what the launch asserts, there must be
room for what is left of an RDMA chunk after whole rounds of the large warp.  The launch does not
ask for that (`raggedConfig_sticks`), but the recommended configs have it
(`getCombineConfig_deadlockFree`).

**Why the condition is necessary.**  For each config without the room there is a routing that
gets stuck, and the section `Stall` builds it: all tokens come from rank 0 and go to node 0; first
some for rank 1, then the others for rank 0 itself, so many that the last chunk of the large warp
begins a round which it does not finish.  The forwarder that sits this round out shows the head of
its last token, and the sender of peer 0 waits for a chunk's room behind it.

**Heads.**  The warps go by the heads that dispatch recorded.  These must be exact, which they
are for every routing between up to eight nodes, if the blocks read the starts of their ranges in
order; beyond that it depends on the routing (`NvlHeads.nvl_heads_exact`).  `CombineDeadlockFree`
has what is known of the heads as a parameter, and the equivalence holds for both readings.
-/

namespace StreamEP.Internode

open Finset Stream Intranode

variable {sh : NodeShape} {Row Weight : Type}

/-! ### Combine with its baselines -/

namespace NodeWorld

section Baselines

variable (w : NodeWorld sh Row Weight) (g c : ℕ) (cfg : Config)
  (heads : Fin sh.numRdmaRanks → NvlHeads) (uninit : ℕ → ℤ)

/-- Everybody who works on channel `c` of rank `g`.  The tails and `combine_reader_prev_tail` are
counted from where the iteration before has left them. -/
def combineSystemWithBaselines {X W : Type} [AddCommMonoid X] [AddCommMonoid W]
    (io : CombineInputs X W)
    (nvlSlots : Fin sh.numRdmaRanks → Fin numMaxNvlPeers → ℕ → X × (ℕ → W))
    (rdmaSlots : Fin sh.numRdmaRanks → ℕ → X × (ℕ → W)) :=
  BaselineRings.system (w.nvlPlan g c cfg heads) (w.rdmaPlan g c cfg heads uninit)
    cfg.numMaxRdmaChunkedSendTokens
    (fun d => w.nvlPayload (sameGpuIdx sh g d) c (sh.rdmaRank g) io) nvlSlots rdmaSlots

/-- With baselines that are read in time, combine is through or somebody can go on. -/
def CombineGoesOn : Prop :=
  ∀ (X W : Type) [AddCommMonoid X] [AddCommMonoid W] (io : CombineInputs X W)
    (nvlSlots : Fin sh.numRdmaRanks → Fin numMaxNvlPeers → ℕ → X × (ℕ → W))
    (rdmaSlots : Fin sh.numRdmaRanks → ℕ → X × (ℕ → W)),
    ∀ s, (w.combineSystemWithBaselines g c cfg heads uninit io nvlSlots rdmaSlots).ReachableUnder
        BaselineRings.InTime s →
      w.CombineDone g c cfg heads uninit s.credited ∨ ∃ e s', BaselineRings.InTime s e ∧
        (w.combineSystemWithBaselines g c cfg heads uninit io nvlSlots rdmaSlots).step s e = some s'

variable {w g c cfg heads uninit}

section Routing

variable (hg : g < sh.numRanks) (hc : c < sh.numChannels)
  (peers : sh.numNvlPeers = numMaxNvlPeers) (launch : CombineLaunch sh.numRdmaRanks cfg)
  (left : ∀ d : Fin sh.numRdmaRanks, w.HeadsLeft (sameGpuIdx sh g d) (heads d))
  (exact : ∀ d, (heads d).Exact (w.recvTokens (sameGpuIdx sh g d)))
  (fits : ∀ d, w.numForwarded g c d ≤ kReverseScanSentinel)

include hg hc peers launch left exact fits

/-- **Without the room some run that keeps the order gets stuck**, and nothing at all can happen
any more there. -/
theorem exists_combineStuck (tight : ¬w.RoomBehindIdle g c cfg) {X W : Type} [AddCommMonoid X]
    [AddCommMonoid W] (io : CombineInputs X W)
    (nvlSlots : Fin sh.numRdmaRanks → Fin numMaxNvlPeers → ℕ → X × (ℕ → W))
    (rdmaSlots : Fin sh.numRdmaRanks → ℕ → X × (ℕ → W)) :
    ∃ s, (w.combineSystemWithBaselines g c cfg heads uninit io nvlSlots rdmaSlots).ReachableUnder
        BaselineRings.InTime s ∧ ¬w.CombineDone g c cfg heads uninit s.credited ∧
      ∀ e, (w.combineSystemWithBaselines g c cfg heads uninit io nvlSlots rdmaSlots).step s e =
        none := by
  obtain ⟨r, reach, undone, stuck⟩ : ∃ r, (w.combineSystemWithCredit g c cfg heads uninit io
      nvlSlots rdmaSlots).Reachable r ∧ ¬w.CombineDone g c cfg heads uninit r ∧ ∀ e, _ :=
    exists_stuck hg hc peers launch left exact fits tight
  -- with baselines the same state is stuck, too
  obtain ⟨s, reach', rfl, stuck'⟩ := BaselineRings.exists_stuck reach stuck
  exact ⟨s, reach', undone, stuck'⟩

theorem combineGoesOn_of_room (room : w.RoomBehindIdle g c cfg) :
    w.CombineGoesOn g c cfg heads uninit := by
  intro X W _ _ io nvlSlots rdmaSlots s reach
  have credited := BaselineRings.credited_reachable reach.reachable
  rcases (combine_progress_iff hg hc peers launch left exact fits).2 room s.credited credited with
    done | progress
  · exact Or.inl done
  · exact Or.inr (BaselineRings.exists_step reach progress)

theorem roomBehindIdle_of_goesOn (goesOn : w.CombineGoesOn g c cfg heads uninit) :
    w.RoomBehindIdle g c cfg := by
  by_contra tight
  let io : CombineInputs ℕ ℕ := ⟨fun _ _ => 0, fun _ _ => 0, fun _ _ => 0⟩
  obtain ⟨s, reach, undone, stuck⟩ : ∃ s, (w.combineSystemWithBaselines g c cfg heads uninit io
      (fun _ _ _ => 0) fun _ _ => 0).ReachableUnder BaselineRings.InTime s ∧ _ ∧ ∀ e, _ :=
    exists_combineStuck hg hc peers launch left exact fits tight io _ _
  rcases goesOn ℕ ℕ _ _ _ s reach with done | ⟨e, s', -, fires⟩
  · exact undone done
  · exact Option.some_ne_none s' (fires.symm.trans (stuck e))

/-- **It goes on exactly when there is room behind the forwarders that sit the last chunk out.** -/
theorem combineGoesOn_iff :
    w.CombineGoesOn g c cfg heads uninit ↔ w.RoomBehindIdle g c cfg :=
  ⟨roomBehindIdle_of_goesOn hg hc peers launch left exact fits,
    combineGoesOn_of_room hg hc peers launch left exact fits⟩

end Routing

theorem sixteenWorld_goesOn : ∃ heads : Fin 2 → NvlHeads,
    (∀ d : Fin 2, sixteenWorld.HeadsLeft (sameGpuIdx sixteenRanks 0 d) (heads d)) ∧
      sixteenWorld.CombineGoesOn 0 0 twoChunkConfig heads fun _ => 7 := by
  obtain ⟨heads, left, exact⟩ := exists_exactHeads sixteenWorld 0 (by decide)
  refine ⟨heads, left, (combineGoesOn_iff (by decide) (by decide) rfl twoChunkConfig_launch left
    exact fun d => (numForwarded_le d).trans (by decide)).2 fun d p => ?_⟩
  exact roomBehindLast_of_room (by decide) twoChunkConfig_launch.large (by decide)

/-- Between up to eight nodes the entries are exact when blocks read in order. -/
theorem exact_of_inOrder {f : ℕ} {h : NvlHeads} (nodes : sh.numRdmaRanks ≤ numMaxNvlPeers)
    (left : w.HeadsLeft f h)
    (inOrder : (NvlHeads.system (w.recvTokens f)).ReachableUnder
      (NvlHeads.ReadsInOrder (w.recvTokens f)) h) : h.Exact (w.recvTokens f) := by
  have plain : NvlHeads.FarNodesPlain (w.recvTokens f) := fun _ _ s (hs : s < sh.numRdmaRanks)
    far => absurd (far.trans_lt hs) (not_lt.2 nodes)
  exact (NvlHeads.exact_iff (NvlHeads.reachable_inv inOrder) left.ended).2 plain

/-- **A receiver that reads a baseline too late waits for ever**, for a token with too few
packets behind it. -/
theorem not_completed_of_late (hg : g < sh.numRanks) (hc : c < sh.numChannels)
    (peers : sh.numNvlPeers = numMaxNvlPeers) (launch : CombineLaunch sh.numRdmaRanks cfg)
    (left : ∀ d : Fin sh.numRdmaRanks, w.HeadsLeft (sameGpuIdx sh g d) (heads d))
    {X W : Type} [AddCommMonoid X] [AddCommMonoid W] {io : CombineInputs X W}
    {nvlSlots : Fin sh.numRdmaRanks → Fin numMaxNvlPeers → ℕ → X × (ℕ → W)}
    {rdmaSlots : Fin sh.numRdmaRanks → ℕ → X × (ℕ → W)}
    {s s' : BaselineRings.State (Fin sh.numRdmaRanks) (Fin numMaxNvlPeers)
      (Fin (numWarpsPerForwarder sh.numRdmaRanks)) (Fin (numRdmaReceivers sh.numRdmaRanks))
      (X × (ℕ → W))}
    (reach : (w.combineSystemWithBaselines g c cfg heads uninit io nvlSlots rdmaSlots).Reachable s)
    {v : Fin (numRdmaReceivers sh.numRdmaRanks)} {d : Fin sh.numRdmaRanks} {b m : ℕ}
    (late : s.baseline v d = some b) (hm : m < (w.rdmaPlan g c cfg heads uninit).count v)
    (goes : (w.inputs g).InNode d ((w.rdmaPlan g c cfg heads uninit).token v m))
    (few : w.numForwarded g c d ≤ pos ((w.inputs g).InNode d) (tokenStartIdx (w.inputs g) c)
      ((w.rdmaPlan g c cfg heads uninit).token v m) + b)
    (leads : (w.combineSystemWithBaselines g c cfg heads uninit io nvlSlots rdmaSlots).Leads s s') :
    ¬s'.second.Completed (w.rdmaPlan g c cfg heads uninit) := by
  have sound : CreditedRings.Sound (w.nvlPlan g c cfg heads) (w.rdmaPlan g c cfg heads uninit) :=
    combine_sound hg hc left peers launch
  have follows := rdmaEntries_follows hg hc left cfg uninit
  obtain ⟨lo, hi⟩ := follows.token_inside hm
  have place : (w.rdmaPlan g c cfg heads uninit).expected
      ((w.rdmaPlan g c cfg heads uninit).token v m) d = _ := follows.expected_eq lo hi goes
  refine BaselineRings.not_completed_of_late sound reach late (m := m) ?_ ?_ hm leads
  · exact (follows.expected_nonneg_iff lo hi).2 goes
  · rw [place, rdmaPlan_total hg hc left]
    exact_mod_cast few

end Baselines

/-- Node `d` sends a packet; receiver `v'` has nothing to do and writes the tail back, before `v`
has read its baseline. -/
def lateBaseline {J ι κ μ : Type} (d d' : J) (p : ι) (i : κ) (v v' : μ) :
    List (BaselineRings.Event J ι κ μ) :=
  ((forwardOne d p i).map fun e => .credited (.ring e)) ++
    [.readBaseline v' d, .readBaseline v' d', .credited (.ring (.second (.retire v'))),
      .writeBack v' d, .readBaseline v d]

set_option maxRecDepth 4000 in
/-- **One token is enough**, with a config that leaves all the room one could ask for. -/
theorem lateBaseline_waits : CombineLaunch 2 twoChunkConfig ∧ ∃ s,
    (sixteenWorld.combineSystemWithBaselines 0 0 twoChunkConfig
      (fun d => sixteenHeads (sameGpuIdx sixteenRanks 0 d)) (fun _ => 7) sixteenCombineInputs
      (fun _ _ _ => 0) fun _ _ => 0).Reachable s ∧
    ∀ s', (sixteenWorld.combineSystemWithBaselines 0 0 twoChunkConfig
      (fun d => sixteenHeads (sameGpuIdx sixteenRanks 0 d)) (fun _ => 7) sixteenCombineInputs
      (fun _ _ _ => 0) fun _ _ => 0).Leads s s' →
        ¬s'.second.Completed (sixteenWorld.rdmaPlan 0 0 twoChunkConfig
          (fun d => sixteenHeads (sameGpuIdx sixteenRanks 0 d)) fun _ => 7) := by
  have replays : ((sixteenWorld.combineSystemWithBaselines 0 0 twoChunkConfig
      (fun d => sixteenHeads (sameGpuIdx sixteenRanks 0 d)) (fun _ => 7) sixteenCombineInputs
      (fun _ _ _ => 0) fun _ _ => 0).run (BaselineRings.start (fun _ _ _ => 0) fun _ _ => 0)
        (lateBaseline firstNode secondNode 1 ⟨0, by decide⟩ ⟨0, by decide⟩ ⟨1, by decide⟩)).any
          (fun s => decide (s.baseline ⟨0, by decide⟩ firstNode = some 1)) = true := by
    decide +kernel
  obtain ⟨s, replay, late⟩ := (Option.any_eq_true _ _).1 replays
  refine ⟨twoChunkConfig_launch, s, .run .init replay, fun s' leads => ?_⟩
  exact not_completed_of_late (by decide) (by decide) rfl twoChunkConfig_launch sixteenHeads_left
    (.run .init replay) (of_decide_eq_true late) (m := 0) (by decide +kernel) (by decide +kernel)
    (by decide +kernel) leads

end NodeWorld

/-! ### The exact condition on a configuration -/

/-- The rings have room for a chunk, for the forwarders of a large warp, and for what is left
of an RDMA chunk after whole rounds of them. -/
def RoomForLastChunk (numRdmaRanks : ℕ) (cfg : Config) : Prop :=
  cfg.numMaxNvlChunkedSendTokens + numWarpsPerForwarder numRdmaRanks +
      cfg.numMaxRdmaChunkedSendTokens % numWarpsPerForwarder numRdmaRanks ≤
    cfg.numMaxNvlChunkedRecvTokens / numRdmaRanks + 2

/-- No routing, however large, brings a combine between so many nodes into a state where
nobody can go on, as long as dispatch recorded its heads as `Recorded` says. -/
def CombineDeadlockFree (numRdmaRanks : ℕ) (cfg : Config)
    (Recorded : RecvTokens → NvlHeads → Prop) : Prop :=
  ∀ (sh : NodeShape) (Row Weight : Type) (w : NodeWorld sh Row Weight) (g c : ℕ)
    (heads : Fin sh.numRdmaRanks → NvlHeads) (uninit : ℕ → ℤ),
    sh.numRdmaRanks = numRdmaRanks → sh.numNvlPeers = numMaxNvlPeers → g < sh.numRanks →
    c < sh.numChannels → (∀ d : Fin sh.numRdmaRanks, w.HeadsLeft (sameGpuIdx sh g d) (heads d)) →
    (∀ d : Fin sh.numRdmaRanks, Recorded (w.recvTokens (sameGpuIdx sh g d)) (heads d)) →
    (∀ d, w.numForwarded g c d ≤ kReverseScanSentinel) →
      w.CombineGoesOn g c cfg heads uninit

/-- The entries are what they should be. -/
def RecordedExactly (T : RecvTokens) (heads : NvlHeads) : Prop := heads.Exact T

/-- They were recorded by blocks that read the starts of their ranges late enough. -/
def RecordedInOrder (T : RecvTokens) (heads : NvlHeads) : Prop :=
  (NvlHeads.system T).ReachableUnder (NvlHeads.ReadsInOrder T) heads

section Stall

/-- A large warp has no more warps than there are. -/
theorem numWarpsPerForwarder_le (numRdmaRanks : ℕ) :
    numWarpsPerForwarder numRdmaRanks ≤ numCombineForwarderWarps := by
  rw [numWarpsPerForwarder]
  split_ifs with some
  · exact Nat.div_le_self _ _
  · exact Nat.succ_pos _

variable (n : ℕ) (pos : 0 < n)

/-- Nodes of eight ranks with one expert each. -/
def stallShape : NodeShape where
  numRanks := n * numMaxNvlPeers
  numChannels := 1
  numExpertsPerRank := 1
  numTopk := 1
  tileM := 1
  numRanks_pos := Nat.mul_pos pos (Nat.succ_pos _)
  numChannels_pos := Nat.one_pos
  numExpertsPerRank_pos := Nat.one_pos
  tileM_pos := Nat.one_pos
  numRdmaRanks := n
  numNvlPeers := numMaxNvlPeers
  numRanks_eq := rfl

/-- Some tokens for rank 1, and then all for rank 0. -/
def stallInputs (numTokens skipped : ℕ) : DispatchInputs (stallShape n pos).toShape ℕ ℕ where
  numTokens := numTokens
  x t := t
  topkIdx t := if t < skipped then 1 else 0
  topkWeights _ := 1
  isTokenInRank i := decide (i % (n * numMaxNvlPeers) =
    if i / (n * numMaxNvlPeers) < skipped then 1 else 0)
  topkIdx_lower t _ k _ := by
    split_ifs <;> decide
  topkIdx_upper t _ k _ := by
    have many : 1 < n * numMaxNvlPeers :=
      Nat.one_lt_mul_iff.2 ⟨pos, Nat.succ_pos _, Or.inr (by decide)⟩
    show _ < ((n * numMaxNvlPeers : ℕ) : ℤ) * (1 : ℕ)
    split_ifs <;> omega
  topkIdx_distinct _ _ k hk k' hk' _ _ :=
    (Nat.lt_one_iff.1 hk).trans (Nat.lt_one_iff.1 hk').symm
  isTokenInRank_iff t _ r hr := by
    have hr : r < n * numMaxNvlPeers := hr
    show decide ((t * (n * numMaxNvlPeers) + r) % (n * numMaxNvlPeers) = if
      (t * (n * numMaxNvlPeers) + r) / (n * numMaxNvlPeers) < skipped then 1 else 0) = true ↔
        ∃ k < 1, 0 ≤ (if t * 1 + k < skipped then (1 : ℤ) else 0) ∧
          (if t * 1 + k < skipped then (1 : ℤ) else 0) / (1 : ℕ) = r
    rw [decide_eq_true_iff, PrefixSum.flat_div hr, PrefixSum.flat_mod hr]
    have only : (∃ k < 1, 0 ≤ (if t * 1 + k < skipped then (1 : ℤ) else 0) ∧
        (if t * 1 + k < skipped then (1 : ℤ) else 0) / (1 : ℕ) = r) ↔
          (if t < skipped then (1 : ℤ) else 0) = r := by
      simp only [Nat.lt_one_iff, exists_eq_left, Nat.mul_one, Nat.add_zero, Nat.cast_one,
        Int.ediv_one]
      exact and_iff_right (by split_ifs <;> decide)
    rw [only]
    split_ifs <;> omega

/-- Only rank 0 has tokens. -/
def stallWorld (numTokens skipped : ℕ) : NodeWorld (stallShape n pos) ℕ ℕ where
  inputs src := if src = 0 then stallInputs n pos numTokens skipped else stallInputs n pos 0 0
  slabs := exampleSlabs
  uninitPool _ _ := 0
  numMaxNvlChunkedRecvTokens := 2
  uninitSlot _ := 0

variable {n pos} {numTokens skipped : ℕ}

theorem stall_inRank (t : ℕ) : (stallInputs n pos numTokens skipped).InRank 0 t ↔ skipped ≤ t := by
  have many : 0 < n * numMaxNvlPeers := Nat.mul_pos pos (Nat.succ_pos _)
  show decide ((t * (n * numMaxNvlPeers) + 0) % (n * numMaxNvlPeers) = if
    (t * (n * numMaxNvlPeers) + 0) / (n * numMaxNvlPeers) < skipped then 1 else 0) = true ↔ _
  rw [decide_eq_true_iff, PrefixSum.flat_div many, PrefixSum.flat_mod many]
  rcases lt_or_ge t skipped with before | after
  · rw [if_pos before]
    exact iff_of_false zero_ne_one (not_le.2 before)
  · rw [if_neg (not_lt.2 after)]
    exact iff_of_true rfl after

/-- Every token goes to node 0. -/
theorem stall_inNode (t : ℕ) : (stallInputs n pos numTokens skipped).InNode 0 t := by
  have many : 1 < n * numMaxNvlPeers :=
    Nat.one_lt_mul_iff.2 ⟨pos, Nat.succ_pos _, Or.inr (by decide)⟩
  rcases lt_or_ge t skipped with before | after
  · refine ⟨1, (by decide : 1 < numMaxNvlPeers), ?_⟩
    show decide ((t * (n * numMaxNvlPeers) + (0 * numMaxNvlPeers + 1)) % (n * numMaxNvlPeers) = if
      (t * (n * numMaxNvlPeers) + (0 * numMaxNvlPeers + 1)) / (n * numMaxNvlPeers) < skipped
        then 1 else 0) = true
    rw [decide_eq_true_iff, Nat.zero_mul, Nat.zero_add, PrefixSum.flat_div many,
      PrefixSum.flat_mod many, if_pos before]
  · exact ⟨0, (by decide : 0 < numMaxNvlPeers), (stall_inRank t).2 after⟩

theorem stall_source : NodeWorld.srcWorld (stallShape n pos) 0
    ((stallShape n pos).nvlRank (sameGpuIdx (stallShape n pos) 0 0)) = 0 := by
  rw [NodeWorld.nvlRank_sameGpuIdx]
  show 0 * _ + 0 % _ = 0
  rw [Nat.zero_mul, Nat.zero_mod]

theorem stall_nodeTokens : (stallWorld n pos numTokens skipped).nodeTokens
    (sameGpuIdx (stallShape n pos) 0 0) 0
      ((stallShape n pos).nvlRank (sameGpuIdx (stallShape n pos) 0 0)) 0 =
        List.range numTokens := by
  have source : (stallWorld n pos numTokens skipped).inputs 0 =
      stallInputs n pos numTokens skipped := rfl
  unfold NodeWorld.nodeTokens
  rw [stall_source, source, NodeWorld.rdmaRank_sameGpuIdx]
  show below _ (channelStart numTokens 1 0) (channelEnd numTokens 1 0) = _
  rw [channelEnd_eq, channelStart_zero, channelStart_last Nat.one_pos, below_zero]
  exact List.filter_eq_self.2 fun t _ => decide_eq_true (stall_inNode t)

theorem stall_numForwarded :
    (stallWorld n pos numTokens skipped).numForwarded 0 0 ⟨0, pos⟩ = numTokens := by
  have node : (stallShape n pos).rdmaRank 0 = 0 := Nat.zero_div _
  unfold NodeWorld.numForwarded
  rw [node, stall_nodeTokens, List.length_range]

theorem stall_fromPeer {i : ℕ} (hi : i < numTokens) :
    (stallWorld n pos numTokens skipped).FromPeer 0 0 ⟨0, pos⟩ 0 i ↔ skipped ≤ i := by
  have node : (stallShape n pos).rdmaRank 0 = 0 := Nat.zero_div _
  have source : (stallWorld n pos numTokens skipped).inputs 0 =
      stallInputs n pos numTokens skipped := rfl
  have here : ((stallWorld n pos numTokens skipped).nodeTokens
      (sameGpuIdx (stallShape n pos) 0 0) 0
        ((stallShape n pos).nvlRank (sameGpuIdx (stallShape n pos) 0 0)) 0)[i]? = some i := by
    rw [stall_nodeTokens]
    exact List.getElem?_range hi
  unfold NodeWorld.FromPeer
  rw [node, NodeWorld.goes_iff pos Nat.one_pos here, stall_source, source,
    NodeWorld.rdmaRank_sameGpuIdx, ← stall_inRank (n := n) (t := i)]
  rw [Nat.zero_mul]
  exact Iff.rfl

/-- Places when everything from some number on is selected. -/
theorem pos_of_from {p : ℕ → Prop} [DecidablePred p] {stop : ℕ}
    (members : ∀ x < stop, p x ↔ skipped ≤ x) {t : ℕ} (ht : t ≤ stop) :
    Stream.pos p 0 t = t - skipped := by
  induction t with
  | zero => rw [pos_start, Nat.zero_sub]
  | succ t ih =>
    rw [pos_succ (Nat.zero_le t), ih (Nat.le_of_succ_le ht)]
    rcases lt_or_ge t skipped with before | after
    · rw [if_neg (mt (members t ht).1 (not_le.2 before))]
      omega
    · rw [if_pos ((members t ht).2 after)]
      omega

/-- No heads are out of reach of a block's warps: only rank 0 sends anything. -/
theorem stall_plain (d : Fin (stallShape n pos).numRdmaRanks) :
    NvlHeads.FarNodesPlain ((stallWorld n pos numTokens skipped).recvTokens
      (sameGpuIdx (stallShape n pos) 0 d)) := by
  set f := sameGpuIdx (stallShape n pos) 0 d
  intro c hc s hs far p hp t lo hi
  -- such a node has received nothing
  have later : 0 < NodeWorld.srcWorld (stallShape n pos) s ((stallShape n pos).nvlRank f) :=
    Nat.add_pos_left (Nat.mul_pos (Nat.zero_lt_of_lt far) (Nat.succ_pos _)) _
  have none : ((stallWorld n pos numTokens skipped).inputs
      (NodeWorld.srcWorld (stallShape n pos) s ((stallShape n pos).nvlRank f))).numTokens = 0 :=
    congrArg _ (if_neg later.ne')
  have empty : ((stallWorld n pos numTokens skipped).nodeTokens f c
      ((stallShape n pos).nvlRank f) s).length = 0 := by
    rw [NodeWorld.length_nodeTokens, none]
    exact Nat.sub_eq_zero_of_le
      ((Nat.count_le _).trans ((channelEnd_le _ _ _).trans (Nat.zero_le _)))
  have ends := RecvTokens.tokenEndIdx_eq (T := (stallWorld n pos numTokens skipped).recvTokens f)
    c s
  have same : ((stallWorld n pos numTokens skipped).recvTokens f).numTokens c s = 0 := empty
  omega

/-- Dispatch leaves exact heads. -/
theorem stall_heads (d : Fin (stallShape n pos).numRdmaRanks) : ∃ heads : NvlHeads,
    (stallWorld n pos numTokens skipped).HeadsLeft (sameGpuIdx (stallShape n pos) 0 d) heads ∧
      heads.Exact ((stallWorld n pos numTokens skipped).recvTokens
        (sameGpuIdx (stallShape n pos) 0 d)) := by
  obtain ⟨heads, reach, ended, exact⟩ := NvlHeads.exists_exact _ (stall_plain d)
  exact ⟨heads, ⟨reach, ended⟩, exact⟩

/-- **A chunk too many for the forwarder that sits the last chunk out.** -/
theorem stall_not_roomBehindIdle {cfg : Config} (launch : CombineLaunch n cfg)
    (tight : ¬RoomForLastChunk n cfg) :
    ∃ numTokens skipped, numTokens ≤ cfg.numMaxNvlChunkedSendTokens +
        cfg.numMaxRdmaChunkedSendTokens + 3 * numCombineForwarderWarps ∧
      ¬(stallWorld n pos numTokens skipped).RoomBehindIdle 0 0 cfg := by
  have room := launch.room
  have large := launch.large
  have few := numWarpsPerForwarder_le n
  have warps := numWarpsPerForwarder_pos n
  rw [RoomForLastChunk, not_le] at tight
  set W := numWarpsPerForwarder n with warpsEq
  set C := cfg.numMaxRdmaChunkedSendTokens with chunkEq
  set packets := cfg.numMaxNvlChunkedSendTokens with packetsEq
  have rest := Nat.mod_lt C warps
  -- the position where the sender stops, at the start of a chunk of packets
  obtain ⟨k, lo, hi⟩ : ∃ k, W + C % W < packets * k ∧ packets * k ≤ W + C % W + packets := by
    refine ⟨(W + C % W) / packets + 1, ?_, ?_⟩
    · exact Nat.lt_mul_div_succ _ cfg.nvlSend_pos
    · rw [Nat.mul_succ]
      exact Nat.add_le_add_right (Nat.mul_div_le _ _) _
  set b := packets * k / C with bEq
  have below : C * b ≤ packets * k := Nat.mul_div_le _ _
  have above : packets * k < C * (b + 1) := Nat.lt_mul_div_succ _ cfg.rdmaSend_pos
  rw [Nat.mul_succ] at above
  set skipped := C * b + C + C % W - 1 - packets * k with skippedEq
  refine ⟨C * (b + 1) + C % W, skipped, ?_, fun fits => ?_⟩
  · rw [Nat.mul_succ]
    omega
  · have final := getLast?_of_rest warps large ⟨C % W, rest⟩ rfl b
    have forwarded : (stallWorld n pos (C * (b + 1) + C % W) skipped).numForwarded 0 0 ⟨0, pos⟩ =
        C * (b + 1) + C % W := stall_numForwarded
    have place : ∀ t ≤ C * (b + 1) + C % W, Stream.pos ((stallWorld n pos (C * (b + 1) + C % W)
        skipped).FromPeer 0 0 ⟨0, pos⟩ 0) 0 t = t - skipped := fun t ht =>
      pos_of_from (fun x hx => stall_fromPeer hx) ht
    have tail := place (C * b + C + C % W - 1) (by rw [Nat.mul_succ]; omega)
    have fit := fits ⟨0, pos⟩ 0 ⟨C % W, rest⟩ (C * b + (C - W)) (by rw [forwarded]; exact final)
      (C * b + C + C % W - 1) (by omega) (by rw [forwarded, Nat.mul_succ]; omega)
      ((stall_fromPeer (by rw [Nat.mul_succ]; omega)).2 (Nat.sub_le _ _))
      (by
        rw [tail, skippedEq, Nat.sub_sub_self (by omega)]
        exact Dvd.intro _ rfl)
    rw [tail, place _ (by rw [Nat.mul_succ]; omega)] at fit
    have nodes : (stallShape n pos).numRdmaRanks = n := rfl
    rw [nodes] at fit
    omega

end Stall

/-- With room for the last chunk nobody gets stuck, whatever the routing. -/
theorem deadlockFree_of_room {n : ℕ} {cfg : Config} (launch : CombineLaunch n cfg)
    (room : RoomForLastChunk n cfg) : CombineDeadlockFree n cfg RecordedExactly := by
  intro sh Row Weight w g c heads uninit nodes peers hg hc left exact fits
  subst nodes
  exact NodeWorld.combineGoesOn_of_room hg hc peers launch left exact fits fun d p =>
    roomBehindLast_of_room (numWarpsPerForwarder_pos _) launch.large room

/-- Between up to eight nodes it is enough that blocks read in order. -/
theorem CombineDeadlockFree.inOrder {n : ℕ} {cfg : Config}
    (free : CombineDeadlockFree n cfg RecordedExactly) (few : n ≤ numMaxNvlPeers) :
    CombineDeadlockFree n cfg RecordedInOrder := by
  intro sh Row Weight w g c heads uninit nodes peers hg hc left inOrder fits
  refine free sh Row Weight w g c heads uninit nodes peers hg hc left (fun d => ?_) fits
  exact NodeWorld.exact_of_inOrder (nodes.trans_le few) (left d) (inOrder d)

/-- **Internode combine cannot get stuck exactly when there is room for the last chunk**, among
the configs that pass the launch's asserts. -/
theorem deadlockFree_iff_roomForLastChunk {n : ℕ} {cfg : Config} (launch : CombineLaunch n cfg)
    (small : cfg.numMaxNvlChunkedSendTokens + cfg.numMaxRdmaChunkedSendTokens +
      3 * numCombineForwarderWarps ≤ kReverseScanSentinel) :
    CombineDeadlockFree n cfg RecordedExactly ↔ RoomForLastChunk n cfg := by
  constructor
  · intro free
    by_contra tight
    have pos : 0 < n := by
      by_contra none
      have many := launch.forwarders
      rw [Nat.eq_zero_of_not_pos none, numForwarders, Nat.zero_mul] at many
      exact Nat.not_lt_zero _ many
    obtain ⟨numTokens, skipped, few, short⟩ : ∃ numTokens skipped, numTokens ≤ _ ∧
        ¬(stallWorld n pos numTokens skipped).RoomBehindIdle 0 0 cfg :=
      stall_not_roomBehindIdle launch tight
    have each : ∀ d : Fin (stallShape n pos).numRdmaRanks, ∃ heads : NvlHeads,
        (stallWorld n pos numTokens skipped).HeadsLeft (sameGpuIdx (stallShape n pos) 0 d) heads ∧
          heads.Exact ((stallWorld n pos numTokens skipped).recvTokens
            (sameGpuIdx (stallShape n pos) 0 d)) := stall_heads
    choose heads left exact using each
    have fits : ∀ d, (stallWorld n pos numTokens skipped).numForwarded 0 0 d ≤
        kReverseScanSentinel := fun d =>
      (NodeWorld.numForwarded_le d).trans (few.trans small)
    have ranks : 0 < (stallShape n pos).numRanks := Nat.mul_pos pos (Nat.succ_pos _)
    have goesOn := free (stallShape n pos) ℕ ℕ (stallWorld n pos numTokens skipped) 0 0 heads
      (fun _ => 0) rfl rfl ranks Nat.one_pos left exact fits
    exact short (NodeWorld.roomBehindIdle_of_goesOn ranks Nat.one_pos rfl launch left exact fits
      goesOn)
  · exact deadlockFree_of_room launch

/-- RDMA chunks of fifteen tokens, for large warps of twelve forwarders. -/
def raggedConfig : Config where
  numSms := 4
  numMaxNvlChunkedSendTokens := 17
  numMaxNvlChunkedRecvTokens := 58
  numMaxRdmaChunkedSendTokens := 15
  numMaxRdmaChunkedRecvTokens := 30
  nvlSend_pos := Nat.succ_pos _
  nvlSend_lt_recv := Nat.le_of_ble_eq_true rfl
  rdmaSend_pos := Nat.succ_pos _
  rdmaSend_lt_recv := Nat.le_of_ble_eq_true rfl
  rdmaSend_le_half := Nat.le_of_ble_eq_true rfl
  rdmaRecv_aligned := ⟨2, rfl⟩

/-- **The asserts are not enough.**  Between two nodes the launch lets this config through, and
some combine gets stuck. -/
theorem raggedConfig_sticks :
    CombineLaunch 2 raggedConfig ∧
      ¬CombineDeadlockFree 2 raggedConfig RecordedExactly := by
  have launch : CombineLaunch 2 raggedConfig :=
    ⟨by decide, by decide, by decide, by decide, by decide, by decide⟩
  refine ⟨launch, fun free => ?_⟩
  have room := (deadlockFree_iff_roomForLastChunk launch (by decide)).1 free
  unfold RoomForLastChunk at room
  exact absurd room (by decide)

/-- The same for one channel. -/
def oneChannelConfig : Config := { raggedConfig with numSms := 2 }

/-- **33 tokens are enough**: fifteen for rank 1 and the others for rank 0 itself.  The second
chunk of rank 0 begins with the last token, and forwarder 3 shows the head of token 18. -/
theorem lastChunk_stalls : CombineLaunch 2 oneChannelConfig ∧ ∃ heads : Fin 2 → NvlHeads,
    (∀ d : Fin 2, (stallWorld 2 two_pos 33 15).HeadsLeft
      (sameGpuIdx (stallShape 2 two_pos) 0 d) (heads d)) ∧
    (∀ d : Fin 2, (heads d).Exact ((stallWorld 2 two_pos 33 15).recvTokens
      (sameGpuIdx (stallShape 2 two_pos) 0 d))) ∧
    let system := (stallWorld 2 two_pos 33 15).combineSystemWithBaselines 0 0 oneChannelConfig heads
      (fun _ => 0) NodeWorld.sixteenCombineInputs (fun _ _ _ => 0) fun _ _ => 0
    ∃ s, system.ReachableUnder BaselineRings.InTime s ∧
      ¬(stallWorld 2 two_pos 33 15).CombineDone 0 0 oneChannelConfig heads (fun _ => 0)
        s.credited ∧ ∀ e, system.step s e = none := by
  have launch : CombineLaunch 2 oneChannelConfig :=
    ⟨by decide, by decide, by decide, by decide, by decide, by decide⟩
  have each : ∀ d : Fin 2, ∃ heads : NvlHeads, (stallWorld 2 two_pos 33 15).HeadsLeft
      (sameGpuIdx (stallShape 2 two_pos) 0 d) heads ∧ heads.Exact
        ((stallWorld 2 two_pos 33 15).recvTokens (sameGpuIdx (stallShape 2 two_pos) 0 d)) :=
    stall_heads
  choose heads left exact using each
  have forwarded : (stallWorld 2 two_pos 33 15).numForwarded 0 0 ⟨0, two_pos⟩ = 33 :=
    stall_numForwarded
  have place : ∀ t ≤ 33, Stream.pos ((stallWorld 2 two_pos 33 15).FromPeer 0 0 ⟨0, two_pos⟩ 0)
      0 t = t - 15 := fun t ht => pos_of_from (fun x hx => stall_fromPeer hx) ht
  have tight : ¬(stallWorld 2 two_pos 33 15).RoomBehindIdle 0 0 oneChannelConfig := by
    intro fits
    have last : 18 ∈ (forwarderTokens oneChannelConfig 33 12 ⟨3, by decide⟩).getLast? :=
      getLast?_of_rest (by decide) (by decide) _ rfl 1
    have fit := fits ⟨0, two_pos⟩ 0 ⟨3, by decide⟩ 18 (by rw [forwarded]; exact last) 32
      (by decide) (by rw [forwarded]; decide) ((stall_fromPeer (by decide)).2 (by decide))
      (by rw [place _ (by decide)]; decide)
    rw [place _ (by decide), place _ (by decide)] at fit
    exact absurd fit (by decide)
  refine ⟨launch, heads, left, exact, ?_⟩
  exact NodeWorld.exists_combineStuck (by decide) Nat.one_pos rfl launch left exact
    (fun d => (NodeWorld.numForwarded_le d).trans (by decide)) tight _ _ _

/-- The rows for one node have room for 22 positions, -/
theorem combineConfigMap_intranode : ∀ row ∈ combineConfigMap, row.1 ≤ numMaxNvlPeers →
    row.2.1.toNat + 22 ≤ row.2.2.1.toNat := by decide

/-- and those for more than one pass the launch's asserts, with room for the last chunk. -/
theorem combineConfigMap_internode : ∀ row ∈ combineConfigMap, numMaxNvlPeers < row.1 →
    row.1 / numMaxNvlPeers ≤ numCombineForwarderWarps ∧
      numMaxNvlPeers < numForwarders (row.1 / numMaxNvlPeers) ∧
      row.2.2.1.toNat % (row.1 / numMaxNvlPeers) = 0 ∧
      max row.2.2.2.1.toNat row.2.1.toNat < row.2.2.1.toNat / (row.1 / numMaxNvlPeers) ∧
      row.2.1.toNat + numWarpsPerForwarder (row.1 / numMaxNvlPeers) ≤
        row.2.2.1.toNat / (row.1 / numMaxNvlPeers) ∧
      numWarpsPerForwarder (row.1 / numMaxNvlPeers) ≤ row.2.2.2.1.toNat ∧
      row.2.1.toNat + numWarpsPerForwarder (row.1 / numMaxNvlPeers) +
          row.2.2.2.1.toNat % numWarpsPerForwarder (row.1 / numMaxNvlPeers) ≤
        row.2.2.1.toNat / (row.1 / numMaxNvlPeers) + 2 := by
  decide

/-- **No recommended config gets stuck**, on one node or between nodes, where the launch
accepts it: between up to eight nodes whatever the routing, beyond that where the entries are
exact. -/
theorem getCombineConfig_deadlockFree {numSms : ℤ} {numRanks : ℕ} {cfg : Config}
    (table : getCombineConfig numSms numRanks = some cfg) :
    (numRanks ≤ numMaxNvlPeers → Intranode.CombineDeadlockFree cfg) ∧
      ∀ n, 1 < n → n * numMaxNvlPeers = numRanks →
        CombineLaunch n cfg ∧ CombineDeadlockFree n cfg RecordedExactly ∧
          (n ≤ numMaxNvlPeers → CombineDeadlockFree n cfg RecordedInOrder) := by
  obtain ⟨row, mem, rfl, chunk, ring, rdma⟩ := getCombineConfig_mem table
  constructor
  · intro one sh Row Weight X W _ _ _ w g c uninitHead io slots hg hc fit s reach
    have room := combineConfigMap_intranode row mem one
    rw [← chunk, ← ring] at room
    exact World.combineSystem_progress hg hc fit (Or.inl room) reach
  · intro n many ranks
    have nodes : row.1 / numMaxNvlPeers = n := by
      rw [← ranks]
      exact Nat.mul_div_cancel n (Nat.succ_pos _)
    have more : numMaxNvlPeers < row.1 := by
      have twice := Nat.mul_le_mul_right numMaxNvlPeers many
      rw [ranks, Nat.succ_mul, Nat.one_mul] at twice
      exact lt_of_lt_of_le (by decide) twice
    obtain ⟨few, forwarders, whole, chunks, slots, large, room⟩ :=
      combineConfigMap_internode row mem more
    simp only [nodes, ← chunk, ← ring, ← rdma] at few forwarders whole chunks slots large room
    have launch : CombineLaunch n cfg := ⟨few, forwarders, whole, chunks, slots, large⟩
    have free := deadlockFree_of_room launch room
    exact ⟨launch, free, free.inOrder⟩

/-- The row for two nodes. -/
theorem getCombineConfig_sixteen : ∃ cfg, getCombineConfig 20 16 = some cfg ∧
    CombineLaunch 2 cfg ∧ CombineDeadlockFree 2 cfg RecordedExactly ∧
      (2 ≤ numMaxNvlPeers → CombineDeadlockFree 2 cfg RecordedInOrder) := by
  have supported : (getCombineConfig 20 16).isSome = true := by decide
  obtain ⟨cfg, table⟩ := Option.isSome_iff_exists.1 supported
  exact ⟨cfg, table, (getCombineConfig_deadlockFree table).2 2 (by decide) rfl⟩

end StreamEP.Internode
