import Mathlib.Algebra.BigOperators.Pi
import StreamEP.Internode.Combine

/-!
# Internode dispatch followed by combine

The rows that ranks feed to combine are indexed by the ids that dispatch gave their tokens, and
no token number travels with a packet.  `combine_returns_twoLevel` says that the sums come out
right all the same, on both levels and in every state of every run: what a forwarder reads from
the ring of a peer is the packet of the peer's id of the token, what a receiver reads from the
ring of a node is the sum of that node's packets, and what is returned is the sum over the ranks
that received the token.  The weight returned for (`t`, `k`) is the one at the slot of (`t`, `k`)
on the rank that owns the expert.

**Places lead to tokens.**  The argument is about places in streams.  A forwarder's entry for a
token is a count of earlier tokens for the peer; the peer sent its ids in the same order; so the
packet at that place is the one of the token's id (`nvlPayload_eq`).  A receiver's entry is a count
of the channel's tokens that went to the node, which is the order in which the forwarders there
put their sums (`getElem?_nodeTokens`).

**Two sums.**  `combined_nvlEntries` is what a forwarder adds up and `combined_rdmaPlan` what a
receiver does; put together, `sum_nodeSum` regroups the ranks by nodes.  A node that a token does
not go to contributes nothing, which is needed because the sum over all ranks is restricted to
those that received the token only at the end.

**Rows are elements of a commutative monoid.**  The order in which a forwarder adds the packets
of its peers is not fixed by the entries, so nothing weaker would do; what rounding does to a sum
of floating-point numbers is not modelled.

The example is one token that goes to both nodes, from its sixteen ranks' packets to the sum.
-/

namespace StreamEP.Internode

open Finset Stream Intranode ReplayRings

variable {sh : NodeShape} {Row Weight : Type}

namespace NodeWorld

section Statements

variable {X W : Type} [AddCommMonoid X] [AddCommMonoid W] (w : NodeWorld sh Row Weight)
  (io : CombineInputs X W)

/-- What rank `r` holds of token `t` of rank `src`. -/
def tokenPacket (r src t : ℕ) : X × (ℕ → W) :=
  combinePacket sh.toShape io r (recvTokenId w.inputs r src t)

/-- What the ranks of node `d` hold of it, added up. -/
def nodeSum (d src t : ℕ) : X × (ℕ → W) :=
  ∑ p ∈ (range sh.numNvlPeers).filter fun p =>
    (w.inputs src).InRank (d * sh.numNvlPeers + p) t,
    w.tokenPacket io (d * sh.numNvlPeers + p) src t

variable (batches : ℕ → NodeDeliveries Row Weight) (memory : ℕ → PoolMemory Row Weight) (g c : ℕ)

/-- The value `v` is right for token `t` of rank `g`. -/
structure Returned (t : ℕ) (v : X × (ℕ → W)) : Prop where
  /-- A rank that received the token landed it with this id. -/
  landed : ∀ r < sh.numRanks, (w.inputs g).InRank r t →
    ∃ l ∈ w.landed r (batches r) c g, l.packet.srcIdx = t
  id : ∀ r < sh.numRanks, ∀ l ∈ w.landed r (batches r) c g, l.packet.srcIdx = t →
    l.recvTokenId = recvTokenId w.inputs r g t
  /-- The rows of exactly these ranks are added up. -/
  row : v.1 = ∑ r ∈ (range sh.numRanks).filter fun r => (w.inputs g).InRank r t,
    io.x r (recvTokenId w.inputs r g t)
  /-- The weight is the value at the slot on the rank that owns the expert, -/
  weight : ∀ k < sh.numTopk, ∀ r < sh.numRanks, (w.inputs g).LocalAt r t k → ∃ s : ℕ,
    memory r (.poolRecvToken s) = (recvTokenId w.inputs r g t : ℤ) ∧
      memory r (.poolKSlot s) = (k : ℤ) ∧ v.2 k = io.perSlotWeights r s
  /-- and zero when there is none. -/
  unowned : ∀ k < sh.numTopk, (∀ r < sh.numRanks, ¬(w.inputs g).LocalAt r t k) → v.2 k = 0

/-- What holds of the combine in state `s`. -/
structure CombineReturns (cfg : Config) (heads : Fin sh.numRdmaRanks → NvlHeads)
    (uninit : ℕ → ℤ)
    (s : TwoLevelRings.State (Fin sh.numRdmaRanks) (Fin numMaxNvlPeers)
      (Fin (numWarpsPerForwarder sh.numRdmaRanks)) (Fin (numRdmaReceivers sh.numRdmaRanks))
      (X × (ℕ → W))) : Prop where
  /-- A forwarder has read the packet that the peer holds of the token it works on, -/
  nvlRead : ∀ d i p v, (s.first d).reading i = true → (s.first d).regs i p = some v →
    ∃ t, (w.nodeTokens (sameGpuIdx sh g d) c (sh.nvlRank g) (sh.rdmaRank g))[
        (w.nvlPlan g c cfg heads d).current (s.first d) i]? = some t ∧
      (w.inputs g).InRank (d * sh.numNvlPeers + p) t ∧
        v = w.tokenPacket io (d * sh.numNvlPeers + p) g t
  /-- a receiver has read the sum of the node, -/
  rdmaRead : ∀ i d v, s.second.reading i = true → s.second.regs i d = some v →
    (w.inputs g).InNode d ((w.rdmaPlan g c cfg heads uninit).current s.second i) ∧
      v = w.nodeSum io d g ((w.rdmaPlan g c cfg heads uninit).current s.second i)
  /-- what has been returned is right, -/
  returned : ∀ t v, tokenStartIdx (w.inputs g) c ≤ t → t < tokenEndIdx (w.inputs g) c →
    s.second.out t = some v → w.Returned io batches memory g c t v
  /-- and when the receivers are done something has been returned for every token. -/
  complete : (∀ i, s.second.done i = (w.rdmaPlan g c cfg heads uninit).count i) →
    ∀ t, tokenStartIdx (w.inputs g) c ≤ t → t < tokenEndIdx (w.inputs g) c →
      ∃ v, s.second.out t = some v

end Statements

variable {X W : Type} [AddCommMonoid X] [AddCommMonoid W] {w : NodeWorld sh Row Weight}
  {io : CombineInputs X W} {batches : ℕ → NodeDeliveries Row Weight}
  {memory : ℕ → PoolMemory Row Weight} {f g c s : ℕ} {cfg : Config}

/-! ### A forwarder's sums -/

section Forwarder

variable (hf : f < sh.numRanks) (hc : c < sh.numChannels) (hs : s < sh.numRdmaRanks)

include hf hc hs

omit [AddCommMonoid X] in
/-- **The place that a forwarder recorded leads to the token's packet.** -/
theorem nvlPayload_eq {p : Fin numMaxNvlPeers} (hp : (p : ℕ) < sh.numNvlPeers) {i t : ℕ}
    (here : (w.nodeTokens f c (sh.nvlRank f) s)[i]? = some t)
    (goes : (w.inputs (srcWorld sh s (sh.nvlRank f))).InRank
      (sh.rdmaRank f * sh.numNvlPeers + p) t) :
    w.nvlPayload f c s io p (pos (fun i => (w.recvTokens f).Goes p
        ((w.recvTokens f).tokenStartIdx c s + i)) 0 i) =
      w.tokenPacket io (sh.rdmaRank f * sh.numNvlPeers + p) (srcWorld sh s (sh.nvlRank f)) t := by
  have hr := NodeShape.rank_lt (NodeShape.rdmaRank_lt hf) hp
  have hn : sh.nvlRank f < sh.numNvlPeers := NodeShape.nvlRank_lt f
  have inside : t ∈ selected (w.inputs (srcWorld sh s (sh.nvlRank f)))
      (sh.rdmaRank f * sh.numNvlPeers + p) c :=
    mem_selected.2 ⟨(mem_below.1 (List.mem_of_getElem? here)).1, goes⟩
  have start : w.nvlTokenStart (sh.rdmaRank f * sh.numNvlPeers + p) c (sh.nvlRank f) s =
      w.totalOffset (sh.rdmaRank f * sh.numNvlPeers + p) c (sh.nvlRank f) s :=
    recvGblChannelPrefixMatrix_eq hc hn
  rw [nvlPayload, tokenPacket, pos_shift, pos_goes hs hc hp here, start,
    totalOffset_add_ringPos hr hc hs hn inside]

/-- What a forwarder adds up for a token is what its node holds. -/
theorem combined_nvlEntries {heads : NvlHeads} (left : w.HeadsLeft f heads)
    (peers : sh.numNvlPeers = numMaxNvlPeers)
    (room : cfg.numMaxNvlChunkedSendTokens ≤ cfg.numMaxNvlChunkedRecvTokens / sh.numRdmaRanks)
    {i t : ℕ} (here : (w.nodeTokens f c (sh.nvlRank f) s)[i]? = some t) :
    combined (w.nvlEntries f c s heads cfg).plan (w.nvlPayload f c s io) i =
      w.nodeSum io (sh.rdmaRank f) (srcWorld sh s (sh.nvlRank f)) t := by
  have follows := nvlEntries_follows left hf hc hs peers room
  have hi := (List.getElem?_eq_some_iff.1 here).1
  set packet := fun p => if (w.inputs (srcWorld sh s (sh.nvlRank f))).InRank
      (sh.rdmaRank f * sh.numNvlPeers + p) t
    then w.tokenPacket io (sh.rdmaRank f * sh.numNvlPeers + p) (srcWorld sh s (sh.nvlRank f)) t
    else 0 with packets
  have all : ∑ p ∈ range sh.numNvlPeers, packet p = ∑ p : Fin numMaxNvlPeers, packet p := by
    rw [Fin.sum_univ_eq_sum_range]
    exact congrArg (fun n => ∑ p ∈ range n, packet p) peers
  rw [follows.combined_eq _ (Nat.zero_le i) hi, nodeSum, sum_filter, all]
  refine sum_congr rfl fun p _ => ?_
  have hp : (p : ℕ) < sh.numNvlPeers := p.isLt.trans_eq peers.symm
  have goes_iff := goes_iff (w := w) (p := p) hs hc here
  by_cases goes : (w.inputs (srcWorld sh s (sh.nvlRank f))).InRank
      (sh.rdmaRank f * sh.numNvlPeers + p) t
  · simp only [packets, if_pos goes, if_pos (goes_iff.2 goes)]
    exact nvlPayload_eq hf hc hs hp here goes
  · simp only [packets, if_neg goes, if_neg (mt goes_iff.1 goes)]

/-- **What a forwarder has read from the ring of a peer** is the packet of its token. -/
theorem regs_nvlEntries {heads : NvlHeads} (left : w.HeadsLeft f heads)
    (peers : sh.numNvlPeers = numMaxNvlPeers)
    (room : cfg.numMaxNvlChunkedSendTokens ≤ cfg.numMaxNvlChunkedRecvTokens / sh.numRdmaRanks)
    {st : State (Fin numMaxNvlPeers) (Fin (numWarpsPerForwarder sh.numRdmaRanks)) (X × (ℕ → W))}
    (inv : Inv (w.nvlEntries f c s heads cfg).plan (w.nvlPayload f c s io) st)
    {i : Fin (numWarpsPerForwarder sh.numRdmaRanks)} {p : Fin numMaxNvlPeers}
    {v : X × (ℕ → W)} (busy : st.reading i = true) (got : st.regs i p = some v) :
    ∃ t, (w.nodeTokens f c (sh.nvlRank f) s)[
        (w.nvlEntries f c s heads cfg).plan.current st i]? = some t ∧
      (w.inputs (srcWorld sh s (sh.nvlRank f))).InRank (sh.rdmaRank f * sh.numNvlPeers + p) t ∧
        v = w.tokenPacket io (sh.rdmaRank f * sh.numNvlPeers + p)
          (srcWorld sh s (sh.nvlRank f)) t := by
  have follows := nvlEntries_follows left hf hc hs peers room
  have more := inv.readers.arrived i busy
  obtain ⟨has, rfl⟩ := inv.readers.regs i busy p v got
  obtain ⟨lo, hi⟩ := follows.token_inside more
  have here := List.getElem?_eq_getElem hi
  have goes := (follows.expected_nonneg_iff lo hi).1 has
  have goes' := (goes_iff hs hc here).1 goes
  refine ⟨_, here, goes', ?_⟩
  rw [Plan.current, follows.expected_eq lo hi goes, Int.toNat_natCast]
  exact nvlPayload_eq hf hc hs (p.isLt.trans_eq peers.symm) here goes'

end Forwarder

/-! ### A receiver's sums -/

/-- The sums of the nodes are, together, the sum over all ranks. -/
theorem sum_nodeSum (t : ℕ) :
    ∑ d ∈ range sh.numRdmaRanks, w.nodeSum io d g t =
      ∑ r ∈ (range sh.numRanks).filter fun r => (w.inputs g).InRank r t,
        w.tokenPacket io r g t := by
  rw [sum_filter, sh.numRanks_eq, PrefixSum.sum_range_mul]
  exact sum_congr rfl fun d _ => sum_filter _ _

/-- A node that a token does not go to holds nothing of it. -/
theorem nodeSum_eq_zero {d t : ℕ} (absent : ¬(w.inputs g).InNode d t) :
    w.nodeSum io d g t = 0 := by
  rw [nodeSum, filter_eq_empty_iff.2, sum_empty]
  exact fun p hp goes => absent ⟨p, mem_range.1 hp, goes⟩

/-- The place of a token in the stream of a node leads to the token. -/
theorem getElem?_nodeTokens (d : Fin sh.numRdmaRanks) {t : ℕ}
    (lo : tokenStartIdx (w.inputs g) c ≤ t) (hi : t < tokenEndIdx (w.inputs g) c)
    (goes : (w.inputs g).InNode d t) :
    (w.nodeTokens (sameGpuIdx sh g d) c (sh.nvlRank g) (sh.rdmaRank g))[
      pos ((w.inputs g).InNode d) (tokenStartIdx (w.inputs g) c) t]? = some t := by
  have same : srcWorld sh (sh.rdmaRank g) (sh.nvlRank g) = g := NodeShape.rank_eq g
  rw [nodeTokens, rdmaRank_sameGpuIdx, same]
  exact getElem?_below lo hi goes

section Receiver

variable {heads : Fin sh.numRdmaRanks → NvlHeads} (hg : g < sh.numRanks)
  (hc : c < sh.numChannels) (peers : sh.numNvlPeers = numMaxNvlPeers)
  (room : cfg.numMaxNvlChunkedSendTokens ≤ cfg.numMaxNvlChunkedRecvTokens / sh.numRdmaRanks)
  (left : ∀ d : Fin sh.numRdmaRanks, w.HeadsLeft (sameGpuIdx sh g d) (heads d))

include hg hc peers room left

/-- What the forwarders of node `d` add up for rank `g`. -/
theorem combined_nvlPlan (d : Fin sh.numRdmaRanks) {i t : ℕ}
    (here : (w.nodeTokens (sameGpuIdx sh g d) c (sh.nvlRank g) (sh.rdmaRank g))[i]? = some t) :
    combined (w.nvlPlan g c cfg heads d)
        (w.nvlPayload (sameGpuIdx sh g d) c (sh.rdmaRank g) io) i = w.nodeSum io d g t := by
  have same : srcWorld sh (sh.rdmaRank g) (sh.nvlRank g) = g := NodeShape.rank_eq g
  rw [← nvlRank_sameGpuIdx g d] at here
  refine (combined_nvlEntries (sameGpuIdx_lt g d) hc (NodeShape.rdmaRank_lt hg) (left d) peers room
    here).trans ?_
  rw [rdmaRank_sameGpuIdx, nvlRank_sameGpuIdx, same]

/-- **A token's sum runs over the ranks that received it.** -/
theorem combined_rdmaPlan (uninit : ℕ → ℤ) {t : ℕ} (lo : tokenStartIdx (w.inputs g) c ≤ t)
    (hi : t < tokenEndIdx (w.inputs g) c) :
    combined (w.rdmaPlan g c cfg heads uninit) (fun d => combined (w.nvlPlan g c cfg heads d)
        (w.nvlPayload (sameGpuIdx sh g d) c (sh.rdmaRank g) io)) t =
      ∑ r ∈ (range sh.numRanks).filter fun r => (w.inputs g).InRank r t,
        w.tokenPacket io r g t := by
  have follows := rdmaEntries_follows hg hc left cfg uninit
  rw [rdmaPlan, follows.combined_eq _ lo hi, ← sum_nodeSum, ← Fin.sum_univ_eq_sum_range]
  refine sum_congr rfl fun d _ => ?_
  by_cases goes : (w.inputs g).InNode d t
  · rw [if_pos goes]
    exact combined_nvlPlan hg hc peers room left d
      (getElem?_nodeTokens d lo hi goes)
  · rw [if_neg goes, nodeSum_eq_zero goes]

end Receiver

/-! ### What is returned -/

section Weights

variable {m : PoolMemory Row Weight} {r t k : ℕ}
  (holds : HoldsToken (w.inputs g) r t (recvTokenId w.inputs r g t) m)
  (persisted : ∀ idx, io.recvTokenToSlots r idx = m (.recvTokenToSlots idx))

include holds persisted

omit [AddCommMonoid X] in
/-- A rank sends the weight of the slot it has for an expert of its own, -/
theorem tokenPacket_weight (hk : k < sh.numTopk) (here : (w.inputs g).LocalAt r t k) : ∃ s : ℕ,
    m (.poolRecvToken s) = (recvTokenId w.inputs r g t : ℤ) ∧ m (.poolKSlot s) = (k : ℤ) ∧
      (w.tokenPacket io r g t).2 k = io.perSlotWeights r s := by
  obtain ⟨s, slot, -, -, token, kSlot⟩ := holds.slots k hk here
  refine ⟨s, token, kSlot, ?_⟩
  simp only [tokenPacket, combinePacket, persisted, slot]
  rw [if_pos (Int.natCast_nonneg s), Int.toNat_natCast]

omit [AddCommMonoid X] in
/-- and zero for the experts of others. -/
theorem tokenPacket_weight_eq_zero (hk : k < sh.numTopk) (none : ¬(w.inputs g).LocalAt r t k) :
    (w.tokenPacket io r g t).2 k = 0 := by
  simp only [tokenPacket, combinePacket, persisted, holds.others k hk none]
  exact if_neg (by decide)

end Weights

section Result

variable {heads : Fin sh.numRdmaRanks → NvlHeads} (hg : g < sh.numRanks)
  (hc : c < sh.numChannels) (delivers : ∀ r < sh.numRanks, w.DeliversAll r (batches r))
  (left : ∀ r < sh.numRanks, LeftBy sh.numTopk (w.allLanded r (batches r)) (memory r))
  (persisted : ∀ r idx, io.recvTokenToSlots r idx = memory r (.recvTokenToSlots idx))

include hg hc delivers left persisted

/-- **The sum over the ranks that received a token is what ought to be returned for it.** -/
theorem returned_sum {t : ℕ} (lo : tokenStartIdx (w.inputs g) c ≤ t)
    (hi : t < tokenEndIdx (w.inputs g) c) :
    w.Returned io batches memory g c t
      (∑ r ∈ (range sh.numRanks).filter fun r => (w.inputs g).InRank r t,
        w.tokenPacket io r g t) := by
  have inside : t < (w.inputs g).numTokens := hi.trans_le (channelEnd_le _ _ _)
  have holds : ∀ r < sh.numRanks, (w.inputs g).InRank r t →
      HoldsToken (w.inputs g) r t (recvTokenId w.inputs r g t) (memory r) := fun r hr goes =>
    (dispatch_reference hr (delivers r hr) (left r hr)).holds g t ⟨hg, inside, goes⟩
  have selected : ∀ r, (w.inputs g).InRank r t → t ∈ selected (w.inputs g) r c := fun r goes =>
    mem_selected.2 ⟨⟨lo, hi⟩, goes⟩
  constructor
  case landed =>
    intro r hr goes
    rw [landed_eq hr (delivers r hr) hc hg]
    exact ⟨_, List.mem_map_of_mem (selected r goes), rfl⟩
  case id =>
    intro r hr l hl same
    rw [landed_eq hr (delivers r hr) hc hg] at hl
    obtain ⟨t', -, rfl⟩ := List.mem_map.1 hl
    obtain rfl : t' = t := same
    rfl
  case row =>
    rw [Prod.fst_sum]
    rfl
  case weight =>
    intro k hk r hr here
    have goes := here.inRank inside hk hr
    obtain ⟨s, token, kSlot, weight⟩ := tokenPacket_weight (holds r hr goes) (persisted r) hk here
    refine ⟨s, token, kSlot, ?_⟩
    rw [Prod.snd_sum, Finset.sum_apply, ← weight]
    -- an expert has one rank, so the others send zero
    refine sum_eq_single r (fun r' mem other => ?_) fun absent => ?_
    · obtain ⟨hr', goes'⟩ := mem_filter.1 mem
      exact tokenPacket_weight_eq_zero (holds r' (mem_range.1 hr') goes') (persisted r') hk
        fun there => other (there.unique here)
    · exact absurd (mem_filter.2 ⟨mem_range.2 hr, goes⟩) absent
  case unowned =>
    intro k hk none
    rw [Prod.snd_sum, Finset.sum_apply]
    refine sum_eq_zero fun r mem => ?_
    obtain ⟨hr, goes⟩ := mem_filter.1 mem
    have hr := mem_range.1 hr
    exact tokenPacket_weight_eq_zero (holds r hr goes) (persisted r) hk (none r hr)

/-- **Combine returns the sum over the ranks that received a token**, in every state of every
run of its two levels. -/
theorem combine_returns_twoLevel (peers : sh.numNvlPeers = numMaxNvlPeers)
    (room : cfg.numMaxNvlChunkedSendTokens + numWarpsPerForwarder sh.numRdmaRanks ≤
      cfg.numMaxNvlChunkedRecvTokens / sh.numRdmaRanks)
    (recorded : ∀ d : Fin sh.numRdmaRanks, w.HeadsLeft (sameGpuIdx sh g d) (heads d))
    {uninit : ℕ → ℤ}
    {nvlSlots : Fin sh.numRdmaRanks → Fin numMaxNvlPeers → ℕ → X × (ℕ → W)}
    {rdmaSlots : Fin sh.numRdmaRanks → ℕ → X × (ℕ → W)}
    {s : TwoLevelRings.State (Fin sh.numRdmaRanks) (Fin numMaxNvlPeers)
      (Fin (numWarpsPerForwarder sh.numRdmaRanks)) (Fin (numRdmaReceivers sh.numRdmaRanks))
      (X × (ℕ → W))}
    (reach : (w.combineSystem g c cfg heads uninit io nvlSlots rdmaSlots).Reachable s) :
    w.CombineReturns io batches memory g c cfg heads uninit s := by
  have chunk := (Nat.le_add_right _ _).trans room
  have nvlFollows : ∀ d : Fin sh.numRdmaRanks,
      (w.nvlEntries (sameGpuIdx sh g d) c (sh.rdmaRank g) (heads d) cfg).Follows _ 0 _ := fun d =>
    nvlEntries_follows (recorded d) (sameGpuIdx_lt g d) hc (NodeShape.rdmaRank_lt hg) peers chunk
  have rdmaFollows := rdmaEntries_follows hg hc recorded cfg uninit
  have inv : TwoLevelRings.Inv (w.nvlPlan g c cfg heads) (w.rdmaPlan g c cfg heads uninit) _ s :=
    TwoLevelRings.reachable_inv (fun d => (nvlFollows d).sound) rdmaFollows.sound reach
  constructor
  case nvlRead =>
    intro d i p v busy got
    have same : srcWorld sh (sh.rdmaRank g) (sh.nvlRank g) = g := NodeShape.rank_eq g
    have read := regs_nvlEntries (sameGpuIdx_lt g d) hc (NodeShape.rdmaRank_lt hg) (recorded d)
      peers chunk (inv.first d) busy got
    rw [rdmaRank_sameGpuIdx, nvlRank_sameGpuIdx, same] at read
    exact read
  case rdmaRead =>
    intro i d v busy got
    have more := inv.second.readers.arrived i busy
    obtain ⟨lo, hi⟩ := rdmaFollows.token_inside more
    obtain ⟨has, rfl⟩ := inv.second.readers.regs i busy d v got
    have goes := (rdmaFollows.expected_nonneg_iff lo hi).1 has
    refine ⟨goes, ?_⟩
    rw [rdmaPlan, Plan.current, rdmaFollows.expected_eq lo hi goes, Int.toNat_natCast]
    exact combined_nvlPlan hg hc peers chunk recorded d (getElem?_nodeTokens d lo hi goes)
  case returned =>
    intro t v lo hi got
    rw [inv.second.readers.out t v got, combined_rdmaPlan hg hc peers chunk recorded uninit lo hi]
    exact returned_sum hg hc delivers left persisted lo hi
  case complete =>
    intro done t lo hi
    exact ⟨_, rdmaFollows.combined_of_done inv.second done lo hi⟩

end Result

/-! ### One token for both nodes -/

section Example

/-- The block of a forwarder, from its headers to its scan. -/
def blockEvents (T : RecvTokens) : List HeadEvent :=
  NvlHeads.forwardEvents T 0 ++ NvlHeads.scanEvents T 0 (T.numTokens 0)

/-- What the block of rank `f` leaves. -/
def sixteenHeads (f : ℕ) : NvlHeads :=
  ((NvlHeads.system (sixteenWorld.recvTokens f)).run NvlHeads.start
    (blockEvents (sixteenWorld.recvTokens f))).getD NvlHeads.start

/-- Rings with room for a packet and the forwarders of a node. -/
def wideConfig : Config :=
  { tightConfig with
    numMaxNvlChunkedRecvTokens := 26
    nvlSend_lt_recv := Nat.le_add_right (nat_lit 2) (nat_lit 24) }

/-- Every rank feeds the numbers of its rows and slots. -/
def sixteenCombineInputs : CombineInputs ℕ ℕ where
  x r id := 10 * r + id
  perSlotWeights r slot := 10 * r + slot
  recvTokenToSlots r idx := leftInOrder sixteenRanks.numTopk
    (sixteenWorld.allLanded r (sixteenWorld.inTurnBatches r)) (.recvTokenToSlots idx)

/-- One packet from peer `p` of node `d` to its forwarder `i`, and from there to the source. -/
def forwardOne {J ι κ μ : Type} (d : J) (p : ι) (i : κ) : List (TwoLevelRings.Event J ι κ μ) :=
  [.second (.claim d), .first d (.claim p), .first d (.write p 0), .first d (.publish p),
    .first d (.readTail p), .first d (.arrive i), .first d (.read i p), .first d (.finish i),
    .second (.write d 0), .second (.publish d), .second (.readTail d)]

/-- The token's packets from both nodes, and the receiver `j` that adds them up. -/
def combineOne {J ι κ μ : Type} (d d' : J) (p : ι) (i : κ) (j : μ) :
    List (TwoLevelRings.Event J ι κ μ) :=
  forwardOne d p i ++ forwardOne d' p i ++
    [.second (.arrive j), .second (.read j d), .second (.read j d'), .second (.finish j)]

set_option maxRecDepth 4000 in
theorem sixteenHeads_left (d : Fin 2) :
    sixteenWorld.HeadsLeft (sameGpuIdx sixteenRanks 0 d)
      (sixteenHeads (sameGpuIdx sixteenRanks 0 d)) := by
  have ends : ∀ d : Fin 2, ((NvlHeads.system (sixteenWorld.recvTokens
      (sameGpuIdx sixteenRanks 0 d))).run NvlHeads.start (blockEvents (sixteenWorld.recvTokens
        (sameGpuIdx sixteenRanks 0 d)))).any (fun st =>
          decide (st.Ended (sixteenWorld.recvTokens (sameGpuIdx sixteenRanks 0 d)))) = true := by
    decide +kernel
  obtain ⟨st, replay, ended⟩ := (Option.any_eq_true _ _).1 (ends d)
  rw [sixteenHeads, replay]
  exact ⟨.run .init replay, of_decide_eq_true ended⟩

set_option maxRecDepth 4000 in
/-- The token is combined to its end. -/
theorem sixteenWorld_combine_twoLevel :
    ∃ s, (sixteenWorld.combineSystem 0 0 wideConfig
        (fun d => sixteenHeads (sameGpuIdx sixteenRanks 0 d)) (fun _ => 7) sixteenCombineInputs
        (fun _ _ _ => 0) fun _ _ => 0).Reachable s ∧ (s.second.out 0).isSome ∧
      sixteenWorld.CombineReturns sixteenCombineInputs sixteenWorld.inTurnBatches
        (fun r => leftInOrder sixteenRanks.numTopk
          (sixteenWorld.allLanded r (sixteenWorld.inTurnBatches r))) 0 0 wideConfig
        (fun d => sixteenHeads (sameGpuIdx sixteenRanks 0 d)) (fun _ => 7) s := by
  have replays : ((sixteenWorld.combineSystem 0 0 wideConfig
      (fun d => sixteenHeads (sameGpuIdx sixteenRanks 0 d)) (fun _ => 7) sixteenCombineInputs
      (fun _ _ _ => 0) fun _ _ => 0).run (TwoLevelRings.start (fun _ _ _ => 0) fun _ _ => 0)
        (combineOne firstNode secondNode 1 ⟨0, by decide⟩ ⟨0, by decide⟩)).any
          (fun s => (s.second.out 0).isSome) = true := by
    decide +kernel
  obtain ⟨s, replay, out⟩ := (Option.any_eq_true _ _).1 replays
  have reach := TransitionSystem.Reachable.run .init replay
  exact ⟨s, reach, out, combine_returns_twoLevel (by decide) (by decide)
    (fun r _ => delivers_inTurnBatches _ r) (fun _ _ => leftBy_leftInOrder _ _)
    (fun _ _ => rfl) rfl (by decide) sixteenHeads_left reach⟩

end Example

end NodeWorld

end StreamEP.Internode
