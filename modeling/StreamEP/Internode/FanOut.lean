import Mathlib.Data.Finset.Card
import StreamEP.Internode.CombineHeads
import StreamEP.Internode.RingPhase

/-!
# Where a token goes to and comes from

Three warps collect, token by token, the parties that share the token: the RDMA sender of
dispatch the nodes it goes to, combine's forwarder the peers that contribute, and combine's
RDMA receiver the nodes that do.  Each keeps them in arrays of a fixed size and asserts that
size after the writes.

**Arrays that are filled from the front.**  `push` is the write behind the last entry, and has no
value out of bounds; `collect` is the loop over the lanes.  `collect_isSome_iff` says once for all
three lists that their writes stay in bounds exactly if there is room for everything pushed.

**How much there is.**  The arrays over peers have room for all of them, whatever the heads
(`forwarder_isSome`).  Those over nodes have room for `get_num_topk_rdma_ranks` nodes, at most
eight, while a token reaches as many as it has experts on different nodes
(`numNodes_le_numTopk`).  The sender's list depends on the routing alone, and the receiver's on
the heads that dispatch recorded, which name the same nodes.

`fanOutFits_iff`: on every routing that dispatch takes, all writes are in bounds exactly if
there are at most eight nodes or a token has at most eight experts.  For the other direction a
single token is routed to one expert of each node (`spreadInputs`), as far as there are nodes
and experts. The example has twelve nodes, one of the cases that the launch has
(`switchRdmaRanks`).
-/

namespace StreamEP.Internode

open Finset

/-- The node counts that `SWITCH_RDMA_RANKS` has a case for. -/
def switchRdmaRanks : List ℕ := [2, 3, 4, 6, 8, 12, 16, 18, 20]

/-- `get_num_topk_rdma_ranks` -/
def getNumTopkRdmaRanks (numRdmaRanks : ℕ) : ℕ := if numRdmaRanks < 8 then numRdmaRanks else 8

/-! ### Arrays that are filled from the front -/

section Collect

variable {α : Type*}

/-- `list[num++] = a` on an array of the given size; `none` when that is out of bounds. -/
def push (size : ℕ) (list : List α) (a : α) : Option (List α) :=
  if list.length < size then some (list ++ [a]) else none

/-- A loop over the lanes that pushes what some of them have. -/
def collect (size n : ℕ) (entry : ℕ → Option α) : Option (List α) :=
  (List.range n).foldlM (fun list i => (entry i).elim (some list) (push size list)) []

/-- **The writes stay in bounds** exactly if there is room for all that is pushed. -/
theorem collect_isSome_iff {size n : ℕ} {entry : ℕ → Option α} :
    (collect size n entry).isSome ↔ (List.range n).countP (fun i => (entry i).isSome) ≤ size := by
  have walk : ∀ (lanes : List ℕ) (list : List α), list.length ≤ size →
      ((lanes.foldlM (fun list i => (entry i).elim (some list) (push size list)) list).isSome ↔
        list.length + lanes.countP (fun i => (entry i).isSome) ≤ size) := by
    intro lanes
    induction lanes with
    | nil => exact fun list fits => ⟨fun _ => fits, fun _ => rfl⟩
    | cons i lanes ih =>
        intro list fits
        rw [List.foldlM_cons, List.countP_cons]
        cases here : entry i with
        | none =>
            simp only [Option.elim_none, Option.isSome_none, Bool.false_eq_true, if_false]
            exact ih list fits
        | some a =>
            simp only [Option.elim_some, Option.isSome_some, if_true, push]
            split_ifs with room
            · have longer : (list ++ [a]).length = list.length + 1 := by simp
              refine (ih (list ++ [a]) (longer.trans_le room)).trans ?_
              rw [longer]
              omega
            · exact ⟨fun none => absurd none (by simp), fun fits => by omega⟩
  have all := walk (List.range n) [] (Nat.zero_le size)
  rwa [List.length_nil, Nat.zero_add] at all

end Collect

/-! ### The three lists -/

section Lists

variable {sh : NodeShape} {Row Weight : Type} (inp : DispatchInputs sh.toShape Row Weight)
  (cfg : Config) (c t : ℕ)

/-- `rdma_tail_idx` of a lane. -/
def rdmaTailIdx (lane : ℕ) : ℤ :=
  if inp.InNode lane t then (Stream.pos (inp.InNode lane) (tokenStartIdx inp c) t : ℤ) else -1

/-- `topk_ranks`, with `slot_ring_tag` and the slot of `dst_send_buffers`.  `prev` is
`reader_prev_head` of each lane. -/
def topkRanks (prev : ℕ → BitVec 32) : Option (List (ℕ × ℕ × ℕ)) :=
  collect (getNumTopkRdmaRanks sh.numRdmaRanks) sh.numRdmaRanks fun i =>
    let slotIdx := rdmaTailIdx inp c t i
    if 0 ≤ slotIdx then
      some (i, (prev i + BitVec.ofInt 32 slotIdx + 1).toNat &&& 0xffff,
        senderSlot cfg (prev i) (slotIdx.toNat + 1))
    else none

/-- The list of `combine_token`: contributing ranks with their slots. -/
def combineToken (kNumRanks kMaxNumRanks numMaxRecvTokens : ℕ) (headIdx : ℕ → ℤ) :
    Option (List (ℕ × ℕ)) :=
  collect kMaxNumRanks kNumRanks fun i =>
    if 0 ≤ headIdx i then some (i, (headIdx i).toNat % numMaxRecvTokens) else none

/-- Combine's forwarder: the peers of the node. -/
def forwarderCombineToken (numMaxNvlChunkedRecvTokensPerRdma : ℕ) (headIdx : ℕ → ℤ) :
    Option (List (ℕ × ℕ)) :=
  combineToken numMaxNvlPeers numMaxNvlPeers numMaxNvlChunkedRecvTokensPerRdma headIdx

/-- Combine's RDMA receiver: the nodes, by the heads that dispatch recorded. -/
def receiverCombineToken (uninit : ℕ → ℤ) : Option (List (ℕ × ℕ)) :=
  combineToken sh.numRdmaRanks (getNumTopkRdmaRanks sh.numRdmaRanks)
    cfg.numMaxRdmaChunkedRecvTokens
    fun lane => sendRdmaHead inp uninit (t * sh.numRdmaRanks + lane)

end Lists

/-! ### How many there are -/

section Fits

variable {sh : NodeShape} {Row Weight : Type} (inp : DispatchInputs sh.toShape Row Weight)

/-- Nodes that a token goes to. -/
def numNodes (t : ℕ) : ℕ := (List.range sh.numRdmaRanks).countP fun d => inp.InNode d t

/-- None of the lists of a routing overflows, for any token, config, ring phase and head. -/
def FanOutFits : Prop :=
  ∀ cfg uninit prev, ∀ c < sh.numChannels, ∀ t, tokenStartIdx inp c ≤ t → t < tokenEndIdx inp c →
    (topkRanks inp cfg c t prev).isSome ∧ (receiverCombineToken inp cfg t uninit).isSome ∧
      ∀ numMaxRecvTokens headIdx, (forwarderCombineToken numMaxRecvTokens headIdx).isSome

variable {inp} {c t : ℕ}

theorem topkRanks_isSome_iff (cfg : Config) (prev : ℕ → BitVec 32) :
    (topkRanks inp cfg c t prev).isSome ↔
      numNodes inp t ≤ getNumTopkRdmaRanks sh.numRdmaRanks := by
  rw [topkRanks, collect_isSome_iff, numNodes]
  have same : ∀ i, (if 0 ≤ rdmaTailIdx inp c t i then
      some (i, (prev i + BitVec.ofInt 32 (rdmaTailIdx inp c t i) + 1).toNat &&& 0xffff,
        senderSlot cfg (prev i) ((rdmaTailIdx inp c t i).toNat + 1)) else none).isSome =
      decide (inp.InNode i t) := by
    intro i
    by_cases goes : inp.InNode i t
    · rw [rdmaTailIdx, if_pos goes, if_pos (Int.natCast_nonneg _)]
      exact (decide_eq_true goes).symm
    · rw [rdmaTailIdx, if_neg goes]
      exact (decide_eq_false goes).symm
  simp only [same]

theorem receiver_isSome_iff (cfg : Config) (uninit : ℕ → ℤ) (hc : c < sh.numChannels)
    (lo : tokenStartIdx inp c ≤ t) (hi : t < tokenEndIdx inp c) :
    (receiverCombineToken inp cfg t uninit).isSome ↔
      numNodes inp t ≤ getNumTopkRdmaRanks sh.numRdmaRanks := by
  rw [receiverCombineToken, combineToken, collect_isSome_iff, numNodes]
  have same : ∀ i ∈ List.range sh.numRdmaRanks,
      ((if 0 ≤ sendRdmaHead inp uninit (t * sh.numRdmaRanks + i) then
        some (i, (sendRdmaHead inp uninit (t * sh.numRdmaRanks + i)).toNat %
          cfg.numMaxRdmaChunkedRecvTokens) else none).isSome = true ↔
        decide (inp.InNode i t) = true) := by
    intro i mem
    have entry : 0 ≤ sendRdmaHead inp uninit (t * sh.numRdmaRanks + i) ↔ inp.InNode i t := by
      rw [sendRdmaHead_apply uninit (List.mem_range.1 mem) hc lo hi]
      exact LookAhead.entry_nonneg_iff
    rw [decide_eq_true_iff, ← entry]
    split_ifs with sent
    · exact iff_of_true rfl sent
    · exact iff_of_false (by simp) sent
  rw [List.countP_congr same]

/-- A peer of the node is not counted twice, so there is room for all. -/
theorem forwarder_isSome (numMaxRecvTokens : ℕ) (headIdx : ℕ → ℤ) :
    (forwarderCombineToken numMaxRecvTokens headIdx).isSome := by
  rw [forwarderCombineToken, combineToken, collect_isSome_iff]
  exact List.countP_le_length.trans List.length_range.le

theorem numNodes_le_numRdmaRanks (t : ℕ) : numNodes inp t ≤ sh.numRdmaRanks :=
  List.countP_le_length.trans List.length_range.le

/-- **A token reaches no more nodes than it has experts.** -/
theorem numNodes_le_numTopk (ht : t < inp.numTokens) : numNodes inp t ≤ sh.numTopk := by
  have owner : ∀ d < sh.numRdmaRanks, inp.InNode d t → ∃ k < sh.numTopk,
      sh.rdmaRank (inp.topkIdx (t * sh.numTopk + k) / sh.numExpertsPerRank).toNat = d := by
    rintro d hd ⟨n, hn, goes⟩
    obtain ⟨k, hk, -, rank⟩ := (inp.isTokenInRank_iff t ht _ (NodeShape.rank_lt hd hn)).1 goes
    refine ⟨k, hk, ?_⟩
    rw [rank, Int.toNat_natCast, NodeShape.rdmaRank_flat hn]
  calc numNodes inp t
    _ = (((List.range sh.numRdmaRanks).filter fun d => inp.InNode d t).toFinset).card := by
      rw [List.toFinset_card_of_nodup (List.nodup_range.filter _), numNodes,
        List.countP_eq_length_filter]
    _ ≤ ((range sh.numTopk).image fun k =>
        sh.rdmaRank (inp.topkIdx (t * sh.numTopk + k) / sh.numExpertsPerRank).toNat).card := by
      refine card_le_card fun d mem => ?_
      obtain ⟨inside, goes⟩ := List.mem_filter.1 (List.mem_toFinset.1 mem)
      obtain ⟨k, hk, same⟩ := owner d (List.mem_range.1 inside) (of_decide_eq_true goes)
      exact mem_image.2 ⟨k, mem_range.2 hk, same⟩
    _ ≤ (range sh.numTopk).card := card_image_le
    _ = sh.numTopk := card_range _

end Fits

/-! ### A token with experts on many nodes -/

section Spread

variable (sh : NodeShape) {Row Weight : Type}

/-- Expert `k` of the token is the first one of node `k`, as far as there are nodes. -/
def spreadTopkIdx (p : ℕ) : ℤ :=
  if p < sh.numRdmaRanks then ((p * sh.numNvlPeers * sh.numExpertsPerRank : ℕ) : ℤ) else -1

variable {sh} in
theorem spreadTopkIdx_eq {p : ℕ} (nonneg : 0 ≤ spreadTopkIdx sh p) :
    p < sh.numRdmaRanks ∧
      spreadTopkIdx sh p = ((p * sh.numNvlPeers * sh.numExpertsPerRank : ℕ) : ℤ) := by
  rw [spreadTopkIdx] at nonneg ⊢
  split_ifs at nonneg ⊢ with inside
  · exact ⟨inside, rfl⟩
  · omega

variable {sh} in
theorem neg_one_le_spreadTopkIdx (p : ℕ) : -1 ≤ spreadTopkIdx sh p := by
  rw [spreadTopkIdx]
  split_ifs <;> omega

variable {sh} in
theorem spreadTopkIdx_lt (p : ℕ) :
    spreadTopkIdx sh p < sh.numRanks * sh.numExpertsPerRank := by
  rw [spreadTopkIdx]
  split_ifs with inside
  · have ranks : p * sh.numNvlPeers < sh.numRanks := by
      rw [sh.numRanks_eq]
      exact Nat.mul_lt_mul_of_pos_right inside sh.numNvlPeers_pos
    exact_mod_cast Nat.mul_lt_mul_of_pos_right ranks sh.numExpertsPerRank_pos
  · have experts : (0 : ℤ) ≤ (sh.numRanks * sh.numExpertsPerRank : ℕ) := Int.natCast_nonneg _
    push_cast at experts
    omega

variable {sh} in
theorem spreadTopkIdx_inj {p p' : ℕ} (nonneg : 0 ≤ spreadTopkIdx sh p)
    (same : spreadTopkIdx sh p = spreadTopkIdx sh p') : p = p' := by
  have expert := (spreadTopkIdx_eq nonneg).2
  have expert' := (spreadTopkIdx_eq (same ▸ nonneg)).2
  rw [expert, expert', Int.ofNat_inj] at same
  exact Nat.eq_of_mul_eq_mul_right sh.numNvlPeers_pos
    (Nat.eq_of_mul_eq_mul_right sh.numExpertsPerRank_pos same)

/-- A single token that goes to as many nodes as it can. -/
def spreadInputs (row : Row) (weight : Weight) : DispatchInputs sh.toShape Row Weight where
  numTokens := 1
  x _ := row
  topkIdx := spreadTopkIdx sh
  topkWeights _ := weight
  isTokenInRank r := decide (∃ k < sh.numTopk, 0 ≤ spreadTopkIdx sh k ∧
    spreadTopkIdx sh k / sh.numExpertsPerRank = r)
  topkIdx_lower _ _ _ _ := neg_one_le_spreadTopkIdx _
  topkIdx_upper _ _ _ _ := spreadTopkIdx_lt _
  topkIdx_distinct _ _ _ _ _ _ nonneg same := Nat.add_left_cancel (spreadTopkIdx_inj nonneg same)
  isTokenInRank_iff t ht r hr := by
    obtain rfl : t = 0 := by omega
    simp only [Nat.zero_mul, Nat.zero_add, decide_eq_true_iff]

variable {sh} {row : Row} {weight : Weight}

theorem spreadInputs_inNode {d : ℕ} (hd : d < sh.numRdmaRanks) (hk : d < sh.numTopk) :
    (spreadInputs sh row weight).InNode d 0 := by
  refine ⟨0, sh.numNvlPeers_pos, ?_⟩
  have rank : d * sh.numNvlPeers + 0 < sh.numRanks := NodeShape.rank_lt hd sh.numNvlPeers_pos
  refine ((spreadInputs sh row weight).isTokenInRank_iff 0 Nat.one_pos _ rank).2 ⟨d, hk, ?_⟩
  have expert : spreadTopkIdx sh (0 * sh.numTopk + d) =
      ((d * sh.numNvlPeers * sh.numExpertsPerRank : ℕ) : ℤ) := by
    rw [Nat.zero_mul, Nat.zero_add, spreadTopkIdx, if_pos hd]
  have owner : (spreadInputs sh row weight).topkIdx (0 * sh.numTopk + d) =
      ((d * sh.numNvlPeers * sh.numExpertsPerRank : ℕ) : ℤ) := expert
  rw [owner, ← Int.natCast_ediv, Nat.mul_div_cancel _ sh.numExpertsPerRank_pos, Nat.add_zero]
  exact ⟨Int.natCast_nonneg _, rfl⟩

theorem le_numNodes_spread :
    min sh.numTopk sh.numRdmaRanks ≤ numNodes (spreadInputs sh row weight) 0 := by
  have reached : ∀ d ∈ List.range (min sh.numTopk sh.numRdmaRanks),
      decide ((spreadInputs sh row weight).InNode d 0) = true := by
    intro d mem
    have hd := List.mem_range.1 mem
    exact decide_eq_true (spreadInputs_inNode (hd.trans_le (min_le_right _ _))
      (hd.trans_le (min_le_left _ _)))
  calc min sh.numTopk sh.numRdmaRanks
    _ = (List.range (min sh.numTopk sh.numRdmaRanks)).countP
        fun d => (spreadInputs sh row weight).InNode d 0 := by
      rw [List.countP_eq_length.2 reached, List.length_range]
    _ ≤ numNodes (spreadInputs sh row weight) 0 :=
      (List.range_sublist.2 (min_le_right _ _)).countP_le

/-- With more than eight nodes and more than eight experts the lists can overflow. -/
theorem spread_not_fits (nodes : 8 < sh.numRdmaRanks) (topk : 8 < sh.numTopk) :
    ¬ FanOutFits (spreadInputs sh row weight) := by
  intro fits
  have token : 0 < (spreadInputs sh row weight).numTokens := Nat.one_pos
  obtain ⟨lo, hi⟩ := (div_eq_channel_iff sh.numChannels_pos token).1 rfl
  have channel := channel_lt sh.numChannels_pos token
  have here := (fits tightConfig 0 0 _ channel 0 lo hi).1
  rw [topkRanks_isSome_iff, getNumTopkRdmaRanks, if_neg (by omega)] at here
  have many := @le_numNodes_spread sh Row Weight row weight
  omega

end Spread

/-- **When the lists have room.**  On every routing that dispatch takes, all writes are in
bounds exactly if there are at most eight nodes or a token has at most eight experts. -/
theorem fanOutFits_iff (sh : NodeShape) {Row Weight : Type} [Inhabited Row] [Inhabited Weight] :
    (∀ inp : DispatchInputs sh.toShape Row Weight, FanOutFits inp) ↔
      sh.numRdmaRanks ≤ 8 ∨ sh.numTopk ≤ 8 := by
  constructor
  · intro fits
    by_contra few
    obtain ⟨nodes, topk⟩ := not_or.1 few
    exact spread_not_fits (not_le.1 nodes) (not_le.1 topk) (fits (spreadInputs sh default default))
  · intro few inp cfg uninit prev c hc t lo hi
    have inside : t < inp.numTokens := lt_of_lt_of_le hi (channelEnd_le _ _ _)
    have room : numNodes inp t ≤ getNumTopkRdmaRanks sh.numRdmaRanks := by
      have nodes := @numNodes_le_numRdmaRanks sh Row Weight inp t
      have topk := numNodes_le_numTopk inside
      rw [getNumTopkRdmaRanks]
      split_ifs with less
      · exact nodes
      · rcases few with few | few
        · exact nodes.trans few
        · exact topk.trans few
    exact ⟨(topkRanks_isSome_iff cfg prev).2 room, (receiver_isSome_iff cfg uninit hc lo hi).2 room,
      fun _ _ => forwarder_isSome _ _⟩

/-- Twelve nodes of eight ranks, with nine experts for each token. -/
def twelveNodes : NodeShape where
  numRanks := 96
  numChannels := 12
  numExpertsPerRank := 1
  numTopk := 9
  tileM := 128
  numRanks_pos := Nat.succ_pos (nat_lit 95)
  numChannels_pos := Nat.succ_pos (nat_lit 11)
  numExpertsPerRank_pos := Nat.one_pos
  tileM_pos := Nat.succ_pos (nat_lit 127)
  numRdmaRanks := 12
  numNvlPeers := numMaxNvlPeers
  numRanks_eq := rfl

theorem twelveNodes_overflow :
    twelveNodes.numRdmaRanks ∈ switchRdmaRanks ∧ twelveNodes.numTopk ≤ 32 ∧
      ¬ FanOutFits (spreadInputs twelveNodes () ()) :=
  ⟨by decide, by decide, spread_not_fits (by decide) (by decide)⟩

end StreamEP.Internode
