import StreamEP.Config
import StreamEP.Internode.Nodes
import StreamEP.Lib.HeadScan

/-!
# The heads of internode combine

Combine's warps go through tensors that dispatch recorded.  On the receiver side of a channel
the entries of `send_rdma_head` say where in the stream of each node the token's contribution
lies, and on the forwarder side those of `send_nvl_head` where in the stream of each peer of
the node.  A coordinator on each side takes the minimum of the warps' heads: the receivers'
goes to the node as RDMA credit, the forwarders' to the peer as the head of its ring.

**Skips look ahead.**  A token that was not sent keeps the place of the next one that was, which
dispatch's reverse scan leaves behind (`sendRdmaHead_apply`), and behind the last there is only
`kReverseScanSentinel`.  A warp that skips a token thereby gives up all places before the next
one it may have to read, and the minimum can move.

**One lane is one system.**  Lanes do not share heads, so a coordinator and its warps are taken
lane by lane.  `HeadScan` of the library is such a lane: warps that publish a head for every
token, some of which retire, and a coordinator that reads the heads one by one while they move.
Its hypotheses about the entries are `Shares`, which the two sides meet for different reasons
(`receiver_shares`, `forwarder_shares`): receivers deal tokens out one by one, forwarders chunk
by chunk.

For every lane of a coordinator:

* what it passes on is never past an entry that some warp still has to read, and the minima
  do not decrease (`coordinators_never_free_live`);
* the credit of a node is no more than what has been read, unless the coordinator finds all
  its warps at the sentinel, which it returns like any other place
  (`sentinel_returned`).

**The second point is a defect**, and the condition is on the run: the coordinator does not
return the sentinel.  It can only find it when every warp that still runs is behind the last token
for the node.

The launch of combine puts conditions on a config (`CombineLaunch`), and the examples run on one
that meets them, with a chunk of twelve tokens.
-/

namespace StreamEP.Internode

open Loop LookAhead HeadScan

variable {sh : NodeShape} {Row Weight : Type}

/-- `std::numeric_limits<int>::max()` -/
def intMax : ℕ := 2 ^ 31 - 1

/-! ### What dispatch records -/

/-- `global_rdma_tail_idx` of one lane, and the tensor. -/
structure RdmaSenderState where
  globalRdmaTailIdx : ℕ
  sendRdmaHead : ℕ → ℤ

section Record

variable (inp : DispatchInputs sh.toShape Row Weight) (lane c : ℕ)

/-- First token of the channel. -/
def tokenStartIdx : ℕ := channelStart inp.numTokens sh.numChannels c

/-- One past its last. -/
def tokenEndIdx : ℕ := channelEnd inp.numTokens sh.numChannels c

theorem tokenStartIdx_le : tokenStartIdx inp c ≤ tokenEndIdx inp c := channelStart_le_end _ _ _

/-- One token, as lane `lane` of sender warp `warpId` sees it: all warps count it, and one
of them records it. -/
def rdmaSenderToken (warpId : ℕ) (s : RdmaSenderState) (tokenIdx : ℕ) : RdmaSenderState :=
  let tail := s.globalRdmaTailIdx + if inp.InNode lane tokenIdx then 1 else 0
  if (tokenIdx - tokenStartIdx inp c) % numDispatchRdmaSenderWarps = warpId then
    let rdmaTailIdx : ℤ := if inp.InNode lane tokenIdx then (tail : ℤ) - 1 else -1
    ⟨tail, Function.update s.sendRdmaHead (tokenIdx * sh.numRdmaRanks + lane) rdmaTailIdx⟩
  else { s with globalRdmaTailIdx := tail }

/-- The loop of a sender warp. -/
def rdmaSenderLoop (warpId : ℕ) (heads : ℕ → ℤ) : RdmaSenderState :=
  for' (tokenEndIdx inp c - tokenStartIdx inp c)
    (fun s i => rdmaSenderToken inp lane c warpId s (tokenStartIdx inp c + i)) ⟨0, heads⟩

/-- All sender warps, and then the reverse scan of warp 0. -/
def rdmaSenders (heads : ℕ → ℤ) : ℕ → ℤ :=
  scan (tokenStartIdx inp c) (tokenEndIdx inp c) kReverseScanSentinel
    (fun tokenIdx => tokenIdx * sh.numRdmaRanks + lane)
    (for' numDispatchRdmaSenderWarps
      (fun heads warpId => (rdmaSenderLoop inp lane c warpId heads).sendRdmaHead) heads)

/-- `send_rdma_head` after all channels of a dispatch.  Their entries are disjoint, so their
order does not matter. -/
def sendRdmaHead (uninit : ℕ → ℤ) : ℕ → ℤ :=
  for' sh.numChannels (fun heads c =>
    for' sh.numRdmaRanks (fun heads lane => rdmaSenders inp lane c heads) heads) uninit

/-- The entry of a token: its place in the stream of the node, or the next one, encoded. -/
def rdmaHeadEntry (t : ℕ) : ℤ :=
  entry (inp.InNode lane) (tokenStartIdx inp c) (tokenEndIdx inp c) kReverseScanSentinel t

/-- What holds when a warp has come to token `t`. -/
structure RdmaSenderInv (warpId : ℕ) (initial : ℕ → ℤ) (t : ℕ) (s : RdmaSenderState) :
    Prop where
  tail : s.globalRdmaTailIdx = Stream.pos (inp.InNode lane) (tokenStartIdx inp c) t
  recorded : ∀ t', tokenStartIdx inp c ≤ t' → t' < t →
    (t' - tokenStartIdx inp c) % numDispatchRdmaSenderWarps = warpId →
    s.sendRdmaHead (t' * sh.numRdmaRanks + lane) =
      if inp.InNode lane t' then (Stream.pos (inp.InNode lane) (tokenStartIdx inp c) t' : ℤ)
      else -1
  frame : ∀ i, (∀ t', tokenStartIdx inp c ≤ t' → t' < t →
    (t' - tokenStartIdx inp c) % numDispatchRdmaSenderWarps = warpId →
      i ≠ t' * sh.numRdmaRanks + lane) → s.sendRdmaHead i = initial i

end Record

section Record

variable {inp : DispatchInputs sh.toShape Row Weight} {lane c : ℕ}

theorem rdmaCell_injective (hlane : lane < sh.numRdmaRanks) :
    Function.Injective fun tokenIdx => tokenIdx * sh.numRdmaRanks + lane :=
  fun _ _ same => ((PrefixSum.flat_inj hlane hlane).1 same).1

theorem rdmaSenderToken_inv (hlane : lane < sh.numRdmaRanks) {warpId t : ℕ}
    {initial : ℕ → ℤ} {s : RdmaSenderState} (lo : tokenStartIdx inp c ≤ t)
    (inv : RdmaSenderInv inp lane c warpId initial t s) :
    RdmaSenderInv inp lane c warpId initial (t + 1) (rdmaSenderToken inp lane c warpId s t) := by
  have tail : s.globalRdmaTailIdx + (if inp.InNode lane t then 1 else 0) =
      Stream.pos (inp.InNode lane) (tokenStartIdx inp c) (t + 1) := by
    rw [Stream.pos_succ lo, inv.tail]
  unfold rdmaSenderToken
  by_cases mine : (t - tokenStartIdx inp c) % numDispatchRdmaSenderWarps = warpId
  · simp only [if_pos mine]
    refine ⟨tail, fun t' from_start below its => ?_, fun i other => ?_⟩
    · rcases Nat.lt_succ_iff_lt_or_eq.1 below with before | rfl
      · simp only [Function.update_of_ne fun here => before.ne (rdmaCell_injective hlane here)]
        exact inv.recorded t' from_start before its
      · simp only [Function.update_self, inv.tail]
        by_cases goes : inp.InNode lane t'
        · simp only [if_pos goes]
          omega
        · simp only [if_neg goes]
    · simp only [Function.update_of_ne (other t lo (Nat.lt_succ_self t) mine)]
      exact inv.frame i fun t' from_start below =>
        other t' from_start (Nat.lt_succ_of_lt below)
  · simp only [if_neg mine]
    refine ⟨tail, fun t' from_start below its => ?_, fun i other => inv.frame i
      fun t' from_start below => other t' from_start (Nat.lt_succ_of_lt below)⟩
    rcases Nat.lt_succ_iff_lt_or_eq.1 below with before | rfl
    · exact inv.recorded t' from_start before its
    · exact absurd its mine

theorem rdmaSenderLoop_inv (hlane : lane < sh.numRdmaRanks) (warpId : ℕ) (heads : ℕ → ℤ) :
    RdmaSenderInv inp lane c warpId heads (tokenEndIdx inp c)
      (rdmaSenderLoop inp lane c warpId heads) := by
  have le := tokenStartIdx_le inp c
  have walked := for_invariant
    (f := fun s i => rdmaSenderToken inp lane c warpId s (tokenStartIdx inp c + i))
    (s := ⟨0, heads⟩)
    (fun i => RdmaSenderInv inp lane c warpId heads (tokenStartIdx inp c + i))
    (n := tokenEndIdx inp c - tokenStartIdx inp c)
    ⟨Stream.pos_start.symm, fun t' from_start below => absurd below (not_lt.2 from_start),
      fun _ _ => rfl⟩
    fun i _ s inv => rdmaSenderToken_inv hlane (Nat.le_add_right _ i) inv
  rwa [Nat.add_sub_cancel' le] at walked

/-- The warps together record every token of the channel, -/
theorem rdmaSenders_recorded (hlane : lane < sh.numRdmaRanks) (heads : ℕ → ℤ) :
    Recorded (inp.InNode lane) (tokenStartIdx inp c) (tokenEndIdx inp c)
      (fun tokenIdx => tokenIdx * sh.numRdmaRanks + lane)
      (for' numDispatchRdmaSenderWarps
        (fun heads warpId => (rdmaSenderLoop inp lane c warpId heads).sendRdmaHead) heads) := by
  intro t lo hi
  refine for_cell
    (f := fun heads warpId => (rdmaSenderLoop inp lane c warpId heads).sendRdmaHead)
    (fun heads => heads (t * sh.numRdmaRanks + lane) = _)
    (Nat.mod_lt (t - tokenStartIdx inp c) (by decide)) (fun heads => ?_)
    (fun warpId _ other heads set => ?_) heads
  · exact (rdmaSenderLoop_inv hlane _ heads).recorded t lo hi rfl
  · rw [(rdmaSenderLoop_inv hlane warpId heads).frame _ fun t' _ _ its here => other ?_]
    · exact set
    · rw [← its, rdmaCell_injective hlane here]

/-- and nothing else. -/
theorem rdmaSenders_frame (hlane : lane < sh.numRdmaRanks) (heads : ℕ → ℤ) {i : ℕ}
    (other : ∀ t, tokenStartIdx inp c ≤ t → t < tokenEndIdx inp c →
      i ≠ t * sh.numRdmaRanks + lane) :
    rdmaSenders inp lane c heads i = heads i := by
  rw [rdmaSenders, (scan_encodes (rdmaCell_injective hlane) (tokenStartIdx_le inp c)
    (rdmaSenders_recorded hlane heads)).2 i other]
  refine for_invariant
    (f := fun heads warpId => (rdmaSenderLoop inp lane c warpId heads).sendRdmaHead)
    (fun _ after => after i = heads i) rfl fun warpId _ after same => ?_
  exact ((rdmaSenderLoop_inv hlane warpId after).frame i fun t lo hi _ => other t lo hi).trans
    same

theorem rdmaSenders_apply (hlane : lane < sh.numRdmaRanks) (heads : ℕ → ℤ) {t : ℕ}
    (lo : tokenStartIdx inp c ≤ t) (hi : t < tokenEndIdx inp c) :
    rdmaSenders inp lane c heads (t * sh.numRdmaRanks + lane) = rdmaHeadEntry inp lane c t :=
  (scan_encodes (rdmaCell_injective hlane) (tokenStartIdx_le inp c)
    (rdmaSenders_recorded hlane heads)).1 t lo hi

/-- **The entries of `send_rdma_head`** look ahead within their channel. -/
theorem sendRdmaHead_apply (uninit : ℕ → ℤ) {t : ℕ} (hlane : lane < sh.numRdmaRanks)
    (hc : c < sh.numChannels) (lo : tokenStartIdx inp c ≤ t) (hi : t < tokenEndIdx inp c) :
    sendRdmaHead inp uninit (t * sh.numRdmaRanks + lane) = rdmaHeadEntry inp lane c t := by
  refine for_cell (fun heads => heads (t * sh.numRdmaRanks + lane) = rdmaHeadEntry inp lane c t)
    hc (fun heads => ?_) (fun c' _ elsewhere heads set => ?_) uninit
  · refine for_cell (f := fun heads lane => rdmaSenders inp lane c heads)
      (fun heads => heads (t * sh.numRdmaRanks + lane) = rdmaHeadEntry inp lane c t) hlane
      (fun heads => rdmaSenders_apply hlane heads lo hi) (fun lane' hlane' other heads set => ?_)
      heads
    rw [rdmaSenders_frame hlane' heads fun t' _ _ same =>
      other ((PrefixSum.flat_inj hlane hlane').1 same).2.symm]
    exact set
  · refine for_invariant (f := fun heads lane => rdmaSenders inp lane c' heads)
      (fun _ heads => heads (t * sh.numRdmaRanks + lane) = rdmaHeadEntry inp lane c t) set
      fun lane' hlane' heads set => ?_
    have inside : t < inp.numTokens := lt_of_lt_of_le hi (channelEnd_le _ _ _)
    rw [rdmaSenders_frame hlane' heads fun t' lo' hi' same => ?_]
    · exact set
    · obtain ⟨rfl, -⟩ := (PrefixSum.flat_inj hlane hlane').1 same
      have here := (div_eq_channel_iff sh.numChannels_pos inside).2 ⟨lo, hi⟩
      have there := (div_eq_channel_iff sh.numChannels_pos inside).2 ⟨lo', hi'⟩
      exact elsewhere (there.symm.trans here)

/-- `-expected_head - 1`, for a token that was not sent to the node: the place of the next
one that was. -/
structure SkipDecodes (inp : DispatchInputs sh.toShape Row Weight) (lane c : ℕ)
    (uninit : ℕ → ℤ) (t : ℕ) : Prop where
  next : ∀ t', t < t' → t' < tokenEndIdx inp c → inp.InNode lane t' →
    (∀ x, t < x → x < t' → ¬inp.InNode lane x) →
      -sendRdmaHead inp uninit (t * sh.numRdmaRanks + lane) - 1 =
        Stream.pos (inp.InNode lane) (tokenStartIdx inp c) t'
  last : (∀ x, t < x → x < tokenEndIdx inp c → ¬inp.InNode lane x) →
    -sendRdmaHead inp uninit (t * sh.numRdmaRanks + lane) - 1 = kReverseScanSentinel

theorem skipDecodes (uninit : ℕ → ℤ) {t : ℕ} (hlane : lane < sh.numRdmaRanks)
    (hc : c < sh.numChannels) (lo : tokenStartIdx inp c ≤ t) (hi : t < tokenEndIdx inp c)
    (skipped : ¬inp.InNode lane t) : SkipDecodes inp lane c uninit t := by
  have encoded : -sendRdmaHead inp uninit (t * sh.numRdmaRanks + lane) - 1 =
      LookAhead.next (inp.InNode lane) (tokenStartIdx inp c) (tokenEndIdx inp c)
        kReverseScanSentinel t := by
    rw [sendRdmaHead_apply uninit hlane hc lo hi, rdmaHeadEntry, entry, if_neg skipped]
    omega
  -- the skipped token itself does not count, so "after `t`" and "from `t` on" are the same
  have from_here : ∀ {t'}, (∀ x, t < x → x < t' → ¬inp.InNode lane x) →
      ∀ x, t ≤ x → x < t' → ¬inp.InNode lane x := fun none x le below =>
    (eq_or_lt_of_le le).elim (fun here => here ▸ skipped) fun after => none x after below
  constructor
  case next =>
    intro t' after inside goes none
    rw [encoded, next_eq_of_skipped after.le (lo.trans after.le) inside goes (from_here none)]
  case last =>
    intro none
    rw [encoded, next_eq_sentinel hi.le (from_here none)]

end Record

/-! ### The warps of combine -/

/-- `kNumWarpsPerForwarder` -/
def numWarpsPerForwarder (numRdmaRanks : ℕ) : ℕ :=
  if numCombineForwarderWarps / numRdmaRanks > 0 then numCombineForwarderWarps / numRdmaRanks
  else 1

/-- `kNumForwarders` -/
def numForwarders (numRdmaRanks : ℕ) : ℕ := numRdmaRanks * numWarpsPerForwarder numRdmaRanks

/-- `kNumRDMAReceivers` -/
def numRdmaReceivers (numRdmaRanks : ℕ) : ℕ := numForwarders numRdmaRanks - numMaxNvlPeers

theorem numWarpsPerForwarder_pos (numRdmaRanks : ℕ) : 0 < numWarpsPerForwarder numRdmaRanks := by
  rw [numWarpsPerForwarder]
  split_ifs with some
  · exact some
  · exact Nat.one_pos

/-- However many nodes there are, more warps forward than a node has peers. -/
theorem numRdmaReceivers_pos {numRdmaRanks : ℕ} (nodes : 0 < numRdmaRanks) :
    0 < numRdmaReceivers numRdmaRanks := by
  have split : numRdmaRanks * (24 / numRdmaRanks) + 24 % numRdmaRanks = 24 :=
    Nat.div_add_mod _ _
  have left : 24 % numRdmaRanks < numRdmaRanks := Nat.mod_lt _ nodes
  refine Nat.sub_pos_of_lt ?_
  simp only [numForwarders, numWarpsPerForwarder, numCombineForwarderWarps, numMaxNvlPeers]
  split_ifs with some
  · have whole : numRdmaRanks ≤ numRdmaRanks * (24 / numRdmaRanks) :=
      Nat.le_mul_of_pos_right _ some
    omega
  · have none := (Nat.div_eq_zero_iff_lt nodes).1 (Nat.eq_zero_of_not_pos some)
    omega

/-- What `launch_combine_main` asserts. -/
structure CombineLaunch (numRdmaRanks : ℕ) (cfg : Config) : Prop where
  ranks : numRdmaRanks ≤ numCombineForwarderWarps
  forwarders : numMaxNvlPeers < numForwarders numRdmaRanks
  whole : cfg.numMaxNvlChunkedRecvTokens % numRdmaRanks = 0
  chunks : max cfg.numMaxRdmaChunkedSendTokens cfg.numMaxNvlChunkedSendTokens <
    cfg.numMaxNvlChunkedRecvTokens / numRdmaRanks
  room : cfg.numMaxNvlChunkedSendTokens + numWarpsPerForwarder numRdmaRanks ≤
    cfg.numMaxNvlChunkedRecvTokens / numRdmaRanks
  large : numWarpsPerForwarder numRdmaRanks ≤ cfg.numMaxRdmaChunkedSendTokens

section Warps

variable (inp : DispatchInputs sh.toShape Row Weight) (lane c : ℕ) (cfg : Config)

/-- The tokens of a receiver warp. -/
def receiverTokens (warpId : Fin (numRdmaReceivers sh.numRdmaRanks)) : List ℕ :=
  strided (tokenStartIdx inp c + warpId) (tokenEndIdx inp c) (numRdmaReceivers sh.numRdmaRanks)

/-- The receivers of a channel, and their coordinator, on the lane of a node. -/
def receiverPlan (uninit : ℕ → ℤ) : Plan (numRdmaReceivers sh.numRdmaRanks) :=
  Plan.replay (receiverTokens inp c)
    (fun tokenIdx => sendRdmaHead inp uninit (tokenIdx * sh.numRdmaRanks + lane))
    -- a receiver leaves its head where it is when it is done with a token
    (fun expectedHead => (if expectedHead < 0 then -expectedHead - 1 else expectedHead).toNat)
    cfg.numMaxRdmaChunkedSendTokens intMax

/-- The tokens of a forwarder warp: chunk by chunk. -/
def forwarderTokens (numTokensToCombine numWarps : ℕ) (subWarpId : Fin numWarps) : List ℕ :=
  (strided 0 numTokensToCombine cfg.numMaxRdmaChunkedSendTokens).flatMap fun tokenStartIdx =>
    let tokenEndIdx := min (tokenStartIdx + cfg.numMaxRdmaChunkedSendTokens) numTokensToCombine
    strided (tokenStartIdx + subWarpId) tokenEndIdx numWarps

/-- The forwarders for a node, and their coordinator, on the lane of a peer. -/
def forwarderPlan (numTokensToCombine numWarps : ℕ) (combinedNvlHeadLocal : ℕ → ℤ) :
    Plan numWarps :=
  Plan.replay (forwarderTokens cfg numTokensToCombine numWarps)
    (fun tokenIdx => combinedNvlHeadLocal (tokenIdx * numMaxNvlPeers + lane))
    (fun expectedHead => (if expectedHead < 0 then -expectedHead - 1 else expectedHead + 1).toNat)
    1 intMax

end Warps

section Warps

variable {inp : DispatchInputs sh.toShape Row Weight} {lane c : ℕ} {cfg : Config}

theorem receiver_shares (hlane : lane < sh.numRdmaRanks) (hc : c < sh.numChannels)
    (uninit : ℕ → ℤ) :
    Shares (inp.InNode lane) (tokenStartIdx inp c) (tokenEndIdx inp c) kReverseScanSentinel
      (receiverTokens inp c)
      fun tokenIdx => sendRdmaHead inp uninit (tokenIdx * sh.numRdmaRanks + lane) where
  sorted _ := strided_sorted (numRdmaReceivers_pos sh.numRdmaRanks_pos)
  inside _ _ mem :=
    have ⟨lo, hi⟩ := inside_of_mem_strided mem
    ⟨(Nat.le_add_right _ _).trans lo, hi⟩
  covers t lo hi :=
    have warps := numRdmaReceivers_pos sh.numRdmaRanks_pos
    ⟨⟨(t - tokenStartIdx inp c) % numRdmaReceivers sh.numRdmaRanks, Nat.mod_lt _ warps⟩,
      mem_strided warps lo hi⟩
  record _ lo hi := sendRdmaHead_apply uninit hlane hc lo hi

/-- `send_nvl_head` of a range, on the lane of a peer: a skip looks ahead. -/
def NvlEncoded (peer : ℕ → Prop) [DecidablePred peer] (numTokensToCombine lane : ℕ)
    (combinedNvlHeadLocal : ℕ → ℤ) : Prop :=
  ∀ t < numTokensToCombine, combinedNvlHeadLocal (t * numMaxNvlPeers + lane) =
    entry peer 0 numTokensToCombine kReverseScanSentinel t

section ForwarderTokens

variable {numTokensToCombine numWarps : ℕ}

theorem forwarderTokens_sorted (warps : 0 < numWarps) (subWarpId : Fin numWarps) :
    (forwarderTokens cfg numTokensToCombine numWarps subWarpId).Pairwise (· < ·) := by
  refine List.pairwise_flatMap.2 ⟨fun _ _ => strided_sorted warps, ?_⟩
  -- a chunk is behind the chunks before it
  refine strided_apart.imp fun apart t mem t' mem' => ?_
  calc t < min (_ + cfg.numMaxRdmaChunkedSendTokens) numTokensToCombine :=
        (inside_of_mem_strided mem).2
    _ ≤ _ + cfg.numMaxRdmaChunkedSendTokens := min_le_left _ _
    _ ≤ _ := apart
    _ ≤ t' := (Nat.le_add_right _ _).trans (inside_of_mem_strided mem').1

theorem forwarderTokens_lt {subWarpId : Fin numWarps} {t : ℕ}
    (mem : t ∈ forwarderTokens cfg numTokensToCombine numWarps subWarpId) :
    t < numTokensToCombine := by
  obtain ⟨chunk, -, mem⟩ := List.mem_flatMap.1 mem
  exact (inside_of_mem_strided mem).2.trans_le (min_le_right _ _)

theorem exists_mem_forwarderTokens (cfg : Config) (warps : 0 < numWarps) {t : ℕ}
    (hi : t < numTokensToCombine) :
    ∃ subWarpId, t ∈ forwarderTokens cfg numTokensToCombine numWarps subWarpId := by
  have chunk := cfg.rdmaSend_pos
  have split := Nat.div_add_mod' t cfg.numMaxRdmaChunkedSendTokens
  have below := Nat.mod_lt t chunk
  refine ⟨⟨(t - t / cfg.numMaxRdmaChunkedSendTokens * cfg.numMaxRdmaChunkedSendTokens) %
    numWarps, Nat.mod_lt _ warps⟩, List.mem_flatMap.2 ⟨_, chunk_mem_strided chunk hi, ?_⟩⟩
  exact mem_strided warps (Nat.div_mul_le_self t _) (lt_min (by omega) hi)

/-- The place of a token in its chunk says which warp takes it. -/
theorem mem_forwarderTokens (warps : 0 < numWarps) {subWarpId : Fin numWarps} {t : ℕ} :
    t ∈ forwarderTokens cfg numTokensToCombine numWarps subWarpId ↔
      t < numTokensToCombine ∧ t % cfg.numMaxRdmaChunkedSendTokens % numWarps = subWarpId := by
  have chunk := cfg.rdmaSend_pos
  constructor
  · intro mem
    refine ⟨forwarderTokens_lt mem, ?_⟩
    obtain ⟨start, chunks, mem⟩ := List.mem_flatMap.1 mem
    obtain ⟨i, -, rfl⟩ := List.mem_range'.1 chunks
    have below := (inside_of_mem_strided mem).2.trans_le (min_le_left _ _)
    obtain ⟨j, -, rfl⟩ := List.mem_range'.1 mem
    have inChunk : subWarpId + numWarps * j < cfg.numMaxRdmaChunkedSendTokens := by omega
    rw [Nat.zero_add, Nat.add_assoc, Nat.mul_add_mod, Nat.mod_eq_of_lt inChunk,
      Nat.add_mul_mod_self_left, Nat.mod_eq_of_lt subWarpId.isLt]
  · rintro ⟨hi, place⟩
    have split := Nat.div_add_mod' t cfg.numMaxRdmaChunkedSendTokens
    have below := Nat.mod_lt t chunk
    refine List.mem_flatMap.2 ⟨_, chunk_mem_strided chunk hi, ?_⟩
    have mem := mem_strided warps (Nat.div_mul_le_self t cfg.numMaxRdmaChunkedSendTokens)
      (lt_min (by omega) hi : t < min (t / cfg.numMaxRdmaChunkedSendTokens *
        cfg.numMaxRdmaChunkedSendTokens + cfg.numMaxRdmaChunkedSendTokens) numTokensToCombine)
    rwa [show t - t / cfg.numMaxRdmaChunkedSendTokens * cfg.numMaxRdmaChunkedSendTokens =
      t % cfg.numMaxRdmaChunkedSendTokens by omega, place] at mem

end ForwarderTokens

theorem forwarder_shares {peer : ℕ → Prop} [DecidablePred peer] {numTokensToCombine numWarps : ℕ}
    (warps : 0 < numWarps) {combinedNvlHeadLocal : ℕ → ℤ}
    (encoded : NvlEncoded peer numTokensToCombine lane combinedNvlHeadLocal) :
    Shares peer 0 numTokensToCombine kReverseScanSentinel
      (forwarderTokens cfg numTokensToCombine numWarps)
      fun tokenIdx => combinedNvlHeadLocal (tokenIdx * numMaxNvlPeers + lane) where
  sorted := forwarderTokens_sorted warps
  inside _ _ mem := ⟨Nat.zero_le _, forwarderTokens_lt mem⟩
  covers _ _ hi := exists_mem_forwarderTokens cfg warps hi
  record t _ hi := encoded t hi

/-- A receiver's head stays, -/
theorem receiver_endsAt : EndsAt fun expectedHead =>
    (if expectedHead < 0 then -expectedHead - 1 else expectedHead).toNat :=
  fun _ => ⟨le_rfl, Nat.le_add_right _ _⟩

/-- and a forwarder's moves past what it has read. -/
theorem forwarder_endsAt : EndsAt fun expectedHead =>
    (if expectedHead < 0 then -expectedHead - 1 else expectedHead + 1).toNat := by
  intro e
  simp only [decode]
  split_ifs <;> omega

/-- Tokens of a channel that go to the node. -/
def channelTokens (inp : DispatchInputs sh.toShape Row Weight) (lane c : ℕ) : ℕ :=
  Stream.pos (inp.InNode lane) (tokenStartIdx inp c) (tokenEndIdx inp c)

/-- **The coordinators never free what a warp still has to read.**  No more credit is returned
than has been read in runs in which the receivers' coordinator does not return the sentinel,
which it finds when all its warps are behind the last token for the node. -/
theorem coordinators_never_free_live (cfg : Config)
    (inp : DispatchInputs sh.toShape Row Weight) (uninit : ℕ → ℤ)
    (hlane : lane < sh.numRdmaRanks) (hc : c < sh.numChannels) :
    (∀ s, (system (receiverPlan inp lane c cfg uninit)).Reachable s →
      FreesRead (receiverPlan inp lane c cfg uninit) (channelTokens inp lane c)
        kReverseScanSentinel s) ∧
    (∀ s, (system (receiverPlan inp lane c cfg uninit)).ReachableUnder
        (MeaningfulFrontier (receiverPlan inp lane c cfg uninit) (channelTokens inp lane c)
          kReverseScanSentinel) s →
      s.returned ≤ consumed (receiverPlan inp lane c cfg uninit) s) ∧
    (∀ (peer : ℕ → Prop) [DecidablePred peer] (numTokensToCombine nvlLane : ℕ)
        (combinedNvlHeadLocal : ℕ → ℤ),
      NvlEncoded peer numTokensToCombine nvlLane combinedNvlHeadLocal → ∀ s,
        (system (forwarderPlan nvlLane cfg numTokensToCombine
          (numWarpsPerForwarder sh.numRdmaRanks) combinedNvlHeadLocal)).Reachable s →
        FreesRead (forwarderPlan nvlLane cfg numTokensToCombine
            (numWarpsPerForwarder sh.numRdmaRanks) combinedNvlHeadLocal)
          (Stream.pos peer 0 numTokensToCombine) kReverseScanSentinel s) ∧
    ∀ t, tokenStartIdx inp c ≤ t → t < tokenEndIdx inp c → ¬inp.InNode lane t →
      SkipDecodes inp lane c uninit t := by
  have shares : Shares (inp.InNode lane) (tokenStartIdx inp c) (tokenEndIdx inp c)
      kReverseScanSentinel (receiverTokens inp c) _ := receiver_shares hlane hc uninit
  refine ⟨fun s reach => ?_, fun s reach => ?_, fun peer _ n nvlLane heads encoded s reach => ?_,
    fun t lo hi skipped => ?_⟩
  · exact shares.freesRead receiver_endsAt reach
  · exact returned_le_consumed (shares.sound receiver_endsAt)
      (shares.bounded receiver_endsAt (tokenStartIdx_le inp c)) reach
  · exact (forwarder_shares (numWarpsPerForwarder_pos _) encoded).freesRead forwarder_endsAt
      reach
  · exact skipDecodes uninit hlane hc lo hi skipped

end Warps

/-! ### Two tokens for one node -/

section Example

/-- The launch accepts rings of two chunks between two nodes. -/
theorem twoChunkConfig_launch : CombineLaunch 2 twoChunkConfig :=
  ⟨by decide, by decide, by decide, by decide, by decide, by decide⟩

/-- Two nodes of eight ranks. -/
def twoNodes : NodeShape where
  numRanks := 2 * numMaxNvlPeers
  numChannels := 1
  numExpertsPerRank := 1
  numTopk := 1
  tileM := 1
  numRanks_pos := Nat.mul_pos Nat.two_pos (Nat.succ_pos _)
  numChannels_pos := Nat.one_pos
  numExpertsPerRank_pos := Nat.one_pos
  tileM_pos := Nat.one_pos
  numRdmaRanks := 2
  numNvlPeers := numMaxNvlPeers
  numRanks_eq := rfl

/-- All tokens are for the first rank of node 0. -/
def allForNode0 (numTokens : ℕ) : DispatchInputs twoNodes.toShape ℕ ℕ where
  numTokens := numTokens
  x t := t
  topkIdx _ := 0
  topkWeights _ := 1
  isTokenInRank i := decide (i % 16 = 0)
  topkIdx_lower _ _ _ _ := by decide
  topkIdx_upper _ _ _ _ := by decide
  topkIdx_distinct _ _ k hk k' hk' _ _ :=
    (Nat.lt_one_iff.1 hk).trans (Nat.lt_one_iff.1 hk').symm
  isTokenInRank_iff t _ r hr := by
    have owner : (t * 16 + r) % 16 = 0 ↔ 0 = r := by
      have : r < 16 := hr
      omega
    rw [decide_eq_true_iff, show twoNodes.numRanks = 16 from rfl, owner]
    exact ⟨fun here => ⟨0, Nat.one_pos, le_rfl, congrArg _ here⟩, fun ⟨_, _, _, here⟩ =>
      Int.ofNat_inj.1 here⟩

/-- Two tokens, both for node 0. -/
def twoTokens : DispatchInputs twoNodes.toShape ℕ ℕ := allForNode0 2

/-- One token more than a chunk has, all for node 0. -/
def thirteenTokens : DispatchInputs twoNodes.toShape ℕ ℕ := allForNode0 13

/-- A scan of all warps that finds the given ones still running. -/
def scanOf {n : ℕ} (running : List (Fin n)) : List (HeadScan.Event n) :=
  ((List.finRange n).flatMap fun w => if w ∈ running then [.flag, .look] else [.flag]) ++ [.close]

/-- All warps but some retire. -/
def retireBut {n : ℕ} (running : List (Fin n)) : List (HeadScan.Event n) :=
  ((List.finRange n).filter (· ∉ running)).map .retire

/-- Receivers have read the first chunk, and the next one is about to read its token. -/
def chunkRead (next : Fin (numRdmaReceivers 2)) : List (HeadScan.Event (numRdmaReceivers 2)) :=
  ((List.finRange _).filter (· < next)).flatMap (fun w => [.take w, .see w 13, .finish w]) ++
    [.take next] ++ retireBut [next] ++ scanOf [next]

/-- One forwarder has read the only token of its range. -/
def oneForwarded (w0 : Fin (numWarpsPerForwarder 2)) :
    List (HeadScan.Event (numWarpsPerForwarder 2)) :=
  retireBut [w0] ++ [.take w0, .see w0 1, .finish w0] ++ scanOf [w0]

/-- The places of a chunk are returned, or that of the one token published, when they have been
read; and the first of the tokens that skip node 1 looks past the last. -/
theorem thirteenTokens_frees_read :
    (∃ s, s.returned = 12 ∧
      FreesRead (receiverPlan thirteenTokens 0 0 twoChunkConfig fun _ => 7) 13
        kReverseScanSentinel s ∧
      s.returned ≤ consumed (receiverPlan thirteenTokens 0 0 twoChunkConfig fun _ => 7) s) ∧
    (∃ s, s.published = [1] ∧
      FreesRead (forwarderPlan 0 twoChunkConfig 1 (numWarpsPerForwarder 2) fun _ => 0) 1
        kReverseScanSentinel s) ∧
    SkipDecodes thirteenTokens 1 0 (fun _ => 7) 0 := by
  have lane0 : 0 < twoNodes.numRdmaRanks := by decide
  have lane1 : 1 < twoNodes.numRdmaRanks := by decide
  have channel0 : 0 < twoNodes.numChannels := by decide
  obtain ⟨receivers, credits, forwarders, -⟩ :=
    coordinators_never_free_live twoChunkConfig thirteenTokens (fun _ => 7) lane0 channel0
  obtain ⟨-, -, -, skips⟩ :=
    coordinators_never_free_live twoChunkConfig thirteenTokens (fun _ => 7) lane1 channel0
  refine ⟨?_, ?_, skips 0 (by decide) (by decide) (by decide)⟩
  · have replays : ((system (receiverPlan thirteenTokens 0 0 twoChunkConfig fun _ => 7)).runUnder
        (MeaningfulFrontier (receiverPlan thirteenTokens 0 0 twoChunkConfig fun _ => 7)
          (channelTokens thirteenTokens 0 0) kReverseScanSentinel)
        (HeadScan.start (receiverPlan thirteenTokens 0 0 twoChunkConfig fun _ => 7))
        (chunkRead ⟨12, by decide⟩)).any (fun s => decide (s.returned = 12)) = true := by
      decide +kernel
    obtain ⟨s, replay, returned⟩ := (Option.any_eq_true _ _).1 replays
    have reach := TransitionSystem.ReachableUnder.init.run replay
    exact ⟨s, of_decide_eq_true returned, receivers s reach.reachable, credits s reach⟩
  · have replays : ((system (forwarderPlan 0 twoChunkConfig 1 (numWarpsPerForwarder 2)
        fun _ => 0)).run (HeadScan.start (forwarderPlan 0 twoChunkConfig 1
          (numWarpsPerForwarder 2) fun _ => 0)) (oneForwarded ⟨0, by decide⟩)).any
            (fun s => decide (s.published = [1])) = true := by
      decide +kernel
    obtain ⟨s, replay, published⟩ := (Option.any_eq_true _ _).1 replays
    have encoded : NvlEncoded (fun _ => True) 1 0 fun _ => 0 := by
      intro t ht
      obtain rfl := Nat.lt_one_iff.1 ht
      rfl
    exact ⟨s, of_decide_eq_true published, forwarders (fun _ => True) 1 0 (fun _ => 0) encoded s
      (TransitionSystem.Reachable.init.run replay)⟩

/-- Two receivers skip a token each. -/
def skipsBoth (w0 w1 : Fin (numRdmaReceivers 2)) : List (HeadScan.Event (numRdmaReceivers 2)) :=
  [.take w0, .take w1] ++ retireBut [w0, w1] ++ scanOf [w0, w1]

/-- **The sentinel is returned as credit.**  Nothing goes to node 1; a scan that finds both
tokens being skipped returns credit for all entries that could ever have been. -/
theorem sentinel_returned : CombineLaunch 2 twoChunkConfig ∧
    ¬∀ s, (system (receiverPlan twoTokens 1 0 twoChunkConfig fun _ => 7)).Reachable s →
      s.returned ≤ consumed (receiverPlan twoTokens 1 0 twoChunkConfig fun _ => 7) s := by
  refine ⟨twoChunkConfig_launch, fun bounded => ?_⟩
  have replays : ((system (receiverPlan twoTokens 1 0 twoChunkConfig fun _ => 7)).run
      (HeadScan.start (receiverPlan twoTokens 1 0 twoChunkConfig fun _ => 7))
      (skipsBoth ⟨0, by decide⟩ ⟨1, by decide⟩)).any (fun s =>
        decide (s.returned = 2 ^ 25 ∧
          consumed (receiverPlan twoTokens 1 0 twoChunkConfig fun _ => 7) s = 0)) = true := by
    decide +kernel
  obtain ⟨s, replay, facts⟩ := (Option.any_eq_true _ _).1 replays
  obtain ⟨returned, read⟩ := of_decide_eq_true facts
  have le := bounded s (TransitionSystem.Reachable.init.run replay)
  rw [returned, read] at le
  exact absurd le (by decide)

end Example

end StreamEP.Internode
