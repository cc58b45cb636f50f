import StreamEP.Intranode.Receiver
import StreamEP.Intranode.Slots
import StreamEP.Layout
import StreamEP.SubstreamSlots

/-!
# Intranode dispatch, all ranks together

A `World` is what all ranks pass to one dispatch, together with what earlier
kernels left in the memory it uses.  `dispatchReceiver` runs the receiver of
(channel, source) at a rank on the tables of the metadata kernels, for a given
delivery of its substream.

**The pieces meet here.**  The sender announces where its substream starts and ends, the
metadata kernels say where the ids of a source start at the rank, and the receiver adds the two
(`firstId_add_ringPos`).  The receiver's counters start at zero for the experts that the threads
of its group clear, one each; a rank with more experts than that would start from what was
there.

The closed forms are stated over the routing and the rank's `PoolPlan`:
`recvTokenId` numbers the tokens that reach a rank by (source rank, source token),
and `pairSlot` is the slot of one (token, k) pair.  `dispatchReceiver_landed` says
that the receiver computes exactly these, for every delivery.
-/

namespace StreamEP.Intranode

open Finset Loop

variable {sh : Shape} {Row Weight : Type}

/-- One dispatch over all ranks. -/
structure World (sh : Shape) (Row Weight : Type) where
  inputs : ℕ → DispatchInputs sh Row Weight
  /-- Slots of each ring. -/
  numRecvBufferTokens : ℕ
  /-- What each rank's inboxes held before the exchange. -/
  staleE : ℕ → ℕ → ℕ
  staleU : ℕ → ℕ → ℕ
  /-- Shared memory as a receiver block finds it. -/
  uninitSeen : ℕ → ℕ
  uninitSlot : ℕ → ℤ

namespace World

variable (w : World sh Row Weight) (g c src : ℕ)

/-- Rank `g`'s pair inbox when Phase B reads it. -/
def eIn : ℕ → ℕ := eInbox w.inputs (w.staleE g) g

/-- Rank `g`'s token inbox when Phase B reads it. -/
def uIn : ℕ → ℕ := uInbox w.inputs (w.staleU g) g

/-! ### The receiver of one substream -/

/-- `base_pool_substream`. -/
def basePoolSubstream (e : ℕ) : ℕ :=
  basePool sh (w.eIn g) ((c * sh.numRanks + src) * sh.numExpertsPerRank + e)

/-- `rank_offset`. -/
def rankOffset : ℕ :=
  if 0 < src then rankPrefixMatrix sh (w.uIn g) g ((src - 1) * sh.numRanks + g) else 0

/-- The start count as the receiver decodes it, also stored in
`recv_channel_prefix_matrix`. -/
def recvChannelPrefix : ℤ := -startOffset (w.inputs src) g c - 1

/-- The receiver before its first batch.  Only the threads of the rank group clear
`seen`, one expert each. -/
def receiverInit : ReceiverState Row Weight where
  alloc :=
    { seen := fun e =>
        if e < numThreadsPerRank sh ∧ e < sh.numExpertsPerRank then 0 else w.uninitSeen e
      batchSlot := w.uninitSlot }
  cachedChannelHeadIdx := 0
  totalOffset := (w.recvChannelPrefix g c src).toNat + w.rankOffset g src
  numTokensToRecv := -endOffset (w.inputs src) g c - 1 - w.recvChannelPrefix g c src
  landed := []

/-- The receiver after its last batch. -/
def dispatchReceiver (bs : List (Batches.Batch (Packet Row Weight))) : ReceiverState Row Weight :=
  receiverLoop sh (w.basePoolSubstream g c src) w.numRecvBufferTokens bs
    (w.receiverInit g c src)

/-! ### Closed forms -/

/-- How the metadata kernel divides rank `g`'s pool. -/
def plan : PoolPlan sh w.inputs g := poolPlan w.inputs (w.staleE g) g

/-- The token as Pass B lands it. -/
def landedOf [Zero Weight] : ℕ → Landed Row Weight :=
  (w.plan g).landedOf (fun src => packetOf (w.inputs src) g) c src

end World

/-! ### The receiver computes the closed forms -/

namespace World

variable {w : World sh Row Weight} {g c src : ℕ}

theorem perSrc_eq (hg : g < sh.numRanks) (hsrc : src < sh.numRanks) :
    perSrc sh (w.uIn g) src = numRouted w.inputs g src := by
  have channels : perSrc sh (w.uIn g) src =
      ∑ c ∈ range sh.numChannels, (w.inputs src).tokensIn g c := by
    rw [perSrc, ← List.sum_toFinset _ List.nodup_range, List.toFinset_range]
    exact sum_congr rfl fun c hc => uInbox_apply _ _ hg (mem_range.1 hc) hsrc
  rw [channels, DispatchInputs.sum_tokensIn, channelStart_last sh.numChannels_pos, numRouted]

theorem cumSrc_eq (hg : g < sh.numRanks) {i : ℕ} (hi : i ≤ sh.numRanks) :
    cumSrc sh (w.uIn g) i = ∑ src ∈ range i, numRouted w.inputs g src := by
  rw [cumSrc_eq_sum]
  refine sum_congr rfl fun src hsrc => perSrc_eq hg ?_
  have := mem_range.1 hsrc
  omega

theorem rankOffset_eq (hg : g < sh.numRanks) (hsrc : src < sh.numRanks) :
    w.rankOffset g src = ∑ src' ∈ range src, numRouted w.inputs g src' := by
  by_cases first : 0 < src
  · rw [rankOffset, if_pos first, rankPrefixMatrix_apply _ hg (by omega),
      Nat.sub_add_cancel first, cumSrc_eq hg hsrc.le]
  · rw [rankOffset, if_neg first, Nat.eq_zero_of_not_pos first, sum_range_zero]

theorem recvChannelPrefix_eq :
    w.recvChannelPrefix g c src =
      Nat.count ((w.inputs src).InRank g)
        (channelStart (w.inputs src).numTokens sh.numChannels c) := by
  rw [recvChannelPrefix, startOffset, startCount_eq]
  omega

variable [Zero Weight]

/-- The sender renumbers the experts of the tokens it sends. -/
theorem carriesExperts : CarriesExperts (w.inputs src) g c (packetAt (w.inputs src) g c) := by
  intro t ht k _
  rw [packetAt_ringPos ht]
  rfl

omit [Zero Weight] in
/-- The ids of a substream start where its offsets put them. -/
theorem firstId_add_ringPos (hg : g < sh.numRanks) (hsrc : src < sh.numRanks) {t : ℕ}
    (ht : t ∈ selected (w.inputs src) g c) :
    (w.receiverInit g c src).totalOffset + ringPos (w.inputs src) g c t =
      recvTokenId w.inputs g src t := by
  obtain ⟨⟨lo, -⟩, -⟩ := mem_selected.1 ht
  have mono := Nat.count_monotone ((w.inputs src).InRank g) lo
  have first : (w.receiverInit g c src).totalOffset =
      (w.recvChannelPrefix g c src).toNat + w.rankOffset g src := rfl
  rw [first, recvChannelPrefix_eq, rankOffset_eq hg hsrc, ringPos, Stream.pos, recvTokenId,
    Int.toNat_natCast]
  omega

/-- The receiver starts with nothing landed and all of the substream to come. -/
theorem receiverInit_inv (hg : g < sh.numRanks)
    (cleared : sh.numExpertsPerRank ≤ numThreadsPerRank sh) :
    ReceiverInv sh (w.basePoolSubstream g c src) (w.receiverInit g c src).totalOffset
      (substream (w.inputs src) g c).length (packetAt (w.inputs src) g c) 0 0
      (w.receiverInit g c src) where
  head := rfl
  offset := rfl
  remaining := by
    have mono := Nat.count_monotone ((w.inputs src).InRank g)
      (channelStart_le_end (w.inputs src).numTokens sh.numChannels c)
    rw [length_substream hg, DispatchInputs.tokensIn, receiverInit, recvChannelPrefix_eq,
      endOffset, endCount_eq]
    push_cast [mono]
    ring
  seen e he := by
    have mine : e < numThreadsPerRank sh ∧ e < sh.numExpertsPerRank := ⟨by omega, he⟩
    simp only [receiverInit, if_pos mine]
    simp [seenBefore]
  landed := rfl

/-- **The receiver's closed form.**  For every delivery of its substream, the
receiver lands the selected tokens in order, with the ids and slots that the
routing determines. -/
theorem dispatchReceiver_landed (hg : g < sh.numRanks) (hsrc : src < sh.numRanks)
    (cleared : sh.numExpertsPerRank ≤ numThreadsPerRank sh)
    {bs : List (Batches.Batch (Packet Row Weight))}
    (delivers : Batches.Delivers w.numRecvBufferTokens (substream (w.inputs src) g c) 0 bs) :
    (w.dispatchReceiver g c src bs).landed =
      (selected (w.inputs src) g c).map (w.landedOf g c src) := by
  have inv := receiverLoop_inv (fun _ => getElem?_substream hg) delivers
    (receiverInit_inv hg cleared)
  rw [dispatchReceiver, inv.landed, substream_eq hg, List.length_map]
  refine List.ext_getElem (by simp) fun j hj hj' => ?_
  have hj : j < (selected (w.inputs src) g c).length := by simpa using hj
  have ht := List.getElem_mem hj
  have pos := ringPos_selected hj
  have id := firstId_add_ringPos hg hsrc ht
  have slots : ∀ k ∈ List.range sh.numTopk,
      slotAt sh (w.basePoolSubstream g c src) (packetAt (w.inputs src) g c)
          (ringPos (w.inputs src) g c (selected (w.inputs src) g c)[j] * sh.numTopk + k) =
        (w.plan g).pairSlot c src ((selected (w.inputs src) g c)[j] * sh.numTopk + k) :=
    fun k hk =>
      carriesExperts.slotAt_ringPos hg (w.plan g) (fun _ _ => rfl) ht (List.mem_range.1 hk)
  rw [pos] at id
  simp only [pos] at slots
  simp only [List.getElem_map, List.getElem_range, landedAt, landedOf, PoolPlan.landedOf, id,
    packetAt_eq hj, List.map_congr_left slots]

end World

end StreamEP.Intranode
