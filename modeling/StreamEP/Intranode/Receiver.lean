import StreamEP.Intranode.Metadata
import StreamEP.Intranode.Sender
import StreamEP.Lib.Batches

/-!
# The intranode dispatch receiver

At rank `g`, one group of warps drains the ring of each (channel, source rank).
It reads the announced counts, then takes whatever batch has arrived, splits it
into sub-batches of at most 32 packets, allocates slots (Pass A) and records the
tokens that Pass B writes out.

**Batches.**  `Batches.Delivers` says what a ring may hand the receiver: consecutive
non-empty batches that cover the substream, each with a ring image that holds
the batch's packets at their positions.  `receiverLoop_landed` shows that the
tokens the receiver lands, their ids and their slots are the same for every such
delivery.

**The invariant.**  `ReceiverInv` has two counts: how many packets are published as drained,
which is what the head says, and how many are landed, which runs ahead of it within a batch.  A
sub-batch advances the second (`subBatch_inv`), a batch both (`drainBatch_inv`), and the loop
goes on by induction on the batches of the delivery.  In all of it the packet at a position of
the substream determines what is landed for it (`landedAt`).
-/

namespace StreamEP.Intranode

open Finset Loop

variable {sh : Shape} {Row Weight : Type}

/-- Packets of one sub-batch. -/
def kReceiverChunkSize : ℕ := 32

/-- Threads of a dispatch block. -/
def kNumThreads : ℕ := 768

/-- `num_threads_per_rank`. -/
def numThreadsPerRank (sh : Shape) : ℕ := kNumThreads / sh.numRanks

/-! ### The receiver loop -/

/-- The receiver's registers and shared memory, and the tokens handed to Pass B. -/
structure ReceiverState (Row Weight : Type) where
  alloc : AllocState
  cachedChannelHeadIdx : ℕ
  totalOffset : ℕ
  numTokensToRecv : ℤ
  landed : List (Landed Row Weight)

section Loop

variable (sh) (basePoolSubstream : ℕ → ℕ) (numRecvBufferTokens : ℕ)

/-- One sub-batch: Pass A allocates, Pass B lands its packets. -/
def subBatch (b : Batches.Batch (Packet Row Weight)) (subStart subSize : ℕ)
    (s : ReceiverState Row Weight) : ReceiverState Row Weight :=
  let packetAt := fun chunkIdx =>
    b.ring ((s.cachedChannelHeadIdx + chunkIdx) % numRecvBufferTokens)
  let alloc := passA sh basePoolSubstream (fun subChunk => packetAt (subStart + subChunk))
    subSize s.alloc
  { s with
    alloc := alloc
    landed := s.landed ++ (List.range subSize).map fun subChunk =>
      { recvTokenId := s.totalOffset + (subStart + subChunk)
        packet := packetAt (subStart + subChunk)
        slotRow := (List.range sh.numTopk).map fun k =>
          alloc.batchSlot (subChunk * sh.numTopk + k) } }

/-- One batch: its sub-batches, then the head and the offsets move on. -/
def drainBatch (b : Batches.Batch (Packet Row Weight)) (s : ReceiverState Row Weight) :
    ReceiverState Row Weight :=
  let s := for' (ceilDiv b.total kReceiverChunkSize) (fun s i =>
    let subStart := i * kReceiverChunkSize
    subBatch sh basePoolSubstream numRecvBufferTokens b subStart
      (min kReceiverChunkSize (b.total - subStart)) s) s
  { s with
    cachedChannelHeadIdx := s.cachedChannelHeadIdx + b.total
    totalOffset := s.totalOffset + b.total
    numTokensToRecv := s.numTokensToRecv - b.total }

/-- `while (num_tokens_to_recv > 0)`, one batch for each iteration. -/
def receiverLoop : List (Batches.Batch (Packet Row Weight)) → ReceiverState Row Weight →
    ReceiverState Row Weight
  | [], s => s
  | b :: bs, s =>
      if 0 < s.numTokensToRecv then
        receiverLoop bs (drainBatch sh basePoolSubstream numRecvBufferTokens b s)
      else s

end Loop

/-! ### The loop on a delivered substream -/

/-- The token at position `j` of a packet stream, as Pass B lands it. -/
def landedAt (sh : Shape) (basePoolSubstream : ℕ → ℕ) (firstId : ℕ)
    (packets : ℕ → Packet Row Weight) (j : ℕ) : Landed Row Weight where
  recvTokenId := firstId + j
  packet := packets j
  slotRow := (List.range sh.numTopk).map fun k =>
    slotAt sh basePoolSubstream packets (j * sh.numTopk + k)

/-- What holds when `base` packets are published as drained and `done` are landed. -/
structure ReceiverInv (sh : Shape) (basePoolSubstream : ℕ → ℕ) (firstId total : ℕ)
    (packets : ℕ → Packet Row Weight) (base done : ℕ) (s : ReceiverState Row Weight) :
    Prop where
  head : s.cachedChannelHeadIdx = base
  offset : s.totalOffset = firstId + base
  remaining : s.numTokensToRecv = total - base
  seen : ∀ e < sh.numExpertsPerRank,
    s.alloc.seen e = seenBefore sh packets e (done * sh.numTopk)
  landed : s.landed = (List.range done).map (landedAt sh basePoolSubstream firstId packets)

section Correct

variable {basePoolSubstream : ℕ → ℕ} {numRecvBufferTokens firstId total base : ℕ}
  {packets : ℕ → Packet Row Weight} {b : Batches.Batch (Packet Row Weight)}
  {s : ReceiverState Row Weight}

/-- A sub-batch lands its packets at their positions in the substream. -/
theorem subBatch_inv {subStart subSize : ℕ}
    (held : ∀ i < subSize, b.ring ((base + (subStart + i)) % numRecvBufferTokens) =
      packets (base + (subStart + i)))
    (inv : ReceiverInv sh basePoolSubstream firstId total packets base (base + subStart) s) :
    ReceiverInv sh basePoolSubstream firstId total packets base
      (base + (subStart + subSize))
      (subBatch sh basePoolSubstream numRecvBufferTokens b subStart subSize s) := by
  have allocated : AllocInv sh basePoolSubstream packets ((base + subStart) * sh.numTopk)
      (subSize * sh.numTopk) (passA sh basePoolSubstream
        (fun i => b.ring ((base + (subStart + i)) % numRecvBufferTokens)) subSize s.alloc) :=
    passA_spec (fun i hi => by rw [held i hi, Nat.add_assoc]) inv.seen
  refine ⟨inv.head, inv.offset, inv.remaining, ?_, ?_⟩
  · intro e he
    simp only [subBatch, inv.head]
    rw [allocated.seen e he, ← Nat.add_mul, Nat.add_assoc]
  · simp only [subBatch, inv.head, inv.offset, inv.landed]
    have next : List.range (base + (subStart + subSize)) =
        List.range (base + subStart) ++ (List.range subSize).map (base + subStart + ·) := by
      rw [← Nat.add_assoc, List.range_add]
    rw [next, List.map_append, List.map_map]
    congr 1
    refine List.map_congr_left fun i hi => ?_
    have hi := List.mem_range.1 hi
    simp only [Function.comp_apply, landedAt, held i hi, Nat.add_assoc]
    congr 1
    refine List.map_congr_left fun k hk => ?_
    have hk := List.mem_range.1 hk
    rw [allocated.batchSlot _ (PrefixSum.flat_lt hi hk), ← Nat.add_assoc, ← Nat.add_mul,
      Nat.add_assoc base]

/-- A batch lands its packets, however it splits into sub-batches. -/
theorem drainBatch_inv
    (held : ∀ i < b.total, b.ring ((base + i) % numRecvBufferTokens) = packets (base + i))
    (inv : ReceiverInv sh basePoolSubstream firstId total packets base base s) :
    ReceiverInv sh basePoolSubstream firstId total packets (base + b.total) (base + b.total)
      (drainBatch sh basePoolSubstream numRecvBufferTokens b s) := by
  have drained := for_invariant
    (f := fun s i => subBatch sh basePoolSubstream numRecvBufferTokens b
      (i * kReceiverChunkSize) (min kReceiverChunkSize (b.total - i * kReceiverChunkSize)) s)
    (s := s)
    (fun i => ReceiverInv sh basePoolSubstream firstId total packets base
      (base + min (i * kReceiverChunkSize) b.total))
    (n := ceilDiv b.total kReceiverChunkSize)
    (by simpa using inv)
    (fun i hi s inv => by
      have started : i * kReceiverChunkSize < b.total := by
        rw [ceilDiv, kReceiverChunkSize] at hi
        rw [kReceiverChunkSize]
        omega
      rw [Nat.min_eq_left started.le] at inv
      have next : min ((i + 1) * kReceiverChunkSize) b.total =
          i * kReceiverChunkSize +
            min kReceiverChunkSize (b.total - i * kReceiverChunkSize) := by
        rw [Nat.succ_mul]
        omega
      rw [next]
      exact subBatch_inv (fun j hj => held _ (by omega)) inv)
  have all : min (ceilDiv b.total kReceiverChunkSize * kReceiverChunkSize) b.total =
      b.total := Nat.min_eq_right (le_ceilDiv_mul (by decide) _)
  rw [all] at drained
  refine ⟨?_, ?_, ?_, drained.seen, drained.landed⟩
  · simp only [drainBatch, drained.head]
  · simp only [drainBatch, drained.offset, Nat.add_assoc]
  · simp only [drainBatch, drained.remaining]
    push_cast
    omega

/-- The loop lands the whole substream, for every delivery. -/
theorem receiverLoop_inv {stream : List (Packet Row Weight)}
    {bs : List (Batches.Batch (Packet Row Weight))}
    (streamed : ∀ j < stream.length, stream[j]? = some (packets j))
    (delivers : Batches.Delivers numRecvBufferTokens stream base bs)
    (inv : ReceiverInv sh basePoolSubstream firstId stream.length packets base base s) :
    ReceiverInv sh basePoolSubstream firstId stream.length packets stream.length
      stream.length (receiverLoop sh basePoolSubstream numRecvBufferTokens bs s) := by
  induction bs generalizing base s with
  | nil =>
      obtain rfl : base = stream.length := delivers
      exact inv
  | cons b bs ih =>
      obtain ⟨nonempty, fits, ring, rest⟩ := delivers
      have more : 0 < s.numTokensToRecv := by
        rw [inv.remaining]
        omega
      rw [receiverLoop, if_pos more]
      refine ih rest (drainBatch_inv (fun i hi => ?_) inv)
      have both := (ring i hi).symm.trans (streamed (base + i) (by omega))
      exact Option.some.inj both

end Correct

end StreamEP.Intranode
