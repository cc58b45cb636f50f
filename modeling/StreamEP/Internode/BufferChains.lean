import StreamEP.RegionBytes
import Mathlib.Data.Set.Lattice
import Mathlib.Order.CompletePartialOrder

/-!
# The pointer chains of the internode kernels

The kernels find the rings and words of a channel by a chain of `SymBuffer`s in the RDMA
buffer and of `AsymBuffer`s in the NVLink buffers; every constructor advances the pointers
behind what it has taken.  A host function gives the bytes of each chain.

**Two walks of one chain.**  Both sides of a link walk the chain from pointers of their own: a
forwarder of dispatch holds the buffer of its target in `ws_rr_buffer_ptr` where the receiver
there holds its own, and the forwarder of combine takes all its peers at once.  That the two
walks end up at the same bytes depends on `advance_also`: a constructor advances the pointer it
was given, and the other pointer has to be advanced by hand at the same place of the chain.

**Pointers.**  A pointer is a rank and an offset into its buffer.  The buffers of different ranks
are different memories, and a symmetric address is the same offset at another rank (`onPeer`).

**Overflow.**  Sizes are in the types of the kernels, `int` for the elements of a ring and
`int64_t` for bytes, so a constructor has a value only where none of them overflows.  For each
constructor there is one lemma that says what a computation behind it knows
(`symBuffer_bind_eq_some` and its siblings), and the chains are taken apart with those alone.

The definitions follow the kernels line by line.  What they amount to is in `ChainRegions`.
-/

namespace StreamEP.Internode

open CInt

/-! ### Pointers -/

/-- A byte of the buffer of a rank. -/
structure Ptr where
  rank : ℕ
  offset : ℕ
  deriving DecidableEq

namespace Ptr

instance : HAdd Ptr ℕ Ptr := ⟨fun p n => ⟨p.rank, p.offset + n⟩⟩

@[simp]
theorem mk_add (rank offset n : ℕ) : (⟨rank, offset⟩ : Ptr) + n = ⟨rank, offset + n⟩ := rfl

/-- The `n` bytes from a pointer on. -/
def bytes (p : Ptr) (n : ℕ) : Set Ptr :=
  {q | q.rank = p.rank ∧ p.offset ≤ q.offset ∧ q.offset < p.offset + n}

theorem disjoint_bytes {p p' : Ptr} {n n' : ℕ}
    (apart : p.rank = p'.rank → p.offset + n ≤ p'.offset ∨ p'.offset + n' ≤ p.offset) :
    Disjoint (p.bytes n) (p'.bytes n') := by
  rw [Set.disjoint_left]
  rintro q ⟨rank, low, high⟩ ⟨rank', low', high'⟩
  have order := apart (rank.symm.trans rank')
  omega

/-- The same place in the symmetric buffer of another rank. -/
def onPeer (p : Ptr) (rank : ℕ) : Ptr := ⟨rank, p.offset⟩

end Ptr

/-! ### Constructors -/

/-- `SymBuffer` -/
structure SymBuffer where
  sendPtr : Ptr
  recvPtr : Ptr
  numBytes : ℕ

namespace SymBuffer

variable (b : SymBuffer)

/-- `send_buffer`, and `buffer` where the buffer is not decoupled -/
def sendBuffer (idx : ℕ) : Ptr := b.sendPtr + b.numBytes * idx

/-- `recv_buffer` -/
def recvBuffer (idx : ℕ) : Ptr := b.recvPtr + b.numBytes * idx

end SymBuffer

/-- The `SymBuffer` constructor for elements of `size` bytes, and the advanced pointer. -/
def symBuffer (size : ℕ) (decoupled : Bool) (gblPtr : Ptr) (numElems numRanks smId numSms : ℕ) :
    Option (SymBuffer × Ptr) := do
  let numBytes ← int64 (numElems * size)
  let perChannelBytes ← int64 (numBytes * numRanks)
  let totalBytes ← int64 (perChannelBytes * numSms * (decoupled.toNat + 1))
  some
    ({ sendPtr := gblPtr + perChannelBytes * smId
       recvPtr := gblPtr + perChannelBytes * (smId + numSms)
       numBytes },
      gblPtr + totalBytes)

/-- `AsymBuffer` of one rank -/
structure AsymBuffer where
  ptr : Ptr
  numBytes : ℕ
  totalBytes : ℕ

namespace AsymBuffer

variable (b : AsymBuffer)

/-- `buffer` -/
def buffer (idx : ℕ) : Ptr := b.ptr + b.numBytes * idx

/-- `advance_also` -/
def advanceAlso (gblPtr : Ptr) : Ptr := gblPtr + b.totalBytes

end AsymBuffer

/-- The `AsymBuffer` constructor, and the advanced pointer. -/
def asymBuffer (size : ℕ) (gblPtr : Ptr) (numElems numRanks smId numSms offset : ℕ) :
    Option (AsymBuffer × Ptr) := do
  let numBytes ← int64 (numElems * size)
  let perChannelBytes ← int64 (numBytes * numRanks)
  let totalBytes ← int64 (perChannelBytes * numSms)
  some
    ({ ptr := gblPtr + (perChannelBytes * smId + numBytes * offset), numBytes, totalBytes },
      gblPtr + totalBytes)

/-- `AsymBuffer` with a pointer into the buffer of every peer -/
structure AsymBuffers where
  ptrs : ℕ → Ptr
  numBytes : ℕ
  totalBytes : ℕ

namespace AsymBuffers

variable (b : AsymBuffers)

/-- `buffer_by` -/
def bufferBy (rankIdx idx : ℕ) : Ptr := b.ptrs rankIdx + b.numBytes * idx

/-- `advance_also` -/
def advanceAlso (gblPtr : Ptr) : Ptr := gblPtr + b.totalBytes

end AsymBuffers

/-- The `AsymBuffer` constructor that takes a pointer for every peer. -/
def asymBuffers (size : ℕ) (gblPtrs : ℕ → Ptr) (numElems numRanks smId numSms offset : ℕ) :
    Option (AsymBuffers × (ℕ → Ptr)) := do
  let numBytes ← int64 (numElems * size)
  let perChannelBytes ← int64 (numBytes * numRanks)
  let totalBytes ← int64 (perChannelBytes * numSms)
  some
    ({ ptrs := fun i => gblPtrs i + (perChannelBytes * smId + numBytes * offset)
       numBytes, totalBytes },
      fun i => gblPtrs i + totalBytes)

/-- `Buffer` -/
structure Buffer where
  ptr : Ptr
  totalBytes : ℕ

/-- The `Buffer` constructor without an offset, and the advanced pointer. -/
def buffer (size : ℕ) (gblPtr : Ptr) (numElems : ℕ) : Option (Buffer × Ptr) := do
  let totalBytes ← int64 (numElems * size)
  some ({ ptr := gblPtr, totalBytes }, gblPtr + totalBytes)

variable {size numElems numRanks smId numSms offset : ℕ} {gblPtr : Ptr} {decoupled : Bool}
  {α : Type} {a : α}

/-- A computation goes on behind a `SymBuffer` exactly when its sizes are held. -/
theorem symBuffer_bind_eq_some {f : SymBuffer × Ptr → Option α} :
    (symBuffer size decoupled gblPtr numElems numRanks smId numSms).bind f = some a ↔
      numElems * size < 2 ^ 63 ∧ numElems * size * numRanks < 2 ^ 63 ∧
        numElems * size * numRanks * numSms * (decoupled.toNat + 1) < 2 ^ 63 ∧
        f (⟨gblPtr + numElems * size * numRanks * smId,
            gblPtr + numElems * size * numRanks * (smId + numSms), numElems * size⟩,
          gblPtr + numElems * size * numRanks * numSms * (decoupled.toNat + 1)) = some a := by
  simp only [symBuffer, bind, Option.bind_assoc, int64_bind_eq_some, Option.bind_some]

theorem asymBuffer_bind_eq_some {f : AsymBuffer × Ptr → Option α} :
    (asymBuffer size gblPtr numElems numRanks smId numSms offset).bind f = some a ↔
      numElems * size < 2 ^ 63 ∧ numElems * size * numRanks < 2 ^ 63 ∧
        numElems * size * numRanks * numSms < 2 ^ 63 ∧
        f (⟨gblPtr + (numElems * size * numRanks * smId + numElems * size * offset),
            numElems * size, numElems * size * numRanks * numSms⟩,
          gblPtr + numElems * size * numRanks * numSms) = some a := by
  simp only [asymBuffer, bind, Option.bind_assoc, int64_bind_eq_some, Option.bind_some]

theorem asymBuffers_bind_eq_some {gblPtrs : ℕ → Ptr} {f : AsymBuffers × (ℕ → Ptr) → Option α} :
    (asymBuffers size gblPtrs numElems numRanks smId numSms offset).bind f = some a ↔
      numElems * size < 2 ^ 63 ∧ numElems * size * numRanks < 2 ^ 63 ∧
        numElems * size * numRanks * numSms < 2 ^ 63 ∧
        f (⟨fun i => gblPtrs i +
              (numElems * size * numRanks * smId + numElems * size * offset),
            numElems * size, numElems * size * numRanks * numSms⟩,
          fun i => gblPtrs i + numElems * size * numRanks * numSms) = some a := by
  simp only [asymBuffers, bind, Option.bind_assoc, int64_bind_eq_some, Option.bind_some]

theorem buffer_bind_eq_some {f : Buffer × Ptr → Option α} :
    (buffer size gblPtr numElems).bind f = some a ↔
      numElems * size < 2 ^ 63 ∧
        f (⟨gblPtr, numElems * size⟩, gblPtr + numElems * size) = some a := by
  simp only [buffer, bind, Option.bind_assoc, int64_bind_eq_some, Option.bind_some]

/-! ### The chains of the kernels -/

/-- The sizes of a launch; there is at least one node and one channel. -/
structure ChainSizes where
  hiddenInt4 : ℕ
  numTopk : ℕ
  /-- The ring capacity, `num_max_rdma_chunked_recv_tokens` or its NVLink counterpart. -/
  recvTokens : ℕ
  numChannels : ℕ
  numRdmaRanks : ℕ
  numChannels_pos : 0 < numChannels
  numRdmaRanks_pos : 0 < numRdmaRanks

/-- The RDMA buffers of a channel. -/
structure RdmaChannel where
  data : SymBuffer
  head : SymBuffer
  tail : SymBuffer

/-- The NVLink buffers of a channel and a peer in dispatch. -/
structure DispatchNvlChannel where
  x : AsymBuffer
  prefixStart : AsymBuffer
  prefixEnd : AsymBuffer
  head : AsymBuffer
  tail : AsymBuffer

/-- The NVLink buffers of a channel and a peer at a sender of combine. -/
structure CombineSenderChannel where
  x : AsymBuffer
  head : AsymBuffer
  tail : AsymBuffer

/-- The NVLink buffers of a channel at the forwarders of combine. -/
structure CombineForwarderChannel where
  x : AsymBuffer
  head : AsymBuffers
  tail : AsymBuffer

/-- What a thread of phase A of the metadata kernels holds: the reduced counts, its slabs in a
peer and in its own buffer, and its slot in the inbox of every peer. -/
structure MetadataSlabs where
  reduced : Buffer
  sendPerRank : AsymBuffer
  sendPerExpert : AsymBuffer
  recvPerRank : AsymBuffer
  recvPerExpert : AsymBuffer
  peerWriterSlot : ℕ → Ptr

namespace ChainSizes

variable (sz : ChainSizes)

/-- The RDMA chain of `dispatch_main_kernel` (with `numTopkIdx` entries of `topk_idx` in a
token) and of `combine_main_kernel` (with none). -/
def rdmaChannel (numTopkIdx : ℕ) (rdmaBufferPtr : Ptr) (channelId : ℕ) :
    Option (RdmaChannel × Ptr) := do
  let numBytesPerToken ← getNumBytesPerToken sz.hiddenInt4 numTopkIdx sz.numTopk
  let numElems ← int32 (sz.recvTokens * numBytesPerToken)
  let (data, ptr) ←
    symBuffer 1 true rdmaBufferPtr numElems sz.numRdmaRanks channelId sz.numChannels
  let (head, ptr) ← symBuffer 8 false ptr 1 sz.numRdmaRanks channelId sz.numChannels
  let (tail, ptr) ← symBuffer 8 false ptr 1 sz.numRdmaRanks channelId sz.numChannels
  some (⟨data, head, tail⟩, ptr)

/-- The NVLink chain of `dispatch_main_kernel`; it advances both pointers. -/
def dispatchNvlChannel (rsWrBufferPtr wsRrBufferPtr : Ptr) (rsWrRank wsRrRank channelId : ℕ) :
    Option (DispatchNvlChannel × Ptr × Ptr) := do
  let numBytesPerToken ← getNumBytesPerToken sz.hiddenInt4 sz.numTopk sz.numTopk
  let numElems ← int32 (sz.recvTokens * numBytesPerToken)
  let (x, wsRr) ←
    asymBuffer 1 wsRrBufferPtr numElems numMaxNvlPeers channelId sz.numChannels rsWrRank
  let rsWr := x.advanceAlso rsWrBufferPtr
  let (prefixStart, wsRr) ←
    asymBuffer 8 wsRr sz.numRdmaRanks numMaxNvlPeers channelId sz.numChannels rsWrRank
  let rsWr := prefixStart.advanceAlso rsWr
  let (prefixEnd, wsRr) ←
    asymBuffer 8 wsRr sz.numRdmaRanks numMaxNvlPeers channelId sz.numChannels rsWrRank
  let rsWr := prefixEnd.advanceAlso rsWr
  let (head, rsWr) ← asymBuffer 8 rsWr 1 numMaxNvlPeers channelId sz.numChannels wsRrRank
  let wsRr := head.advanceAlso wsRr
  let (tail, wsRr) ← asymBuffer 8 wsRr 1 numMaxNvlPeers channelId sz.numChannels rsWrRank
  let rsWr := tail.advanceAlso rsWr
  some (⟨x, prefixStart, prefixEnd, head, tail⟩, rsWr, wsRr)

/-- The chain of the forwarder of `nvlRank` that serves `targetRank`. -/
def forwarderNvlChannel (base nvlRank targetRank channelId : ℕ) :
    Option (DispatchNvlChannel × Ptr × Ptr) :=
  sz.dispatchNvlChannel ⟨nvlRank, base⟩ ⟨targetRank, base⟩ nvlRank targetRank channelId

/-- The chain of the receiver of `nvlRank` that serves `targetRank`. -/
def receiverNvlChannel (base nvlRank targetRank channelId : ℕ) :
    Option (DispatchNvlChannel × Ptr × Ptr) :=
  sz.dispatchNvlChannel ⟨targetRank, base⟩ ⟨nvlRank, base⟩ targetRank nvlRank channelId

/-- The chain of the NVL sender of `nvlRank` in `combine_main_kernel`; `base` is
`dispatch_region_offset`. -/
def combineSenderChannel (base nvlRank dstNvlRank channelId : ℕ) :
    Option (CombineSenderChannel × Ptr × Ptr) := do
  let numBytesPerToken ← getNumBytesPerToken sz.hiddenInt4 0 sz.numTopk
  let numElems ← int32 (sz.recvTokens * numBytesPerToken)
  let dst : Ptr := ⟨dstNvlRank, base⟩
  let own : Ptr := ⟨nvlRank, base⟩
  let (x, dst) ← asymBuffer 1 dst numElems numMaxNvlPeers channelId sz.numChannels nvlRank
  let own := x.advanceAlso own
  let (head, own) ←
    asymBuffer 8 own sz.numRdmaRanks numMaxNvlPeers channelId sz.numChannels dstNvlRank
  let dst := head.advanceAlso dst
  let (tail, dst) ←
    asymBuffer 8 dst sz.numRdmaRanks numMaxNvlPeers channelId sz.numChannels nvlRank
  let own := tail.advanceAlso own
  some (⟨x, head, tail⟩, own, dst)

/-- The chain of the forwarders of `nvlRank` in `combine_main_kernel`: `local_nvl_buffer` and
one pointer for each peer, `nvl_buffers`. -/
def combineForwarderChannel (base nvlRank channelId : ℕ) :
    Option (CombineForwarderChannel × Ptr × (ℕ → Ptr)) := do
  let numBytesPerToken ← getNumBytesPerToken sz.hiddenInt4 0 sz.numTopk
  let numElems ← int32 (sz.recvTokens * numBytesPerToken)
  let own : Ptr := ⟨nvlRank, base⟩
  let nvlBuffers (i : ℕ) : Ptr := ⟨i, base⟩
  let (x, own) ← asymBuffer 1 own numElems numMaxNvlPeers channelId sz.numChannels 0
  let nvlBuffers (i : ℕ) := x.advanceAlso (nvlBuffers i)
  let (head, nvlBuffers) ←
    asymBuffers 8 nvlBuffers sz.numRdmaRanks numMaxNvlPeers channelId sz.numChannels nvlRank
  let own := head.advanceAlso own
  let (tail, own) ← asymBuffer 8 own sz.numRdmaRanks numMaxNvlPeers channelId sz.numChannels 0
  let nvlBuffers (i : ℕ) := tail.advanceAlso (nvlBuffers i)
  some (⟨x, head, tail⟩, own, nvlBuffers)

end ChainSizes

/-- The sizes of the metadata kernels. -/
structure MetadataSizes where
  numExperts : ℕ
  numChannels : ℕ
  numRdmaRanks : ℕ
  /-- The host asserts that the ranks share the experts evenly. -/
  even : numExperts % (numRdmaRanks * numMaxNvlPeers) = 0

namespace MetadataSizes

variable (sz : MetadataSizes)

/-- `E_local` -/
def numLocalExperts : ℕ := sz.numExperts / (sz.numRdmaRanks * numMaxNvlPeers)

/-- `num_rdma_experts` -/
def numRdmaExperts : ℕ := sz.numExperts / sz.numRdmaRanks

/-- The NVLink chain of `streaming_dispatch_metadata_phase_a_kernel` at the thread of
`nvlRank` that holds the buffer of `peer`; `base` is `nvl_metadata_offset`. -/
def phaseASlabs (base nvlRank peer : ℕ) : Option (MetadataSlabs × Ptr × Ptr) := do
  let send : Ptr := ⟨peer, base⟩
  let recv : Ptr := ⟨nvlRank, base⟩
  let (reduced, recv) ← buffer 4 recv sz.numRdmaExperts
  let send := send + reduced.totalBytes
  let (sendPerRank, send) ← asymBuffer 4 send sz.numRdmaRanks numMaxNvlPeers 0 1 0
  let (sendPerExpert, send) ← asymBuffer 4 send sz.numLocalExperts numMaxNvlPeers 0 1 0
  let (recvPerRank, recv) ← asymBuffer 4 recv sz.numRdmaRanks numMaxNvlPeers 0 1 0
  let (recvPerExpert, recv) ← asymBuffer 4 recv sz.numLocalExperts numMaxNvlPeers 0 1 0
  let nvlSlotInts ← int32 (sz.numRdmaRanks * sz.numChannels * sz.numLocalExperts)
  let (_, send) ← asymBuffer 4 send nvlSlotInts numMaxNvlPeers 0 1 0
  let (streamingRecv, recv) ← asymBuffer 4 recv nvlSlotInts numMaxNvlPeers 0 1 0
  -- the inbox begins at the same offset in the buffer of every peer
  let nvlStreamingOffsetBytes := (streamingRecv.buffer 0).offset
  let writerSlot ← int32 (nvlRank * nvlSlotInts)
  let peerWriterSlot (m : ℕ) : Ptr := ⟨m, nvlStreamingOffsetBytes + 4 * writerSlot⟩
  some (⟨reduced, sendPerRank, sendPerExpert, recvPerRank, recvPerExpert, peerWriterSlot⟩,
    send, recv)

/-- The NVLink chain of `streaming_dispatch_metadata_phase_b_kernel`: its inbox. -/
def phaseBInbox (base nvlRank : ℕ) : Option (AsymBuffer × Ptr) := do
  let recv : Ptr := ⟨nvlRank, base⟩
  let nvlSlotInts ← int32 (sz.numRdmaRanks * sz.numChannels * sz.numLocalExperts)
  let (_, recv) ← buffer 4 recv sz.numRdmaExperts
  let (_, recv) ← asymBuffer 4 recv sz.numRdmaRanks numMaxNvlPeers 0 1 0
  let (_, recv) ← asymBuffer 4 recv sz.numLocalExperts numMaxNvlPeers 0 1 0
  let (streamingRecv, recv) ← asymBuffer 4 recv nvlSlotInts numMaxNvlPeers 0 1 0
  some (streamingRecv, recv)

end MetadataSizes

end StreamEP.Internode
