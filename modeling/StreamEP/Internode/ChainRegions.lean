import StreamEP.Lib.SlabChain
import StreamEP.Internode.BufferChains
import Mathlib.Tactic.Ring

/-!
# Regions and the chains in them

The host sizes a region by a closed formula, the kernels carve it by a chain of constructor
calls.  For each of the five regions of the internode kernels: the chain advances by just the
bytes of the region, all its slabs are disjoint, and the two sides of a link, which walk it from
different pointers, find the same bytes.

**Slabs.**  A chain is a list of members, each a number of slabs for every channel and peer; the
library `SlabChain` knows where each slab begins and that different slabs do not meet.  What has
to be shown here is that the pointers the kernels compute are those slabs (`rdmaChannel_views`,
`forwarderNvlChannel_views`, `combineSenderChannel_views`, `phaseASlabs_views`): one lemma for
each chain, and everything else follows from it.

**One structure for each region.**  `RdmaRegion`, `DispatchNvlRegion`, `CombineNvlRegion` and
`MetadataNvlRegion` have the same four fields.  `advance` compares the chain with the host's
formula, `defined` says that nothing overflows in a region of fewer than 2^31 bytes, which is all
that a buffer is ever allocated with, `apart` is disjointness over all ranks, parts, channels and
peers at once, and `samePlace` compares the two sides of a link.

`regions_are_chains` collects them for all sizes of a launch.  The sizes have at least one node
and one channel, and the experts are shared evenly, which is what the host asserts before any
kernel runs.  `twoNodes_carved` has the launches of two nodes with the recommended rings.
-/

namespace StreamEP.Internode

open CInt SlabChain

/-! ### Slabs as bytes -/

/-- The slab of a member, channel and peer of a chain that begins at a pointer. -/
def slabAt (chain : List Member) (base : Ptr) (i channel peer : ℕ) : Set Ptr :=
  (base + slab chain i channel peer).bytes (slabBytes chain i)

/-- Different slabs of a chain, or slabs in different buffers, have no byte in common. -/
theorem disjoint_slabAt {chain : List Member} {base i channel peer i' channel' peer' r r' : ℕ}
    (has : Has chain i channel peer) (has' : Has chain i' channel' peer')
    (distinct : (r, i, channel, peer) ≠ (r', i', channel', peer')) :
    Disjoint (slabAt chain ⟨r, base⟩ i channel peer)
      (slabAt chain ⟨r', base⟩ i' channel' peer') := by
  apply Ptr.disjoint_bytes
  intro sameRank
  have sameBuffer : r = r' := sameRank
  have other : (i, channel, peer) ≠ (i', channel', peer') := by
    intro same
    exact distinct (by rw [sameBuffer, same])
  show base + slab chain i channel peer + slabBytes chain i ≤
      base + slab chain i' channel' peer' ∨
    base + slab chain i' channel' peer' + slabBytes chain i' ≤
      base + slab chain i channel peer
  rcases slab_apart has has' other with before | after
  · exact Or.inl (by omega)
  · exact Or.inr (by omega)

/-! ### RDMA -/

/-- The slabs of an RDMA chain: the rings to send from and to receive in, and the words. -/
inductive RdmaPart
  | send
  | recv
  | head
  | tail
  deriving DecidableEq

namespace RdmaPart

/-- The place in the chain. -/
def index : RdmaPart → ℕ
  | send => 0
  | recv => 1
  | head => 2
  | tail => 3

theorem index_injective : Function.Injective index := by
  intro m m' same
  cases m <;> cases m' <;> first | rfl | cases same

end RdmaPart

namespace RdmaChannel

variable (b : RdmaChannel)

/-- The pointer a warp has for a peer. -/
def view : RdmaPart → ℕ → Ptr
  | .send, peer => b.data.sendBuffer peer
  | .recv, peer => b.data.recvBuffer peer
  | .head, peer => b.head.sendBuffer peer
  | .tail, peer => b.tail.sendBuffer peer

/-- The bytes behind it that belong to that peer. -/
def viewBytes : RdmaPart → ℕ
  | .send => b.data.numBytes
  | .recv => b.data.numBytes
  | .head => b.head.numBytes
  | .tail => b.tail.numBytes

end RdmaChannel

namespace ChainSizes

variable (sz : ChainSizes)

/-- The members of an RDMA chain whose tokens have `bytes` bytes. -/
def rdmaChain (bytes : ℕ) : List Member :=
  [⟨sz.recvTokens * bytes, sz.numRdmaRanks, sz.numChannels⟩,
    ⟨sz.recvTokens * bytes, sz.numRdmaRanks, sz.numChannels⟩,
    ⟨8, sz.numRdmaRanks, sz.numChannels⟩, ⟨8, sz.numRdmaRanks, sz.numChannels⟩]

theorem total_rdmaChain (bytes : ℕ) :
    total (sz.rdmaChain bytes) =
      rdmaBytes bytes sz.recvTokens sz.numChannels sz.numRdmaRanks := by
  simp only [rdmaChain, total_cons, total_nil, Member.total, rdmaBytes]
  ring

variable {sz} {numTopkIdx base r channelId : ℕ} {b : RdmaChannel} {next : Ptr}

/-- The pointers that the RDMA chain hands out are the slabs of its members. -/
theorem rdmaChannel_views
    (built : sz.rdmaChannel numTopkIdx ⟨r, base⟩ channelId = some (b, next)) :
    next = ⟨r, base + total (sz.rdmaChain (tokenBytes sz.hiddenInt4 numTopkIdx sz.numTopk))⟩ ∧
      ∀ m peer,
        b.view m peer = (⟨r, base⟩ : Ptr) +
          slab (sz.rdmaChain (tokenBytes sz.hiddenInt4 numTopkIdx sz.numTopk)) m.index channelId
            peer ∧
        b.viewBytes m =
          slabBytes (sz.rdmaChain (tokenBytes sz.hiddenInt4 numTopkIdx sz.numTopk)) m.index := by
  simp only [rdmaChannel, bind, getNumBytesPerToken_bind_eq_some, int32_bind_eq_some,
    symBuffer_bind_eq_some, Option.some.injEq, Prod.mk.injEq] at built
  obtain ⟨-, -, -, -, -, -, -, -, -, -, -, rfl, rfl⟩ := built
  constructor
  · rw [total_rdmaChain]
    simp only [Ptr.mk_add, rdmaBytes, Bool.toNat_true, Bool.toNat_false, Ptr.mk.injEq, true_and]
    ring
  · intro m peer
    cases m
    all_goals
      simp only [RdmaChannel.view, RdmaChannel.viewBytes, SymBuffer.sendBuffer,
        SymBuffer.recvBuffer, Ptr.mk_add, Ptr.mk.injEq, true_and, RdmaPart.index, rdmaChain,
        slab_cons_zero, slab_cons_succ, slabBytes_cons_zero, slabBytes_cons_succ, Member.offset,
        Member.total, Bool.toNat_true, Bool.toNat_false, Nat.mul_one, Nat.one_mul, and_true]
      ring

/-- A region that a buffer of `int` bytes holds is carved without an overflow. -/
theorem rdmaChannel_defined (ptr : Ptr) (channelId : ℕ)
    (room : 16 * sz.hiddenInt4 + tokenFields numTopkIdx sz.numTopk + 16 < 2 ^ 31)
    (fits : rdmaBytes (tokenBytes sz.hiddenInt4 numTopkIdx sz.numTopk) sz.recvTokens
      sz.numChannels sz.numRdmaRanks < 2 ^ 31) :
    ∃ out, sz.rdmaChannel numTopkIdx ptr channelId = some out := by
  apply Exists.intro
  simp only [rdmaChannel, bind, getNumBytesPerToken_bind_eq_some, int32_bind_eq_some,
    symBuffer_bind_eq_some]
  set bytes := tokenBytes sz.hiddenInt4 numTopkIdx sz.numTopk
  have ring := Nat.le_mul_of_pos_right (sz.recvTokens * bytes) sz.numRdmaRanks_pos
  have rings := Nat.le_mul_of_pos_right (sz.recvTokens * bytes * sz.numRdmaRanks)
    sz.numChannels_pos
  have words := Nat.le_mul_of_pos_right sz.numRdmaRanks sz.numChannels_pos
  have whole : rdmaBytes bytes sz.recvTokens sz.numChannels sz.numRdmaRanks =
      2 * (sz.recvTokens * bytes * sz.numRdmaRanks * sz.numChannels) +
        16 * (sz.numRdmaRanks * sz.numChannels) := by
    unfold rdmaBytes
    ring
  rw [whole] at fits
  have word : 1 * 8 * sz.numRdmaRanks * sz.numChannels =
      8 * (sz.numRdmaRanks * sz.numChannels) := by ring
  simp only [Nat.mul_one, Bool.toNat_true, Bool.toNat_false, word, Nat.zero_add]
  exact ⟨room, by omega, by omega, by omega, by omega, by omega, by omega, by omega, by omega,
    by omega, by omega, rfl⟩

/-- What a region and the RDMA chain in it have to do with each other. -/
structure RdmaRegion (sz : ChainSizes) (numTopkIdx : ℕ) (region : Option ℕ) : Prop where
  advance : ∀ v, region = some v → ∀ ptr channelId b next,
    sz.rdmaChannel numTopkIdx ptr channelId = some (b, next) → next = ptr + v
  defined : ∀ v, region = some v → v < 2 ^ 31 → ∀ ptr channelId,
    ∃ out, sz.rdmaChannel numTopkIdx ptr channelId = some out
  apart : ∀ base r r' channelId channelId' b b' next next', channelId < sz.numChannels →
    channelId' < sz.numChannels →
    sz.rdmaChannel numTopkIdx ⟨r, base⟩ channelId = some (b, next) →
    sz.rdmaChannel numTopkIdx ⟨r', base⟩ channelId' = some (b', next') →
    ∀ m m' peer peer', peer < sz.numRdmaRanks → peer' < sz.numRdmaRanks →
      (r, m, channelId, peer) ≠ (r', m', channelId', peer') →
      Disjoint ((b.view m peer).bytes (b.viewBytes m)) ((b'.view m' peer').bytes (b'.viewBytes m'))
  /-- A put or an atomic to another rank has the symmetric address of the own view. -/
  samePlace : ∀ base r r' channelId b b' next next',
    sz.rdmaChannel numTopkIdx ⟨r, base⟩ channelId = some (b, next) →
    sz.rdmaChannel numTopkIdx ⟨r', base⟩ channelId = some (b', next') →
    ∀ m peer, (b.view m peer).onPeer r' = b'.view m peer ∧ b.viewBytes m = b'.viewBytes m

/-- The slabs of every part are there. -/
theorem has_rdmaChain (bytes : ℕ) (m : RdmaPart) {channel peer : ℕ}
    (hc : channel < sz.numChannels) (hp : peer < sz.numRdmaRanks) :
    Has (sz.rdmaChain bytes) m.index channel peer := by
  cases m <;> exact ⟨hc, hp⟩

/-- The RDMA chain fills the region of its size. -/
theorem rdmaRegion {region : Option ℕ}
    (size : ∀ v, region = some v →
      16 * sz.hiddenInt4 + tokenFields numTopkIdx sz.numTopk + 16 < 2 ^ 31 ∧
        rdmaBytes (tokenBytes sz.hiddenInt4 numTopkIdx sz.numTopk) sz.recvTokens sz.numChannels
          sz.numRdmaRanks = v) :
    sz.RdmaRegion numTopkIdx region where
  advance := by
    intro v returned ptr channelId b next built
    obtain ⟨-, rfl⟩ := size v returned
    rw [← total_rdmaChain]
    exact (rdmaChannel_views built).1
  defined := by
    intro v returned held ptr channelId
    obtain ⟨room, rfl⟩ := size v returned
    exact rdmaChannel_defined ptr channelId room held
  apart := by
    intro base r r' channelId channelId' b b' next next' hc hc' built built' m m' peer peer' hp hp'
      distinct
    obtain ⟨view, bytes⟩ := (rdmaChannel_views built).2 m peer
    obtain ⟨view', bytes'⟩ := (rdmaChannel_views built').2 m' peer'
    rw [view, view', bytes, bytes']
    apply disjoint_slabAt (has_rdmaChain _ m hc hp) (has_rdmaChain _ m' hc' hp')
    intro same
    apply distinct
    simp only [Prod.mk.injEq] at same ⊢
    exact ⟨same.1, RdmaPart.index_injective same.2.1, same.2.2⟩
  samePlace := by
    intro base r r' channelId b b' next next' built built' m peer
    obtain ⟨view, bytes⟩ := (rdmaChannel_views built).2 m peer
    obtain ⟨view', bytes'⟩ := (rdmaChannel_views built').2 m peer
    rw [view, view', bytes, bytes']
    exact ⟨rfl, rfl⟩

end ChainSizes

/-! ### NVLink, dispatch -/

/-- The slabs of dispatch's NVLink chain. -/
inductive DispatchNvlPart
  | x
  | prefixStart
  | prefixEnd
  | head
  | tail
  deriving DecidableEq

namespace DispatchNvlPart

/-- The place in the chain. -/
def index : DispatchNvlPart → ℕ
  | x => 0
  | prefixStart => 1
  | prefixEnd => 2
  | head => 3
  | tail => 4

theorem index_injective : Function.Injective index := by
  intro m m' same
  cases m <;> cases m' <;> first | rfl | cases same

/-- In whose buffer a slab lies: the head in the forwarder's, the others in the receiver's. -/
def owner (forwarder receiver : ℕ) : DispatchNvlPart → ℕ
  | head => forwarder
  | _ => receiver

/-- And for which peer. -/
def peer (forwarder receiver : ℕ) : DispatchNvlPart → ℕ
  | head => receiver
  | _ => forwarder

/-- Owner, peer and part determine the link. -/
theorem link_injective {m m' : DispatchNvlPart} {w r w' r' : ℕ}
    (owner : m.owner w r = m'.owner w' r') (part : m = m') (peer : m.peer w r = m'.peer w' r') :
    w = w' ∧ r = r' := by
  subst part
  cases m
  case head => exact ⟨owner, peer⟩
  all_goals exact ⟨peer, owner⟩

end DispatchNvlPart

namespace DispatchNvlChannel

variable (b : DispatchNvlChannel)

/-- The buffer of a part. -/
def part : DispatchNvlPart → AsymBuffer
  | .x => b.x
  | .prefixStart => b.prefixStart
  | .prefixEnd => b.prefixEnd
  | .head => b.head
  | .tail => b.tail

end DispatchNvlChannel

namespace ChainSizes

variable (sz : ChainSizes)

/-- The members of dispatch's NVLink chain. -/
def dispatchNvlChain : List Member :=
  [⟨sz.recvTokens * tokenBytes sz.hiddenInt4 sz.numTopk sz.numTopk, numMaxNvlPeers,
      sz.numChannels⟩,
    ⟨sz.numRdmaRanks * 8, numMaxNvlPeers, sz.numChannels⟩,
    ⟨sz.numRdmaRanks * 8, numMaxNvlPeers, sz.numChannels⟩,
    ⟨8, numMaxNvlPeers, sz.numChannels⟩, ⟨8, numMaxNvlPeers, sz.numChannels⟩]

theorem total_dispatchNvlChain :
    total sz.dispatchNvlChain =
      dispatchNvlBytes sz.hiddenInt4 sz.numTopk sz.recvTokens sz.numChannels
        sz.numRdmaRanks := by
  simp only [dispatchNvlChain, total_cons, total_nil, Member.total, dispatchNvlBytes,
    numMaxNvlPeers]
  ring

variable {sz} {base forwarder receiver channelId : ℕ} {b : DispatchNvlChannel} {rsWr wsRr : Ptr}

/-- The pointers that dispatch's NVLink chain hands out are the slabs of its members. -/
theorem forwarderNvlChannel_views
    (built : sz.forwarderNvlChannel base forwarder receiver channelId = some (b, rsWr, wsRr)) :
    rsWr = ⟨forwarder, base + total sz.dispatchNvlChain⟩ ∧
      wsRr = ⟨receiver, base + total sz.dispatchNvlChain⟩ ∧
      ∀ m, (b.part m).buffer 0 =
          (⟨m.owner forwarder receiver, base⟩ : Ptr) +
            slab sz.dispatchNvlChain m.index channelId (m.peer forwarder receiver) ∧
        (b.part m).numBytes = slabBytes sz.dispatchNvlChain m.index := by
  simp only [forwarderNvlChannel, dispatchNvlChannel, bind, getNumBytesPerToken_bind_eq_some,
    int32_bind_eq_some, asymBuffer_bind_eq_some, Option.some.injEq, Prod.mk.injEq] at built
  obtain ⟨-, -, -, -, -, -, -, -, -, -, -, -, -, -, -, -, -, rfl, rfl, rfl⟩ := built
  rw [total_dispatchNvlChain]
  refine ⟨?_, ?_, ?_⟩
  · simp only [AsymBuffer.advanceAlso, Ptr.mk_add, dispatchNvlBytes, numMaxNvlPeers,
      Ptr.mk.injEq, true_and]
    ring
  · simp only [AsymBuffer.advanceAlso, Ptr.mk_add, dispatchNvlBytes, numMaxNvlPeers,
      Ptr.mk.injEq, true_and]
    ring
  · intro m
    cases m
    all_goals
      simp only [DispatchNvlChannel.part, AsymBuffer.buffer, AsymBuffer.advanceAlso, Ptr.mk_add,
        Ptr.mk.injEq, true_and, DispatchNvlPart.index, DispatchNvlPart.owner,
        DispatchNvlPart.peer, dispatchNvlChain, slab_cons_zero, slab_cons_succ,
        slabBytes_cons_zero, slabBytes_cons_succ, Member.offset, Member.total, Nat.mul_one,
        Nat.one_mul, Nat.mul_zero, Nat.add_zero, and_true]
    all_goals ring

/-- A region that a buffer of `int` bytes holds is carved without an overflow. -/
theorem dispatchNvlChannel_defined (rsWr wsRr : Ptr) (rsWrRank wsRrRank channelId : ℕ)
    (room : 16 * sz.hiddenInt4 + tokenFields sz.numTopk sz.numTopk + 16 < 2 ^ 31)
    (fits : dispatchNvlBytes sz.hiddenInt4 sz.numTopk sz.recvTokens sz.numChannels
      sz.numRdmaRanks < 2 ^ 31) :
    ∃ out, sz.dispatchNvlChannel rsWr wsRr rsWrRank wsRrRank channelId = some out := by
  apply Exists.intro
  unfold dispatchNvlBytes at fits
  simp only [dispatchNvlChannel, bind, getNumBytesPerToken_bind_eq_some, int32_bind_eq_some,
    asymBuffer_bind_eq_some]
  set bytes := tokenBytes sz.hiddenInt4 sz.numTopk sz.numTopk
  have rings := Nat.le_mul_of_pos_right (sz.recvTokens * bytes * 8) sz.numChannels_pos
  have words := Nat.le_mul_of_pos_right (sz.numRdmaRanks * 8 * 8) sz.numChannels_pos
  simp only [Nat.mul_one, Nat.one_mul, numMaxNvlPeers]
  exact ⟨room, by omega, by omega, by omega, by omega, by omega, by omega, by omega, by omega,
    by omega, by omega, by omega, by omega, by omega, by omega, by omega, by omega, rfl⟩

/-- The slabs of every part are there. -/
theorem has_dispatchNvlChain (m : DispatchNvlPart) {channel peer : ℕ}
    (hc : channel < sz.numChannels) (hp : peer < numMaxNvlPeers) :
    Has sz.dispatchNvlChain m.index channel peer := by
  cases m <;> exact ⟨hc, hp⟩

/-- What dispatch's NVLink region and the chain in it have to do with each other. -/
structure DispatchNvlRegion (sz : ChainSizes) (region : Option ℕ) : Prop where
  advance : ∀ v, region = some v → ∀ base w r channelId b rsWr wsRr,
    sz.forwarderNvlChannel base w r channelId = some (b, rsWr, wsRr) →
    rsWr = ⟨w, base + v⟩ ∧ wsRr = ⟨r, base + v⟩
  defined : ∀ v, region = some v → v < 2 ^ 31 → ∀ base w r channelId,
    ∃ out, sz.forwarderNvlChannel base w r channelId = some out
  apart : ∀ base w r w' r' channelId channelId' b b' ptrs ptrs', channelId < sz.numChannels →
    channelId' < sz.numChannels → w < numMaxNvlPeers → r < numMaxNvlPeers →
    w' < numMaxNvlPeers → r' < numMaxNvlPeers →
    sz.forwarderNvlChannel base w r channelId = some (b, ptrs) →
    sz.forwarderNvlChannel base w' r' channelId' = some (b', ptrs') →
    ∀ m m', (w, r, m, channelId) ≠ (w', r', m', channelId') →
      Disjoint (((b.part m).buffer 0).bytes (b.part m).numBytes)
        (((b'.part m').buffer 0).bytes (b'.part m').numBytes)
  /-- The receiver has the pointers of the forwarder that serves it. -/
  samePlace : ∀ base w r channelId,
    sz.receiverNvlChannel base r w channelId = sz.forwarderNvlChannel base w r channelId

/-- Dispatch's NVLink chain fills the region of its size. -/
theorem dispatchNvlRegion :
    sz.DispatchNvlRegion (getDispatchNvlRegionBytes sz.hiddenInt4 sz.numTopk sz.recvTokens
      sz.numChannels sz.numRdmaRanks) where
  advance := by
    intro v returned base w r channelId b rsWr wsRr built
    obtain ⟨-, -, rfl⟩ := (getDispatchNvlRegionBytes_eq_some sz.numChannels_pos).1 returned
    obtain ⟨own, other, -⟩ := forwarderNvlChannel_views built
    rw [← total_dispatchNvlChain]
    exact ⟨own, other⟩
  defined := by
    intro v returned held base w r channelId
    obtain ⟨room, -, rfl⟩ := (getDispatchNvlRegionBytes_eq_some sz.numChannels_pos).1 returned
    exact dispatchNvlChannel_defined _ _ _ _ _ room held
  apart := by
    intro base w r w' r' channelId channelId' b b' ptrs ptrs' hc hc' hw hr hw' hr' built built'
      m m' distinct
    obtain ⟨view, bytes⟩ := (forwarderNvlChannel_views built).2.2 m
    obtain ⟨view', bytes'⟩ := (forwarderNvlChannel_views built').2.2 m'
    have peer : m.peer w r < numMaxNvlPeers := by
      cases m <;> assumption
    have peer' : m'.peer w' r' < numMaxNvlPeers := by
      cases m' <;> assumption
    rw [view, view', bytes, bytes']
    apply disjoint_slabAt (has_dispatchNvlChain m hc peer) (has_dispatchNvlChain m' hc' peer')
    intro same
    simp only [Prod.mk.injEq] at same
    obtain ⟨owner, part, channel, peers⟩ := same
    have sameLink :=
      DispatchNvlPart.link_injective owner (DispatchNvlPart.index_injective part) peers
    apply distinct
    rw [sameLink.1, sameLink.2, DispatchNvlPart.index_injective part, channel]
  samePlace := by
    intro base w r channelId
    rfl

end ChainSizes

/-! ### NVLink, combine -/

/-- The slabs of combine's NVLink chain. -/
inductive CombineNvlPart
  | x
  | head
  | tail
  deriving DecidableEq

namespace CombineNvlPart

/-- The place in the chain. -/
def index : CombineNvlPart → ℕ
  | x => 0
  | head => 1
  | tail => 2

theorem index_injective : Function.Injective index := by
  intro m m' same
  cases m <;> cases m' <;> first | rfl | cases same

/-- In whose buffer a slab lies: the head in the sender's, the others in the forwarder's. -/
def owner (sender forwarder : ℕ) : CombineNvlPart → ℕ
  | head => sender
  | _ => forwarder

/-- And for which peer. -/
def peer (sender forwarder : ℕ) : CombineNvlPart → ℕ
  | head => forwarder
  | _ => sender

/-- Owner, peer and part determine the link. -/
theorem link_injective {m m' : CombineNvlPart} {w r w' r' : ℕ}
    (owner : m.owner w r = m'.owner w' r') (part : m = m') (peer : m.peer w r = m'.peer w' r') :
    w = w' ∧ r = r' := by
  subst part
  cases m
  case head => exact ⟨owner, peer⟩
  all_goals exact ⟨peer, owner⟩

end CombineNvlPart

namespace CombineSenderChannel

variable (b : CombineSenderChannel)

/-- The buffer of a part. -/
def part : CombineNvlPart → AsymBuffer
  | .x => b.x
  | .head => b.head
  | .tail => b.tail

end CombineSenderChannel

namespace CombineForwarderChannel

variable (b : CombineForwarderChannel)

/-- The pointer of a forwarder for a sender. -/
def view : CombineNvlPart → ℕ → Ptr
  | .x, sender => b.x.buffer sender
  | .head, sender => b.head.bufferBy sender 0
  | .tail, sender => b.tail.buffer sender

/-- The bytes behind it that belong to that sender. -/
def viewBytes : CombineNvlPart → ℕ
  | .x => b.x.numBytes
  | .head => b.head.numBytes
  | .tail => b.tail.numBytes

end CombineForwarderChannel

namespace ChainSizes

variable (sz : ChainSizes)

/-- The members of combine's NVLink chain. -/
def combineNvlChain : List Member :=
  [⟨sz.recvTokens * tokenBytes sz.hiddenInt4 0 sz.numTopk, numMaxNvlPeers, sz.numChannels⟩,
    ⟨sz.numRdmaRanks * 8, numMaxNvlPeers, sz.numChannels⟩,
    ⟨sz.numRdmaRanks * 8, numMaxNvlPeers, sz.numChannels⟩]

theorem total_combineNvlChain :
    total sz.combineNvlChain =
      combineNvlBytes sz.hiddenInt4 sz.numTopk sz.recvTokens sz.numChannels sz.numRdmaRanks := by
  simp only [combineNvlChain, total_cons, total_nil, Member.total, combineNvlBytes,
    numMaxNvlPeers]
  ring

variable {sz} {base sender forwarder channelId : ℕ}

/-- The pointers of a sender are the slabs of the members. -/
theorem combineSenderChannel_views {b : CombineSenderChannel} {own dst : Ptr}
    (built : sz.combineSenderChannel base sender forwarder channelId = some (b, own, dst)) :
    own = ⟨sender, base + total sz.combineNvlChain⟩ ∧
      dst = ⟨forwarder, base + total sz.combineNvlChain⟩ ∧
      ∀ m, (b.part m).buffer 0 =
          (⟨m.owner sender forwarder, base⟩ : Ptr) +
            slab sz.combineNvlChain m.index channelId (m.peer sender forwarder) ∧
        (b.part m).numBytes = slabBytes sz.combineNvlChain m.index := by
  simp only [combineSenderChannel, bind, getNumBytesPerToken_bind_eq_some,
    int32_bind_eq_some, asymBuffer_bind_eq_some, Option.some.injEq, Prod.mk.injEq] at built
  obtain ⟨-, -, -, -, -, -, -, -, -, -, -, rfl, rfl, rfl⟩ := built
  rw [total_combineNvlChain]
  refine ⟨?_, ?_, ?_⟩
  · simp only [AsymBuffer.advanceAlso, Ptr.mk_add, combineNvlBytes, numMaxNvlPeers,
      Ptr.mk.injEq, true_and]
    ring
  · simp only [AsymBuffer.advanceAlso, Ptr.mk_add, combineNvlBytes, numMaxNvlPeers,
      Ptr.mk.injEq, true_and]
    ring
  · intro m
    cases m
    all_goals
      simp only [CombineSenderChannel.part, AsymBuffer.buffer, AsymBuffer.advanceAlso,
        Ptr.mk_add, Ptr.mk.injEq, true_and, CombineNvlPart.index, CombineNvlPart.owner,
        CombineNvlPart.peer, combineNvlChain, slab_cons_zero, slab_cons_succ,
        slabBytes_cons_zero, slabBytes_cons_succ, Member.offset, Member.total, Nat.mul_one,
        Nat.mul_zero, Nat.add_zero, and_true]
    all_goals ring

/-- The pointers of a forwarder for a sender are the same slabs. -/
theorem combineForwarderChannel_views {b : CombineForwarderChannel} {own : Ptr} {peers : ℕ → Ptr}
    (built : sz.combineForwarderChannel base forwarder channelId = some (b, own, peers)) :
    own = ⟨forwarder, base + total sz.combineNvlChain⟩ ∧
      (∀ i, peers i = ⟨i, base + total sz.combineNvlChain⟩) ∧
      ∀ m sender, b.view m sender =
          (⟨m.owner sender forwarder, base⟩ : Ptr) +
            slab sz.combineNvlChain m.index channelId (m.peer sender forwarder) ∧
        b.viewBytes m = slabBytes sz.combineNvlChain m.index := by
  simp only [combineForwarderChannel, bind, getNumBytesPerToken_bind_eq_some,
    int32_bind_eq_some, asymBuffer_bind_eq_some, asymBuffers_bind_eq_some, Option.some.injEq,
    Prod.mk.injEq] at built
  obtain ⟨-, -, -, -, -, -, -, -, -, -, -, rfl, rfl, rfl⟩ := built
  rw [total_combineNvlChain]
  refine ⟨?_, ?_, ?_⟩
  · simp only [AsymBuffers.advanceAlso, Ptr.mk_add, combineNvlBytes, numMaxNvlPeers,
      Ptr.mk.injEq, true_and]
    ring
  · intro i
    simp only [AsymBuffer.advanceAlso, Ptr.mk_add, combineNvlBytes, numMaxNvlPeers,
      Ptr.mk.injEq, true_and]
    ring
  · intro m sender
    cases m
    all_goals
      simp only [CombineForwarderChannel.view, CombineForwarderChannel.viewBytes,
        AsymBuffer.buffer, AsymBuffers.bufferBy, AsymBuffer.advanceAlso, AsymBuffers.advanceAlso,
        Ptr.mk_add, Ptr.mk.injEq, true_and, CombineNvlPart.index, CombineNvlPart.owner,
        CombineNvlPart.peer, combineNvlChain, slab_cons_zero, slab_cons_succ,
        slabBytes_cons_zero, slabBytes_cons_succ, Member.offset, Member.total, Nat.mul_one,
        Nat.mul_zero, Nat.add_zero, and_true]
    all_goals ring

/-- A region that a buffer of `int` bytes holds is carved without an overflow. -/
theorem combineNvlChannel_defined (base sender forwarder channelId : ℕ)
    (room : 16 * sz.hiddenInt4 + tokenFields 0 sz.numTopk + 16 < 2 ^ 31)
    (fits : combineNvlBytes sz.hiddenInt4 sz.numTopk sz.recvTokens sz.numChannels
      sz.numRdmaRanks < 2 ^ 31) :
    (∃ out, sz.combineSenderChannel base sender forwarder channelId = some out) ∧
      ∃ out, sz.combineForwarderChannel base forwarder channelId = some out := by
  unfold combineNvlBytes at fits
  have rings := Nat.le_mul_of_pos_right
    (sz.recvTokens * tokenBytes sz.hiddenInt4 0 sz.numTopk * 8) sz.numChannels_pos
  have words := Nat.le_mul_of_pos_right (sz.numRdmaRanks * 8 * 8) sz.numChannels_pos
  constructor
  · apply Exists.intro
    simp only [combineSenderChannel, bind, getNumBytesPerToken_bind_eq_some, int32_bind_eq_some,
      asymBuffer_bind_eq_some, Nat.mul_one, numMaxNvlPeers]
    exact ⟨room, by omega, by omega, by omega, by omega, by omega, by omega, by omega, by omega,
      by omega, by omega, rfl⟩
  · apply Exists.intro
    simp only [combineForwarderChannel, bind, getNumBytesPerToken_bind_eq_some,
      int32_bind_eq_some, asymBuffer_bind_eq_some, asymBuffers_bind_eq_some, Nat.mul_one,
      numMaxNvlPeers]
    exact ⟨room, by omega, by omega, by omega, by omega, by omega, by omega, by omega, by omega,
      by omega, by omega, rfl⟩

/-- The slabs of every part are there. -/
theorem has_combineNvlChain (m : CombineNvlPart) {channel peer : ℕ}
    (hc : channel < sz.numChannels) (hp : peer < numMaxNvlPeers) :
    Has sz.combineNvlChain m.index channel peer := by
  cases m <;> exact ⟨hc, hp⟩

/-- What combine's NVLink region and the chain in it have to do with each other. -/
structure CombineNvlRegion (sz : ChainSizes) (region : Option ℕ) : Prop where
  advance : ∀ v, region = some v → ∀ base w r channelId,
    (∀ b own dst, sz.combineSenderChannel base w r channelId = some (b, own, dst) →
      own = ⟨w, base + v⟩ ∧ dst = ⟨r, base + v⟩) ∧
    ∀ b own peers, sz.combineForwarderChannel base r channelId = some (b, own, peers) →
      own = ⟨r, base + v⟩ ∧ ∀ i, peers i = ⟨i, base + v⟩
  defined : ∀ v, region = some v → v < 2 ^ 31 → ∀ base w r channelId,
    (∃ out, sz.combineSenderChannel base w r channelId = some out) ∧
      ∃ out, sz.combineForwarderChannel base r channelId = some out
  apart : ∀ base w r w' r' channelId channelId' b b' ptrs ptrs', channelId < sz.numChannels →
    channelId' < sz.numChannels → w < numMaxNvlPeers → r < numMaxNvlPeers →
    w' < numMaxNvlPeers → r' < numMaxNvlPeers →
    sz.combineSenderChannel base w r channelId = some (b, ptrs) →
    sz.combineSenderChannel base w' r' channelId' = some (b', ptrs') →
    ∀ m m', (w, r, m, channelId) ≠ (w', r', m', channelId') →
      Disjoint (((b.part m).buffer 0).bytes (b.part m).numBytes)
        (((b'.part m').buffer 0).bytes (b'.part m').numBytes)
  /-- The forwarder has for each sender the pointers of that sender. -/
  samePlace : ∀ base w r channelId b b' ptrs ptrs',
    sz.combineSenderChannel base w r channelId = some (b, ptrs) →
    sz.combineForwarderChannel base r channelId = some (b', ptrs') →
    ∀ m, (b.part m).buffer 0 = b'.view m w ∧ (b.part m).numBytes = b'.viewBytes m

/-- Combine's NVLink chain fills the region of its size. -/
theorem combineNvlRegion :
    sz.CombineNvlRegion (getCombineNvlRegionBytes sz.hiddenInt4 sz.numTopk sz.recvTokens
      sz.numChannels sz.numRdmaRanks) where
  advance := by
    intro v returned base w r channelId
    obtain ⟨-, -, rfl⟩ := (getCombineNvlRegionBytes_eq_some sz.numChannels_pos).1 returned
    rw [← total_combineNvlChain]
    constructor
    · intro b own dst built
      obtain ⟨ownEnd, dstEnd, -⟩ := combineSenderChannel_views built
      exact ⟨ownEnd, dstEnd⟩
    · intro b own peers built
      obtain ⟨ownEnd, peerEnd, -⟩ := combineForwarderChannel_views built
      exact ⟨ownEnd, peerEnd⟩
  defined := by
    intro v returned held base w r channelId
    obtain ⟨room, -, rfl⟩ := (getCombineNvlRegionBytes_eq_some sz.numChannels_pos).1 returned
    exact combineNvlChannel_defined _ _ _ _ room held
  apart := by
    intro base w r w' r' channelId channelId' b b' ptrs ptrs' hc hc' hw hr hw' hr' built built'
      m m' distinct
    obtain ⟨view, bytes⟩ := (combineSenderChannel_views built).2.2 m
    obtain ⟨view', bytes'⟩ := (combineSenderChannel_views built').2.2 m'
    have peer : m.peer w r < numMaxNvlPeers := by
      cases m <;> assumption
    have peer' : m'.peer w' r' < numMaxNvlPeers := by
      cases m' <;> assumption
    rw [view, view', bytes, bytes']
    apply disjoint_slabAt (has_combineNvlChain m hc peer) (has_combineNvlChain m' hc' peer')
    intro same
    simp only [Prod.mk.injEq] at same
    obtain ⟨owner, part, channel, peers⟩ := same
    have sameLink :=
      CombineNvlPart.link_injective owner (CombineNvlPart.index_injective part) peers
    apply distinct
    rw [sameLink.1, sameLink.2, CombineNvlPart.index_injective part, channel]
  samePlace := by
    intro base w r channelId b b' ptrs ptrs' built built' m
    obtain ⟨view, bytes⟩ := (combineSenderChannel_views built).2.2 m
    obtain ⟨view', bytes'⟩ := (combineForwarderChannel_views built').2.2 m w
    rw [view, view', bytes, bytes']
    exact ⟨rfl, rfl⟩

end ChainSizes

/-! ### NVLink, metadata -/

/-- The slabs of the metadata kernels' chain. -/
inductive MetadataPart
  | reduced
  | perRank
  | perExpert
  | streaming
  deriving DecidableEq

namespace MetadataPart

/-- The place in the chain. -/
def index : MetadataPart → ℕ
  | reduced => 0
  | perRank => 1
  | perExpert => 2
  | streaming => 3

theorem index_injective : Function.Injective index := by
  intro m m' same
  cases m <;> cases m' <;> first | rfl | cases same

/-- How many writers a part has slabs for. -/
def writers : MetadataPart → ℕ
  | reduced => 1
  | _ => numMaxNvlPeers

end MetadataPart

/-- Where a reader finds what a writer has written: the first three in phase A, the inbox in
phase B. -/
def MetadataSlabs.view (slabs : MetadataSlabs) (inbox : AsymBuffer) : MetadataPart → ℕ → Ptr
  | .reduced, _ => slabs.reduced.ptr
  | .perRank, writer => slabs.recvPerRank.buffer writer
  | .perExpert, writer => slabs.recvPerExpert.buffer writer
  | .streaming, writer => inbox.buffer writer

/-- The bytes that belong to that writer. -/
def MetadataSlabs.viewBytes (slabs : MetadataSlabs) (inbox : AsymBuffer) : MetadataPart → ℕ
  | .reduced => slabs.reduced.totalBytes
  | .perRank => slabs.recvPerRank.numBytes
  | .perExpert => slabs.recvPerExpert.numBytes
  | .streaming => inbox.numBytes

/-- Where a writer writes for a reader; the reduced counts have no writer but their reader. -/
def MetadataSlabs.writeView (slabs : MetadataSlabs) (writer reader : ℕ) : MetadataPart → Ptr
  | .reduced => slabs.reduced.ptr.onPeer reader
  | .perRank => slabs.sendPerRank.buffer writer
  | .perExpert => slabs.sendPerExpert.buffer writer
  | .streaming => slabs.peerWriterSlot reader

namespace MetadataSizes

variable (sz : MetadataSizes)

/-- The experts of a node are those of its ranks. -/
theorem numRdmaExperts_eq : sz.numRdmaExperts = sz.numLocalExperts * 8 := by
  obtain ⟨share, shared⟩ := Nat.dvd_of_mod_eq_zero sz.even
  unfold numRdmaExperts numLocalExperts
  rw [shared]
  rcases Nat.eq_zero_or_pos sz.numRdmaRanks with none | some
  · simp only [none, Nat.zero_mul, Nat.div_zero]
  · rw [Nat.mul_div_cancel_left _ (Nat.mul_pos some (by decide)), Nat.mul_assoc,
      Nat.mul_div_cancel_left _ some]
    exact Nat.mul_comm _ _

/-- Entries of a writer's slot of the inbox. -/
def slotInts : ℕ := sz.numRdmaRanks * sz.numChannels * sz.numLocalExperts

/-- The members of the metadata kernels' chain. -/
def metadataChain : List Member :=
  [⟨sz.numRdmaExperts * 4, 1, 1⟩, ⟨sz.numRdmaRanks * 4, numMaxNvlPeers, 1⟩,
    ⟨sz.numLocalExperts * 4, numMaxNvlPeers, 1⟩, ⟨sz.slotInts * 4, numMaxNvlPeers, 1⟩]

theorem total_metadataChain :
    total sz.metadataChain =
      metadataNvlBytes sz.numLocalExperts sz.numChannels sz.numRdmaRanks := by
  simp only [metadataChain, total_cons, total_nil, Member.total, metadataNvlBytes,
    numMaxNvlPeers, numRdmaExperts_eq, slotInts]
  ring

variable {sz} {base writer reader : ℕ}

/-- The pointers of phase A are the slabs of the members, in the own buffer and in that of the
peer. -/
theorem phaseASlabs_views {slabs : MetadataSlabs} {send recv : Ptr}
    (built : sz.phaseASlabs base writer reader = some (slabs, send, recv)) :
    send = ⟨reader, base + total sz.metadataChain⟩ ∧
      recv = ⟨writer, base + total sz.metadataChain⟩ ∧
      (∀ m, m ≠ .reduced → slabs.writeView writer reader m =
        (⟨reader, base⟩ : Ptr) + slab sz.metadataChain m.index 0 writer) ∧
      ∀ inbox m peer, m ≠ .streaming →
        slabs.view inbox m peer =
          (⟨writer, base⟩ : Ptr) +
            slab sz.metadataChain m.index 0 (if m = .reduced then 0 else peer) ∧
        slabs.viewBytes inbox m = slabBytes sz.metadataChain m.index := by
  simp only [phaseASlabs, bind, int32_bind_eq_some, buffer_bind_eq_some, asymBuffer_bind_eq_some,
    Option.some.injEq, Prod.mk.injEq] at built
  obtain ⟨-, -, -, -, -, -, -, -, -, -, -, -, -, -, -, -, -, -, -, -, -, rfl, rfl, rfl⟩ := built
  refine ⟨?_, ?_, ?_, ?_⟩
  · simp only [Ptr.mk_add, metadataChain, total_cons, total_nil, Member.total, slotInts,
      Ptr.mk.injEq, true_and, Nat.mul_one]
    ring
  · simp only [Ptr.mk_add, metadataChain, total_cons, total_nil, Member.total, slotInts,
      Ptr.mk.injEq, true_and, Nat.mul_one]
    ring
  · intro m written
    cases m
    case reduced => exact absurd rfl written
    all_goals
      simp only [MetadataSlabs.writeView, AsymBuffer.buffer, Ptr.mk_add, Ptr.mk.injEq, true_and,
        MetadataPart.index, metadataChain, slab_cons_zero, slab_cons_succ, Member.offset,
        Member.total, slotInts]
      ring
  · intro inbox m peer own
    cases m
    case streaming => exact absurd rfl own
    all_goals
      simp only [MetadataSlabs.view, MetadataSlabs.viewBytes, AsymBuffer.buffer, Ptr.mk_add,
        Ptr.mk.injEq, true_and, MetadataPart.index, metadataChain, slab_cons_zero, slab_cons_succ,
        slabBytes_cons_zero, slabBytes_cons_succ, Member.offset, Member.total, and_true,
        reduceCtorEq, if_true, if_false]
      first | rfl | ring

/-- The inbox of phase B is the last member. -/
theorem phaseBInbox_views {inbox : AsymBuffer} {recv : Ptr}
    (built : sz.phaseBInbox base reader = some (inbox, recv)) :
    recv = ⟨reader, base + total sz.metadataChain⟩ ∧
      inbox.numBytes = slabBytes sz.metadataChain 3 ∧
      ∀ peer, inbox.buffer peer =
        (⟨reader, base⟩ : Ptr) + slab sz.metadataChain 3 0 peer := by
  simp only [phaseBInbox, bind, int32_bind_eq_some, buffer_bind_eq_some,
    asymBuffer_bind_eq_some, Option.some.injEq, Prod.mk.injEq] at built
  obtain ⟨-, -, -, -, -, -, -, -, -, -, -, rfl, rfl⟩ := built
  refine ⟨?_, rfl, ?_⟩
  · simp only [Ptr.mk_add, metadataChain, total_cons, total_nil, Member.total, slotInts,
      Ptr.mk.injEq, true_and, Nat.mul_one]
    ring
  · intro peer
    simp only [AsymBuffer.buffer, Ptr.mk_add, Ptr.mk.injEq, true_and, metadataChain,
      slab_cons_zero, slab_cons_succ, Member.offset, Member.total, slotInts]
    ring

/-- A region that a buffer of `int` bytes holds is carved without an overflow. -/
theorem metadataSlabs_defined (base reader : ℕ) (peer : writer < numMaxNvlPeers)
    (fits : metadataNvlBytes sz.numLocalExperts sz.numChannels sz.numRdmaRanks < 2 ^ 31) :
    (∃ out, sz.phaseASlabs base writer reader = some out) ∧
      ∃ out, sz.phaseBInbox base reader = some out := by
  have whole : metadataNvlBytes sz.numLocalExperts sz.numChannels sz.numRdmaRanks =
      sz.numLocalExperts * 64 + sz.numRdmaRanks * 32 + sz.slotInts * 32 := by
    unfold metadataNvlBytes slotInts
    ring
  have slot : writer * sz.slotInts ≤ 8 * sz.slotInts := Nat.mul_le_mul_right _ peer.le
  have experts := sz.numRdmaExperts_eq
  have slots : sz.numRdmaRanks * sz.numChannels * sz.numLocalExperts = sz.slotInts := rfl
  rw [whole] at fits
  constructor
  · apply Exists.intro
    simp only [phaseASlabs, bind, int32_bind_eq_some, buffer_bind_eq_some,
      asymBuffer_bind_eq_some, numMaxNvlPeers, slots]
    exact ⟨by omega, by omega, by omega, by omega, by omega, by omega, by omega, by omega,
      by omega, by omega, by omega, by omega, by omega, by omega, by omega, by omega, by omega,
      by omega, by omega, by omega, by omega, rfl⟩
  · apply Exists.intro
    simp only [phaseBInbox, bind, int32_bind_eq_some, buffer_bind_eq_some,
      asymBuffer_bind_eq_some, numMaxNvlPeers, slots]
    exact ⟨by omega, by omega, by omega, by omega, by omega, by omega, by omega, by omega,
      by omega, by omega, by omega, rfl⟩

/-- Where a reader finds each slab. -/
theorem readView {slabs : MetadataSlabs} {inbox : AsymBuffer} {ptrs : Ptr × Ptr} {recv : Ptr}
    {any : ℕ} (built : sz.phaseASlabs base reader any = some (slabs, ptrs))
    (builtB : sz.phaseBInbox base reader = some (inbox, recv)) (m : MetadataPart) {peer : ℕ}
    (counted : peer < m.writers) :
    slabs.view inbox m peer =
        (⟨reader, base⟩ : Ptr) + slab sz.metadataChain m.index 0 peer ∧
      slabs.viewBytes inbox m = slabBytes sz.metadataChain m.index := by
  cases m with
  | streaming =>
    obtain ⟨-, bytes, view⟩ := phaseBInbox_views builtB
    exact ⟨view peer, bytes⟩
  | reduced =>
    have first : peer = 0 := Nat.lt_one_iff.1 counted
    subst first
    exact (phaseASlabs_views built).2.2.2 inbox .reduced 0 (by decide)
  | perRank => exact (phaseASlabs_views built).2.2.2 inbox .perRank peer (by decide)
  | perExpert => exact (phaseASlabs_views built).2.2.2 inbox .perExpert peer (by decide)

/-- The slabs of every part are there. -/
theorem has_metadataChain (m : MetadataPart) {peer : ℕ} (counted : peer < m.writers) :
    Has sz.metadataChain m.index 0 peer := by
  cases m <;> exact ⟨Nat.one_pos, counted⟩

/-- What the metadata region and the chain in it have to do with each other. -/
structure MetadataNvlRegion (sz : MetadataSizes) (region : Option ℕ) : Prop where
  advance : ∀ v, region = some v → ∀ base w r,
    (∀ slabs send recv, sz.phaseASlabs base w r = some (slabs, send, recv) →
      send = ⟨r, base + v⟩ ∧ recv = ⟨w, base + v⟩) ∧
    ∀ inbox recv, sz.phaseBInbox base r = some (inbox, recv) → recv = ⟨r, base + v⟩
  defined : ∀ v, region = some v → v < 2 ^ 31 → ∀ base w r, w < numMaxNvlPeers →
    (∃ out, sz.phaseASlabs base w r = some out) ∧ ∃ out, sz.phaseBInbox base r = some out
  apart : ∀ base r r' any any' slabs slabs' inbox inbox' ptrs ptrs' recv recv',
    sz.phaseASlabs base r any = some (slabs, ptrs) →
    sz.phaseBInbox base r = some (inbox, recv) →
    sz.phaseASlabs base r' any' = some (slabs', ptrs') →
    sz.phaseBInbox base r' = some (inbox', recv') →
    ∀ m m' peer peer', peer < m.writers → peer' < m'.writers →
      (r, m, peer) ≠ (r', m', peer') →
      Disjoint ((slabs.view inbox m peer).bytes (slabs.viewBytes inbox m))
        ((slabs'.view inbox' m' peer').bytes (slabs'.viewBytes inbox' m'))
  /-- A reader finds each slab where its writer puts it. -/
  samePlace : ∀ base w r any slabs slabs' inbox ptrs ptrs' recv, w < numMaxNvlPeers →
    sz.phaseASlabs base w r = some (slabs, ptrs) →
    sz.phaseASlabs base r any = some (slabs', ptrs') →
    sz.phaseBInbox base r = some (inbox, recv) →
    ∀ m, m ≠ .reduced → slabs.writeView w r m = slabs'.view inbox m w

/-- The metadata kernels' chain fills the region of its size. -/
theorem metadataNvlRegion (sz : MetadataSizes) :
    sz.MetadataNvlRegion (getMetadataNvlRegionBytes sz.numLocalExperts sz.numChannels
      sz.numRdmaRanks) where
  advance := by
    intro v returned base w r
    obtain ⟨-, rfl⟩ := getMetadataNvlRegionBytes_eq_some.1 returned
    rw [← total_metadataChain]
    constructor
    · intro slabs send recv built
      obtain ⟨sendEnd, recvEnd, -⟩ := phaseASlabs_views built
      exact ⟨sendEnd, recvEnd⟩
    · intro inbox recv built
      exact (phaseBInbox_views built).1
  defined := by
    intro v returned held base w r hw
    obtain ⟨-, rfl⟩ := getMetadataNvlRegionBytes_eq_some.1 returned
    exact metadataSlabs_defined base r hw held
  apart := by
    intro base r r' any any' slabs slabs' inbox inbox' ptrs ptrs' recv recv' built builtB built'
      builtB' m m' peer peer' counted counted' distinct
    obtain ⟨view, bytes⟩ := readView built builtB m counted
    obtain ⟨view', bytes'⟩ := readView built' builtB' m' counted'
    rw [view, view', bytes, bytes']
    apply disjoint_slabAt (has_metadataChain m counted) (has_metadataChain m' counted')
    intro same
    simp only [Prod.mk.injEq, true_and] at same
    apply distinct
    rw [same.1, MetadataPart.index_injective same.2.1, same.2.2]
  samePlace := by
    intro base w r any slabs slabs' inbox ptrs ptrs' recv hw built built' builtB m written
    have counted : w < m.writers := by
      cases m
      case reduced => exact absurd rfl written
      all_goals exact hw
    rw [(phaseASlabs_views built).2.2.1 m written, (readView built' builtB m counted).1]

end MetadataSizes

/-! ### All regions -/

/-- The regions of the internode kernels and the pointer chains in them: the bytes of a region
are what its chain advances by, the slabs of a chain are disjoint, and both sides of a link have
the same bytes. -/
theorem regions_are_chains :
    (∀ sz : ChainSizes,
      sz.RdmaRegion sz.numTopk (getDispatchRdmaRegionBytes sz.hiddenInt4 sz.numTopk sz.recvTokens
        sz.numChannels sz.numRdmaRanks) ∧
      sz.RdmaRegion 0 (getCombineRdmaRegionBytes sz.hiddenInt4 sz.numTopk sz.recvTokens
        sz.numChannels sz.numRdmaRanks) ∧
      sz.DispatchNvlRegion (getDispatchNvlRegionBytes sz.hiddenInt4 sz.numTopk sz.recvTokens
        sz.numChannels sz.numRdmaRanks) ∧
      sz.CombineNvlRegion (getCombineNvlRegionBytes sz.hiddenInt4 sz.numTopk sz.recvTokens
        sz.numChannels sz.numRdmaRanks)) ∧
    ∀ sz : MetadataSizes,
      sz.MetadataNvlRegion (getMetadataNvlRegionBytes sz.numLocalExperts sz.numChannels
        sz.numRdmaRanks) := by
  constructor
  · intro sz
    refine ⟨?_, ?_, sz.dispatchNvlRegion, sz.combineNvlRegion⟩
    · apply ChainSizes.rdmaRegion
      intro v returned
      obtain ⟨room, -, size⟩ := getDispatchRdmaRegionBytes_eq_some.1 returned
      exact ⟨room, size⟩
    · apply ChainSizes.rdmaRegion
      intro v returned
      obtain ⟨room, -, size⟩ := getCombineRdmaRegionBytes_eq_some.1 returned
      exact ⟨room, size⟩
  · intro sz
    exact sz.metadataNvlRegion

/-! ### The launches of two nodes -/

/-- Rows of 768 elements with eight choices, on the channels of 80 SMs. -/
def twoNodeSizes (recvTokens : ℕ) : ChainSizes where
  hiddenInt4 := 96
  numTopk := 8
  recvTokens := recvTokens
  numChannels := 40
  numRdmaRanks := 2
  numChannels_pos := Nat.succ_pos (nat_lit 39)
  numRdmaRanks_pos := Nat.two_pos

/-- The metadata of 512 experts. -/
def twoNodeMetadata : MetadataSizes where
  numExperts := 512
  numChannels := 40
  numRdmaRanks := 2
  even := rfl

/-- With the recommended rings, of 256 tokens over RDMA and 288 over NVLink, every chain is
carved. -/
theorem twoNodes_carved (base : ℕ) :
    (∀ ptr channelId, (∃ out, (twoNodeSizes 256).rdmaChannel 8 ptr channelId = some out) ∧
      ∃ out, (twoNodeSizes 256).rdmaChannel 0 ptr channelId = some out) ∧
    (∀ w r channelId,
      (∃ out, (twoNodeSizes 288).forwarderNvlChannel base w r channelId = some out) ∧
      (∃ out, (twoNodeSizes 288).combineSenderChannel base w r channelId = some out) ∧
      ∃ out, (twoNodeSizes 288).combineForwarderChannel base r channelId = some out) ∧
    ∀ w < numMaxNvlPeers, ∀ r, (∃ out, twoNodeMetadata.phaseASlabs base w r = some out) ∧
      ∃ out, twoNodeMetadata.phaseBInbox base r = some out := by
  refine ⟨fun ptr channelId => ⟨?_, ?_⟩, fun w r channelId => ⟨?_, ?_⟩, fun w hw r => ?_⟩
  · exact ChainSizes.rdmaChannel_defined ptr channelId (by decide) (by decide)
  · exact ChainSizes.rdmaChannel_defined ptr channelId (by decide) (by decide)
  · exact ChainSizes.dispatchNvlChannel_defined _ _ _ _ _ (by decide) (by decide)
  · exact ChainSizes.combineNvlChannel_defined _ _ _ _ (by decide) (by decide)
  · exact MetadataSizes.metadataSlabs_defined base r hw (by decide)

end StreamEP.Internode
