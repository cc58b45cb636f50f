import StreamEP.Internode.NvlHeads
import StreamEP.Internode.RingPhase
import StreamEP.Lib.Loop

/-!
# The forwarder warp

A forwarder warp of a channel takes, from the RDMA ring of every source node, the header of
the iteration and the tokens it announces, and copies those with the bit of its peer into
the NVLink ring of this peer.  The sources take turns: the warp goes on with a source as
far as the tail it has seen, or until it has sent a chunk.

The other parties are events of the system: the sources, which put packets into their
rings as far as the published heads allow, also those of the next iteration, which goes on
in the slots behind this one; the network, which lets the data and the increments of the
tail take effect in any order; and the receiver at the peer, which frees slots of the NVLink
ring.

**Headers.**  Tokens wait for a slot that the warp has freed.  The header of an iteration does
not: the coordinator of the source puts it as soon as its kernel runs, whatever the head says.
The runs in which such a header finds its slot free are those under `HeaderFits`.

**Packets.**  A packet is a row and the metadata word behind it, which carries the mask of peers
in its low bits and the tag of its slot in its high bits.  The source makes the word for the
RDMA ring (`SourceMeta.new`), and the warp changes the tag and nothing else when it copies the
packet into the NVLink ring (`Packet.forNvlSlot`).

**Positions.**  Everything about a source is by its position in the stream of the iteration: the
header is at 0 and token `i` at `i + 1`, and `Relay.packet` goes on with the packets of later
iterations.  The words that the code keeps are positions plus the baseline, modulo `2 ^ 32`;
`arrived` is the difference that the warp computes.

**Phases.**  `ForwarderPhase` is where the warp is in its code: at the headers, at the gate where
it waits for room in the peer's ring, polling the sources, within a batch of one of them, or
retired.  Two staged packets may be in flight at a time (`kNumStages`); they are stored in the
order they were staged in.
-/

namespace StreamEP.Internode

open Function Loop

/-! ### Packets -/

/-- `SourceMeta`: the node a token comes from, and a word with the mask of the peers it goes
to in bits 0 to 7 and the tag of its slot in bits 16 to 31. -/
structure SourceMeta where
  srcRdmaRank : ℕ
  isTokenInNvlRankBits : ℕ
  deriving DecidableEq

namespace SourceMeta

/-- The constructor, from the mask and the position of the token in its ring. -/
def new (rdmaRank : ℕ) (isTokenInNvlRanks : ℕ → Bool) (ringPosTag : ℕ) : SourceMeta where
  srcRdmaRank := rdmaRank
  isTokenInNvlRankBits :=
    for' numMaxNvlPeers (fun bits i => bits ||| (isTokenInNvlRanks i).toNat <<< i) 0 |||
      (ringPosTag &&& 0xffff) <<< 16

def isTokenInNvlRank (m : SourceMeta) (nvlRank : ℕ) : Bool :=
  (m.isTokenInNvlRankBits >>> nvlRank) &&& 1 == 1

def seqTag (m : SourceMeta) : ℕ := (m.isTokenInNvlRankBits >>> 16) &&& 0xffff

/-- The tag of the RDMA slot gives way to that of the NVLink slot. -/
def withTag (m : SourceMeta) (tag : ℕ) : SourceMeta :=
  { m with isTokenInNvlRankBits := (m.isTokenInNvlRankBits &&& 0xffff) ||| tag <<< 16 }

theorem isTokenInNvlRank_eq (m : SourceMeta) (nvlRank : ℕ) :
    m.isTokenInNvlRank nvlRank = m.isTokenInNvlRankBits.testBit nvlRank := by
  rw [isTokenInNvlRank, Nat.testBit, Nat.and_comm 1]
  simp [Nat.and_one_is_mod]

/-- The loop over the peers sets bit `i` for peer `i`. -/
theorem testBit_mask (isTokenInNvlRanks : ℕ → Bool) (n i : ℕ) :
    (for' n (fun bits i => bits ||| (isTokenInNvlRanks i).toNat <<< i) 0).testBit i =
      (decide (i < n) && isTokenInNvlRanks i) := by
  induction n with
  | zero => exact Nat.zero_testBit i
  | succ n ih =>
    rw [for'_succ, Nat.testBit_or, ih, Nat.testBit_shiftLeft, Nat.testBit_bool_toNat]
    rcases lt_trichotomy i n with before | rfl | after
    · simp [before, Nat.lt_succ_of_lt before, not_le.2 before]
    · simp
    · have zero : ¬i - n = 0 := Nat.sub_ne_zero_of_lt after
      simp [not_lt.2 after.le, not_lt.2 (Nat.succ_le_of_lt after), zero]

/-- **The mask is not touched by the tag.** -/
theorem new_isTokenInNvlRank {n : ℕ} (hn : n < numMaxNvlPeers) (rdmaRank : ℕ)
    (isTokenInNvlRanks : ℕ → Bool) (ringPosTag : ℕ) :
    (new rdmaRank isTokenInNvlRanks ringPosTag).isTokenInNvlRank n = isTokenInNvlRanks n := by
  have low : ¬16 ≤ n := not_le.2 (hn.trans (by decide))
  rw [isTokenInNvlRank_eq, new, Nat.testBit_or, testBit_mask, Nat.testBit_shiftLeft]
  simp [hn, low]

end SourceMeta

/-- `nvl_slot_tag` -/
def nvlSlotTag (seq pos : ℕ) : ℕ := (seq &&& 0x7F) <<< 9 ||| (pos &&& 0x1FF)

/-- What a slot holds: a row of data and the word behind it. -/
@[ext]
structure Packet (Row : Type*) where
  row : Row
  sourceMeta : SourceMeta
  deriving DecidableEq

/-- The staged copy of a packet with the tag of its NVLink slot. -/
def Packet.forNvlSlot {Row : Type*} (p : Packet Row) (nvlSeq pos : ℕ) : Packet Row :=
  { p with sourceMeta := p.sourceMeta.withTag (nvlSlotTag nvlSeq pos) }

/-! ### What the warp is to relay -/

/-- One iteration, as a forwarder warp meets it. -/
structure Relay (Row : Type*) extends RecvTokens where
  cfg : Config
  numRdmaRanks_pos : 0 < numRdmaRanks
  channelId : ℕ
  channelId_lt : channelId < numChannels
  dstNvlRank : ℕ
  dstNvlRank_lt : dstNvlRank < numMaxNvlPeers
  smId : ℕ
  nvlSeq : ℕ
  /-- `prev_rdma_channel_tail_at_entry`. -/
  readerPrevTail : ℕ → BitVec 32
  /-- A row read as an array of `int`. -/
  int : Row → ℕ → ℤ
  headerRow : ℕ → Row
  tokenRow : ℕ → ℕ → Row
  /-- `rdma_channel_prefix_matrix` before and after this channel. -/
  header_prefix : ∀ s < numRdmaRanks, int (headerRow s) (numMaxNvlPeers * 2) =
    toRecvTokens.channelPrefix channelId s
  header_prefix_1 : ∀ s < numRdmaRanks, int (headerRow s) (numMaxNvlPeers * 2 + 1) =
    toRecvTokens.channelPrefix (channelId + 1) s
  /-- What a source sends in its next iterations, -/
  later : ℕ → ℕ → Packet Row
  /-- and which of it are headers: the first packet is one. -/
  laterHeader : ℕ → ℕ → Bool
  laterHeader_zero : ∀ s, laterHeader s 0 = true
  /-- What earlier iterations left in the rings. -/
  stale : ℕ → ℕ → Packet Row

namespace Relay

variable {Row : Type*} (T : Relay Row) (s : ℕ)

/-- Tokens of a source. -/
def count : ℕ := T.numTokens T.channelId s

/-- Number of its `i`-th token among all that come to this rank. -/
def tokenIdx (i : ℕ) : ℕ := T.tokenStartIdx T.channelId s + i

/-- The token goes to the peer of this warp. -/
def Sends (i : ℕ) : Prop := T.Goes T.dstNvlRank (T.tokenIdx s i)

instance : DecidablePred (T.Sends s) := fun i =>
  inferInstanceAs (Decidable (T.Goes T.dstNvlRank (T.tokenIdx s i)))

def header : Packet Row where
  row := T.headerRow s
  sourceMeta := ⟨0, (T.nvlSeq &&& 0xffff) <<< 16⟩

/-- `slot_tag_want` of a token. -/
def slotTag (i : ℕ) : ℕ := (T.readerPrevTail s + BitVec.ofNat 32 i + 1).toNat &&& 0xffff

def token (i : ℕ) : Packet Row where
  row := T.tokenRow s i
  sourceMeta := .new s (fun n => T.isTokenInNvlRank n (T.tokenIdx s i))
    (T.readerPrevTail s + BitVec.ofNat 32 i + 1).toNat

/-- The packet at a position of the source's stream: the header, the tokens, and what comes
after them. -/
def packet : ℕ → Packet Row
  | 0 => T.header s
  | i + 1 => if i < T.count s then T.token s i else T.later s (i - T.count s)

/-- The packet at a position is the header of an iteration. -/
def IsHeader (j : ℕ) : Prop :=
  j = 0 ∨ T.count s < j ∧ T.laterHeader s (j - (T.count s + 1)) = true

instance : DecidablePred (T.IsHeader s) := fun j =>
  inferInstanceAs (Decidable (j = 0 ∨ T.count s < j ∧ _ = true))

/-- The tag that the warp waits for at a position. -/
def tagWant : ℕ → ℕ
  | 0 => T.nvlSeq &&& 0xffff
  | i + 1 => T.slotTag s i

def ring : ℕ := T.cfg.numMaxRdmaChunkedRecvTokens

def nvlRing : ℕ := T.cfg.numMaxNvlChunkedRecvTokens

/-- The slot of a position, at the source and here. -/
def slot (j : ℕ) : ℕ := forwarderSlot T.cfg (T.readerPrevTail s) j

/-- The entry of `send_nvl_head` for a token. -/
def headCell (i : ℕ) : ℕ := Internode.headCell T.dstNvlRank (T.tokenIdx s i)

end Relay

/-! ### The state -/

/-- The ring of one source, and the lane that looks after it. -/
structure ForwarderLane (Row : Type*) where
  /-- Packets put by the source. -/
  issued : ℕ
  /-- Their data is in the ring. -/
  landed : ℕ → Bool
  /-- Increments of `rdma_channel_tail` since the iteration before. -/
  tail : ℕ
  slots : ℕ → Packet Row
  /-- The header has been read. -/
  started : Bool
  numTokensToRecv : ℤ
  rdmaRecvCount : ℤ
  cachedRdmaHead : ℕ
  cachedRdmaTail : ℕ
  rdmaNvlTokenIdx : ℕ
  /-- `forward_channel_head`, which frees slots of the source. -/
  forwardChannelHead : ℕ
  /-- `nvl_channel_prefix_start` and `nvl_channel_prefix_end`, once stamped. -/
  nvlPrefix : Option (ℤ × ℤ)
  /-- The packets taken from the ring so far. -/
  accepted : List (Packet Row)

/-- Where the warp is in its code. -/
inductive ForwarderPhase where
  | headers
  /-- The head of the loop and the wait for NVLink slots. -/
  | gate
  /-- The wait for a source with tokens. -/
  | poll
  /-- The inner loop, at token `i` of source `s`. -/
  | drain (s i tail numTokensSent : ℕ)
  | retired
  deriving DecidableEq

structure ForwarderWarp (Row : Type*) where
  lanes : ℕ → ForwarderLane Row
  phase : ForwarderPhase
  srcRdmaRank : ℕ
  cachedNvlHead : ℕ
  cachedNvlTail : ℕ
  /-- Staged packets and their positions in the NVLink ring. -/
  pending : List (ℕ × Packet Row)
  nvlSlots : ℕ → Packet Row
  /-- `nvl_channel_tail`. -/
  nvlTail : ℕ
  /-- `nvl_channel_head`, once the receiver has stamped it. -/
  nvlHead : Option ℕ
  /-- Slots that the receiver has read. -/
  freed : ℕ
  sendNvlHead : ℕ → ℤ
  /-- Source and token by position in the NVLink ring. -/
  relayed : List (ℕ × ℕ)

inductive ForwarderEvent where
  /-- A source issues its next put; its data lands; the tail moves on. -/
  | put (s : ℕ)
  | land (s j : ℕ)
  | increment (s : ℕ)
  /-- A lane reads its header. -/
  | header (s : ℕ)
  /-- `sync_forwarder_smem` -/
  | sync
  | readNvlHead
  | pass
  | poll
  | token
  /-- The end of the inner loop. -/
  | publish
  | retire
  /-- The receiver reads a slot; it publishes its head. -/
  | free
  | publishNvlHead

namespace ForwarderWarp

variable {Row : Type*} (T : Relay Row)

/-- `kNumStages` -/
def kNumStages : ℕ := 2

def start (nvlSlots : ℕ → Packet Row) (sendNvlHead : ℕ → ℤ) : ForwarderWarp Row where
  lanes s := ⟨0, fun _ => false, 0, T.stale s, false, 0, 0, 0, 0, 0, 0, none, []⟩
  phase := .headers
  srcRdmaRank := T.smId % T.numRdmaRanks
  cachedNvlHead := 0
  cachedNvlTail := 0
  pending := []
  nvlSlots := nvlSlots
  nvlTail := 0
  nvlHead := none
  freed := 0
  sendNvlHead := sendNvlHead
  relayed := []

variable (st : ForwarderWarp Row)

def setLane (s : ℕ) (lane : ForwarderLane Row) : ForwarderWarp Row :=
  { st with lanes := update st.lanes s lane }

/-- `rdma_channel_tail` less the baseline, as the warp computes it. -/
def arrived (s : ℕ) : ℤ :=
  WrapCounter.diff (T.readerPrevTail s + BitVec.ofNat 32 (st.lanes s).tail) (T.readerPrevTail s)

/-- `num_tokens_to_recv_from_rdma > 0` in some lane. -/
def Busy : Prop := ∃ s < T.numRdmaRanks, 0 < (st.lanes s).numTokensToRecv

instance : Decidable (st.Busy T) := inferInstanceAs (Decidable (∃ s < T.numRdmaRanks, _))

/-- There is room for a chunk. -/
def HasSpace : Prop :=
  T.cfg.numMaxNvlChunkedSendTokens ≤
    T.cfg.numMaxNvlChunkedRecvTokens - (st.cachedNvlTail - st.cachedNvlHead)

instance : Decidable (st.HasSpace T) := inferInstanceAs (Decidable (_ ≤ _))

/-- The oldest staged packet is stored. -/
def store (slots : ℕ → Packet Row) (staged : ℕ × Packet Row) : ℕ → Packet Row :=
  update slots (staged.1 % T.nvlRing) (staged.2.forNvlSlot T.nvlSeq staged.1)

/-- Both stages in flight: the older one is waited for. -/
def makeRoom : ForwarderWarp Row :=
  match st.pending with
  | [] => st
  | oldest :: rest =>
      if st.pending.length = kNumStages then
        { st with pending := rest, nvlSlots := store T st.nvlSlots oldest }
      else st

/-- The rest of an iteration of the inner loop, for a token with the peer's bit. -/
def forward (s i tail numTokensSent : ℕ) (packet : Packet Row) : ForwarderWarp Row :=
  let room := st.makeRoom T
  { room with
    pending := room.pending ++ [(st.cachedNvlTail, packet)]
    cachedNvlTail := st.cachedNvlTail + 1
    relayed := st.relayed ++ [(s, i)]
    phase :=
      if numTokensSent + 1 = T.cfg.numMaxNvlChunkedSendTokens then
        .drain s (i + 1) (i + 1) (numTokensSent + 1)
      else .drain s (i + 1) tail (numTokensSent + 1) }

/-- What the lane of the source records for a token. -/
def take (s i : ℕ) (packet : Packet Row) : ForwarderWarp Row :=
  let lane := st.lanes s
  let inDst := packet.sourceMeta.isTokenInNvlRank T.dstNvlRank
  { st with
    lanes := update st.lanes s { lane with
      numTokensToRecv := lane.numTokensToRecv - 1
      rdmaNvlTokenIdx := lane.rdmaNvlTokenIdx + inDst.toNat
      accepted := lane.accepted ++ [packet] }
    sendNvlHead := update st.sendNvlHead (T.headCell s i)
      (if inDst = true then (lane.rdmaNvlTokenIdx : ℤ) else -1) }

/-- One step of the warp or of the parties around it. -/
def step : ForwarderEvent → Option (ForwarderWarp Row)
  | .put s =>
    let lane := st.lanes s
    -- a header is put without a look at the head
    if s < T.numRdmaRanks ∧
        (T.IsHeader s lane.issued ∨ lane.issued < lane.forwardChannelHead + T.ring) then
      some (st.setLane s { lane with issued := lane.issued + 1 })
    else none
  | .land s j =>
    let lane := st.lanes s
    if s < T.numRdmaRanks ∧ j < lane.issued ∧ lane.landed j = false then
      some (st.setLane s { lane with
        landed := update lane.landed j true
        slots := update lane.slots (T.slot s j) (T.packet s j) })
    else none
  | .increment s =>
    let lane := st.lanes s
    if s < T.numRdmaRanks ∧ lane.tail < lane.issued then
      some (st.setLane s { lane with tail := lane.tail + 1 })
    else none
  | .header s =>
    let lane := st.lanes s
    let packet := lane.slots (T.slot s 0)
    if st.phase = .headers ∧ s < T.numRdmaRanks ∧ lane.started = false ∧ 1 ≤ st.arrived T s ∧
        packet.sourceMeta.seqTag = T.tagWant s 0 then
      let count := T.int packet.row (numMaxNvlPeers * 2 + 1) - T.int packet.row (numMaxNvlPeers * 2)
      some (st.setLane s { lane with
        started := true
        numTokensToRecv := count
        rdmaRecvCount := count
        nvlPrefix := some (T.int packet.row T.dstNvlRank,
          T.int packet.row (numMaxNvlPeers + T.dstNvlRank))
        accepted := [packet] })
    else none
  | .sync =>
    if st.phase = .headers ∧ ∀ s < T.numRdmaRanks, (st.lanes s).started = true then
      some { st with
        phase := .gate
        lanes := fun s =>
          if s < T.numRdmaRanks then { st.lanes s with forwardChannelHead := 1 }
          else st.lanes s }
    else none
  | .readNvlHead =>
    if st.phase = .gate ∧ st.Busy T ∧ ¬st.HasSpace T then
      some { st with cachedNvlHead := st.nvlHead.getD st.cachedNvlHead }
    else none
  | .pass =>
    if st.phase = .gate ∧ st.Busy T ∧ st.HasSpace T then some { st with phase := .poll }
    else none
  | .poll =>
    if st.phase = .poll then
      let s := (st.srcRdmaRank + 1) % T.numRdmaRanks
      let lane := st.lanes s
      if 0 < lane.numTokensToRecv then
        -- the tail counts the header, and may already count the next iteration
        let tail := if lane.cachedRdmaHead = lane.cachedRdmaTail then
            (min (max 0 (st.arrived T s - 1)) lane.rdmaRecvCount).toNat
          else lane.cachedRdmaTail
        some { st.setLane s { lane with cachedRdmaTail := tail } with
          srcRdmaRank := s
          phase := if lane.cachedRdmaHead < tail then .drain s lane.cachedRdmaHead tail 0
            else .poll }
      else some { st with srcRdmaRank := s }
    else none
  | .token =>
    match st.phase with
    | .drain s i tail numTokensSent =>
      let packet := (st.lanes s).slots (T.slot s (i + 1))
      if i < tail ∧ packet.sourceMeta.seqTag = T.tagWant s (i + 1) then
        let taken := st.take T s i packet
        some (if packet.sourceMeta.isTokenInNvlRank T.dstNvlRank = true then
            taken.forward T s i tail numTokensSent packet
          else { taken with phase := .drain s (i + 1) tail numTokensSent })
      else none
    | _ => none
  | .publish =>
    match st.phase with
    | .drain s i tail _ =>
      if i < tail then none
      else
        some { st with
          lanes := update st.lanes s { st.lanes s with
            cachedRdmaHead := tail
            forwardChannelHead := tail + 1 }
          pending := []
          nvlSlots := st.pending.foldl (store T) st.nvlSlots
          nvlTail := st.cachedNvlTail
          phase := .gate }
    | _ => none
  | .retire =>
    if st.phase = .gate ∧ ¬st.Busy T then some { st with phase := .retired } else none
  | .free => if st.freed < st.nvlTail then some { st with freed := st.freed + 1 } else none
  | .publishNvlHead => some { st with nvlHead := some st.freed }

/-- A header that a source puts goes to a slot that the warp has freed. -/
def HeaderFits : ForwarderEvent → Prop
  | .put s => T.IsHeader s (st.lanes s).issued →
      (st.lanes s).issued < (st.lanes s).forwardChannelHead + T.ring
  | _ => True

instance : (e : ForwarderEvent) → Decidable (st.HeaderFits T e)
  | .put s => inferInstanceAs (Decidable (T.IsHeader s (st.lanes s).issued → _ < _))
  | .land .. | .increment _ | .header _ | .sync | .readNvlHead | .pass | .poll | .token
  | .publish | .retire | .free | .publishNvlHead => isTrue trivial

/-- The warp and the parties around it, from rings with arbitrary contents. -/
def system (nvlSlots : ℕ → Packet Row) (sendNvlHead : ℕ → ℤ) :
    TransitionSystem (ForwarderWarp Row) ForwarderEvent where
  init := start T nvlSlots sendNvlHead
  step := step T

end ForwarderWarp

end StreamEP.Internode
