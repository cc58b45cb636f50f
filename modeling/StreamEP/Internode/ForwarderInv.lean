import StreamEP.Internode.Forwarder

/-!
# The invariant of a forwarder warp

It has three parts.  In the window of a source's ring that the warp has not freed, a slot
holds its own packet once this has landed and the one a ring before it until then
(`LinkInv`).  So when the tags of the two differ, whatever a lane accepts is the next packet
of the stream (`LaneInv`).  And the warp starts a batch only with room for a chunk, so it
stores no packet over one that the receiver has not read (`NvlInv`).

**The link.**  `Relay.prior` is what the slot of a position holds before its packet lands: the
packet a ring earlier, or for the first window what the ring was found with.  `TagsFresh` says
of the data of the iteration that no prior packet has the tag that the warp will wait for, and
enters by `LinkInv.genuine` alone.  The lemmas `put`, `increment`, `land` and `advance` are one
for each thing that can happen to a link.

**The lane.**  `LaneInv` speaks about the token that the warp takes next, `nextToken`, so that
it has the same form in every phase.  Within a batch the lane's own head is behind, and the
batch says how far it has come.  The values in `send_nvl_head` are part of the invariant, since
every lane writes its entries into one tensor: `headCell_inj` keeps them apart.

**The peer's ring.**  `Stored` says that slots hold the packets of a range of positions; the range
ends at `written`, behind which the staged packets go.  A batch records how many it has sent
(`Batch`), and the room that was there at its start bounds the positions it stores at.
-/

namespace StreamEP.Internode

open Function

variable {Row : Type*} {T : Relay Row} {s : ℕ}

/-! ### Positions and tags -/

namespace Relay

/-- What the slot of a position holds before its packet lands. -/
def prior (T : Relay Row) (s j : ℕ) : Packet Row :=
  if j < T.ring then T.stale s (T.slot s j) else T.packet s (j - T.ring)

/-- No slot carries the awaited tag before the awaited packet has landed. -/
def TagsFresh (T : Relay Row) : Prop :=
  ∀ s < T.numRdmaRanks, ∀ j ≤ T.count s, (T.prior s j).sourceMeta.seqTag ≠ T.tagWant s j

instance (T : Relay Row) : Decidable T.TagsFresh :=
  inferInstanceAs (Decidable (∀ s < T.numRdmaRanks, ∀ j ≤ T.count s, _))

/-- The first packets of a source: its header and its tokens. -/
def stream (T : Relay Row) (s n : ℕ) : List (Packet Row) := (List.range n).map (T.packet s)

theorem ring_pos : 0 < T.ring := Config.rdmaRecv_pos

theorem slot_eq (j : ℕ) :
    T.slot s j = ((T.readerPrevTail s).toNat % T.ring + j) % T.ring := by
  rw [slot, forwarderSlot_eq, senderSlot_eq]
  rfl

theorem slot_add_ring (j : ℕ) : T.slot s (j + T.ring) = T.slot s j := by
  rw [slot_eq, slot_eq, ← Nat.add_assoc, Nat.add_mod_right]

/-- Positions of one window have slots of their own. -/
theorem slot_inj {h j j' : ℕ} (lo : h ≤ j) (hi : j < h + T.ring) (lo' : h ≤ j')
    (hi' : j' < h + T.ring) (same : T.slot s j = T.slot s j') : j = j' := by
  rw [slot_eq, slot_eq] at same
  generalize (T.readerPrevTail s).toNat % T.ring = phase at same
  have last : phase + j < phase + h + T.ring := by omega
  have last' : phase + j' < phase + h + T.ring := by omega
  exact Nat.add_left_cancel (ReplayRings.eq_of_mod_eq (Nat.add_le_add_left lo phase) last
    (Nat.add_le_add_left lo' phase) last' same)

theorem packet_token {i : ℕ} (hi : i < T.count s) : T.packet s (i + 1) = T.token s i := if_pos hi

/-- The bit of the warp's peer in the mask of a token. -/
theorem token_inDst (i : ℕ) :
    (T.token s i).sourceMeta.isTokenInNvlRank T.dstNvlRank = true ↔ T.Sends s i := by
  rw [token, SourceMeta.new_isTokenInNvlRank T.dstNvlRank_lt]
  exact Iff.rfl

theorem tokenIdx_lt {i : ℕ} (hi : i < T.count s) :
    T.tokenIdx s i < T.tokenEndIdx T.channelId s := by
  rw [RecvTokens.tokenEndIdx_eq]
  exact Nat.add_lt_add_left hi _

/-- Tokens of all sources have entries of their own. -/
theorem headCell_inj {s' i i' : ℕ} (hi : i < T.count s) (hi' : i' < T.count s')
    (same : T.headCell s i = T.headCell s' i') : s = s' ∧ i = i' := by
  have token : T.tokenIdx s i = T.tokenIdx s' i' :=
    ((Internode.headCell_inj T.dstNvlRank_lt T.dstNvlRank_lt).1 same).1
  have lo : T.tokenStartIdx T.channelId s' ≤ T.tokenIdx s i := by
    rw [token]
    exact Nat.le_add_right _ _
  obtain ⟨-, rfl⟩ := RecvTokens.range_unique T.channelId_lt T.channelId_lt
    (Nat.le_add_right _ _) (tokenIdx_lt hi) lo (token.trans_lt (tokenIdx_lt hi'))
  exact ⟨rfl, Nat.add_left_cancel token⟩

theorem stream_succ (n : ℕ) : T.stream s (n + 1) = T.stream s n ++ [T.packet s n] := by
  rw [stream, List.range_succ, List.map_append]
  rfl

theorem length_stream (n : ℕ) : (T.stream s n).length = n := by
  rw [stream, List.length_map, List.length_range]

end Relay

/-! ### The ring of a source -/

/-- The window that the warp has not freed. -/
structure LinkInv (T : Relay Row) (s : ℕ) (lane : ForwarderLane Row) : Prop where
  issued_le : lane.issued ≤ lane.forwardChannelHead + T.ring
  tail_le : lane.tail ≤ lane.issued
  landed_lt : ∀ j, lane.landed j = true → j < lane.issued
  freed_landed : ∀ j < lane.forwardChannelHead, lane.landed j = true
  content : ∀ j, lane.forwardChannelHead ≤ j → j < lane.forwardChannelHead + T.ring →
    lane.slots (T.slot s j) = if lane.landed j = true then T.packet s j else T.prior s j

namespace LinkInv

variable {lane : ForwarderLane Row}

/-- A slot with the awaited tag holds the awaited packet. -/
theorem genuine (inv : LinkInv T s lane) (fresh : T.TagsFresh) (hs : s < T.numRdmaRanks) {j : ℕ}
    (token : j ≤ T.count s) (lo : lane.forwardChannelHead ≤ j)
    (hi : j < lane.forwardChannelHead + T.ring)
    (matched : (lane.slots (T.slot s j)).sourceMeta.seqTag = T.tagWant s j) :
    lane.landed j = true ∧ lane.slots (T.slot s j) = T.packet s j := by
  have content := inv.content j lo hi
  by_cases landed : lane.landed j = true
  · rw [if_pos landed] at content
    exact ⟨landed, content⟩
  · rw [content, if_neg landed] at matched
    exact absurd matched (fresh s hs j token)

theorem put (inv : LinkInv T s lane) (room : lane.issued < lane.forwardChannelHead + T.ring) :
    LinkInv T s { lane with issued := lane.issued + 1 } where
  issued_le := room
  tail_le := inv.tail_le.trans (Nat.le_succ _)
  landed_lt j landed := Nat.lt_succ_of_lt (inv.landed_lt j landed)
  freed_landed := inv.freed_landed
  content := inv.content

theorem increment (inv : LinkInv T s lane) (more : lane.tail < lane.issued) :
    LinkInv T s { lane with tail := lane.tail + 1 } where
  issued_le := inv.issued_le
  tail_le := more
  landed_lt := inv.landed_lt
  freed_landed := inv.freed_landed
  content := inv.content

/-- A packet lands in its own slot, inside the window. -/
theorem land (inv : LinkInv T s lane) {j : ℕ} (issued : j < lane.issued)
    (new : lane.landed j = false) :
    LinkInv T s { lane with
      landed := update lane.landed j true
      slots := update lane.slots (T.slot s j) (T.packet s j) } where
  issued_le := inv.issued_le
  tail_le := inv.tail_le
  landed_lt j' landed := by
    rcases eq_or_ne j' j with rfl | other
    · exact issued
    · simp only [update_of_ne other] at landed
      exact inv.landed_lt j' landed
  freed_landed j' freed := by
    rcases eq_or_ne j' j with rfl | other
    · exact update_self _ _ _
    · simp only [update_of_ne other]
      exact inv.freed_landed j' freed
  content j' lo hi := by
    have window : lane.forwardChannelHead ≤ j := not_lt.1 fun freed => by
      rw [inv.freed_landed j freed] at new
      exact Bool.false_ne_true new.symm
    rcases eq_or_ne j' j with rfl | other
    · simp only [update_self, if_true]
    · have elsewhere : T.slot s j' ≠ T.slot s j := fun same =>
        other (Relay.slot_inj lo hi window (issued.trans_le inv.issued_le) same)
      simp only [update_of_ne other, update_of_ne elsewhere]
      exact inv.content j' lo hi

/-- The window moves on over packets that have landed. -/
theorem advance (inv : LinkInv T s lane) (head : ℕ) (le : lane.forwardChannelHead ≤ head)
    (landed : ∀ j < head, lane.landed j = true) :
    LinkInv T s { lane with forwardChannelHead := head } where
  issued_le := inv.issued_le.trans (Nat.add_le_add_right le _)
  tail_le := inv.tail_le
  landed_lt := inv.landed_lt
  freed_landed := landed
  content j lo hi := by
    rcases lt_or_ge j (lane.forwardChannelHead + T.ring) with before | beyond
    · exact inv.content j (le.trans lo) before
    · -- the slot comes into the window with the packet that has just been freed
      have ahead : j - T.ring < head := by
        have pos := T.ring_pos
        simp only at hi
        omega
      have unissued : ¬lane.landed j = true := fun early =>
        (inv.issued_le.trans beyond).not_gt (inv.landed_lt j early)
      have content := inv.content (j - T.ring) (by omega) (by
        have issued := inv.landed_lt _ (landed _ ahead)
        exact issued.trans_le inv.issued_le)
      rw [if_pos (landed _ ahead), ← Relay.slot_add_ring, Nat.sub_add_cancel (by omega)] at content
      simp only [if_neg unissued, Relay.prior,
        if_neg (not_lt.2 ((Nat.le_add_left _ _).trans beyond))]
      exact content

end LinkInv

/-! ### The lane of a source -/

namespace ForwarderWarp

/-- The token of a source that the warp takes next. -/
def nextToken (st : ForwarderWarp Row) (s : ℕ) : ℕ :=
  match st.phase with
  | .drain s' i _ _ => if s' = s then i else (st.lanes s).cachedRdmaHead
  | _ => (st.lanes s).cachedRdmaHead

/-- What `send_nvl_head` holds for a token that has been taken. -/
def place (T : Relay Row) (s i : ℕ) : ℤ :=
  if T.Sends s i then (Nat.count (T.Sends s) i : ℤ) else -1

end ForwarderWarp

open ForwarderWarp

/-- What a lane has taken so far, when `next` is the token it takes next. -/
structure LaneInv (T : Relay Row) (s : ℕ) (inHeaders : Prop) (next : ℕ) (heads : ℕ → ℤ)
    (relayed : List (ℕ × ℕ)) (lane : ForwarderLane Row) : Prop where
  head_le : lane.cachedRdmaHead ≤ next
  next_le : next ≤ T.count s
  cachedTail_le : lane.cachedRdmaTail ≤ T.count s
  /-- The cached tail has been seen, behind the header. -/
  cachedTail_seen : 0 < lane.cachedRdmaTail → lane.cachedRdmaTail < lane.tail
  accepted : lane.accepted = T.stream s (if lane.started = true then next + 1 else 0)
  landed : lane.started = true → ∀ j ≤ next, lane.landed j = true
  toRecv : lane.numTokensToRecv = if lane.started = true then (T.count s : ℤ) - next else 0
  recvCount : lane.started = true → lane.rdmaRecvCount = T.count s
  nvlIdx : lane.rdmaNvlTokenIdx = Nat.count (T.Sends s) next
  heads : ∀ i < next, heads (T.headCell s i) = place T s i
  relayed : relayed.filter (·.1 = s) = ((List.range next).filter (T.Sends s)).map (s, ·)
  waiting : inHeaders → lane.forwardChannelHead = 0 ∧ next = 0
  running : ¬inHeaders → lane.started = true ∧ lane.forwardChannelHead = lane.cachedRdmaHead + 1

namespace LaneInv

variable {inHeaders : Prop} {next : ℕ} {heads heads' : ℕ → ℤ} {relayed relayed' : List (ℕ × ℕ)}
  {lane : ForwarderLane Row}

/-- A lane is kept when its entries and its tokens in the peer's ring are. -/
theorem frame (inv : LaneInv T s inHeaders next heads relayed lane)
    (entries : ∀ i < T.count s, heads' (T.headCell s i) = heads (T.headCell s i))
    (own : relayed'.filter (·.1 = s) = relayed.filter (·.1 = s)) :
    LaneInv T s inHeaders next heads' relayed' lane :=
  { inv with
    heads := fun i before => by
      rw [entries i (before.trans_le inv.next_le)]
      exact inv.heads i before
    relayed := own.trans inv.relayed }

/-- After the headers it does not matter which phase it is. -/
theorem pastHeaders (inv : LaneInv T s inHeaders next heads relayed lane)
    (past : ¬inHeaders) : LaneInv T s False next heads relayed lane :=
  { inv with
    waiting := fun none => none.elim
    running := fun _ => inv.running past }

/-- Of the phases, only the wait for the headers matters to a lane. -/
theorem phase {inHeaders' : Prop} (inv : LaneInv T s inHeaders next heads relayed lane)
    (iff : inHeaders' ↔ inHeaders) : LaneInv T s inHeaders' next heads relayed lane :=
  { inv with
    waiting := fun here => inv.waiting (iff.1 here)
    running := fun past => inv.running fun here => past (iff.2 here) }

end LaneInv

/-! ### The NVLink ring -/

namespace ForwarderWarp

/-- The packet of a relayed token. -/
def packetOf (T : Relay Row) (x : ℕ × ℕ) : Packet Row := T.packet x.1 (x.2 + 1)

/-- Positions whose packets have been stored. -/
def written (st : ForwarderWarp Row) : ℕ := st.cachedNvlTail - st.pending.length

/-- The slots hold the packets of the positions from `freed` on and below `stop`. -/
def Stored (T : Relay Row) (relayed : List (ℕ × ℕ)) (freed stop : ℕ)
    (slots : ℕ → Packet Row) : Prop :=
  ∀ k, freed ≤ k → k < stop → ∀ x, relayed[k]? = some x →
    slots (k % T.nvlRing) = (packetOf T x).forNvlSlot T.nvlSeq k

/-- The warp is at token `i` of a batch of source `s`. -/
structure Batch (T : Relay Row) (st : ForwarderWarp Row) (s i tail numTokensSent : ℕ) : Prop where
  source : s < T.numRdmaRanks
  le_tail : i ≤ tail
  tail_le : tail ≤ (st.lanes s).cachedRdmaTail
  sent : st.nvlTail + numTokensSent = st.cachedNvlTail
  sent_le : numTokensSent ≤ T.cfg.numMaxNvlChunkedSendTokens
  sent_lt : i < tail → numTokensSent < T.cfg.numMaxNvlChunkedSendTokens
  room : st.nvlTail + T.cfg.numMaxNvlChunkedSendTokens ≤ st.cachedNvlHead + T.nvlRing

end ForwarderWarp

/-- The warp, its peer's ring and the receiver. -/
structure NvlInv (T : Relay Row) (st : ForwarderWarp Row) : Prop where
  length : st.relayed.length = st.cachedNvlTail
  sources : ∀ x ∈ st.relayed, x.1 < T.numRdmaRanks
  pending_le : st.nvlTail + st.pending.length ≤ st.cachedNvlTail
  pending : ∀ n x, st.pending[n]? = some x →
    x.1 = st.written + n ∧ ∃ y, st.relayed[x.1]? = some y ∧ x.2 = packetOf T y
  stored : Stored T st.relayed st.freed st.written st.nvlSlots
  freed_le : st.freed ≤ st.nvlTail
  nvlHead_le : ∀ head, st.nvlHead = some head → head ≤ st.freed
  cachedHead_le : st.cachedNvlHead ≤ st.freed
  idle : (∀ s i tail sent, st.phase ≠ .drain s i tail sent) →
    st.pending = [] ∧ st.nvlTail = st.cachedNvlTail
  room : st.phase = .poll →
    st.nvlTail + T.cfg.numMaxNvlChunkedSendTokens ≤ st.cachedNvlHead + T.nvlRing
  batch : ∀ s i tail sent, st.phase = .drain s i tail sent → Batch T st s i tail sent

/-- All of it. -/
structure ForwarderInv (T : Relay Row) (st : ForwarderWarp Row) : Prop where
  link : ∀ s < T.numRdmaRanks, LinkInv T s (st.lanes s)
  lane : ∀ s < T.numRdmaRanks,
    LaneInv T s (st.phase = .headers) (st.nextToken s) st.sendNvlHead st.relayed (st.lanes s)
  nvl : NvlInv T st

namespace NvlInv

variable {st : ForwarderWarp Row}

/-- The next position that a packet is stored at has been freed. -/
theorem position_lt (inv : NvlInv T st) {i tail sent : ℕ}
    (phase : st.phase = .drain s i tail sent) {k : ℕ} (before : k < st.cachedNvlTail) :
    k < st.freed + T.nvlRing := by
  have batch := inv.batch s i tail sent phase
  have head := inv.cachedHead_le
  have le := batch.sent_le
  have sent := batch.sent
  have room := batch.room
  omega

end NvlInv

namespace ForwarderWarp

variable {relayed : List (ℕ × ℕ)} {freed stop : ℕ} {slots : ℕ → Packet Row}

/-- One more packet is stored, in a slot that has been freed. -/
theorem Stored.store (stored : Stored T relayed freed stop slots) {x : ℕ × Packet Row}
    (here : x.1 = stop) (token : ∃ y, relayed[x.1]? = some y ∧ x.2 = packetOf T y)
    (room : stop < freed + T.nvlRing) :
    Stored T relayed freed (stop + 1) (store T slots x) := by
  obtain ⟨pos, packet⟩ := x
  obtain ⟨y, there, rfl⟩ := token
  obtain rfl : pos = stop := here
  intro k lo hi x' at_k
  rcases Nat.lt_succ_iff_lt_or_eq.1 hi with before | rfl
  · have elsewhere : k % T.nvlRing ≠ pos % T.nvlRing := ReplayRings.mod_ne before (by omega)
    rw [ForwarderWarp.store, update_of_ne elsewhere]
    exact stored k lo before x' at_k
  · cases there.symm.trans at_k
    exact update_self _ _ _

/-- All staged packets are stored, the oldest first. -/
theorem Stored.foldl {pending : List (ℕ × Packet Row)}
    (stored : Stored T relayed freed stop slots)
    (tokens : ∀ n x, pending[n]? = some x →
      x.1 = stop + n ∧ ∃ y, relayed[x.1]? = some y ∧ x.2 = packetOf T y)
    (room : ∀ k < stop + pending.length, k < freed + T.nvlRing) :
    Stored T relayed freed (stop + pending.length)
      (pending.foldl (ForwarderWarp.store T) slots) := by
  induction pending generalizing stop slots with
  | nil => exact stored
  | cons x rest ih =>
    obtain ⟨here, token⟩ := tokens 0 x rfl
    have first := stored.store here token (room stop (by simp))
    rw [List.length_cons, List.foldl_cons, ← Nat.add_assoc, Nat.add_right_comm]
    refine ih first (fun n x' at_n => ?_) fun k before => room k ?_
    · obtain ⟨pos, token'⟩ := tokens (n + 1) x' at_n
      exact ⟨by rw [pos]; omega, token'⟩
    · rw [List.length_cons]
      omega

/-- A longer stream has the same packets at the earlier positions. -/
theorem Stored.append (stored : Stored T relayed freed stop slots) (le : stop ≤ relayed.length)
    (more : List (ℕ × ℕ)) : Stored T (relayed ++ more) freed stop slots := by
  intro k lo hi x at_k
  rw [List.getElem?_append_left (hi.trans_le le)] at at_k
  exact stored k lo hi x at_k

theorem Stored.free (stored : Stored T relayed freed stop slots) :
    Stored T relayed (freed + 1) stop slots :=
  fun k lo hi x at_k => stored k (Nat.le_of_succ_le lo) hi x at_k

end ForwarderWarp

end StreamEP.Internode
