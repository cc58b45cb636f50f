import StreamEP.Internode.ForwarderRuns
import StreamEP.Internode.ReferenceLayout

/-!
# From the forwarders to the receivers

The receivers of a rank are modelled over what their rings deliver.  Here the rings are those
of the forwarder warps: a warp that has retired has put the messages of every source into its
ring, mixed in some order but each source in its own order (`relayed_interleaves`), and has
stamped the offsets of the header that the receiver starts from (`stamped_offsets`).

So any interleaving of sources, forwarders and receivers leaves the reference layout:
`forwarded_reference`.  Its parts:

* **What is to be relayed.**  The tokens that the peers with one number send to a node, channel
  by channel (`nodeTokens`), are numbered by the forwarder as they come (`recvTokens`).
  `Carries` says that a forwarder's header and tokens are those of a dispatch, and `relayOf` is
  such a forwarder for every dispatch.
* **What is stamped.**  The first packet that a lane takes is the header of the iteration, whose
  offsets it hands on (`stamped_offsets`).
* **What is delivered.**  `ForwarderRun` is a run to the end; what it has put into the ring is a
  mixture of the substreams (`ForwarderRun.interleaves`).

The forwarders are not on the receiver's node by chance.  What peer `n` of each node sends to the
node of rank `g` comes to the rank with number `n` there, `forwarderRank`, and it is this rank's
blocks that forward to `g`; the tokens it receives are those sent to its node
(`nodeTokens_forwarderRank`).

The rows of `relayOf` are places, a node and a position, and not data: what they mean in a header
and in a token is said by `rowInt` and `rowMessage`.  That way the relay, which compares tags
and copies rows, cannot depend on what is in them.
-/

namespace StreamEP.Internode

open Function ForwarderWarp

/-! ### The stamped offsets -/

section Prefix

variable {R : Type*} {T : Relay R}

namespace ForwarderWarp

/-- What the header says of the tokens for the peer: where they start and where they end. -/
def headerPrefix (T : Relay R) (p : Packet R) : ℤ × ℤ :=
  (T.int p.row T.dstNvlRank, T.int p.row (numMaxNvlPeers + T.dstNvlRank))

/-- A lane that has started has stamped the offsets of the first packet it took. -/
def Stamped (T : Relay R) (lane : ForwarderLane R) : Prop :=
  lane.started = true → ∃ p rest, lane.accepted = p :: rest ∧
    lane.nvlPrefix = some (headerPrefix T p)

variable {st st' : ForwarderWarp R}

theorem stamped_update {lanes : ℕ → ForwarderLane R} (stamped : ∀ s, Stamped T (lanes s))
    {s' : ℕ} {lane : ForwarderLane R} (new : Stamped T lane) (s : ℕ) :
    Stamped T (update lanes s' lane s) := by
  rcases eq_or_ne s s' with rfl | other
  · rw [update_self]
    exact new
  · rw [update_of_ne other]
    exact stamped s

/-- A token is taken behind the header. -/
theorem stamped_take (stamped : ∀ s, Stamped T (st.lanes s)) (s' i : ℕ) (packet : Packet R) :
    ∀ s, Stamped T ((st.take T s' i packet).lanes s) := by
  refine stamped_update stamped fun started => ?_
  obtain ⟨p, rest, accepted, offsets⟩ := stamped s' started
  exact ⟨p, rest ++ [packet], congrArg (· ++ [packet]) accepted, offsets⟩

theorem step_stamped {e : ForwarderEvent} (stamped : ∀ s, Stamped T (st.lanes s))
    (fires : step T st e = some st') : ∀ s, Stamped T (st'.lanes s) := by
  cases e with
  | put s' | land s' | increment s' =>
    simp only [step] at fires
    split at fires
    · cases fires
      exact stamped_update stamped (stamped s')
    · cases fires
  | header =>
    -- the header is the first packet of its lane, and stamps its own offsets
    simp only [step] at fires
    split at fires
    · cases fires
      exact stamped_update stamped fun _ => ⟨_, [], rfl, rfl⟩
    · cases fires
  | sync =>
    simp only [step] at fires
    split at fires
    · cases fires
      intro s
      show Stamped T (if s < T.numRdmaRanks then _ else _)
      split_ifs
      · exact stamped s
      · exact stamped s
    · cases fires
  | readNvlHead | pass | retire | free =>
    simp only [step] at fires
    split at fires
    · cases fires
      exact stamped
    · cases fires
  | poll =>
    simp only [step] at fires
    split at fires
    · split at fires
      · cases fires
        exact stamped_update stamped (stamped _)
      · cases fires
        exact stamped
    · cases fires
  | token =>
    simp only [step] at fires
    split at fires
    case h_1 s' i tail sent phase =>
      split at fires
      · cases fires
        have taken := stamped_take stamped s' i ((st.lanes s').slots (T.slot s' (i + 1)))
        split_ifs
        · rw [(ForwarderInv.forward_fields _ _ _ _ _ _).1]
          exact taken
        · exact taken
      · cases fires
    case h_2 => cases fires
  | publish =>
    simp only [step] at fires
    split at fires
    · split at fires
      · cases fires
      · cases fires
        exact stamped_update stamped (stamped _)
    · cases fires
  | publishNvlHead =>
    cases fires
    exact stamped

/-- **The receivers start from the header's offsets.** -/
theorem stamped_offsets (fresh : T.TagsFresh) {nvlSlots : ℕ → Packet R} {sendNvlHead : ℕ → ℤ}
    (reach : (system T nvlSlots sendNvlHead).ReachableUnder (HeaderFits T) st)
    (retired : st.phase = .retired) {s : ℕ} (hs : s < T.numRdmaRanks) :
    (st.lanes s).nvlPrefix = some (headerPrefix T (T.header s)) := by
  have inv := ForwarderInv.reachable fresh reach
  have started := ((inv.lane s hs).running (by simp [retired])).1
  have kept : ∀ (st : ForwarderWarp R) e st', (∀ s, Stamped T (st.lanes s)) →
      (system T nvlSlots sendNvlHead).step st e = some st' → ∀ s, Stamped T (st'.lanes s) :=
    fun _ _ _ stamped fires => step_stamped stamped fires
  have stamped : ∀ s, Stamped T (st.lanes s) :=
    reach.reachable.invariant (fun _ none => absurd none Bool.false_ne_true) kept
  obtain ⟨p, rest, accepted, offsets⟩ := stamped s started
  have relays := inv.relays (ForwarderInv.reachable_ended reach.reachable)
  have all := relays.complete retired s hs
  rw [accepted, Relay.stream, List.range_succ_eq_map, List.map_cons] at all
  rw [offsets, (List.cons.inj all).1]
  rfl

end ForwarderWarp

end Prefix

/-! ### The tokens a forwarder receives -/

namespace NodeWorld

section Received

variable {sh : NodeShape} {Row Weight : Type} (w : NodeWorld sh Row Weight)

/-- The tokens of a channel that peer `n` of node `s` sends to the node of rank `g`. -/
def nodeTokens (g c n s : ℕ) : List ℕ :=
  let inp := w.inputs (srcWorld sh s n)
  Stream.below (inp.InNode (sh.rdmaRank g)) (channelStart inp.numTokens sh.numChannels c)
    (channelEnd inp.numTokens sh.numChannels c)

/-- The tokens that came to rank `f` over RDMA, with the node of each: one node behind the
other, and channel after channel. -/
def recvList (f : ℕ) : List (ℕ × ℕ) :=
  (List.range sh.numRdmaRanks).flatMap fun s => (List.range sh.numChannels).flatMap fun c =>
    (w.nodeTokens f c (sh.nvlRank f) s).map fun t => (s, t)

/-- The same, as the forwarder blocks of rank `f` see it. -/
def recvTokens (f : ℕ) : RecvTokens where
  numRdmaRanks := sh.numRdmaRanks
  numChannels := sh.numChannels
  numTokens c s := (w.nodeTokens f c (sh.nvlRank f) s).length
  isTokenInNvlRank p i := ((w.recvList f)[i]?).any fun x => decide
    ((w.inputs (srcWorld sh x.1 (sh.nvlRank f))).InRank (sh.rdmaRank f * sh.numNvlPeers + p) x.2)

variable {w} {f c n s : ℕ}

/-- A token stands where its range puts it. -/
theorem getElem?_recvList (hs : s < sh.numRdmaRanks) (hc : c < sh.numChannels) {i : ℕ}
    (hi : i < (w.nodeTokens f c (sh.nvlRank f) s).length) :
    (w.recvList f)[(w.recvTokens f).tokenStartIdx c s + i]? =
      (w.nodeTokens f c (sh.nvlRank f) s)[i]?.map fun t => (s, t) := by
  set block := fun s c => (w.nodeTokens f c (sh.nvlRank f) s).map fun t => (s, t) with blocks
  have lengths : ∀ s c, (block s c).length = (w.recvTokens f).numTokens c s := fun s c =>
    List.length_map _
  have inside : (w.recvTokens f).channelPrefix c s + i <
      ((List.range sh.numChannels).flatMap (block s)).length := by
    have whole := PrefixSum.block_le_total (f := fun c => (w.recvTokens f).numTokens c s) hc
    have here : i < (w.recvTokens f).numTokens c s := hi
    rw [PrefixSum.length_flatMap_range]
    simp only [lengths]
    unfold RecvTokens.channelPrefix
    omega
  have node := PrefixSum.getElem?_flatMap_range
    (fun s => (List.range sh.numChannels).flatMap (block s)) hs inside
  have here : i < (block s c).length := (lengths s c).symm ▸ hi
  have channel := PrefixSum.getElem?_flatMap_range (block s) hc here
  simp only [PrefixSum.length_flatMap_range, lengths] at node channel
  calc (w.recvList f)[(w.recvTokens f).tokenStartIdx c s + i]?
      = (w.recvList f)[(w.recvTokens f).rankPrefixSum s +
          ((w.recvTokens f).channelPrefix c s + i)]? := by
        rw [RecvTokens.tokenStartIdx, Nat.add_assoc, Nat.add_left_comm]
    _ = ((List.range sh.numChannels).flatMap (block s))[
          (w.recvTokens f).channelPrefix c s + i]? := node
    _ = (block s c)[i]? := channel
    _ = _ := List.getElem?_map

/-- What the forwarder blocks know of a token is where the routing sends it. -/
theorem goes_iff (hs : s < sh.numRdmaRanks) (hc : c < sh.numChannels) {p i t : ℕ}
    (here : (w.nodeTokens f c (sh.nvlRank f) s)[i]? = some t) :
    (w.recvTokens f).Goes p ((w.recvTokens f).tokenStartIdx c s + i) ↔
      (w.inputs (srcWorld sh s (sh.nvlRank f))).InRank
        (sh.rdmaRank f * sh.numNvlPeers + p) t := by
  have hi := (List.getElem?_eq_some_iff.1 here).1
  have entry := getElem?_recvList hs hc hi
  rw [here] at entry
  show ((w.recvList f)[_]?).any _ = true ↔ _
  rw [entry]
  exact decide_eq_true_iff

theorem length_nodeTokens : (w.nodeTokens f c n s).length =
    Nat.count ((w.inputs (srcWorld sh s n)).InNode (sh.rdmaRank f))
        (channelEnd (w.inputs (srcWorld sh s n)).numTokens sh.numChannels c) -
      Nat.count ((w.inputs (srcWorld sh s n)).InNode (sh.rdmaRank f))
        (channelStart (w.inputs (srcWorld sh s n)).numTokens sh.numChannels c) :=
  Stream.length_below (channelStart_le_end _ _ _)

theorem channelPrefix_recvTokens :
    (w.recvTokens f).channelPrefix c s =
      Nat.count ((w.inputs (srcWorld sh s (sh.nvlRank f))).InNode (sh.rdmaRank f))
        (channelStart (w.inputs (srcWorld sh s (sh.nvlRank f))).numTokens sh.numChannels c) := by
  have mono : Monotone fun c =>
      Nat.count ((w.inputs (srcWorld sh s (sh.nvlRank f))).InNode (sh.rdmaRank f))
        (channelStart (w.inputs (srcWorld sh s (sh.nvlRank f))).numTokens sh.numChannels c) :=
    fun _ _ h => Nat.count_monotone _ (channelStart_mono h)
  have tokens : ∀ c, (w.recvTokens f).numTokens c s = _ := fun c =>
    (length_nodeTokens (w := w) (f := f) (c := c) (n := sh.nvlRank f) (s := s))
  unfold RecvTokens.channelPrefix
  simp only [tokens, channelEnd_eq]
  rw [Finset.sum_range_tsub mono, channelStart_zero, Nat.count_zero, Nat.sub_zero]

end Received

/-! ### The relayed messages -/

variable {sh : NodeShape} {Row Weight : Type} {R : Type*} (w : NodeWorld sh Row Weight) (g c n : ℕ)

/-- What the forwarder for rank `g` is to relay is what the sources send to its node. -/
structure Carries (T : Relay R) (message : R → StreamEP.Packet Row Weight) : Prop where
  numRdmaRanks : T.numRdmaRanks = sh.numRdmaRanks
  numNvlPeers : sh.numNvlPeers = numMaxNvlPeers
  dstNvlRank : T.dstNvlRank = sh.nvlRank g
  header : ∀ s < sh.numRdmaRanks, ∀ i < numMaxNvlPeers * 2 + 2,
    T.int (T.headerRow s) i = headerInt (w.inputs (srcWorld sh s n)) (sh.rdmaRank g) c i
  count : ∀ s < sh.numRdmaRanks, T.count s = (w.nodeTokens g c n s).length
  token : ∀ s < sh.numRdmaRanks, ∀ i t, (w.nodeTokens g c n s)[i]? = some t →
    (T.Sends s i ↔ (w.inputs (srcWorld sh s n)).InRank g t) ∧
      message (T.tokenRow s i) = messageOf (w.inputs (srcWorld sh s n)) t

/-- The messages in the peer's ring, with the node of each. -/
def relayedMessages (T : Relay R) (message : R → StreamEP.Packet Row Weight)
    (st : ForwarderWarp R) : List (ℕ × StreamEP.Packet Row Weight) :=
  st.relayed.map fun x => (x.1, message (T.tokenRow x.1 x.2))

variable {w g c n} {T : Relay R} {message : R → StreamEP.Packet Row Weight}
  {st : ForwarderWarp R}

/-- The tokens of the node that go on to the rank are those selected for it. -/
theorem filter_nodeTokens (s : ℕ) :
    (w.nodeTokens g c n s).filter ((w.inputs (srcWorld sh s n)).InRank g) =
      selected (w.inputs (srcWorld sh s n)) g c := by
  have toNode : ∀ t, (w.inputs (srcWorld sh s n)).InRank g t →
      (w.inputs (srcWorld sh s n)).InNode (sh.rdmaRank g) t := fun t goes =>
    ⟨sh.nvlRank g, NodeShape.nvlRank_lt g, by rwa [NodeShape.rank_eq]⟩
  exact Stream.filter_below toNode

/-- **A retired forwarder has relayed a mixture of the substreams.** -/
theorem relayed_interleaves (carries : w.Carries g c n T message) (relays : st.Relays T)
    (retired : st.phase = .retired) :
    Lanes.Interleaves sh.numRdmaRanks (w.messages g c n) (relayedMessages T message st) where
  lanes x mem := by
    obtain ⟨y, inside, rfl⟩ := List.mem_map.1 mem
    exact (relays.sources y inside).trans_eq carries.numRdmaRanks
  streams s hs := by
    have hs' : s < T.numRdmaRanks := hs.trans_eq carries.numRdmaRanks.symm
    have taken : (st.lanes s).accepted.length - 1 = (w.nodeTokens g c n s).length := by
      rw [relays.complete retired s hs', Relay.length_stream, Nat.add_sub_cancel,
        carries.count s hs]
    have own := relays.relayed s hs'
    rw [taken] at own
    have lane : Lanes.of s (relayedMessages T message st) =
        (st.relayed.filter (·.1 = s)).map fun x => message (T.tokenRow x.1 x.2) := by
      rw [Lanes.of, relayedMessages, List.filter_map, List.map_map]
      rfl
    rw [lane, own, List.map_map, messages, ← filter_nodeTokens]
    exact Stream.map_filter_range _ fun i t here => carries.token s hs i t here

/-- **The receiver reads the offsets of its model.** -/
theorem prefix_offsets (carries : w.Carries g c n T message) {s : ℕ} (hs : s < sh.numRdmaRanks) :
    headerPrefix T (T.header s) = ((w.startOffset g c n s : ℤ), (w.endOffset g c n s : ℤ)) := by
  have peer : sh.nvlRank g < numMaxNvlPeers := by
    rw [← carries.numNvlPeers]
    exact NodeShape.nvlRank_lt g
  have first := carries.header s hs (sh.nvlRank g) (by omega)
  have last := carries.header s hs (numMaxNvlPeers + sh.nvlRank g) (by omega)
  rw [headerPrefix, carries.dstNvlRank]
  show (T.int (T.headerRow s) _, T.int (T.headerRow s) _) = _
  rw [first, last, startOffset, endOffset, carries.numNvlPeers]

/-- A run of the forwarder warp of (channel `c`, peer `n`) for rank `g`, to its end. -/
structure ForwarderRun (w : NodeWorld sh Row Weight) (g c n : ℕ) where
  R : Type
  relay : Relay R
  message : R → StreamEP.Packet Row Weight
  st : ForwarderWarp R
  nvlSlots : ℕ → Packet R
  sendNvlHead : ℕ → ℤ
  carries : w.Carries g c n relay message
  fresh : relay.TagsFresh
  reach : (system relay nvlSlots sendNvlHead).ReachableUnder (HeaderFits relay) st
  retired : st.phase = .retired

namespace ForwarderRun

variable (run : w.ForwarderRun g c n)

/-- What the warp has put into the ring of its peer. -/
def messages : List (ℕ × StreamEP.Packet Row Weight) :=
  relayedMessages run.relay run.message run.st

theorem interleaves :
    Lanes.Interleaves sh.numRdmaRanks (w.messages g c n) run.messages :=
  relayed_interleaves run.carries (forwarder_relays run.relay run.fresh _ _ run.reach).1
    run.retired

/-- **The receiver starts from the offsets that the warp has stamped.** -/
theorem offsets {s : ℕ} (hs : s < sh.numRdmaRanks) :
    (run.st.lanes s).nvlPrefix =
      some ((w.startOffset g c n s : ℤ), (w.endOffset g c n s : ℤ)) := by
  have hs' : s < run.relay.numRdmaRanks := hs.trans_eq run.carries.numRdmaRanks.symm
  rw [stamped_offsets run.fresh run.reach run.retired hs', prefix_offsets run.carries hs]

end ForwarderRun

/-- **Any interleaving of sources, forwarders and receivers leaves the reference layout.**  The
receivers leave it whatever mixture of the substreams their rings deliver; a forwarder warp
puts such a mixture into its ring, and stamps the offsets that the receiver starts from. -/
theorem forwarded_reference (hg : g < sh.numRanks) :
    (∀ (batches : NodeDeliveries Row Weight) (m : PoolMemory Row Weight),
      w.DeliversAll g batches → LeftBy sh.numTopk (w.allLanded g batches) m →
        w.ReferenceLayout g batches m) ∧
    ∀ (c n : ℕ) (run : w.ForwarderRun g c n),
      (∀ batches, Batches.Delivers w.numMaxNvlChunkedRecvTokens run.messages 0 batches →
        w.Delivered g c n batches) ∧
      ∀ s < sh.numRdmaRanks, (run.st.lanes s).nvlPrefix =
        some ((w.startOffset g c n s : ℤ), (w.endOffset g c n s : ℤ)) :=
  ⟨fun _ _ delivers left => dispatch_reference hg delivers left,
    fun _ _ run => ⟨fun _ delivers => ⟨_, run.interleaves, delivers⟩, fun _ hs => run.offsets hs⟩⟩

/-! ### The forwarder of a dispatch -/

/-- The words of a header that count the tokens for a node in the channels before, and in those
up to this one. -/
theorem headerInt_prefix (peers : sh.numNvlPeers = numMaxNvlPeers)
    (inp : DispatchInputs sh.toShape Row Weight) {d : ℕ} (hd : d < sh.numRdmaRanks)
    (hc : c < sh.numChannels) :
    headerInt inp d c (numMaxNvlPeers * 2) =
        Nat.count (inp.InNode d) (channelStart inp.numTokens sh.numChannels c) ∧
      headerInt inp d c (numMaxNvlPeers * 2 + 1) =
        Nat.count (inp.InNode d) (channelStart inp.numTokens sh.numChannels (c + 1)) := by
  have first : ¬numMaxNvlPeers * 2 < numMaxNvlPeers := by decide
  have second : ¬numMaxNvlPeers * 2 + 1 < numMaxNvlPeers := by decide
  have beyond : ¬numMaxNvlPeers * 2 + 1 < numMaxNvlPeers * 2 := by decide
  have last : numMaxNvlPeers * 2 + 1 ≠ numMaxNvlPeers * 2 := by decide
  constructor
  · rw [headerInt, peers, if_neg first, if_neg (lt_irrefl _), if_pos rfl]
    split_ifs with zero
    · rw [zero, channelStart_zero, Nat.count_zero]
    · have before : c - 1 < sh.numChannels := (Nat.sub_le _ _).trans_lt hc
      have back : c - 1 + 1 = c := Nat.succ_pred zero
      rw [Nat.add_sub_assoc (Nat.pos_of_ne_zero zero), rdmaChannelPrefixMatrix_apply _ hd before,
        channelEnd_eq, back]
  · rw [headerInt, peers, if_neg second, if_neg beyond, if_neg last,
      rdmaChannelPrefixMatrix_apply _ hd hc, channelEnd_eq]

/-- The rank that forwards what peer `n` of each node sends to the node of rank `g`. -/
def forwarderRank (sh : NodeShape) (g n : ℕ) : ℕ := srcWorld sh (sh.rdmaRank g) n

theorem rdmaRank_forwarderRank (g : ℕ) (hn : n < sh.numNvlPeers) :
    sh.rdmaRank (forwarderRank sh g n) = sh.rdmaRank g := NodeShape.rdmaRank_flat hn

theorem nvlRank_forwarderRank (g : ℕ) (hn : n < sh.numNvlPeers) :
    sh.nvlRank (forwarderRank sh g n) = n := NodeShape.nvlRank_flat hn

/-- The tokens that it receives are those that are sent to its node. -/
theorem nodeTokens_forwarderRank (w : NodeWorld sh Row Weight) (g c s : ℕ)
    (hn : n < sh.numNvlPeers) :
    w.nodeTokens (forwarderRank sh g n) c (sh.nvlRank (forwarderRank sh g n)) s =
      w.nodeTokens g c n s := by
  unfold nodeTokens
  rw [nvlRank_forwarderRank g hn, rdmaRank_forwarderRank g hn]

section RelayOf

variable (w : NodeWorld sh Row Weight) (g c n : ℕ)

/-- The rows of a source node, by node and place: in a header its integers, -/
def rowInt (row : ℕ × ℕ) (i : ℕ) : ℤ :=
  headerInt (w.inputs (srcWorld sh row.1 n)) (sh.rdmaRank g) c i

/-- and in a token its message. -/
def rowMessage (row : ℕ × ℕ) : StreamEP.Packet Row Weight :=
  messageOf (w.inputs (srcWorld sh row.1 n)) ((w.nodeTokens g c n row.1).getD row.2 0)

variable {w g c n} (hg : g < sh.numRanks) (hc : c < sh.numChannels) (hn : n < sh.numNvlPeers)
  (peers : sh.numNvlPeers = numMaxNvlPeers) (cfg : Config)

include hg hc hn peers

/-- The prefixes in a header are those of the forwarder. -/
theorem rowInt_prefix (s k : ℕ) :
    w.rowInt g c n (s, k) (numMaxNvlPeers * 2) =
        (w.recvTokens (forwarderRank sh g n)).channelPrefix c s ∧
      w.rowInt g c n (s, k) (numMaxNvlPeers * 2 + 1) =
        (w.recvTokens (forwarderRank sh g n)).channelPrefix (c + 1) s := by
  have words := headerInt_prefix peers (w.inputs (srcWorld sh s n)) (NodeShape.rdmaRank_lt hg) hc
  rw [channelPrefix_recvTokens, channelPrefix_recvTokens, rdmaRank_forwarderRank g hn,
    nvlRank_forwarderRank g hn]
  exact ⟨congrArg _ words.1, congrArg _ words.2⟩

/-- What the forwarder warp of (channel `c`, peer `n`) for rank `g` is to relay in the first
dispatch over rings of zeros. -/
def relayOf (w : NodeWorld sh Row Weight) : Relay (ℕ × ℕ) where
  toRecvTokens := w.recvTokens (forwarderRank sh g n)
  cfg := cfg
  numRdmaRanks_pos := sh.numRdmaRanks_pos
  channelId := c
  channelId_lt := hc
  dstNvlRank := sh.nvlRank g
  dstNvlRank_lt := peers ▸ NodeShape.nvlRank_lt g
  smId := 2 * c
  nvlSeq := 2
  readerPrevTail _ := 0
  int := w.rowInt g c n
  headerRow s := (s, 0)
  tokenRow s i := (s, i)
  header_prefix s _ := ( rowInt_prefix hg hc hn peers s 0).1
  header_prefix_1 s _ := ( rowInt_prefix hg hc hn peers s 0).2
  later _ _ := ⟨(0, 0), 0, 0⟩
  laterHeader _ _ := true
  laterHeader_zero _ := rfl
  stale _ _ := ⟨(0, 0), 0, 0⟩

/-- It is what the sources send. -/
theorem carries_relayOf :
    w.Carries g c n (relayOf hg hc hn peers cfg w) (w.rowMessage g c n) where
  numRdmaRanks := rfl
  numNvlPeers := peers
  dstNvlRank := rfl
  header _ _ _ _ := rfl
  count s _ := congrArg List.length (nodeTokens_forwarderRank w g c s hn)
  token s hs i t here := by
    constructor
    · have goes := goes_iff (p := sh.nvlRank g) hs hc
        ((nodeTokens_forwarderRank w g c s hn).symm ▸ here)
      rw [nvlRank_forwarderRank g hn, rdmaRank_forwarderRank g hn, NodeShape.rank_eq] at goes
      exact goes
    · show messageOf _ ((w.nodeTokens g c n s).getD i 0) = _
      rw [List.getD_eq_getElem?_getD, here]
      rfl

end RelayOf

/-! ### One token for both nodes -/

section Example

/-- Two nodes of eight ranks. -/
def sixteenRanks : NodeShape where
  numRanks := 16
  numChannels := 1
  numExpertsPerRank := 1
  numTopk := 2
  tileM := 1
  numRanks_pos := Nat.succ_pos _
  numChannels_pos := Nat.one_pos
  numExpertsPerRank_pos := Nat.one_pos
  tileM_pos := Nat.one_pos
  numRdmaRanks := 2
  numNvlPeers := 8
  numRanks_eq := rfl

/-- At most one token, for peer 1 of both nodes. -/
def oneTokenInputs (numTokens : ℕ) (few : numTokens ≤ 1) :
    DispatchInputs sixteenRanks.toShape ℕ ℕ where
  numTokens := numTokens
  x t := t
  topkIdx p := [1, 9].getD p (-1)
  topkWeights p := p + 1
  isTokenInRank i := decide (i = 1 ∨ i = 9)
  topkIdx_lower t ht := by
    obtain rfl : t = 0 := Nat.lt_one_iff.1 (ht.trans_le few)
    decide
  topkIdx_upper t ht := by
    obtain rfl : t = 0 := Nat.lt_one_iff.1 (ht.trans_le few)
    decide
  topkIdx_distinct t ht := by
    obtain rfl : t = 0 := Nat.lt_one_iff.1 (ht.trans_le few)
    decide
  isTokenInRank_iff t ht := by
    obtain rfl : t = 0 := Nat.lt_one_iff.1 (ht.trans_le few)
    decide

/-- Rank 0 has the token. -/
def sixteenInputs (src : ℕ) : DispatchInputs sixteenRanks.toShape ℕ ℕ :=
  if src = 0 then oneTokenInputs 1 (Nat.le_refl (nat_lit 1))
  else oneTokenInputs 0 (Nat.zero_le (nat_lit 1))

def sixteenWorld : NodeWorld sixteenRanks ℕ ℕ where
  inputs := sixteenInputs
  slabs := exampleSlabs
  uninitPool _ _ := 7
  numMaxNvlChunkedRecvTokens := 2
  uninitSlot _ := 7

theorem one_lt_sixteen : 1 < sixteenRanks.numRanks := Nat.le_of_ble_eq_true rfl

theorem eight_peers : 0 < sixteenRanks.numNvlPeers := Nat.succ_pos 7

/-- What the forwarder at rank 0 relays to peer 1. -/
def relayToOne : Relay (ℕ × ℕ) :=
  relayOf one_lt_sixteen Nat.one_pos eight_peers rfl tightConfig sixteenWorld

/-- The packets of both nodes arrive, and the warp takes them. -/
def relayOne : List ForwarderEvent :=
  arrivals 0 ++ [.put 1, .land 1 0, .increment 1, .header 0, .header 1, .sync, .pass, .poll,
    .poll, .token, .publish, .retire]

/-- The warp retires with the token in its ring. -/
theorem reachable_relayOne : ∃ st,
    (system relayToOne (fun _ => ⟨(0, 0), 0, 0⟩) (fun _ => 7)).ReachableUnder
        (HeaderFits relayToOne) st ∧ st.phase = .retired ∧ st.relayed = [(0, 0)] := by
  obtain ⟨st, replay, ended⟩ := (Option.any_eq_true _ _).1 (show
    ((system relayToOne (fun _ => ⟨(0, 0), 0, 0⟩) (fun _ => 7)).runUnder (HeaderFits relayToOne)
      (start relayToOne (fun _ => ⟨(0, 0), 0, 0⟩) (fun _ => 7)) relayOne).any (fun st =>
        decide (st.phase = .retired ∧ st.relayed = [(0, 0)])) = true by decide +kernel)
  exact ⟨st, TransitionSystem.ReachableUnder.run .init replay, of_decide_eq_true ended⟩

/-- At rank 3 of the example the receivers leave the reference layout; and at rank 1 of two
nodes of eight the token is delivered by the run of its forwarder. -/
theorem forwarded_reference_inTurn :
    exampleNodeWorld.ReferenceLayout 3 (exampleNodeWorld.inTurnBatches 3)
      (leftInOrder exampleNodes.numTopk
        (exampleNodeWorld.allLanded 3 (exampleNodeWorld.inTurnBatches 3))) ∧
    ∃ run : sixteenWorld.ForwarderRun 1 0 0, run.st.relayed = [(0, 0)] ∧
      sixteenWorld.Delivered 1 0 0 (Batches.oneByOne run.messages) ∧
        (run.st.lanes 0).nvlPrefix = some (0, 1) := by
  have layout := (forwarded_reference (w := exampleNodeWorld) (g := 3) (by decide)).1
  have delivered := (forwarded_reference (w := sixteenWorld) one_lt_sixteen).2
  obtain ⟨st, reach, retired, relayed⟩ := reachable_relayOne
  have fresh : relayToOne.TagsFresh := by decide +kernel
  have offsets : sixteenWorld.startOffset 1 0 0 0 = 0 ∧ sixteenWorld.endOffset 1 0 0 0 = 1 := by
    decide +kernel
  refine ⟨layout _ _ (delivers_inTurnBatches _ _) (leftBy_leftInOrder _ _),
    ⟨_, relayToOne, _, st, _, _, carries_relayOf .., fresh, reach, retired⟩, relayed,
    (delivered 0 0 _).1 _ (Batches.delivers_oneByOne _ _), ?_⟩
  rw [(delivered 0 0 _).2 0 Nat.two_pos, offsets.1, offsets.2]
  rfl

end Example

end NodeWorld

end StreamEP.Internode
