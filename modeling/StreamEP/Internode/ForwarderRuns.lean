import StreamEP.Internode.ForwarderSteps

/-!
# What a forwarder warp relays

`forwarder_relays`: in every run in which no header of a later iteration is put over a packet
that the warp has not freed, the warp takes the header and the tokens of the iteration and
nothing later, copies the tokens with the bit of its peer, in the order of their stream, and
writes no slot that the receiver has not freed.

It is read off the invariant.  `Relays` says it of a state in terms of what the lanes have
accepted and of what is in the peer's ring; for a warp that has retired the prefixes of the
streams are the streams themselves, since a warp ends only with no lane busy.  The last part is
about steps, not states: `UnfreedKept` compares the slots before a step with those after it, and
`step_kept` needs the invariant of the state before it alone.

**What is recorded.**  The value recorded for a token is its place among the tokens of *its*
source, which is not the position in the NVLink ring that the token takes:
`nvl_position_not_recorded`.  With one source the two would be the same; the example has two, with
one token each for the same peer, so both are recorded with place 0 and one has position 1.
-/

namespace StreamEP.Internode

open Function ForwarderWarp

variable {Row : Type*} {T : Relay Row} {s : ℕ}

/-! ### The relay -/

namespace ForwarderWarp

/-- What has been relayed at some point of a run. -/
structure Relays (T : Relay Row) (st : ForwarderWarp Row) : Prop where
  /-- Of each source the header and the tokens have been taken in order, and nothing later, -/
  accepted : ∀ s < T.numRdmaRanks, (st.lanes s).accepted <+: T.stream s (T.count s + 1)
  /-- and at the end all of them. -/
  complete : st.phase = .retired →
    ∀ s < T.numRdmaRanks, (st.lanes s).accepted = T.stream s (T.count s + 1)
  sources : ∀ x ∈ st.relayed, x.1 < T.numRdmaRanks
  /-- Of the tokens taken, those with the peer's bit take positions, in order. -/
  relayed : ∀ s < T.numRdmaRanks, st.relayed.filter (·.1 = s) =
    ((List.range ((st.lanes s).accepted.length - 1)).filter (T.Sends s)).map (s, ·)
  /-- The slots of what has been published and not read hold their packets, -/
  slots : ∀ k, st.freed ≤ k → k < st.nvlTail → ∃ s i, st.relayed[k]? = some (s, i) ∧
    st.nvlSlots (k % T.nvlRing) = (T.token s i).forNvlSlot T.nvlSeq k
  /-- and at the end everything has been published. -/
  published : st.phase = .retired → st.nvlTail = st.relayed.length
  /-- The entry of a token is its place among the tokens of its source that go to the peer. -/
  places : ∀ s < T.numRdmaRanks, ∀ i, i + 1 < (st.lanes s).accepted.length →
    st.sendNvlHead (T.headCell s i) = place T s i

/-- A step leaves the slots alone that have been written and not freed. -/
def UnfreedKept (T : Relay Row) (st st' : ForwarderWarp Row) : Prop :=
  ∀ k, st.freed ≤ k → k < st.written → st'.nvlSlots (k % T.nvlRing) = st.nvlSlots (k % T.nvlRing)

end ForwarderWarp

namespace ForwarderInv

variable {st st' : ForwarderWarp Row}

theorem kept_of_eq (same : st'.nvlSlots = st.nvlSlots) : UnfreedKept T st st' :=
  fun k _ _ => congrFun same (k % T.nvlRing)

theorem makeRoom_kept (nvl : NvlInv T st) {s' i tail sent : ℕ}
    (phase : st.phase = .drain s' i tail sent) : UnfreedKept T st (st.makeRoom T) := by
  intro k lo hi
  unfold makeRoom
  split
  · rfl
  · rename_i oldest rest staged
    split_ifs
    · obtain ⟨here, -⟩ := nvl.pending 0 oldest (by rw [staged]; rfl)
      have before : st.written < st.cachedNvlTail := by
        have le := nvl.pending_le
        rw [staged, List.length_cons] at le
        rw [ForwarderWarp.written, staged, List.length_cons]
        omega
      have room := nvl.position_lt phase before
      refine update_of_ne ?_ _ _
      rw [here]
      exact ReplayRings.mod_ne hi (by omega)
    · rfl

theorem step_kept (inv : ForwarderInv T st) {e : ForwarderEvent}
    (fires : step T st e = some st') : UnfreedKept T st st' := by
  cases e with
  | put | land | increment | header | sync | readNvlHead | pass | retire | free =>
    simp only [step] at fires
    split at fires
    · cases fires
      exact kept_of_eq rfl
    · cases fires
  | publishNvlHead =>
    cases fires
    exact kept_of_eq rfl
  | poll =>
    simp only [step] at fires
    split at fires
    · split at fires
      · cases fires
        exact kept_of_eq rfl
      · cases fires
        exact kept_of_eq rfl
    · cases fires
  | token =>
    simp only [step] at fires
    split at fires
    case h_1 s' i tail sent phase =>
      split at fires
      · cases fires
        split_ifs
        · have taken : NvlInv T (st.take T s' i ((st.lanes s').slots (T.slot s' (i + 1)))) :=
            nvl_lanes inv.nvl (cachedTail_update le_rfl)
          exact makeRoom_kept taken phase
        · exact kept_of_eq rfl
      · cases fires
    case h_2 => cases fires
  | publish =>
    have after := publish_inv inv fires
    simp only [step] at fires
    split at fires
    · split at fires
      · cases fires
      · cases fires
        -- both states hold the packets of these positions
        intro k lo hi
        have le : st.written ≤ st.cachedNvlTail := Nat.sub_le _ _
        have inRing : k < st.relayed.length := by
          rw [inv.nvl.length]
          exact hi.trans_le le
        have here : st.relayed[k]? = some st.relayed[k] := List.getElem?_eq_getElem inRing
        rw [inv.nvl.stored k lo hi _ here]
        exact after.nvl.stored k lo (hi.trans_le le) _ here
    · cases fires

theorem length_accepted (inv : ForwarderInv T st) {s : ℕ} (hs : s < T.numRdmaRanks) :
    (st.lanes s).accepted.length - 1 = st.nextToken s := by
  have lane := inv.lane s hs
  rw [lane.accepted, Relay.length_stream]
  split_ifs with started
  · rfl
  · by_cases headers : st.phase = .headers
    · exact (lane.waiting headers).2.symm
    · exact absurd (lane.running headers).1 started

theorem stream_prefix {n m : ℕ} (le : n ≤ m) : T.stream s n <+: T.stream s m := by
  obtain ⟨k, rfl⟩ := Nat.exists_eq_add_of_le le
  rw [Relay.stream, Relay.stream, List.range_add, List.map_append]
  exact List.prefix_append _ _

/-- A token in the peer's ring is one of its source. -/
theorem relayed_lt (inv : ForwarderInv T st) {k i : ℕ} (here : st.relayed[k]? = some (s, i)) :
    i < T.count s := by
  have mem := List.mem_of_getElem? here
  have hs : s < T.numRdmaRanks := inv.nvl.sources _ mem
  have lane := inv.lane s hs
  have own : (s, i) ∈ st.relayed.filter (·.1 = s) := List.mem_filter.2 ⟨mem, by simp⟩
  rw [lane.relayed] at own
  obtain ⟨j, inside, same⟩ := List.mem_map.1 own
  cases same
  exact (List.mem_range.1 (List.mem_filter.1 inside).1).trans_le lane.next_le

theorem relays (inv : ForwarderInv T st) (retired : st.phase = .retired → ¬st.Busy T) :
    st.Relays T where
  accepted s hs := by
    have lane := inv.lane s hs
    rw [lane.accepted]
    split_ifs
    · exact stream_prefix (Nat.succ_le_succ lane.next_le)
    · exact stream_prefix (Nat.zero_le _)
  complete last s hs := by
    have lane := inv.lane s hs
    have started := (lane.running (by simp [last])).1
    have none : ¬0 < (st.lanes s).numTokensToRecv := fun left => retired last ⟨s, hs, left⟩
    have le := lane.next_le
    rw [lane.toRecv, if_pos started] at none
    have all : st.nextToken s = T.count s := by omega
    rw [lane.accepted, if_pos started, all]
  sources := inv.nvl.sources
  relayed s hs := by
    rw [inv.length_accepted hs]
    exact (inv.lane s hs).relayed
  slots k lo hi := by
    have nvl := inv.nvl
    have inside : k < st.relayed.length := by
      rw [nvl.length]
      exact hi.trans_le ((Nat.le_add_right _ _).trans nvl.pending_le)
    have written : k < st.written := by
      have le := nvl.pending_le
      rw [ForwarderWarp.written]
      omega
    have here : st.relayed[k]? = some (st.relayed[k].1, st.relayed[k].2) :=
      List.getElem?_eq_getElem inside
    refine ⟨_, _, here, ?_⟩
    rw [← Relay.packet_token (inv.relayed_lt here)]
    exact nvl.stored k lo written _ here
  published last := by
    rw [inv.nvl.length]
    exact (inv.nvl.idle (by simp [last])).2
  places s hs i before := by
    refine (inv.lane s hs).heads i ?_
    rw [← inv.length_accepted hs]
    omega

end ForwarderInv

/-- **A forwarder warp relays every stream exactly**, in every run from rings in which no slot
carries an awaited tag too early and no header of a later iteration goes to a slot in use. -/
theorem forwarder_relays (T : Relay Row) (fresh : T.TagsFresh) (nvlSlots : ℕ → Packet Row)
    (sendNvlHead : ℕ → ℤ) {st : ForwarderWarp Row}
    (reach : (system T nvlSlots sendNvlHead).ReachableUnder (HeaderFits T) st) :
    st.Relays T ∧ ∀ e st', step T st e = some st' → UnfreedKept T st st' :=
  have inv := ForwarderInv.reachable fresh reach
  ⟨inv.relays (ForwarderInv.reachable_ended reach.reachable), fun _ _ fires => inv.step_kept fires⟩

/-! ### Two sources -/

namespace ForwarderWarp

/-- Two nodes with one token each, both for peer 0. -/
def twoSources : Relay Unit where
  numRdmaRanks := 2
  numChannels := 1
  numTokens _ _ := 1
  isTokenInNvlRank p _ := decide (p = 0)
  cfg := tightConfig
  numRdmaRanks_pos := Nat.two_pos
  channelId := 0
  channelId_lt := Nat.one_pos
  dstNvlRank := 0
  dstNvlRank_lt := numMaxNvlPeers_pos
  smId := 0
  nvlSeq := 4
  readerPrevTail _ := 0
  int _ j := if j = 17 then 1 else 0
  headerRow _ := ()
  tokenRow _ _ := ()
  header_prefix _ _ := rfl
  header_prefix_1 _ _ := rfl
  later _ _ := ⟨(), 0, 0⟩
  laterHeader _ _ := true
  laterHeader_zero _ := rfl
  stale _ _ := ⟨(), 0, 0⟩

/-- A source sends its header and its token, and they arrive. -/
def arrivals (s : ℕ) : List ForwarderEvent :=
  [.put s, .put s, .land s 0, .land s 1, .increment s, .increment s]

/-- The warp takes the token of the second source first. -/
def relayBoth : List ForwarderEvent :=
  arrivals 0 ++ arrivals 1 ++
    [.header 0, .header 1, .sync, .pass, .poll, .token, .publish, .pass, .poll, .token, .publish,
      .retire]

/-- Both tokens take positions in the peer's ring. -/
theorem reachable_relayBoth : ∃ st,
    (system twoSources (fun _ => ⟨(), 0, 0⟩) (fun _ => 0)).ReachableUnder
        (HeaderFits twoSources) st ∧
      st.phase = .retired ∧ st.relayed = [(1, 0), (0, 0)] := by
  obtain ⟨st, replay, ended⟩ := (Option.any_eq_true _ _).1 (show
    ((system twoSources (fun _ => ⟨(), 0, 0⟩) (fun _ => 0)).runUnder (HeaderFits twoSources)
      (start twoSources (fun _ => ⟨(), 0, 0⟩) (fun _ => 0)) relayBoth).any (fun st =>
        decide (st.phase = .retired ∧ st.relayed = [(1, 0), (0, 0)])) = true by decide +kernel)
  exact ⟨st, TransitionSystem.ReachableUnder.run .init replay, of_decide_eq_true ended⟩

theorem twoSources_relayed : ∃ st : ForwarderWarp Unit, st.phase = .retired ∧
    st.Relays twoSources := by
  obtain ⟨st, reach, retired, -⟩ := reachable_relayBoth
  exact ⟨st, retired, (forwarder_relays twoSources (by decide +kernel) _ _ reach).1⟩

/-- The entry of every relayed token is its position in the peer's ring. -/
def RecordsNvlPositions {Row : Type*} (T : Relay Row) (st : ForwarderWarp Row) : Prop :=
  ∀ (k : ℕ) (s i : ℕ), st.relayed[k]? = some (s, i) → st.sendNvlHead (T.headCell s i) = k

/-- **The recorded place is not the position in the ring.**  Both tokens are the first of
their source, and one of them has position 1. -/
theorem nvl_position_not_recorded : ∃ st,
    (system twoSources (fun _ => ⟨(), 0, 0⟩) (fun _ => 0)).Reachable st ∧
      st.phase = .retired ∧ ¬st.RecordsNvlPositions twoSources := by
  obtain ⟨st, reach, retired, relayed⟩ := reachable_relayBoth
  refine ⟨st, reach.reachable, retired, fun records => ?_⟩
  have inv := ForwarderInv.reachable (by decide +kernel) reach
  have second := records 1 0 0 (by rw [relayed]; rfl)
  have relays := inv.relays (ForwarderInv.reachable_ended reach.reachable)
  have all := relays.complete retired 0 Nat.two_pos
  have place := relays.places 0 Nat.two_pos 0
    (by rw [all]; decide)
  rw [second] at place
  exact absurd place (by decide +kernel)

end ForwarderWarp

end StreamEP.Internode
