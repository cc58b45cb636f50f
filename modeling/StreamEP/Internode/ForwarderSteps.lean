import StreamEP.Internode.ForwarderInv

/-!
# Every step of a forwarder warp keeps the invariant

One lemma for each event of the system.  The puts and the network change the link alone
(`link_step`); a header or a token that is accepted is genuine, because of the tags
(`header_inv`, `token_genuine`); the end of a batch publishes what it has stored.

The events fall into four groups, and the lemmas of a group have one shape.

* **The link.**  `put_inv`, `land_inv`, `increment_inv`: `SameReader` says that a lane keeps all
  that the warp writes, and `link_step` leaves them the change of the link itself.
* **The headers.**  `header_inv` and `sync_inv`.  A lane that has its header knows how many
  tokens to expect, and the warp goes on when all lanes do.
* **The wait for room, and for a source.**  Nothing but the phase and the words that the warp
  has seen changes; `nextToken` stays what it was, and this is proved for each phase.
* **A token.**  The lane takes it (`lane_take`); if it has the bit of the peer, room is made for
  it in the staging buffer (`makeRoom_inv`), and it takes the next position of the peer's ring
  (`forward_nvl`).  The two do not touch each other's fields, so `token_inv` can use them one
  behind the other.

`step_inv` has a case for every event, and `reachable` is the run.  A second invariant, `Ended`,
stands beside it: the warp leaves its loop only when no lane has tokens left.
-/

namespace StreamEP.Internode

open Function ForwarderWarp

variable {Row : Type*} {T : Relay Row} {s : ℕ}

/-! ### What every step keeps -/

namespace ForwarderInv

variable {st st' : ForwarderWarp Row}

theorem start (T : Relay Row) (nvlSlots : ℕ → Packet Row) (sendNvlHead : ℕ → ℤ) :
    ForwarderInv T (start T nvlSlots sendNvlHead) where
  link s _ :=
    { issued_le := Nat.zero_le _
      tail_le := le_rfl
      landed_lt := fun _ landed => absurd landed Bool.false_ne_true
      freed_landed := fun _ freed => absurd freed (Nat.not_lt_zero _)
      content := fun j _ hi => by
        have near : j < T.ring := (Nat.zero_add T.ring) ▸ hi
        show T.stale s (T.slot s j) = T.prior s j
        rw [Relay.prior, if_pos near] }
  lane s _ :=
    { head_le := le_rfl
      next_le := Nat.zero_le _
      cachedTail_le := Nat.zero_le _
      cachedTail_seen := fun pos => absurd pos (lt_irrefl 0)
      accepted := rfl
      landed := fun started => absurd started Bool.false_ne_true
      toRecv := rfl
      recvCount := fun started => absurd started Bool.false_ne_true
      nvlIdx := (Nat.count_zero _).symm
      heads := fun _ before => absurd before (Nat.not_lt_zero _)
      relayed := rfl
      waiting := fun _ => ⟨rfl, rfl⟩
      running := fun other => absurd rfl other }
  nvl :=
    { length := rfl
      sources := fun _ mem => absurd mem List.not_mem_nil
      pending_le := le_rfl
      pending := fun _ _ none => absurd none (by simp [ForwarderWarp.start])
      stored := fun k _ hi => absurd hi (Nat.not_lt_zero k)
      freed_le := le_rfl
      nvlHead_le := fun _ none => absurd none (by simp [ForwarderWarp.start])
      cachedHead_le := le_rfl
      idle := fun _ => ⟨rfl, rfl⟩
      room := fun other => absurd other (by simp [ForwarderWarp.start])
      batch := fun _ _ _ _ other => absurd other (by simp [ForwarderWarp.start]) }

/-- The fields of a lane that only the warp writes. -/
def SameReader (lane lane' : ForwarderLane Row) : Prop :=
  lane'.started = lane.started ∧ lane'.numTokensToRecv = lane.numTokensToRecv ∧
    lane'.rdmaRecvCount = lane.rdmaRecvCount ∧ lane'.cachedRdmaHead = lane.cachedRdmaHead ∧
    lane'.cachedRdmaTail = lane.cachedRdmaTail ∧
    lane'.rdmaNvlTokenIdx = lane.rdmaNvlTokenIdx ∧
    lane'.forwardChannelHead = lane.forwardChannelHead ∧ lane'.accepted = lane.accepted

theorem nextToken_setLane {s' : ℕ} {lane : ForwarderLane Row} (other : s ≠ s') :
    (st.setLane s' lane).nextToken s = st.nextToken s := by
  unfold nextToken
  simp only [setLane, update_of_ne other]

theorem nextToken_setLane_same {lane : ForwarderLane Row}
    (head : lane.cachedRdmaHead = (st.lanes s).cachedRdmaHead) :
    (st.setLane s lane).nextToken s = st.nextToken s := by
  unfold nextToken
  simp only [setLane, update_self, head]

/-- The peer's ring does not depend on the lanes, apart from the tail of a batch. -/
theorem nvl_lanes (nvl : NvlInv T st) {lanes : ℕ → ForwarderLane Row} {heads : ℕ → ℤ}
    (tails : ∀ s, (st.lanes s).cachedRdmaTail ≤ (lanes s).cachedRdmaTail) :
    NvlInv T { st with lanes := lanes, sendNvlHead := heads } :=
  { nvl with
    batch := fun s i tail sent phase =>
      have batch := nvl.batch s i tail sent phase
      { batch with tail_le := batch.tail_le.trans (tails s) } }

theorem cachedTail_update {s' : ℕ} {lane : ForwarderLane Row}
    (tail : (st.lanes s').cachedRdmaTail ≤ lane.cachedRdmaTail) (s : ℕ) :
    (st.lanes s).cachedRdmaTail ≤ (update st.lanes s' lane s).cachedRdmaTail := by
  rcases eq_or_ne s s' with rfl | other
  · rw [update_self]
    exact tail
  · rw [update_of_ne other]

/-- A step of the source or of the network. -/
theorem link_step (inv : ForwarderInv T st) {s' : ℕ} {lane : ForwarderLane Row}
    (link : s' < T.numRdmaRanks → LinkInv T s' lane) (same : SameReader (st.lanes s') lane)
    (landed : ∀ j, (st.lanes s').landed j = true → lane.landed j = true)
    (tail : (st.lanes s').tail ≤ lane.tail) : ForwarderInv T (st.setLane s' lane) := by
  obtain ⟨started, toRecv, recvCount, head, cachedTail, nvlIdx, forwardHead, accepted⟩ := same
  refine ⟨fun s hs => ?_, fun s hs => ?_, ?_⟩
  · rcases eq_or_ne s s' with rfl | other
    · simp only [setLane, update_self]
      exact link hs
    · simp only [setLane, update_of_ne other]
      exact inv.link s hs
  · have old := inv.lane s hs
    rcases eq_or_ne s s' with rfl | other
    · rw [nextToken_setLane_same head]
      simp only [setLane, update_self]
      exact
        { head_le := head ▸ old.head_le
          next_le := old.next_le
          cachedTail_le := cachedTail ▸ old.cachedTail_le
          cachedTail_seen := fun pos => by
            rw [cachedTail] at pos ⊢
            exact (old.cachedTail_seen pos).trans_le tail
          accepted := by rw [accepted, started]; exact old.accepted
          landed := fun begun j le => landed j (old.landed (started ▸ begun) j le)
          toRecv := by rw [toRecv, started]; exact old.toRecv
          recvCount := by rw [recvCount, started]; exact old.recvCount
          nvlIdx := nvlIdx ▸ old.nvlIdx
          heads := old.heads
          relayed := old.relayed
          waiting := by rw [forwardHead]; exact old.waiting
          running := by rw [started, forwardHead, head]; exact old.running }
    · rw [nextToken_setLane other]
      simp only [setLane, update_of_ne other]
      exact old
  · exact nvl_lanes inv.nvl (cachedTail_update cachedTail.ge)

/-- The increments that have been seen are no more than there were. -/
theorem arrived_le (st : ForwarderWarp Row) (s : ℕ) : st.arrived T s ≤ (st.lanes s).tail := by
  have counter : T.readerPrevTail s = BitVec.ofNat 32 (T.readerPrevTail s).toNat :=
    ((BitVec.ofNat_toNat 32 _).trans (BitVec.setWidth_eq _)).symm
  have le := WrapCounter.diff_le (w := 32)
    (Nat.le_add_right (T.readerPrevTail s).toNat (st.lanes s).tail)
  rw [← WrapCounter.ofNat_add, ← counter] at le
  rw [arrived]
  omega

theorem put_inv {s' : ℕ} (inv : ForwarderInv T st) (fits : st.HeaderFits T (.put s'))
    (fires : step T st (.put s') = some st') : ForwarderInv T st' := by
  simp only [step] at fires
  split at fires
  case isFalse => cases fires
  case isTrue enabled =>
    cases fires
    have room := enabled.2.elim fits id
    exact inv.link_step (fun hs => (inv.link s' hs).put room)
      ⟨rfl, rfl, rfl, rfl, rfl, rfl, rfl, rfl⟩ (fun _ landed => landed) le_rfl

theorem land_inv {s' j : ℕ} (inv : ForwarderInv T st)
    (fires : step T st (.land s' j) = some st') : ForwarderInv T st' := by
  simp only [step] at fires
  split at fires
  case isFalse => cases fires
  case isTrue enabled =>
    cases fires
    refine inv.link_step (fun hs => (inv.link s' hs).land enabled.2.1 enabled.2.2)
      ⟨rfl, rfl, rfl, rfl, rfl, rfl, rfl, rfl⟩ (fun j' landed => ?_) le_rfl
    rcases eq_or_ne j' j with rfl | other
    · exact update_self _ _ _
    · simpa only [update_of_ne other] using landed

theorem increment_inv {s' : ℕ} (inv : ForwarderInv T st)
    (fires : step T st (.increment s') = some st') : ForwarderInv T st' := by
  simp only [step] at fires
  split at fires
  case isFalse => cases fires
  case isTrue enabled =>
    cases fires
    exact inv.link_step (fun hs => (inv.link s' hs).increment enabled.2)
      ⟨rfl, rfl, rfl, rfl, rfl, rfl, rfl, rfl⟩ (fun _ landed => landed) (Nat.le_succ _)

/-- **A header that is accepted is the iteration's**, and brings the number of its tokens. -/
theorem header_inv {s' : ℕ} (fresh : T.TagsFresh) (inv : ForwarderInv T st)
    (fires : step T st (.header s') = some st') : ForwarderInv T st' := by
  simp only [step] at fires
  split at fires
  case isFalse => cases fires
  case isTrue enabled =>
    obtain ⟨phase, hs', new, -, matched⟩ := enabled
    have link := inv.link s' hs'
    have old := inv.lane s' hs'
    obtain ⟨head, none⟩ := old.waiting phase
    obtain ⟨landed, packet⟩ := link.genuine fresh hs' (Nat.zero_le _) (head ▸ le_rfl)
      (Nat.lt_add_left _ T.ring_pos) matched
    have count : T.int (T.headerRow s') (numMaxNvlPeers * 2 + 1) -
        T.int (T.headerRow s') (numMaxNvlPeers * 2) = T.count s' := by
      rw [T.header_prefix_1 s' hs', T.header_prefix s' hs', RecvTokens.channelPrefix,
        Finset.sum_range_succ, RecvTokens.channelPrefix]
      push_cast
      exact add_sub_cancel_left _ _
    have row : (T.packet s' 0).row = T.headerRow s' := rfl
    rw [packet, row, count] at fires
    cases fires
    refine ⟨fun s hs => ?_, fun s hs => ?_, ?_⟩
    · rcases eq_or_ne s s' with rfl | other
      · simp only [setLane, update_self]
        exact ⟨link.issued_le, link.tail_le, link.landed_lt, link.freed_landed, link.content⟩
      · simp only [setLane, update_of_ne other]
        exact inv.link s hs
    · rcases eq_or_ne s s' with rfl | other
      · rw [nextToken_setLane_same (by rfl)]
        simp only [setLane, update_self]
        exact { old with
          accepted := by
            rw [none]
            rfl
          landed := fun _ j le => by
            rw [none, Nat.le_zero] at le
            rwa [le]
          toRecv := by
            rw [none]
            exact (sub_zero _).symm
          recvCount := fun _ => rfl
          running := fun other => absurd phase other }
      · rw [nextToken_setLane other]
        simp only [setLane, update_of_ne other]
        exact inv.lane s hs
    · exact nvl_lanes inv.nvl (cachedTail_update le_rfl)

theorem sync_inv (inv : ForwarderInv T st) (fires : step T st .sync = some st') :
    ForwarderInv T st' := by
  simp only [step] at fires
  split at fires
  case isFalse => cases fires
  case isTrue enabled =>
    obtain ⟨phase, started⟩ := enabled
    cases fires
    have idle := inv.nvl.idle (by simp [phase])
    refine ⟨fun s hs => ?_, fun s hs => ?_, ?_⟩
    · have old := inv.lane s hs
      simp only [if_pos hs]
      refine (inv.link s hs).advance 1 ((old.waiting phase).1 ▸ Nat.zero_le 1) fun j first => ?_
      rw [Nat.lt_one_iff.1 first]
      exact old.landed (started s hs) 0 (Nat.zero_le _)
    · have old := inv.lane s hs
      have zero := (old.waiting phase).2
      have head : (st.lanes s).cachedRdmaHead = 0 := Nat.le_zero.1 (zero ▸ old.head_le)
      have next : st.nextToken s = (st.lanes s).cachedRdmaHead := by rw [zero, head]
      rw [next] at old
      simp only [nextToken, if_pos hs]
      exact { old with
        waiting := fun other => nomatch other
        running := fun _ => ⟨started s hs, by rw [head]⟩ }
    · have nvl := inv.nvl
      exact ⟨nvl.length, nvl.sources, nvl.pending_le, nvl.pending, nvl.stored, nvl.freed_le,
        nvl.nvlHead_le, nvl.cachedHead_le, fun _ => idle, fun other => (nomatch other),
        fun _ _ _ _ other => nomatch other⟩

/-- At the gate every lane is at its head. -/
theorem nextToken_gate (phase : st.phase = .gate) (s : ℕ) :
    st.nextToken s = (st.lanes s).cachedRdmaHead := by
  rw [nextToken, phase]

theorem nextToken_poll (phase : st.phase = .poll) (s : ℕ) :
    st.nextToken s = (st.lanes s).cachedRdmaHead := by
  rw [nextToken, phase]

theorem readNvlHead_inv (inv : ForwarderInv T st) (fires : step T st .readNvlHead = some st') :
    ForwarderInv T st' := by
  simp only [step] at fires
  split at fires
  case isFalse => cases fires
  case isTrue enabled =>
    obtain ⟨phase, -, -⟩ := enabled
    cases fires
    have nvl := inv.nvl
    refine ⟨inv.link, inv.lane, nvl.length, nvl.sources, nvl.pending_le, nvl.pending, nvl.stored,
      nvl.freed_le, nvl.nvlHead_le, ?_, nvl.idle, ?_, ?_⟩
    · cases word : st.nvlHead with
      | none => exact nvl.cachedHead_le
      | some head => exact nvl.nvlHead_le head word
    · exact fun other => nomatch phase.symm.trans other
    · exact fun _ _ _ _ other => nomatch phase.symm.trans other

theorem pass_inv (inv : ForwarderInv T st) (fires : step T st .pass = some st') :
    ForwarderInv T st' := by
  simp only [step] at fires
  split at fires
  case isFalse => cases fires
  case isTrue enabled =>
    obtain ⟨phase, -, space⟩ := enabled
    cases fires
    have nvl := inv.nvl
    have idle := nvl.idle (by simp [phase])
    refine ⟨inv.link, fun s hs => ?_, nvl.length, nvl.sources, nvl.pending_le, nvl.pending,
      nvl.stored, nvl.freed_le, nvl.nvlHead_le, nvl.cachedHead_le, fun _ => idle, fun _ => ?_,
      fun _ _ _ _ other => nomatch other⟩
    · have old := inv.lane s hs
      rw [nextToken_gate phase] at old
      exact old.phase (by simp [phase])
    · -- the room of the gate, counted from what has been published
      have chunk := T.cfg.nvlSend_pos
      have head := nvl.cachedHead_le.trans nvl.freed_le
      have last := idle.2
      unfold HasSpace at space
      unfold Relay.nvlRing
      simp only
      omega

theorem retire_inv (inv : ForwarderInv T st) (fires : step T st .retire = some st') :
    ForwarderInv T st' := by
  simp only [step] at fires
  split at fires
  case isFalse => cases fires
  case isTrue enabled =>
    obtain ⟨phase, -⟩ := enabled
    cases fires
    have nvl := inv.nvl
    refine ⟨inv.link, fun s hs => ?_, nvl.length, nvl.sources, nvl.pending_le, nvl.pending,
      nvl.stored, nvl.freed_le, nvl.nvlHead_le, nvl.cachedHead_le,
      fun _ => nvl.idle (by simp [phase]), fun other => (nomatch other),
      fun _ _ _ _ other => nomatch other⟩
    have old := inv.lane s hs
    rw [nextToken_gate phase] at old
    exact old.phase (by simp [phase])

theorem free_inv (inv : ForwarderInv T st) (fires : step T st .free = some st') :
    ForwarderInv T st' := by
  simp only [step] at fires
  split at fires
  case isFalse => cases fires
  case isTrue more =>
    cases fires
    have nvl := inv.nvl
    refine ⟨inv.link, inv.lane, { nvl with
      stored := nvl.stored.free
      freed_le := more
      nvlHead_le := fun head word => (nvl.nvlHead_le head word).trans (Nat.le_succ _)
      cachedHead_le := nvl.cachedHead_le.trans (Nat.le_succ _)
      batch := fun s i tail sent phase => { nvl.batch s i tail sent phase with } }⟩

theorem publishNvlHead_inv (inv : ForwarderInv T st)
    (fires : step T st .publishNvlHead = some st') : ForwarderInv T st' := by
  cases fires
  have nvl := inv.nvl
  refine ⟨inv.link, inv.lane, { nvl with
    nvlHead_le := fun head word => (Option.some.inj word).ge
    batch := fun s i tail sent phase => { nvl.batch s i tail sent phase with } }⟩

/-- The tail that a lane takes over lies in the iteration, and has been seen. -/
theorem clamped_tail (st : ForwarderWarp Row) (s : ℕ) {count : ℕ} :
    (min (max 0 (st.arrived T s - 1)) (count : ℤ)).toNat ≤ count ∧
      (0 < (min (max 0 (st.arrived T s - 1)) (count : ℤ)).toNat →
        (min (max 0 (st.arrived T s - 1)) (count : ℤ)).toNat < (st.lanes s).tail) := by
  have seen := arrived_le (T := T) st s
  omega

/-- A lane looks at its tail again. -/
theorem lane_poll {next : ℕ} {heads : ℕ → ℤ} {relayed : List (ℕ × ℕ)}
    (old : LaneInv T s False next heads relayed (st.lanes s)) {tail : ℕ}
    (inside : tail ≤ T.count s) (seen : 0 < tail → tail < (st.lanes s).tail) :
    LaneInv T s False next heads relayed { st.lanes s with cachedRdmaTail := tail } :=
  { old with
    cachedTail_le := inside
    cachedTail_seen := seen }

theorem poll_inv (inv : ForwarderInv T st) (fires : step T st .poll = some st') :
    ForwarderInv T st' := by
  simp only [step] at fires
  split at fires
  case isFalse => cases fires
  case isTrue phase =>
    have hs' : (st.srcRdmaRank + 1) % T.numRdmaRanks < T.numRdmaRanks :=
      Nat.mod_lt _ T.numRdmaRanks_pos
    generalize (st.srcRdmaRank + 1) % T.numRdmaRanks = s' at fires hs'
    have nvl := inv.nvl
    have idle := nvl.idle (by simp [phase])
    have room := nvl.room phase
    have running : ∀ s < T.numRdmaRanks, LaneInv T s False (st.lanes s).cachedRdmaHead
        st.sendNvlHead st.relayed (st.lanes s) := by
      intro s hs
      have old := inv.lane s hs
      rw [nextToken_poll phase] at old
      exact old.phase (by simp [phase])
    split at fires
    case isFalse =>
      cases fires
      exact ⟨inv.link, inv.lane,
        { nvl with batch := fun s i tail sent phase => { nvl.batch s i tail sent phase with } }⟩
    case isTrue left =>
      -- the lane looks at its tail again only when it has used up what it saw last
      generalize tail_eq : (if (st.lanes s').cachedRdmaHead = (st.lanes s').cachedRdmaTail then
        (min (max 0 (st.arrived T s' - 1)) (st.lanes s').rdmaRecvCount).toNat
          else (st.lanes s').cachedRdmaTail) = tail at fires
      have old := running s' hs'
      have bounds : tail ≤ T.count s' ∧ (0 < tail → tail < (st.lanes s').tail) := by
        rw [← tail_eq]
        split_ifs
        · rw [old.recvCount (old.running not_false).1]
          exact clamped_tail st s'
        · exact ⟨old.cachedTail_le, old.cachedTail_seen⟩
      cases fires
      refine ⟨fun s hs => ?_, fun s hs => ?_, ?_⟩
      · have link := inv.link s hs
        rcases eq_or_ne s s' with rfl | other
        · simp only [setLane, update_self]
          exact { link with }
        · simp only [setLane, update_of_ne other]
          exact link
      · have lane : LaneInv T s False (st.lanes s).cachedRdmaHead st.sendNvlHead st.relayed
            (update st.lanes s' { st.lanes s' with cachedRdmaTail := tail } s) := by
          rcases eq_or_ne s s' with rfl | other
          · rw [update_self]
            exact lane_poll old bounds.1 bounds.2
          · rw [update_of_ne other]
            exact running s hs
        have head :
            (update st.lanes s' { st.lanes s' with cachedRdmaTail := tail } s).cachedRdmaHead =
              (st.lanes s).cachedRdmaHead := by
          rcases eq_or_ne s s' with rfl | other
          · rw [update_self]
          · rw [update_of_ne other]
        by_cases more : (st.lanes s').cachedRdmaHead < tail
        · simp only [setLane, nextToken, if_pos more, head]
          have next : (if s' = s then (st.lanes s').cachedRdmaHead
              else (st.lanes s).cachedRdmaHead) = (st.lanes s).cachedRdmaHead := by
            split_ifs with same
            · rw [same]
            · rfl
          rw [next]
          exact lane.phase (by simp)
        · simp only [setLane, nextToken, if_neg more, head]
          exact lane.phase (by simp)
      -- with nothing to drain the warp polls the next source
      · by_cases more : (st.lanes s').cachedRdmaHead < tail
        · simp only [setLane, if_pos more]
          refine ⟨nvl.length, nvl.sources, nvl.pending_le, nvl.pending, nvl.stored, nvl.freed_le,
            nvl.nvlHead_le, nvl.cachedHead_le, fun other => absurd rfl (other _ _ _ _),
            fun other => (nomatch other), fun s i tail' sent batch => ?_⟩
          cases batch
          exact ⟨hs', more.le, by simp only [update_self, le_refl], idle.2, Nat.zero_le _,
            fun _ => T.cfg.nvlSend_pos, room⟩
        · simp only [setLane, if_neg more]
          exact ⟨nvl.length, nvl.sources, nvl.pending_le, nvl.pending, nvl.stored, nvl.freed_le,
            nvl.nvlHead_le, nvl.cachedHead_le, fun _ => idle, fun _ => room,
            fun _ _ _ _ other => (nomatch other)⟩

/-! ### A token -/

section Token

variable {s' i tail sent : ℕ}

theorem nextToken_drain (phase : st.phase = .drain s' i tail sent) (s : ℕ) :
    st.nextToken s = if s' = s then i else (st.lanes s).cachedRdmaHead := by
  rw [nextToken, phase]

/-- **A token that is accepted is the next of its stream.** -/
theorem token_genuine (fresh : T.TagsFresh) (inv : ForwarderInv T st)
    (phase : st.phase = .drain s' i tail sent) (more : i < tail)
    (matched : ((st.lanes s').slots (T.slot s' (i + 1))).sourceMeta.seqTag = T.tagWant s' (i + 1)) :
    i < T.count s' ∧ (st.lanes s').landed (i + 1) = true ∧
      (st.lanes s').slots (T.slot s' (i + 1)) = T.packet s' (i + 1) := by
  have batch := inv.nvl.batch s' i tail sent phase
  have link := inv.link s' batch.source
  have lane := inv.lane s' batch.source
  have next : st.nextToken s' = i := (nextToken_drain phase s').trans (if_pos rfl)
  have count : i < T.count s' := more.trans_le (batch.tail_le.trans lane.cachedTail_le)
  have head := (lane.running (by simp [phase])).2
  have behind := lane.head_le
  have seen := lane.cachedTail_seen (Nat.zero_lt_of_lt (more.trans_le batch.tail_le))
  have issued := link.tail_le.trans link.issued_le
  have tail_le := batch.tail_le
  exact ⟨count, link.genuine fresh batch.source count (by omega) (by omega) matched⟩

/-- The lanes, when a token has been taken. -/
theorem lane_take (inv : ForwarderInv T st) (phase : st.phase = .drain s' i tail sent)
    (count : i < T.count s') (landed : (st.lanes s').landed (i + 1) = true) {s : ℕ}
    (hs : s < T.numRdmaRanks) :
    LaneInv T s False (if s' = s then i + 1 else (st.lanes s).cachedRdmaHead)
      (st.take T s' i (T.packet s' (i + 1))).sendNvlHead
      (if T.Sends s' i then st.relayed ++ [(s', i)] else st.relayed)
      ((st.take T s' i (T.packet s' (i + 1))).lanes s) := by
  have old := (inv.lane s hs).pastHeaders (by simp [phase])
  have inDst := T.token_inDst (s := s') i
  rw [← T.packet_token count] at inDst
  rw [nextToken_drain phase] at old
  rcases eq_or_ne s' s with rfl | other
  -- the lane of the token: its row is read, and its head recorded if it is for the peer
  · simp only [if_true] at old
    have started := (old.running not_false).1
    have accepted := old.accepted
    have toRecv := old.toRecv
    rw [if_pos started] at accepted toRecv
    have place_eq : (if (T.packet s' (i + 1)).sourceMeta.isTokenInNvlRank T.dstNvlRank = true then
        ((st.lanes s').rdmaNvlTokenIdx : ℤ) else -1) = place T s' i := by
      simp only [inDst, old.nvlIdx, place]
    simp only [take, update_self, if_true, place_eq]
    exact { old with
      head_le := old.head_le.trans (Nat.le_succ i)
      next_le := count
      accepted := by
        simp only [if_pos started, accepted]
        exact (T.stream_succ (i + 1)).symm
      landed := fun _ j le => by
        rcases Nat.le_succ_iff.1 le with before | rfl
        · exact old.landed started j before
        · exact landed
      toRecv := by
        simp only [if_pos started, toRecv]
        push_cast
        omega
      nvlIdx := by
        simp only [old.nvlIdx, Nat.count_succ]
        by_cases sends : T.Sends s' i
        · simp only [inDst.2 sends, if_pos sends, Bool.toNat_true]
        · have out : (T.packet s' (i + 1)).sourceMeta.isTokenInNvlRank T.dstNvlRank = false :=
            Bool.eq_false_iff.2 fun bit => sends (inDst.1 bit)
          simp only [out, if_neg sends, Bool.toNat_false]
      heads := fun j before => by
        rcases Nat.lt_succ_iff_lt_or_eq.1 before with earlier | rfl
        · rw [update_of_ne fun same =>
            earlier.ne (Relay.headCell_inj (earlier.trans count) count same).2]
          exact old.heads j earlier
        · exact update_self _ _ _
      relayed := by
        rw [List.range_succ, List.filter_append, List.map_append, ← old.relayed]
        by_cases sends : T.Sends s' i
        · rw [if_pos sends, List.filter_append]
          simp [sends]
        · rw [if_neg sends]
          simp [sends]
      waiting := fun none => none.elim }
  -- another lane: only the cells of the heads could be shared, and they are apart
  · simp only [if_neg other] at old
    simp only [take, update_of_ne other.symm, if_neg other]
    refine old.frame (fun i' hi' => ?_) ?_
    · exact update_of_ne (fun same => other (Relay.headCell_inj hi' count same).1.symm) _ _
    · split_ifs
      · rw [List.filter_append]
        simp [other]
      · rfl

/-- With both stages in flight the older packet is stored first. -/
theorem makeRoom_inv (nvl : NvlInv T st) (phase : st.phase = .drain s' i tail sent) :
    NvlInv T (st.makeRoom T) := by
  have position := fun k => nvl.position_lt phase (k := k)
  have written := nvl.stored
  have pending := nvl.pending
  have pending_le := nvl.pending_le
  rcases staged : st.pending with _ | ⟨oldest, rest⟩
  · simp only [makeRoom, staged]
    exact nvl
  · simp only [makeRoom, staged]
    split_ifs
    · rw [staged] at pending pending_le
      -- the stored position is the one behind what has been written
      have count : st.written + 1 = st.cachedNvlTail - rest.length := by
        rw [ForwarderWarp.written, staged]
        rw [List.length_cons] at pending_le ⊢
        omega
      obtain ⟨here, token⟩ := pending 0 oldest rfl
      rw [List.length_cons] at pending_le
      refine { nvl with
        pending_le := (Nat.add_le_add_left (Nat.le_succ _) _).trans pending_le
        pending := fun n x at_n => ?_
        stored := ?_
        idle := fun other => absurd phase (other _ _ _ _)
        batch := fun s i tail sent phase => { nvl.batch s i tail sent phase with } }
      · obtain ⟨pos, token'⟩ := pending (n + 1) x at_n
        refine ⟨?_, token'⟩
        show x.1 = st.cachedNvlTail - rest.length + n
        rw [← count, pos]
        omega
      · show Stored T st.relayed st.freed (st.cachedNvlTail - rest.length) _
        rw [← count]
        exact written.store here token (position _ (by omega))
    · exact nvl

theorem makeRoom_fields (st : ForwarderWarp Row) :
    (st.makeRoom T).lanes = st.lanes ∧ (st.makeRoom T).sendNvlHead = st.sendNvlHead ∧
      (st.makeRoom T).phase = st.phase ∧ (st.makeRoom T).cachedNvlTail = st.cachedNvlTail ∧
      (st.makeRoom T).relayed = st.relayed := by
  unfold makeRoom
  split
  · exact ⟨rfl, rfl, rfl, rfl, rfl⟩
  · split_ifs <;> exact ⟨rfl, rfl, rfl, rfl, rfl⟩

theorem forward_fields (s' i tail sent : ℕ) (st : ForwarderWarp Row) (packet : Packet Row) :
    (st.forward T s' i tail sent packet).lanes = st.lanes ∧
      (st.forward T s' i tail sent packet).sendNvlHead = st.sendNvlHead ∧
      (st.forward T s' i tail sent packet).relayed = st.relayed ++ [(s', i)] ∧
      ∃ tail' sent',
        (st.forward T s' i tail sent packet).phase = .drain s' (i + 1) tail' sent' := by
  obtain ⟨lanes, heads, -, -, -⟩ := makeRoom_fields (T := T) st
  refine ⟨lanes, heads, rfl, ?_⟩
  simp only [ForwarderWarp.forward]
  split_ifs
  · exact ⟨_, _, rfl⟩
  · exact ⟨_, _, rfl⟩

/-- A packet for the peer takes the next position of its ring. -/
theorem forward_nvl (nvl : NvlInv T st) (phase : st.phase = .drain s' i tail sent)
    (more : i < tail) {packet : Packet Row} (token : packet = packetOf T (s', i)) :
    NvlInv T (st.forward T s' i tail sent packet) := by
  have inv := makeRoom_inv nvl phase
  obtain ⟨-, -, phase', cachedNvlTail, relayed⟩ := makeRoom_fields (T := T) st
  rw [ForwarderWarp.forward, ← cachedNvlTail, ← relayed]
  rw [← phase'] at phase
  generalize st.makeRoom T = room at *
  have batch := inv.batch s' i tail sent phase
  have length := inv.length
  have pending_le := inv.pending_le
  have written : room.cachedNvlTail + 1 - (room.pending ++ [(room.cachedNvlTail, packet)]).length =
      room.written := by
    rw [List.length_append, List.length_singleton, Nat.add_sub_add_right]
    rfl
  have sent_lt := batch.sent_lt more
  have sent_eq := batch.sent
  refine ⟨?_, fun x mem => ?_, ?_, fun n x at_n => ?_, ?_, inv.freed_le, inv.nvlHead_le,
    inv.cachedHead_le, fun idle => ?_, fun polling => ?_, fun s₁ i₁ tail₁ sent₁ drain => ?_⟩
  · rw [List.length_append, length]
    rfl
  · rcases List.mem_append.1 mem with old | new
    · exact inv.sources x old
    · rw [List.mem_singleton.1 new]
      exact batch.source
  · rw [List.length_append, List.length_singleton, ← Nat.add_assoc]
    exact Nat.succ_le_succ pending_le
  · show x.1 = room.cachedNvlTail + 1 - (room.pending ++ [(room.cachedNvlTail, packet)]).length +
      n ∧ _
    rw [written]
    -- the packet joins the staged ones behind the others
    rcases lt_or_ge n room.pending.length with old | new
    · rw [List.getElem?_append_left old] at at_n
      obtain ⟨pos, y, at_x, same⟩ := inv.pending n x at_n
      refine ⟨pos, y, ?_, same⟩
      exact List.getElem?_append_left (List.getElem?_eq_some_iff.1 at_x).1 ▸ at_x
    · rw [List.getElem?_append_right new] at at_n
      rw [List.getElem?_singleton] at at_n
      split_ifs at at_n with zero
      cases at_n
      refine ⟨?_, (s', i), ?_, token⟩
      · rw [ForwarderWarp.written]
        omega
      · rw [List.getElem?_append_right length.le, length, Nat.sub_self]
        rfl
  · show Stored T _ room.freed (room.cachedNvlTail + 1 -
      (room.pending ++ [(room.cachedNvlTail, packet)]).length) room.nvlSlots
    rw [written]
    exact inv.stored.append (length ▸ Nat.sub_le _ _) _
  · simp only at idle
    split_ifs at idle
    · exact absurd rfl (idle _ _ _ _)
    · exact absurd rfl (idle _ _ _ _)
  · simp only at polling
    split_ifs at polling
  · simp only at drain
    -- a full chunk ends the batch, whatever the lane still has
    split_ifs at drain with full
    · cases drain
      exact ⟨batch.source, le_rfl, more.trans_le batch.tail_le, by simp only; omega, full.le,
        fun less => absurd less (lt_irrefl _), batch.room⟩
    · cases drain
      exact ⟨batch.source, more, batch.tail_le, by simp only; omega, sent_lt,
        fun _ => lt_of_le_of_ne sent_lt full, batch.room⟩

theorem token_inv (fresh : T.TagsFresh) (inv : ForwarderInv T st)
    (fires : step T st .token = some st') : ForwarderInv T st' := by
  simp only [step] at fires
  split at fires
  case h_2 => cases fires
  case h_1 s' i tail sent phase =>
    split at fires
    case isFalse => cases fires
    case isTrue enabled =>
      obtain ⟨count, landed, packet⟩ := token_genuine fresh inv phase enabled.1 enabled.2
      rw [packet] at fires
      have inDst := T.token_inDst (s := s') i
      rw [← T.packet_token count] at inDst
      have lanes := fun s (hs : s < T.numRdmaRanks) => lane_take inv phase count landed hs
      have links : ∀ s < T.numRdmaRanks,
          LinkInv T s ((st.take T s' i (T.packet s' (i + 1))).lanes s) := by
        intro s hs
        have link := inv.link s hs
        rcases eq_or_ne s s' with rfl | other
        · simp only [take, update_self]
          exact { link with }
        · simp only [take, update_of_ne other]
          exact link
      have heads : ∀ s, ((st.take T s' i (T.packet s' (i + 1))).lanes s).cachedRdmaHead =
          (st.lanes s).cachedRdmaHead := by
        intro s
        rcases eq_or_ne s s' with rfl | other
        · simp only [take, update_self]
        · simp only [take, update_of_ne other]
      have nvl : NvlInv T (st.take T s' i (T.packet s' (i + 1))) :=
        nvl_lanes inv.nvl (cachedTail_update le_rfl)
      have phase' : (st.take T s' i (T.packet s' (i + 1))).phase = .drain s' i tail sent := phase
      have relayed : (st.take T s' i (T.packet s' (i + 1))).relayed = st.relayed := rfl
      rw [← relayed] at lanes
      generalize st.take T s' i (T.packet s' (i + 1)) = taken at *
      cases fires
      -- the ring changes only if the token has the bit of the peer
      by_cases sends : T.Sends s' i
      · simp only [if_pos sends] at lanes
        rw [if_pos (inDst.2 sends)]
        obtain ⟨lanes', heads', relayed', tail', sent', drain⟩ :=
          forward_fields s' i tail sent taken (T.packet s' (i + 1))
        refine ⟨fun s hs => ?_, fun s hs => ?_, forward_nvl nvl phase' enabled.1 rfl⟩
        · rw [lanes']
          exact links s hs
        · rw [nextToken_drain drain, lanes', heads', relayed', heads]
          exact (lanes s hs).phase (by simp [drain])
      · simp only [if_neg sends] at lanes
        rw [if_neg fun bit => sends (inDst.1 bit)]
        refine ⟨links, fun s hs => ?_, ?_⟩
        · rw [nextToken_drain (i := i + 1) rfl]
          simp only [heads]
          exact (lanes s hs).phase (by simp)
        · have batch := nvl.batch s' i tail sent phase'
          exact { nvl with
            idle := fun other => absurd rfl (other _ _ _ _)
            room := fun other => (nomatch other)
            batch := fun _ _ _ _ drain => by
              cases drain
              exact { batch with
                le_tail := enabled.1
                sent_lt := fun _ => batch.sent_lt enabled.1 } }

theorem publish_inv (inv : ForwarderInv T st) (fires : step T st .publish = some st') :
    ForwarderInv T st' := by
  simp only [step] at fires
  split at fires
  case h_2 => cases fires
  case h_1 s' i tail sent phase =>
    split at fires
    case isTrue => cases fires
    case isFalse through =>
      have nvl := inv.nvl
      have batch := nvl.batch s' i tail sent phase
      obtain rfl : i = tail := le_antisymm batch.le_tail (not_lt.1 through)
      have lane := inv.lane s' batch.source
      have next : st.nextToken s' = i := (nextToken_drain phase s').trans (if_pos rfl)
      have head := (lane.running (by simp [phase])).2
      cases fires
      refine ⟨fun s hs => ?_, fun s hs => ?_, ?_⟩
      · rcases eq_or_ne s s' with rfl | other
        · simp only [update_self]
          have behind := lane.head_le
          exact { (inv.link s hs).advance (i + 1) (by omega) fun j before =>
            lane.landed (lane.running (by simp [phase])).1 j (by omega) with }
        · simp only [update_of_ne other]
          exact inv.link s hs
      · have old := (inv.lane s hs).pastHeaders (by simp [phase])
        rw [nextToken_drain phase] at old
        rcases eq_or_ne s' s with rfl | other
        · simp only [if_true] at old
          simp only [nextToken, update_self]
          exact { old with
            head_le := le_rfl
            waiting := fun other => (nomatch other)
            running := fun _ => ⟨(old.running not_false).1, rfl⟩ }
        · simp only [if_neg other] at old
          simp only [nextToken, update_of_ne other.symm]
          exact old.phase (by simp)
      · have pending := nvl.pending_le
        -- what is still staged is stored before the tail is published
        have last : st.written + st.pending.length = st.cachedNvlTail := by
          rw [ForwarderWarp.written]
          omega
        refine ⟨nvl.length, nvl.sources, le_rfl, fun n x none => (nomatch none), ?_,
          nvl.freed_le.trans ((Nat.le_add_right _ _).trans pending), nvl.nvlHead_le,
          nvl.cachedHead_le, fun _ => ⟨rfl, rfl⟩, fun other => (nomatch other),
          fun _ _ _ _ other => (nomatch other)⟩
        show Stored T st.relayed st.freed st.cachedNvlTail _
        rw [← last]
        exact nvl.stored.foldl nvl.pending fun k before =>
          nvl.position_lt phase (before.trans_eq last)

end Token

theorem step_inv {e : ForwarderEvent} (fresh : T.TagsFresh) (inv : ForwarderInv T st)
    (fits : st.HeaderFits T e) (fires : step T st e = some st') : ForwarderInv T st' := by
  cases e with
  | put => exact put_inv inv fits fires
  | land => exact land_inv inv fires
  | increment => exact increment_inv inv fires
  | header => exact header_inv fresh inv fires
  | sync => exact sync_inv inv fires
  | readNvlHead => exact readNvlHead_inv inv fires
  | pass => exact pass_inv inv fires
  | poll => exact poll_inv inv fires
  | token => exact token_inv fresh inv fires
  | publish => exact publish_inv inv fires
  | retire => exact retire_inv inv fires
  | free => exact free_inv inv fires
  | publishNvlHead => exact publishNvlHead_inv inv fires

theorem reachable {nvlSlots : ℕ → Packet Row} {sendNvlHead : ℕ → ℤ} (fresh : T.TagsFresh)
    (reach : (system T nvlSlots sendNvlHead).ReachableUnder (HeaderFits T) st) :
    ForwarderInv T st := by
  have kept : ∀ s e s', ForwarderInv T s → HeaderFits T s e →
      (system T nvlSlots sendNvlHead).step s e = some s' → ForwarderInv T s' :=
    fun _ _ _ inv fits fires => step_inv fresh inv fits fires
  exact reach.invariant (start T nvlSlots sendNvlHead) kept

/-- The warp ends when no lane has tokens left. -/
def Ended (T : Relay Row) (st : ForwarderWarp Row) : Prop := st.phase = .retired → ¬st.Busy T

theorem ended_setLane (ended : Ended T st) {s' : ℕ} {lane : ForwarderLane Row}
    (same : lane.numTokensToRecv = (st.lanes s').numTokensToRecv) :
    Ended T (st.setLane s' lane) := by
  rintro last ⟨s, hs, left⟩
  refine ended last ⟨s, hs, ?_⟩
  rcases eq_or_ne s s' with rfl | other
  · simpa only [setLane, update_self, same] using left
  · simpa only [setLane, update_of_ne other] using left

theorem step_ended {e : ForwarderEvent} (ended : Ended T st) (fires : step T st e = some st') :
    Ended T st' := by
  cases e with
  | put | land | increment =>
    simp only [step] at fires
    split at fires
    · cases fires
      exact ended_setLane ended rfl
    · cases fires
  | header =>
    simp only [step] at fires
    split at fires
    case isTrue enabled =>
      cases fires
      exact fun last => (nomatch enabled.1.symm.trans last)
    case isFalse => cases fires
  | sync | pass =>
    simp only [step] at fires
    split at fires
    · cases fires
      exact fun last => (nomatch last)
    · cases fires
  | readNvlHead | free =>
    simp only [step] at fires
    split at fires
    · cases fires
      exact ended
    · cases fires
  | poll =>
    simp only [step] at fires
    split at fires
    case isTrue phase =>
      split at fires
      · cases fires
        intro last
        simp only at last
        split_ifs at last
      · cases fires
        exact fun last => (nomatch phase.symm.trans last)
    case isFalse => cases fires
  | token =>
    simp only [step] at fires
    split at fires
    · split at fires
      · cases fires
        split_ifs
        · obtain ⟨-, -, -, tail, sent, drain⟩ := forward_fields _ _ _ _ _ _
          exact fun last => (nomatch drain.symm.trans last)
        · exact fun last => (nomatch last)
      · cases fires
    · cases fires
  | publish =>
    simp only [step] at fires
    split at fires
    · split at fires
      · cases fires
      · cases fires
        exact fun last => (nomatch last)
    · cases fires
  | retire =>
    simp only [step] at fires
    split at fires
    case isTrue enabled =>
      cases fires
      exact fun _ => enabled.2
    case isFalse => cases fires
  | publishNvlHead =>
    cases fires
    exact ended

theorem reachable_ended {nvlSlots : ℕ → Packet Row} {sendNvlHead : ℕ → ℤ}
    (reach : (system T nvlSlots sendNvlHead).Reachable st) : Ended T st := by
  have kept : ∀ s e s', Ended T s → (system T nvlSlots sendNvlHead).step s e = some s' →
      Ended T s' := fun _ _ _ ended fires => step_ended ended fires
  exact reach.invariant (fun last => (nomatch last)) kept

end ForwarderInv

end StreamEP.Internode
