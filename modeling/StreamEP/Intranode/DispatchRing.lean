import StreamEP.Config
import StreamEP.Intranode.Layout
import StreamEP.Lib.RoundRing

/-!
# The ring between a dispatch sender and its receiver

At rank `src`, the warps of one group fill the ring of (channel, destination); at the
destination one group of warps drains it.  Every outer iteration of the sender's loop is a
round: each warp waits for room for a whole chunk, walks on until the chunk is full or the
channel ends (`sendRound`), copies the packets that fall to it, and behind the barrier warp
0 publishes the tail.  `dispatchRing` is the concurrent system of both sides.

**Rounds.**  Where a round starts is a function of the routing and the chunk, not of the run:
every warp walks the same tokens, and takes those whose position falls to it.  `chunkLoop_spec`
says where the inner loop ends, by induction on the tokens left; `roundStart_spec`, that between
rounds the tail is the position of the next token.  So the rounds cover the substream in order,
and are a sound plan of the library's ring (`ringPlan_sound`).

**Words.**  Head and tail are stamped with the sequence number of the dispatch, and the ring
starts over whatever words and slots there are; a stale word with another stamp reads as
nothing.

`dispatch_ring_delivers` says what it does in every reachable state: nothing unread is
overwritten, nothing unwritten is read, the receiver's batches are the substream in order
(so they are a delivery that `receiverLoop` accepts), and it never gets stuck.
-/

namespace StreamEP.Intranode

open RoundRing

variable {sh : Shape} {Row Weight : Type}

/-- `nvl_seq`: what the high half of a stamped word holds. -/
def nvlSeq (dispatchSeq : ℕ) : BitVec 32 := BitVec.ofNat 32 (dispatchSeq <<< 1)

/-- `num_send_warps`. -/
def numSendWarps : ℕ := kNumThreads / 32

/-- `num_send_warps_per_rank`. -/
def numSendWarpsPerRank (sh : Shape) : ℕ := numSendWarps / sh.numRanks

/-- Where a sender warp stands between two rounds. -/
structure SenderPos where
  tokenIdx : ℕ
  cachedChannelTailIdx : ℕ

section Rounds

variable (inp : DispatchInputs sh Row Weight) (dst c : ℕ) (cfg : Config)

/-- The inner loop, with the number of tokens left in the channel. -/
def chunkLoop : ℕ → ℕ → SenderPos → SenderPos
  | 0, _, pos => pos
  | left + 1, chunkTokenIdx, pos =>
      if chunkTokenIdx < cfg.numMaxNvlChunkedSendTokens then
        if inp.InRank dst pos.tokenIdx then
          chunkLoop left (chunkTokenIdx + 1) ⟨pos.tokenIdx + 1, pos.cachedChannelTailIdx + 1⟩
        else chunkLoop left chunkTokenIdx ⟨pos.tokenIdx + 1, pos.cachedChannelTailIdx⟩
      else pos

/-- One round of the outer loop. -/
def sendRound (pos : SenderPos) : SenderPos :=
  chunkLoop inp dst cfg (channelEnd inp.numTokens sh.numChannels c - pos.tokenIdx) 0 pos

/-- Where round `k` starts. -/
def roundStart : ℕ → SenderPos
  | 0 => ⟨channelStart inp.numTokens sh.numChannels c, 0⟩
  | k + 1 => sendRound inp dst c cfg (roundStart k)

/-- `total_offset`, as announced. -/
def totalOffset : ℤ := -startOffset inp dst c - 1

/-- `num_tokens_to_recv`. -/
def numTokensToRecv : ℤ := -endOffset inp dst c - 1 - totalOffset inp dst c

/-- The ring of (channel `c`, this rank, `dst`). -/
def ringPlan (stamp : BitVec 32) : Plan (Fin (numSendWarpsPerRank sh)) (BitVec 32) where
  ringSize := cfg.numMaxNvlChunkedRecvTokens
  required := cfg.numMaxNvlChunkedSendTokens
  stamp := stamp
  bound k := (roundStart inp dst c cfg k).cachedChannelTailIdx
  active k :=
    decide ((roundStart inp dst c cfg k).tokenIdx < channelEnd inp.numTokens sh.numChannels c)
  total := (numTokensToRecv inp dst c).toNat
  mine w q := decide ((q + 1) % numSendWarpsPerRank sh = w)
  leads w := decide (w.val = 0)

variable [Zero Weight]

/-- Sender and receiver at work, over whatever the words and the slots held before. -/
def dispatchRing (stamp : BitVec 32) (tailWord headWord : BitVec 32 × ℕ)
    (slots image : ℕ → Packet Row Weight) :=
  system (ringPlan inp dst c cfg stamp) (packetAt inp dst c) tailWord headWord slots image

end Rounds

/-- The batches that the receiver has taken. -/
def receivedBatches {κ σ : Type} (s : State κ σ (Packet Row Weight)) :
    List (Batches.Batch (Packet Row Weight)) :=
  s.batches.map fun b => ⟨b.1, b.2⟩

section Statement

variable (inp : DispatchInputs sh Row Weight) (dst c : ℕ) (cfg : Config) [Zero Weight]

/-- What the ring guarantees in a state. -/
structure RingDelivers (stamp : BitVec 32)
    (s : State (Fin (numSendWarpsPerRank sh)) (BitVec 32) (Packet Row Weight)) : Prop where
  /-- When a slot is written, all its earlier occupants have been read. -/
  write_safe : ∀ w q s',
    step (ringPlan inp dst c cfg stamp) (packetAt inp dst c) s (.write w q) = some s' →
      ∀ r < q, r % cfg.numMaxNvlChunkedRecvTokens = q % cfg.numMaxNvlChunkedRecvTokens →
        r < s.head
  /-- When a slot is read, the packet has been written and is still there. -/
  read_written : ∀ q s',
    step (ringPlan inp dst c cfg stamp) (packetAt inp dst c) s (.read q) = some s' →
      s.written q = true ∧
        s.slots (q % cfg.numMaxNvlChunkedRecvTokens) = packetAt inp dst c q
  /-- What has been received is the substream, once and in order, as far as the head. -/
  in_order : s.head ≤ (substream inp dst c).length ∧
    Batches.Delivers cfg.numMaxNvlChunkedRecvTokens ((substream inp dst c).take s.head) 0
      (receivedBatches s)
  /-- Until everything has been received, somebody can take a step that changes the state. -/
  not_stuck : s.head < (substream inp dst c).length →
    ∃ e s', step (ringPlan inp dst c cfg stamp) (packetAt inp dst c) s e = some s' ∧ s' ≠ s

end Statement

variable {inp : DispatchInputs sh Row Weight} {dst c : ℕ} {cfg : Config}

/-! ### The rounds cover the substream -/

/-- Where the inner loop ends: no more than a chunk further, and only at the end of the
channel with less. -/
theorem chunkLoop_spec (cfg : Config) (left : ℕ) {chunkTokenIdx : ℕ} {pos : SenderPos}
    (lo : channelStart inp.numTokens sh.numChannels c ≤ pos.tokenIdx)
    (tail : pos.cachedChannelTailIdx = ringPos inp dst c pos.tokenIdx)
    (room : chunkTokenIdx ≤ cfg.numMaxNvlChunkedSendTokens) :
    let after := chunkLoop inp dst cfg left chunkTokenIdx pos
    pos.tokenIdx ≤ after.tokenIdx ∧ after.tokenIdx ≤ pos.tokenIdx + left ∧
      after.cachedChannelTailIdx = ringPos inp dst c after.tokenIdx ∧
      after.cachedChannelTailIdx + chunkTokenIdx ≤
        pos.cachedChannelTailIdx + cfg.numMaxNvlChunkedSendTokens := by
  induction left generalizing chunkTokenIdx pos with
  | zero => exact ⟨le_rfl, le_rfl, tail, Nat.add_le_add_left room _⟩
  | succ left ih =>
      have next : ringPos inp dst c (pos.tokenIdx + 1) = _ := ringPos_succ lo
      rw [chunkLoop]
      by_cases more : chunkTokenIdx < cfg.numMaxNvlChunkedSendTokens
      · rw [if_pos more]
        by_cases goes : inp.InRank dst pos.tokenIdx
        · rw [if_pos goes]
          rw [if_pos goes] at next
          have after := @ih (chunkTokenIdx + 1)
            ⟨pos.tokenIdx + 1, pos.cachedChannelTailIdx + 1⟩
            (lo.trans (Nat.le_succ _)) (next ▸ congrArg (· + 1) tail) more
          obtain ⟨from_le, to_le, tail', room'⟩ := after
          dsimp only at from_le to_le room' ⊢
          exact ⟨by omega, by omega, tail', by omega⟩
        · rw [if_neg goes]
          rw [if_neg goes] at next
          have after := @ih chunkTokenIdx ⟨pos.tokenIdx + 1, pos.cachedChannelTailIdx⟩
            (lo.trans (Nat.le_succ _)) (next ▸ tail) room
          obtain ⟨from_le, to_le, tail', room'⟩ := after
          dsimp only at from_le to_le room' ⊢
          exact ⟨by omega, by omega, tail', by omega⟩
      · rw [if_neg more]
        exact ⟨le_rfl, Nat.le_add_right _ _, tail, Nat.add_le_add_left room _⟩

variable (inp dst c cfg) in
/-- Between rounds the tail is the position of the next token. -/
theorem roundStart_spec (k : ℕ) :
    channelStart inp.numTokens sh.numChannels c ≤ (roundStart inp dst c cfg k).tokenIdx ∧
      (roundStart inp dst c cfg k).tokenIdx ≤ channelEnd inp.numTokens sh.numChannels c ∧
      (roundStart inp dst c cfg k).cachedChannelTailIdx =
        ringPos inp dst c (roundStart inp dst c cfg k).tokenIdx := by
  induction k with
  | zero => exact ⟨le_rfl, channelStart_le_end _ _ _, (Stream.pos_start).symm⟩
  | succ k ih =>
      obtain ⟨lo, hi, tail⟩ := ih
      obtain ⟨from_le, to_le, tail', -⟩ := chunkLoop_spec cfg
        (channelEnd inp.numTokens sh.numChannels c -
          (roundStart inp dst c cfg k).tokenIdx) lo tail (Nat.zero_le _)
      rw [Nat.add_sub_cancel' hi] at to_le
      exact ⟨lo.trans from_le, to_le, tail'⟩

variable (inp dst c) in
/-- The receiver waits for as many packets as the sender has. -/
theorem numTokensToRecv_eq : (numTokensToRecv inp dst c).toNat = inp.tokensIn dst c := by
  have mono := Nat.count_monotone (inp.InRank dst)
    (channelStart_le_end inp.numTokens sh.numChannels c)
  rw [numTokensToRecv, totalOffset, startOffset, endOffset, startCount_eq, endCount_eq,
    DispatchInputs.tokensIn]
  omega

variable (inp dst c cfg) in
/-- **The rounds of a sender are a sound plan.** -/
theorem ringPlan_sound (warps : 0 < numSendWarpsPerRank sh) (stamp : BitVec 32) :
    (ringPlan inp dst c cfg stamp).Sound where
  bound_zero := rfl
  bound_le_succ k := by
    obtain ⟨lo, -, tail⟩ := roundStart_spec inp dst c cfg k
    obtain ⟨-, -, tail'⟩ := roundStart_spec inp dst c cfg (k + 1)
    obtain ⟨from_le, -⟩ := chunkLoop_spec cfg
      (channelEnd inp.numTokens sh.numChannels c -
        (roundStart inp dst c cfg k).tokenIdx) lo tail (Nat.zero_le _)
    show (roundStart inp dst c cfg k).cachedChannelTailIdx ≤
      (roundStart inp dst c cfg (k + 1)).cachedChannelTailIdx
    rw [tail, tail']
    exact ringPos_mono from_le
  bound_succ_le k := by
    obtain ⟨lo, -, tail⟩ := roundStart_spec inp dst c cfg k
    exact (chunkLoop_spec cfg _ lo tail (Nat.zero_le _)).2.2.2
  bound_le_total k := by
    obtain ⟨-, hi, tail⟩ := roundStart_spec inp dst c cfg k
    show (roundStart inp dst c cfg k).cachedChannelTailIdx ≤ (numTokensToRecv inp dst c).toNat
    rw [tail, numTokensToRecv_eq]
    exact ringPos_mono hi
  ended k idle := by
    obtain ⟨-, hi, tail⟩ := roundStart_spec inp dst c cfg k
    have last := le_antisymm hi (not_lt.1 (of_decide_eq_false idle))
    show (roundStart inp dst c cfg k).cachedChannelTailIdx = (numTokensToRecv inp dst c).toNat
    rw [tail, numTokensToRecv_eq, last]
    rfl
  required_le := cfg.nvlSend_lt_recv.le
  exists_mine q := ⟨⟨(q + 1) % numSendWarpsPerRank sh, Nat.mod_lt _ warps⟩, decide_eq_true rfl⟩

/-! ### Delivery -/

variable [Zero Weight]

/-- Batches that show the packets in their slots deliver the beginning of the substream. -/
theorem delivers_of_delivered (hdst : dst < sh.numRanks) {ringSize first last : ℕ}
    {bs : List (ℕ × (ℕ → Packet Row Weight))}
    (delivered : Delivered ringSize (packetAt inp dst c) first bs last)
    (inside : last ≤ (substream inp dst c).length) :
    first ≤ last ∧ Batches.Delivers ringSize ((substream inp dst c).take last) first
      (bs.map fun b => ⟨b.1, b.2⟩) := by
  induction bs generalizing first with
  | nil =>
      obtain rfl : first = last := delivered
      exact ⟨le_rfl, (List.length_take_of_le inside).symm⟩
  | cons b bs ih =>
      obtain ⟨pos, right, rest⟩ := delivered
      obtain ⟨le, next⟩ := ih rest
      refine ⟨by omega, pos, le.trans_eq (List.length_take_of_le inside).symm,
        fun i hi => ?_, next⟩
      have hi : i < b.1 := hi
      rw [List.getElem?_take_of_lt (by omega), getElem?_substream hdst (by omega), ← right i hi]

/-- **The intranode dispatch ring delivers exactly the sent sequence**, in every state of
every run. -/
theorem dispatch_ring_delivers (hdst : dst < sh.numRanks)
    (warps : numSendWarps % sh.numRanks = 0) {stamp : BitVec 32}
    {tailWord headWord : BitVec 32 × ℕ} (oldTail : tailWord.1 ≠ stamp)
    (oldHead : headWord.1 ≠ stamp) {slots image : ℕ → Packet Row Weight}
    {s : State (Fin (numSendWarpsPerRank sh)) (BitVec 32) (Packet Row Weight)}
    (reach : (dispatchRing inp dst c cfg stamp tailWord headWord slots image).Reachable s) :
    RingDelivers inp dst c cfg stamp s := by
  have some_warp : 0 < numSendWarpsPerRank sh :=
    Nat.div_pos (Nat.le_of_dvd (by decide) (Nat.dvd_of_mod_eq_zero warps)) sh.numRanks_pos
  have sound := ringPlan_sound inp dst c cfg some_warp stamp
  have inv := reachable_inv sound oldTail oldHead reach
  have total : (ringPlan inp dst c cfg stamp).total = (substream inp dst c).length :=
    (numTokensToRecv_eq inp dst c).trans (length_substream hdst).symm
  have inside : s.head ≤ (substream inp dst c).length :=
    inv.reader.head_le.trans ((sound.bound_le_total _).trans_eq total)
  exact
    { write_safe := fun _ _ _ fires _ earlier same => write_safe sound inv fires earlier same
      read_written := fun _ _ fires => read_written sound inv fires
      in_order := ⟨inside, (delivers_of_delivered hdst inv.reader.batches inside).2⟩
      not_stuck := fun more => exists_step sound inv (more.trans_eq total.symm) }

section Example

open World

/-- The two packets that rank 0 of the example sends to rank 1 over channel 0; the twelve
warps of the group go through the rounds together. -/
def exampleRingRun : List (Event (Fin (numSendWarpsPerRank exampleShape))) :=
  let all := List.finRange (numSendWarpsPerRank exampleShape)
  all.map .enter ++ [.write ⟨1, Nat.le_of_ble_eq_true rfl⟩ 0] ++ all.map .leave ++
    [.publish, .poll] ++ all.map .enter ++
    [.begin, .read 0, .write ⟨2, Nat.le_of_ble_eq_true rfl⟩ 1, .finish] ++ all.map .leave ++
      [.publish, .publishHead, .poll, .begin, .read 1, .finish]

/-- The run receives both. -/
theorem exampleRing_delivers :
    ∃ s, (dispatchRing (exampleInputs 3 le_rfl) 1 0 tightConfig (nvlSeq 1) (0, 0) (0, 7)
        (fun _ => packetAt (exampleInputs 3 le_rfl) 1 0 1)
        fun _ => packetAt (exampleInputs 3 le_rfl) 1 0 1).Reachable s ∧ s.head = 2 ∧
      RingDelivers (exampleInputs 3 le_rfl) 1 0 tightConfig (nvlSeq 1) s := by
  have replays : ((dispatchRing (exampleInputs 3 le_rfl) 1 0 tightConfig (nvlSeq 1) (0, 0)
      (0, 7) (fun _ => packetAt (exampleInputs 3 le_rfl) 1 0 1)
        fun _ => packetAt (exampleInputs 3 le_rfl) 1 0 1).run
      (start (0, 0) (0, 7) (fun _ => packetAt (exampleInputs 3 le_rfl) 1 0 1)
        fun _ => packetAt (exampleInputs 3 le_rfl) 1 0 1) exampleRingRun).map State.head =
      some 2 := by
    decide +kernel
  obtain ⟨s, replay, both⟩ := Option.map_eq_some_iff.1 replays
  have reach := TransitionSystem.Reachable.init.run replay
  exact ⟨s, reach, both,
    dispatch_ring_delivers (by decide) (by decide) (by decide) (by decide) reach⟩

end Example

end StreamEP.Intranode
