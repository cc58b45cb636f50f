import StreamEP.Internode.CreditLink
import StreamEP.Lib.HeadScan
import StreamEP.Lib.QueuePair

/-!
# One RDMA ring of combine

The ring of a (channel, forwarding node, origin node) has the warps at the forwarding node
that stage a chunk of reduced tokens and put it, and at the origin the receiver warps that
read it and a coordinator that returns credit.  A chunk's put and the addition to the tail go
to one queue pair, the additions to the head to another.

**Counters that are never reset.**  Head and tail go on from one iteration to the next.  The
forwarder takes as its baseline what the head holds when its kernel starts.  The receivers keep
theirs in `combine_reader_prev_tail`: every warp writes back there what the tail holds when it
exits.  Counters are words of 32 bits, and everything that is compared is a difference.

**The network.**  What is put and added waits in the queue pair in order; what is returned waits
in a list from which credits may arrive in any order.  An event of the link is a step of one side
or an arrival.  The two sides may be in different iterations (`InStep`): the forwarder of a node
is never ahead of the receivers that it forwards to.

**One module, one iteration.**  This module has the steps of both sides within an iteration, and
what they keep: `CombineForwarder.Inv`, `CombineReceivers.Inv` and, for both and the packets
between them, `CombineLink.Inv`.  Each is kept by a step lemma of its own.  What follows at the
end of an iteration is `Inv.finished`: when all receivers are through, everything has arrived and
the word is where the next iteration begins.  The iterations of all nodes are in `CombineRuns`.

The two facts that the others use are `Inv.arrived`, that a receiver which sees a token's place
in the tail has the token in its slot, and `Inv.tail_le`, that no more arrives than was put.
-/

namespace StreamEP.Internode

open Function Finset HeadScan QueuePair

variable {K : ℕ}

/-- What the receivers of a ring take in an iteration: every token that is put is the entry of
a warp, and there are no others. -/
structure Delivery (K : ℕ) where
  plan : Plan K
  /-- `num_tokens_to_combine` of the forwarder. -/
  numTokens : ℕ
  isInt : numTokens < 2 ^ 31
  sound : plan.Sound
  entry_lt : ∀ f m, m < plan.count f → plan.entry f m < numTokens
  covers : ∀ p < numTokens, ∃ f m, m < plan.count f ∧ plan.entry f m = p

/-- Tokens of the iterations before `i`. -/
def delivered (d : ℕ → Delivery K) (i : ℕ) : ℕ := ∑ j ∈ range i, (d j).numTokens

theorem delivered_succ (d : ℕ → Delivery K) (i : ℕ) :
    delivered d (i + 1) = delivered d i + (d i).numTokens := sum_range_succ _ _

theorem delivered_mono (d : ℕ → Delivery K) {i j : ℕ} (h : i ≤ j) :
    delivered d i ≤ delivered d j := sum_le_sum_of_subset (range_mono h)

/-! ### The forwarder -/

/-- The warps that forward to one node, within an iteration. -/
structure CombineForwarder where
  /-- `prev_rdma_channel_head_at_entry` of the warp that checks the credit. -/
  prevHead : Option (BitVec 32)
  tokenStartIdx : ℕ
  /-- The credit check of the chunk has passed. -/
  granted : Bool
  /-- Tokens that are in the send buffer. -/
  staged : ℕ → Bool

namespace CombineForwarder

def start : CombineForwarder where
  prevHead := none
  tokenStartIdx := 0
  granted := false
  staged _ := false

inductive Event where
  | enter
  | grant
  | stage (t : ℕ)
  | put

section Step

variable (cfg : Config) (numTokens : ℕ) (own : Bool) (f : CombineForwarder)

/-- `token_end_idx` -/
def tokenEndIdx : ℕ := min (f.tokenStartIdx + cfg.numMaxRdmaChunkedSendTokens) numTokens

/-- `num_chunked_tokens` -/
def numChunkedTokens : ℕ := f.tokenEndIdx cfg numTokens - f.tokenStartIdx

/-- A step, when the additions to the head that have arrived sum to `head`. -/
def step (head : ℕ) : Event → Option CombineForwarder
  | .enter =>
      if f.prevHead = none then some { f with prevHead := some (BitVec.ofNat 32 head) } else none
  | .grant =>
      f.prevHead.bind fun prev =>
        let curIterHead := WrapCounter.diff (BitVec.ofNat 32 head) prev
        let numUsedSlots := f.tokenStartIdx - curIterHead
        if (f.granted = false ∧ f.tokenStartIdx < numTokens) ∧
            (f.numChunkedTokens cfg numTokens : ℤ) ≤
              cfg.numMaxRdmaChunkedRecvTokens - numUsedSlots then
          some { f with granted := true }
        else none
  | .stage t =>
      if f.granted = true ∧ f.tokenStartIdx ≤ t ∧ t < f.tokenEndIdx cfg numTokens ∧
          f.staged t = false then
        some { f with staged := update f.staged t true }
      else none
  | .put =>
      if f.granted = true ∧
          ∀ t < f.tokenEndIdx cfg numTokens, f.tokenStartIdx ≤ t → f.staged t = true then
        some
          { f with
            tokenStartIdx := f.tokenStartIdx + cfg.numMaxRdmaChunkedSendTokens
            granted := false }
      else none

/-- What a step writes into the receive buffer: slots, and the tokens that go there.  For its
own node a forwarder stages tokens in place. -/
def ringWrites : Event → List (ℕ × ℕ)
  | .stage t => if own = true then [(t % cfg.numMaxRdmaChunkedRecvTokens, t)] else []
  | .put =>
      if own = true then []
      else (List.range (f.numChunkedTokens cfg numTokens)).map fun k =>
        (f.tokenStartIdx % cfg.numMaxRdmaChunkedRecvTokens + k, f.tokenStartIdx + k)
  | _ => []

/-- What it writes into the send buffer. -/
def sendWrites : Event → List (ℕ × ℕ)
  | .stage t => if own = true then [] else [(t % cfg.numMaxRdmaChunkedRecvTokens, t)]
  | _ => []

/-- What a step puts on the queue pair; tokens are counted over all iterations, and `before`
were put in earlier ones. -/
def packets (before : ℕ) : Event → List Queued
  | .put =>
      (if own = true then [] else [.put (before + f.tokenStartIdx)]) ++
        [.add (f.numChunkedTokens cfg numTokens)]
  | _ => []

/-- How many tokens have been put. -/
def putCount : ℕ := min f.tokenStartIdx numTokens

/-- The forwarder is through. -/
def Done : Prop := f.prevHead ≠ none ∧ numTokens ≤ f.tokenStartIdx

instance : Decidable (f.Done numTokens) := by
  unfold Done
  infer_instance

end Step

end CombineForwarder

/-! ### The receivers -/

/-- The receiver warps for one node and their coordinator, within an iteration. -/
structure CombineReceivers (K : ℕ) where
  /-- `combine_reader_prev_tail`, in global memory. -/
  readerPrevTail : BitVec 32
  /-- `prev_rdma_channel_tail_at_entry` -/
  prevTail : Fin K → Option (BitVec 32)
  /-- Heads and entries; a warp has `seen` its `cached_channel_tail_idx`. -/
  scan : State K
  wrote : Fin K → Bool
  /-- The coordinator has left its loop. -/
  exited : Bool

namespace CombineReceivers

/-- The receivers when their kernel starts. -/
def start (p : Plan K) (readerPrevTail : BitVec 32) : CombineReceivers K where
  readerPrevTail := readerPrevTail
  prevTail _ := none
  scan := HeadScan.start p
  wrote _ := false
  exited := false

inductive Event (K : ℕ) where
  | readPrev (f : Fin K)
  /-- A look at the tail. -/
  | look (f : Fin K)
  | scan (e : HeadScan.Event K)
  | writeback (f : Fin K)
  | exit

/-- A warp reads its baseline before its first token, and the coordinator stops at its exit.
What has arrived is seen by a look at the tail. -/
def Enabled (r : CombineReceivers K) : HeadScan.Event K → Prop
  | .see .. => False
  | .take f | .retire f => r.prevTail f ≠ none
  | .finish _ => True
  | .flag | .look | .close => r.exited = false

instance (r : CombineReceivers K) : (e : HeadScan.Event K) → Decidable (r.Enabled e)
  | .see .. => isFalse id
  | .take f | .retire f => inferInstanceAs (Decidable (r.prevTail f ≠ none))
  | .finish _ => isTrue trivial
  | .flag | .look | .close => inferInstanceAs (Decidable (r.exited = false))

/-- A step, when the additions to the tail that have arrived sum to `tail`. -/
def step (p : Plan K) (tail : ℕ) (r : CombineReceivers K) : Event K → Option (CombineReceivers K)
  | .readPrev f =>
      if r.prevTail f = none then
        some { r with prevTail := update r.prevTail f (some r.readerPrevTail) }
      else none
  | .look f =>
      (r.prevTail f).bind fun prev =>
        (HeadScan.step p r.scan
          (.see f (WrapCounter.diff (BitVec.ofNat 32 tail) prev))).map fun scan =>
            { r with scan := scan }
  | .scan e =>
      if r.Enabled e then (HeadScan.step p r.scan e).map fun scan => { r with scan := scan }
      else none
  | .writeback f =>
      if r.scan.retired f = true ∧ r.wrote f = false then
        some
          { r with
            readerPrevTail :=
              atomicmaxReaderPrevCumulative r.readerPrevTail (BitVec.ofNat 32 tail)
            wrote := update r.wrote f true }
      else none
  | .exit =>
      if r.exited = false ∧ (∀ f, r.scan.retired f = true) ∧ r.scan.scanned = 0 ∧
          r.scan.flagged = false then
        some { r with exited := true }
      else none

/-- What a step adds to the head. -/
def credits (p : Plan K) (r : CombineReceivers K) : Event K → List ℕ
  | .scan e => passed p r.scan e
  | _ => []

/-- All warps are through. -/
def Done (r : CombineReceivers K) : Prop := (∀ f, r.wrote f = true) ∧ r.exited = true

instance (r : CombineReceivers K) : Decidable r.Done := by
  unfold Done
  infer_instance

end CombineReceivers

/-! ### The two sides and the network -/

/-- A ring and its counters. -/
structure CombineLink (K : ℕ) where
  forwarder : CombineForwarder
  receivers : CombineReceivers K
  /-- The iteration and the token that each slot holds, at the origin -/
  ring : ℕ → Option (ℕ × ℕ)
  /-- and where tokens are staged for another node. -/
  sendBuffer : ℕ → Option (ℕ × ℕ)
  /-- Puts, and additions to the tail, that are under way. -/
  queue : List Queued
  /-- The additions to `rdma_channel_tail` that have arrived; the word holds 32 bits. -/
  rdmaChannelTail : ℕ
  /-- Additions to the head that are under way, with the iteration that returned them. -/
  credits : List (ℕ × ℕ)
  rdmaChannelHead : ℕ
  /-- How many tokens each iteration has put. -/
  put : ℕ → ℕ

namespace CombineLink

def start (p : Plan K) : CombineLink K where
  forwarder := .start
  receivers := .start p 0
  ring _ := none
  sendBuffer _ := none
  queue := []
  rdmaChannelTail := 0
  credits := []
  rdmaChannelHead := 0
  put _ := 0

inductive Event (K : ℕ) where
  | forwarder (e : CombineForwarder.Event)
  | receivers (e : CombineReceivers.Event K)
  | landPacket (k : ℕ)
  | landCredit (k : ℕ)

/-- Write tokens of iteration `i` into their slots. -/
def write (i : ℕ) (writes : List (ℕ × ℕ)) (buffer : ℕ → Option (ℕ × ℕ)) : ℕ → Option (ℕ × ℕ) :=
  Store.run (writes.map fun w => ⟨w.1, some (i, w.2)⟩) buffer

/-- How many tokens a step puts. -/
def putNow (cfg : Config) (numTokens : ℕ) (f : CombineForwarder) : CombineForwarder.Event → ℕ
  | .put => f.numChunkedTokens cfg numTokens
  | _ => 0

/-- A packet arrives. -/
def land (l : CombineLink K) (k : ℕ) : Queued → Option (CombineLink K)
  | .put _ => some { l with queue := l.queue.eraseIdx k }
  | .add n =>
      if NoPut l.queue k then
        some
          { l with
            queue := l.queue.eraseIdx k
            rdmaChannelTail := l.rdmaChannelTail + n }
      else none

/-- A step while the forwarder is in iteration `i` and the origin in iteration `k`. -/
def step (cfg : Config) (d : ℕ → Delivery K) (own : Bool) (i k : ℕ) (l : CombineLink K) :
    Event K → Option (CombineLink K)
  | .forwarder e =>
      (l.forwarder.step cfg (d i).numTokens l.rdmaChannelHead e).map fun f =>
        { l with
          forwarder := f
          ring := write i (l.forwarder.ringWrites cfg (d i).numTokens own e) l.ring
          sendBuffer := write i (CombineForwarder.sendWrites cfg own e) l.sendBuffer
          queue := l.queue ++ l.forwarder.packets cfg (d i).numTokens own (delivered d i) e
          put := update l.put i (l.put i + putNow cfg (d i).numTokens l.forwarder e) }
  | .receivers e =>
      (l.receivers.step (d k).plan l.rdmaChannelTail e).map fun r =>
        { l with
          receivers := r
          credits := l.credits ++ (l.receivers.credits (d k).plan e).map fun n => (k, n) }
  | .landPacket j => (l.queue[j]?).bind fun packet => l.land j packet
  | .landCredit j =>
      (l.credits[j]?).map fun c =>
        { l with credits := l.credits.eraseIdx j, rdmaChannelHead := l.rdmaChannelHead + c.2 }

end CombineLink

/-! ### What the forwarder keeps -/

variable {cfg : Config}

namespace CombineForwarder

/-- The forwarder goes through its tokens in whole chunks. -/
structure Inv (cfg : Config) (numTokens : ℕ) (f : CombineForwarder) : Prop where
  aligned : cfg.numMaxRdmaChunkedSendTokens ∣ f.tokenStartIdx
  granted : f.granted = true → f.tokenStartIdx < numTokens
  staged : ∀ t, f.staged t = true → f.tokenStartIdx ≤ t →
    f.granted = true ∧ t < f.tokenEndIdx cfg numTokens

theorem start_inv (numTokens : ℕ) : start.Inv cfg numTokens where
  aligned := dvd_zero _
  granted granted := Bool.noConfusion granted
  staged _ staged := Bool.noConfusion staged

theorem putCount_start (numTokens : ℕ) : start.putCount numTokens = 0 := Nat.zero_min _

variable {numTokens head : ℕ} {f f' : CombineForwarder} {e : Event}

theorem tokenEndIdx_le : f.tokenEndIdx cfg numTokens ≤
    f.tokenStartIdx + cfg.numMaxRdmaChunkedSendTokens := min_le_left _ _

/-- **Every step of the forwarder keeps the invariant**, and what it puts is counted. -/
theorem step_inv (inv : f.Inv cfg numTokens) (fires : f.step cfg numTokens head e = some f') :
    f'.Inv cfg numTokens ∧
      f'.putCount numTokens = f.putCount numTokens + CombineLink.putNow cfg numTokens f e := by
  cases e with
  | enter =>
      simp only [step, Option.ite_none_right_eq_some, Option.some.injEq] at fires
      obtain ⟨-, rfl⟩ := fires
      exact ⟨{ inv with }, rfl⟩
  | grant =>
      simp only [step, Option.bind_eq_some_iff, Option.ite_none_right_eq_some,
        Option.some.injEq] at fires
      obtain ⟨prev, -, ⟨⟨not_granted, more⟩, -⟩, rfl⟩ := fires
      refine ⟨{ inv with
        granted := fun _ => more
        staged := fun t staged from_start => ⟨rfl, (inv.staged t staged from_start).2⟩ }, rfl⟩
  | stage t =>
      simp only [step, Option.ite_none_right_eq_some, Option.some.injEq] at fires
      obtain ⟨⟨granted, lo, hi, -⟩, rfl⟩ := fires
      refine ⟨{ inv with staged := fun t' staged from_start => ?_ }, rfl⟩
      rcases Store.update_cases staged with ⟨rfl, -⟩ | ⟨-, staged⟩
      · exact ⟨granted, hi⟩
      · exact inv.staged t' staged from_start
  | put =>
      simp only [step, Option.ite_none_right_eq_some, Option.some.injEq] at fires
      obtain ⟨⟨granted, -⟩, rfl⟩ := fires
      have more := inv.granted granted
      refine ⟨⟨Nat.dvd_add inv.aligned (Nat.dvd_refl _), fun no => Bool.noConfusion no,
        fun t staged from_start => ?_⟩, ?_⟩
      · -- the next chunk starts behind all that has been staged
        have before := (inv.staged t staged ((Nat.le_add_right _ _).trans from_start)).2
        exact absurd (before.trans_le tokenEndIdx_le) (not_lt.2 from_start)
      · simp only [putCount, CombineLink.putNow, numChunkedTokens, tokenEndIdx]
        omega

/-- A chunk's slots follow each other. -/
theorem slot_eq (inv : f.Inv cfg numTokens) {k : ℕ} (hk : k < f.numChunkedTokens cfg numTokens) :
    f.tokenStartIdx % cfg.numMaxRdmaChunkedRecvTokens + k =
      (f.tokenStartIdx + k) % cfg.numMaxRdmaChunkedRecvTokens := by
  have le : f.tokenEndIdx cfg numTokens ≤ f.tokenStartIdx + cfg.numMaxRdmaChunkedSendTokens :=
    tokenEndIdx_le
  have chunk : k < cfg.numMaxRdmaChunkedSendTokens := by
    rw [numChunkedTokens] at hk
    omega
  have aligned : cfg.numMaxRdmaChunkedSendTokens ∣
      f.tokenStartIdx % cfg.numMaxRdmaChunkedRecvTokens :=
    (Nat.dvd_mod_iff cfg.rdmaRecv_aligned).2 inv.aligned
  have pos : 0 < cfg.numMaxRdmaChunkedRecvTokens := Config.rdmaRecv_pos
  have below := Nat.mod_lt f.tokenStartIdx pos
  -- a whole chunk fits behind its first slot
  obtain ⟨a, ha⟩ := aligned
  obtain ⟨b, hb⟩ := cfg.rdmaRecv_aligned
  have fits : cfg.numMaxRdmaChunkedSendTokens * (a + 1) ≤ cfg.numMaxRdmaChunkedRecvTokens := by
    rw [hb]
    refine Nat.mul_le_mul_left _ (Nat.succ_le_of_lt ?_)
    rw [ha, hb] at below
    exact Nat.lt_of_mul_lt_mul_left below
  rw [Nat.mul_succ, ← ha] at fits
  have inside : f.tokenStartIdx % cfg.numMaxRdmaChunkedRecvTokens + k <
      cfg.numMaxRdmaChunkedRecvTokens := by omega
  rw [← Nat.mod_add_mod, Nat.mod_eq_of_lt inside]

end CombineForwarder

/-! ### What the receivers keep -/

namespace CombineReceivers

/-- The word is what the tail held when some warp exited: behind what any warp that has
written back has read. -/
structure Word (p : Plan K) (before tail : ℕ) (r : CombineReceivers K) (x : ℕ) : Prop where
  word : r.readerPrevTail = BitVec.ofNat 32 x
  lower : before ≤ x
  upper : x ≤ tail
  first : (∀ f, r.wrote f = false) → x = before
  wrote : ∀ f, r.wrote f = true → ∀ m < p.count f, (before : ℤ) + p.entry f m < x

/-- The receivers in an iteration before which `before` tokens were put, when the additions
to the tail sum to `tail`. -/
structure Inv (p : Plan K) (before tail : ℕ) (r : CombineReceivers K) : Prop where
  scan : HeadScan.Inv p r.scan
  word : ∃ x, r.Word p before tail x
  prevTail : ∀ f prev, r.prevTail f = some prev →
    ∃ y, prev = BitVec.ofNat 32 y ∧ before ≤ y ∧ y ≤ tail
  seen : ∀ f, (before : ℤ) + r.scan.seen f ≤ tail
  read : ∀ f, ∀ m < r.scan.done f, (before : ℤ) + p.entry f m < tail
  wrote : ∀ f, r.wrote f = true → r.scan.retired f = true

variable {p : Plan K} {before tail : ℕ} {r r' : CombineReceivers K} {e : Event K}

/-- Additions that arrive later do no harm. -/
theorem Inv.mono (inv : r.Inv p before tail) {tail' : ℕ} (le : tail ≤ tail') :
    r.Inv p before tail' where
  scan := inv.scan
  word :=
    have ⟨x, word⟩ := inv.word
    ⟨x, { word with upper := word.upper.trans le }⟩
  prevTail f prev read :=
    have ⟨y, same, lo, hi⟩ := inv.prevTail f prev read
    ⟨y, same, lo, hi.trans le⟩
  seen f := (inv.seen f).trans (Int.ofNat_le.2 le)
  read f m done := (inv.read f m done).trans_le (Int.ofNat_le.2 le)
  wrote := inv.wrote

theorem start_inv {word : BitVec 32} (exact : word = BitVec.ofNat 32 before)
    (le : before ≤ tail) : (start p word).Inv p before tail where
  scan := HeadScan.start_inv p
  word := ⟨before, exact, le_rfl, le, fun _ => rfl, fun _ wrote => Bool.noConfusion wrote⟩
  prevTail _ _ read := by cases read
  seen _ := (add_zero _).trans_le (Int.ofNat_le.2 le)
  read _ m done := absurd done (Nat.not_lt_zero m)
  wrote _ wrote := Bool.noConfusion wrote

/-- **Every step of the receivers keeps the invariant**, and returns what its coordinator
passes on. -/
theorem step_inv {d : Delivery K} (inv : r.Inv d.plan before tail)
    (bound : tail ≤ before + d.numTokens) (fires : r.step d.plan tail e = some r') :
    r'.Inv d.plan before tail ∧
      r'.scan.returned = r.scan.returned + (r.credits d.plan e).sum := by
  cases e with
  | readPrev f =>
      simp only [step, Option.ite_none_right_eq_some, Option.some.injEq] at fires
      obtain ⟨-, rfl⟩ := fires
      refine ⟨{ inv with word := ?_, prevTail := fun f' prev read => ?_ }, rfl⟩
      · obtain ⟨x, word⟩ := inv.word
        exact ⟨x, { word with }⟩
      · rcases Store.update_cases read with ⟨-, new⟩ | ⟨-, read⟩
        · obtain ⟨x, word⟩ := inv.word
          exact ⟨x, (Option.some.inj new).symm.trans word.word, word.lower, word.upper⟩
        · exact inv.prevTail f' prev read
  | look f =>
      simp only [step, Option.bind_eq_some_iff, Option.map_eq_some_iff] at fires
      obtain ⟨prev, read, scan, sees, rfl⟩ := fires
      obtain rfl := Option.some.inj sees
      refine ⟨{ inv with
        scan := inv.scan.step d.sound sees
        word := ?_
        seen := fun f' => ?_ }, rfl⟩
      · obtain ⟨x, word⟩ := inv.word
        exact ⟨x, { word with }⟩
      -- a baseline is never behind the true one, so no warp sees more than has arrived
      · obtain ⟨y, rfl, lo, hi⟩ := inv.prevTail f prev read
        dsimp only
        rw [update_apply]
        split_ifs
        · have le := WrapCounter.diff_le (w := 32) hi
          omega
        · exact inv.seen f'
  | scan e =>
      simp only [step, Option.ite_none_right_eq_some, Option.map_eq_some_iff] at fires
      obtain ⟨enabled, scan, moves, rfl⟩ := fires
      have common := step_moves moves
      have seen : scan.seen = r.scan.seen := common.seen.resolve_right fun ⟨w, arrived, sees⟩ => by
        subst sees
        exact enabled
      refine ⟨{ inv with
        scan := inv.scan.step d.sound moves
        word := ?_
        seen := seen ▸ inv.seen
        read := fun f m done => ?_
        wrote := fun f wrote => common.retired f (inv.wrote f wrote) }, common.returned⟩
      · obtain ⟨x, word⟩ := inv.word
        exact ⟨x, { word with }⟩
      · rcases common.read f m done with before | ⟨arrived, -⟩
        · exact inv.read f m before
        · have := inv.seen f
          omega
  | writeback f =>
      simp only [step, Option.ite_none_right_eq_some, Option.some.injEq] at fires
      obtain ⟨⟨retired, -⟩, rfl⟩ := fires
      -- a retired warp has read all its tokens, and the live tail has them behind it
      have all_read := inv.scan.retired f retired ▸ inv.read f
      obtain ⟨x, word⟩ := inv.word
      have lower := word.lower
      have upper := word.upper
      refine ⟨{ inv with
        word := ⟨tail, ?_, lower.trans upper, le_rfl, fun none => ?_, fun f' wrote m hm => ?_⟩
        wrote := fun f' wrote => ?_ }, rfl⟩
      · dsimp only
        rw [word.word, atomicmaxReaderPrevCumulative, WrapCounter.advance_ofNat (by decide)
          (by have := d.isInt; omega) (by omega), max_eq_right upper]
      · exact Bool.noConfusion ((update_self f true r.wrote).symm.trans (none f))
      · rcases Store.update_cases wrote with ⟨rfl, -⟩ | ⟨-, wrote⟩
        · exact all_read m hm
        · exact (word.wrote f' wrote m hm).trans_le (Int.ofNat_le.2 upper)
      · rcases Store.update_cases wrote with ⟨rfl, -⟩ | ⟨-, wrote⟩
        · exact retired
        · exact inv.wrote f' wrote
  | exit =>
      simp only [step, Option.ite_none_right_eq_some, Option.some.injEq] at fires
      obtain ⟨-, rfl⟩ := fires
      refine ⟨{ inv with word := ?_ }, rfl⟩
      obtain ⟨x, word⟩ := inv.word
      exact ⟨x, { word with }⟩

end CombineReceivers

/-! ### What the ring keeps -/

namespace CombineLink

variable {d : ℕ → Delivery K} {own : Bool} {i k : ℕ} {l l' : CombineLink K}

/-- A ring while the forwarder is in iteration `i` and the origin in iteration `k`: what has
been put has been counted, or will be by what is under way. -/
structure Inv (cfg : Config) (d : ℕ → Delivery K) (i k : ℕ) (l : CombineLink K) : Prop where
  forwarder : l.forwarder.Inv cfg (d i).numTokens
  receivers : l.receivers.Inv (d k).plan (delivered d k) l.rdmaChannelTail
  tails : l.rdmaChannelTail + adds l.queue =
    delivered d i + l.forwarder.putCount (d i).numTokens
  ordered : Ordered l.rdmaChannelTail l.queue
  put : ∀ j, l.put j = if j < i then (d j).numTokens else
    if j = i then l.forwarder.putCount (d i).numTokens else 0

/-- The forwarder is not in a later combine than the origin. -/
def InStep (i k : ℕ) (l : CombineLink K) : Prop :=
  i ≤ k ∨ i = k + 1 ∧ l.forwarder.tokenStartIdx = 0

theorem putCount_le (f : CombineForwarder) (n : ℕ) : f.putCount n ≤ n := min_le_right _ _

/-- No more has arrived than this iteration's tokens. -/
theorem Inv.tail_le (inv : l.Inv cfg d i k) (inStep : l.InStep i k) :
    l.rdmaChannelTail ≤ delivered d k + (d k).numTokens := by
  have tails := inv.tails
  have here := putCount_le l.forwarder (d i).numTokens
  rcases inStep with le | ⟨rfl, none⟩
  · have mono := delivered_mono d (Nat.succ_le_succ le)
    rw [delivered_succ, delivered_succ] at mono
    omega
  · have zero : l.forwarder.putCount (d (k + 1)).numTokens = 0 := by
      rw [CombineForwarder.putCount, none, Nat.zero_min]
    rw [delivered_succ, zero] at tails
    omega

theorem start_inv (cfg : Config) (d : ℕ → Delivery K) : (start (d 0).plan).Inv cfg d 0 0 where
  forwarder := CombineForwarder.start_inv _
  receivers := CombineReceivers.start_inv rfl le_rfl
  tails := by
    rw [delivered, sum_range_zero]
    exact (CombineForwarder.putCount_start _).symm.trans (Nat.zero_add _).symm
  ordered := trivial
  put j := by
    rw [if_neg (Nat.not_lt_zero j)]
    split_ifs
    · exact (CombineForwarder.putCount_start _).symm
    · rfl

/-- What a step puts is announced behind it. -/
theorem adds_packets (numTokens before : ℕ) (f : CombineForwarder) (e : CombineForwarder.Event) :
    adds (f.packets cfg numTokens own before e) = putNow cfg numTokens f e := by
  cases e with
  | put => cases own <;> rfl
  | enter | grant | stage t => rfl

theorem ordered_packets {numTokens before : ℕ} {f : CombineForwarder} {e : CombineForwarder.Event}
    (put : e = .put → f.tokenStartIdx ≤ numTokens) :
    Ordered (before + f.putCount numTokens) (f.packets cfg numTokens own before e) := by
  cases e with
  | put =>
      have all : f.putCount numTokens = f.tokenStartIdx := min_eq_left (put rfl)
      cases own with
      | true => exact trivial
      | false => exact ⟨congrArg (before + ·) all.symm, trivial⟩
  | enter | grant | stage t => exact trivial

/-- **Every step on a ring keeps its invariant.** -/
theorem step_inv {e : Event K} (inv : l.Inv cfg d i k) (inStep : l.InStep i k)
    (fires : l.step cfg d own i k e = some l') : l'.Inv cfg d i k := by
  cases e with
  | forwarder e =>
      simp only [step, Option.map_eq_some_iff] at fires
      obtain ⟨f, fires, rfl⟩ := fires
      have ⟨forwarder, count⟩ := CombineForwarder.step_inv inv.forwarder fires
      refine ⟨forwarder, inv.receivers, ?_, inv.ordered.append ?_, fun j => ?_⟩
      · rw [adds_append, adds_packets, ← Nat.add_assoc, inv.tails, count, Nat.add_assoc]
      · rw [inv.tails]
        refine ordered_packets ?_
        rintro rfl
        simp only [CombineForwarder.step, Option.ite_none_right_eq_some] at fires
        exact (inv.forwarder.granted fires.1.1).le
      · dsimp only
        rcases eq_or_ne j i with rfl | other
        · rw [update_self, inv.put, if_neg (lt_irrefl j), if_pos rfl, if_neg (lt_irrefl j),
            if_pos rfl, count]
        · rw [update_of_ne other, inv.put, if_neg other, if_neg other]
  | receivers e =>
      simp only [step, Option.map_eq_some_iff] at fires
      obtain ⟨r, fires, rfl⟩ := fires
      have := CombineReceivers.step_inv inv.receivers (inv.tail_le inStep) fires
      exact { inv with receivers := this.1 }
  | landPacket j =>
      simp only [step, Option.bind_eq_some_iff] at fires
      obtain ⟨packet, here, fires⟩ := fires
      cases packet with
      | put start =>
          obtain rfl := Option.some.inj fires
          have ⟨ordered, same⟩ := inv.ordered.put_applied here
          exact { inv with tails := same ▸ inv.tails, ordered := ordered }
      | add n =>
          simp only [land, Option.ite_none_right_eq_some, Option.some.injEq] at fires
          obtain ⟨clear, rfl⟩ := fires
          have ⟨ordered, same⟩ := inv.ordered.add_applied here clear
          refine { inv with
            receivers := inv.receivers.mono (Nat.le_add_right _ _)
            tails := ?_
            ordered := ordered }
          rw [Nat.add_assoc, same, inv.tails]
  | landCredit j =>
      simp only [step, Option.map_eq_some_iff] at fires
      obtain ⟨c, -, rfl⟩ := fires
      exact { inv with }

/-- **A receiver that sees a token's place has the token.** -/
theorem Inv.arrived (inv : l.Inv cfg d i k) (inStep : l.InStep i k) {f : Fin K} {t : ℕ}
    (sees : (t : ℤ) < l.receivers.scan.seen f) :
    t < l.put k ∧ ∀ first, .put first ∈ l.queue → delivered d k + t < first := by
  have seen := inv.receivers.seen f
  have bound := inv.tail_le inStep
  refine ⟨?_, fun first queued => ?_⟩
  · rw [inv.put]
    split_ifs with later here
    · omega
    · subst here
      have := inv.tails
      omega
    · -- the forwarder has not come to this iteration yet
      have tails := inv.tails
      have le := putCount_le l.forwarder (d i).numTokens
      have mono := delivered_mono d (show i + 1 ≤ k by omega)
      rw [delivered_succ] at mono
      omega
  · have le := inv.ordered.le_of_put queued
    omega

/-! ### From one iteration to the next -/

/-- The forwarder's next combine starts. -/
def nextForwarder (l : CombineLink K) : CombineLink K := { l with forwarder := .start }

/-- The receivers' next combine starts. -/
def nextReceivers (p : Plan K) (l : CombineLink K) : CombineLink K :=
  { l with receivers := .start p l.receivers.readerPrevTail }

theorem Inv.nextForwarder (inv : l.Inv cfg d i k) (done : l.forwarder.Done (d i).numTokens) :
    l.nextForwarder.Inv cfg d (i + 1) k where
  forwarder := CombineForwarder.start_inv _
  receivers := inv.receivers
  tails := by
    have all : l.forwarder.putCount (d i).numTokens = (d i).numTokens := min_eq_right done.2
    have tails := inv.tails
    rw [all, ← delivered_succ] at tails
    exact tails.trans (congrArg (delivered d (i + 1) + ·) (CombineForwarder.putCount_start _).symm)
  ordered := inv.ordered
  put j := by
    have all : l.forwarder.putCount (d i).numTokens = (d i).numTokens := min_eq_right done.2
    refine (inv.put j).trans ?_
    show _ = if j < i + 1 then (d j).numTokens else
      if j = i + 1 then CombineForwarder.start.putCount (d (i + 1)).numTokens else 0
    rw [all, CombineForwarder.putCount_start, ite_self]
    rcases lt_trichotomy j i with before | rfl | after
    · rw [if_pos before, if_pos (Nat.lt_succ_of_lt before)]
    · rw [if_neg (lt_irrefl j), if_pos rfl, if_pos (Nat.lt_succ_self j)]
    · rw [if_neg after.not_gt, if_neg after.ne', if_neg (by omega)]

/-- When all receivers are through, the whole iteration has arrived, and their baseline is
that of the next. -/
theorem Inv.finished (inv : l.Inv cfg d i k) (inStep : l.InStep i k) (done : l.receivers.Done) :
    l.rdmaChannelTail = delivered d (k + 1) ∧
      l.receivers.readerPrevTail = BitVec.ofNat 32 (delivered d (k + 1)) := by
  have bound := inv.tail_le inStep
  obtain ⟨x, word⟩ := inv.receivers.word
  have lower := word.lower
  have upper := word.upper
  -- the last token was read by a warp that has written back since
  have all : delivered d k + (d k).numTokens ≤ x := by
    rcases Nat.eq_zero_or_pos (d k).numTokens with none | some
    · omega
    · obtain ⟨f, m, taken, last⟩ := (d k).covers _ (Nat.sub_lt some Nat.one_pos)
      have read := word.wrote f (done.1 f) m taken
      omega
  rw [delivered_succ]
  refine ⟨by omega, word.word.trans (congrArg _ ?_)⟩
  omega

theorem Inv.nextReceivers (inv : l.Inv cfg d i k) (inStep : l.InStep i k)
    (done : l.receivers.Done) : (l.nextReceivers (d (k + 1)).plan).Inv cfg d i (k + 1) where
  __ := inv
  receivers :=
    have ⟨tail, word⟩ := inv.finished inStep done
    CombineReceivers.start_inv word tail.ge

end CombineLink

end StreamEP.Internode
