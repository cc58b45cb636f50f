import StreamEP.Internode.Nodes
import StreamEP.Internode.RingPhase
import StreamEP.Lib.SlidingWindow
import StreamEP.Lib.Store
import StreamEP.Lib.TransitionSystem

/-!
# One RDMA ring of dispatch and its credits

The ring of a (channel, source node, destination node) has a sender side (seven warps that
stage tokens and a coordinator that puts the header and chunks of tokens) and a forwarder
side (eight warps that drain it and a coordinator that returns credits).  What the sender
side puts is announced by additions to the tail, what the forwarder side has drained by
additions to the head; the network applies both some time later and in any order.

**Events.**  `Sender.Event` and `Forwarder.Event` have an event for each access to something
shared: the read of a baseline, a look at a counter, the staging of a token, the header, a chunk,
the write-back of a persistent word.  A step is partial: where a warp would wait, it has no value.
`Link` has both sides and what is under way between them, and a landing is an event of its own.

**Baselines.**  Counters are never reset.  A side subtracts from what it reads the number of
positions of all earlier iterations, which its warps keep in `reader_prev_head` and
`reader_prev_tail`; the first warp that exits adds the iteration to the word, by a maximum over
wrapping counters (`atomicmax_base`).  A warp that reads its baseline after that has one
that is an iteration too large.

**Conditions.**  `Sender.Punctual` and `Forwarder.Genuine` are what a step has to meet for the
counters to mean anything: no sender warp reads its baseline late or looks at the head when half
the range of a word is under way, and what is accepted as a header is one.  `Sender.Inv` and
`Forwarder.Inv` are kept by every step that meets them, and this module proves that, one step
lemma for each side.

What the two sides keep together, over many iterations and all rings, is in `CreditRuns`; what is
in the slots is in `CreditPuts`.
-/

namespace StreamEP.Internode

open Function Finset

/-- Iterations, and which sender warp a token of the ring falls to. -/
structure Traffic extends Iterations where
  warpOf : ℕ → ℕ → Fin numDispatchRdmaSenderWarps

/-! ### The sender side -/

/-- The sender side within an iteration. -/
structure Sender where
  /-- `reader_prev_head`, in global memory. -/
  readerPrevHead : BitVec 32
  /-- `prev_rdma_channel_head_at_entry` of the warps that have read it. -/
  prevHead : Fin numDispatchRdmaSenderWarps → Option (BitVec 32)
  /-- `cached_rdma_channel_head`. -/
  cachedHead : Fin numDispatchRdmaSenderWarps → Option ℤ
  /-- Tokens that are in the send buffer. -/
  staged : ℕ → Bool
  /-- Tokens that have been released into the window. -/
  released : ℕ → Bool
  /-- `rdma_send_channel_tail` and `rdma_send_channel_window`. -/
  window : SlidingWindow 32
  wroteHead : Fin numDispatchRdmaSenderWarps → Bool
  /-- The coordinator's own read of `reader_prev_head`. -/
  coordPrev : Option (BitVec 32)
  headerSent : Bool
  lastIssuedTail : ℕ

namespace Sender

/-- The sender side when its kernel starts. -/
def start (readerPrevHead : BitVec 32) : Sender where
  readerPrevHead := readerPrevHead
  prevHead _ := none
  cachedHead _ := none
  staged _ := false
  released _ := false
  window := .empty
  wroteHead _ := false
  coordPrev := none
  headerSent := false
  lastIssuedTail := 0

inductive Event where
  | readPrev (w : Fin numDispatchRdmaSenderWarps)
  | look (w : Fin numDispatchRdmaSenderWarps)
  | stage (w : Fin numDispatchRdmaSenderWarps) (j : ℕ)
  | release (w : Fin numDispatchRdmaSenderWarps) (j : ℕ)
  | writeback (w : Fin numDispatchRdmaSenderWarps)
  | coordReadPrev
  | header
  | issue

/-- `num_tokens_processed`. -/
def numTokensProcessed (s : Sender) : ℕ := s.window.tail - s.lastIssuedTail

section Step

variable (cfg : Config) (t : Traffic) (own : Bool) (i head : ℕ)

/-- `num_tokens_to_send`. -/
def numTokensToSend (s : Sender) : ℕ := t.numTokens i - s.lastIssuedTail

/-- `num_tokens_to_issue`: a put to another node does not run over the ring's end. -/
def numTokensToIssue (prev : BitVec 32) (s : Sender) : ℕ :=
  let n := min s.numTokensProcessed cfg.numMaxRdmaChunkedSendTokens
  if own = true then n
  else min n (cfg.numMaxRdmaChunkedRecvTokens - senderSlot cfg prev (s.lastIssuedTail + 1))

/-- A step in iteration `i`, when the additions to the head that have arrived sum to
`head`. -/
def step (s : Sender) : Event → Option Sender
  | .readPrev w =>
      if s.prevHead w = none then
        some { s with prevHead := update s.prevHead w (some s.readerPrevHead) }
      else none
  | .look w =>
      (s.prevHead w).map fun prev =>
        { s with
          cachedHead :=
            update s.cachedHead w (some (WrapCounter.diff (BitVec.ofNat 32 head) prev)) }
  | .stage w j =>
      (s.cachedHead w).bind fun cached =>
        if (j < t.numTokens i ∧ t.warpOf i j = w ∧ s.staged j = false) ∧
            (∀ k < j, t.warpOf i k = w → s.released k = true) ∧
              (j : ℤ) + 1 - cached < cfg.numMaxRdmaChunkedRecvTokens then
          some { s with staged := update s.staged j true }
        else none
  | .release w j =>
      if t.warpOf i j = w ∧ s.staged j = true ∧ s.released j = false then
        (s.window.mark j).map fun window =>
          { s with window := window, released := update s.released j true }
      else none
  | .writeback w =>
      (s.prevHead w).bind fun prev =>
        if s.wroteHead w = false ∧
            ∀ k < t.numTokens i, t.warpOf i k = w → s.released k = true then
          some
            { s with
              readerPrevHead := atomicmaxReaderPrevCumulative s.readerPrevHead
                (prev + BitVec.ofNat 32 (t.numTokens i) + 1)
              wroteHead := update s.wroteHead w true }
        else none
  | .coordReadPrev =>
      if s.coordPrev = none then some { s with coordPrev := some s.readerPrevHead } else none
  | .header =>
      if s.coordPrev ≠ none ∧ s.headerSent = false then some { s with headerSent := true }
      else none
  | .issue =>
      s.coordPrev.bind fun prev =>
        if s.headerSent = true ∧ 0 < s.numTokensToSend t i ∧
            (s.numTokensProcessed = s.numTokensToSend t i ∨
              cfg.numMaxRdmaChunkedSendTokens ≤ s.numTokensProcessed) then
          some { s with lastIssuedTail := s.lastIssuedTail + s.numTokensToIssue cfg own prev }
        else none

/-- What a step writes into the ring: slots, and the positions of the stream that go there.
On a node's ring to itself the sender warps write in place. -/
def puts (s : Sender) : Event → List (ℕ × ℕ)
  | .stage w j =>
      match own, s.prevHead w with
      | true, some prev => [(senderSlot cfg prev (j + 1), t.base i + (j + 1))]
      | _, _ => []
  | .header =>
      match s.coordPrev with
      | some prev => [(senderSlot cfg prev 0, t.base i)]
      | none => []
  | .issue =>
      match own, s.coordPrev with
      | false, some prev =>
          (List.range (s.numTokensToIssue cfg own prev)).map fun k =>
            (senderSlot cfg prev (s.lastIssuedTail + 1) + k,
              t.base i + (s.lastIssuedTail + 1 + k))
      | _, _ => []
  | _ => []

/-- What a step adds to the tail. -/
def tailAdds (s : Sender) : Event → List ℕ
  | .header => [1]
  | .issue =>
      match s.coordPrev with
      | some prev => [s.numTokensToIssue cfg own prev]
      | none => []
  | _ => []

/-- All warps of the sender side are through. -/
def Done (s : Sender) : Prop :=
  (∀ w, s.wroteHead w = true) ∧ s.headerSent = true ∧ s.lastIssuedTail = t.numTokens i

instance (s : Sender) : Decidable (s.Done t i) := by
  unfold Done
  infer_instance

end Step

/-- Positions that have been put in this iteration. -/
def sent (s : Sender) : ℕ := (if s.headerSent = true then 1 else 0) + s.lastIssuedTail

end Sender

theorem Sender.numTokensToIssue_le (cfg : Config) (own : Bool) (prev : BitVec 32) (s : Sender) :
    s.numTokensToIssue cfg own prev ≤ s.numTokensProcessed := by
  rw [numTokensToIssue]
  split_ifs
  · exact min_le_left _ _
  · exact (min_le_left _ _).trans (min_le_left _ _)

/-! ### The forwarder side -/

/-- The forwarder side within an iteration. -/
structure Forwarder where
  /-- `reader_prev_tail`, in global memory. -/
  readerPrevTail : BitVec 32
  /-- `prev_rdma_channel_tail_at_entry`. -/
  prevTail : Fin numMaxNvlPeers → Option (BitVec 32)
  /-- `rdma_recv_count_this_iter`, read from the header. -/
  recvCount : Fin numMaxNvlPeers → Option ℕ
  forwardChannelHead : Fin numMaxNvlPeers → ℕ
  forwardChannelRetired : Fin numMaxNvlPeers → Bool
  wroteTail : Fin numMaxNvlPeers → Bool
  /-- The coordinator's `last_head`. -/
  lastHead : ℕ
  /-- The coordinator has left its loop. -/
  exited : Bool
  /-- Credits that the coordinator has returned. -/
  returned : List ℕ

namespace Forwarder

/-- The forwarder side when its kernel starts. -/
def start (readerPrevTail : BitVec 32) : Forwarder where
  readerPrevTail := readerPrevTail
  prevTail _ := none
  recvCount _ := none
  forwardChannelHead _ := 0
  forwardChannelRetired _ := false
  wroteTail _ := false
  lastHead := 0
  exited := false
  returned := []

inductive Event where
  | readPrev (f : Fin numMaxNvlPeers)
  /-- The warp finds its tag in the header's slot and reads a count of tokens there. -/
  | accept (f : Fin numMaxNvlPeers) (count : ℕ)
  | seed (f : Fin numMaxNvlPeers)
  /-- The warp has passed the tokens before `m`. -/
  | drain (f : Fin numMaxNvlPeers) (m : ℕ)
  | retire (f : Fin numMaxNvlPeers)
  | writeback (f : Fin numMaxNvlPeers)
  | flush (m : ℕ)
  | exit

/-- `final_head`. -/
def finalHead (s : Forwarder) : ℕ :=
  univ.inf' ⟨0, mem_univ _⟩ s.forwardChannelHead

section Step

variable (cfg : Config) (tail : ℕ)

/-- What a step adds to the head. -/
def credits (s : Forwarder) : Event → List ℕ
  | .flush m => [m - s.lastHead]
  | .exit => if s.lastHead < s.finalHead then [s.finalHead - s.lastHead] else []
  | _ => []

/-- A step, when the additions to the tail that have arrived sum to `tail`.  The coordinator
reads the heads warp by warp, so its minimum may be behind all of them. -/
def step (s : Forwarder) : Event → Option Forwarder
  | .readPrev f =>
      if s.prevTail f = none then
        some { s with prevTail := update s.prevTail f (some s.readerPrevTail) }
      else none
  | .accept f count =>
      (s.prevTail f).bind fun prev =>
        if s.recvCount f = none ∧ 1 ≤ WrapCounter.diff (BitVec.ofNat 32 tail) prev then
          some { s with recvCount := update s.recvCount f (some count) }
        else none
  | .seed f =>
      if (∀ f', s.recvCount f' ≠ none) ∧ s.forwardChannelHead f = 0 then
        some { s with forwardChannelHead := update s.forwardChannelHead f 1 }
      else none
  | .drain f m =>
      (s.prevTail f).bind fun prev => (s.recvCount f).bind fun count =>
        if (1 ≤ s.forwardChannelHead f ∧ s.forwardChannelHead f ≤ m) ∧
            (m : ℤ) ≤ min (max 0 (WrapCounter.diff (BitVec.ofNat 32 tail) prev - 1)) count then
          some { s with forwardChannelHead := update s.forwardChannelHead f (m + 1) }
        else none
  | .retire f =>
      (s.recvCount f).bind fun count =>
        if s.forwardChannelHead f = count + 1 ∧ s.forwardChannelRetired f = false then
          some { s with forwardChannelRetired := update s.forwardChannelRetired f true }
        else none
  | .writeback f =>
      (s.prevTail f).bind fun prev => (s.recvCount f).bind fun count =>
        if s.forwardChannelRetired f = true ∧ s.wroteTail f = false then
          some
            { s with
              readerPrevTail := atomicmaxReaderPrevCumulative s.readerPrevTail
                (prev + BitVec.ofNat 32 count + 1)
              wroteTail := update s.wroteTail f true }
        else none
  | .flush m =>
      if s.exited = false ∧ s.lastHead + cfg.numMaxRdmaChunkedSendTokens ≤ m ∧
          (∃ f, m ≤ s.forwardChannelHead f) ∧
            ∀ f, s.forwardChannelRetired f = false → m ≤ s.forwardChannelHead f then
        some { s with lastHead := m, returned := s.returned ++ s.credits (.flush m) }
      else none
  | .exit =>
      if s.exited = false ∧ ∀ f, s.forwardChannelRetired f = true then
        some { s with exited := true, returned := s.returned ++ s.credits .exit }
      else none

end Step

/-- All warps of the forwarder side are through. -/
def Done (s : Forwarder) : Prop := (∀ f, s.wroteTail f = true) ∧ s.exited = true

instance (s : Forwarder) : Decidable s.Done := by
  unfold Done
  infer_instance

/-- Positions of the iteration that a warp has read. -/
def consumed (s : Forwarder) (f : Fin numMaxNvlPeers) : ℕ :=
  if s.recvCount f = none then 0 else max 1 (s.forwardChannelHead f)

end Forwarder

/-! ### The two sides and the network -/

/-- A ring and its counters. -/
structure Link where
  sender : Sender
  forwarder : Forwarder
  /-- The position of the stream that each slot holds. -/
  ring : ℕ → Option ℕ
  /-- Additions to the tail that are under way. -/
  tails : List ℕ
  /-- The additions to `rdma_channel_tail` that have arrived; the word holds 32 bits. -/
  rdmaChannelTail : ℕ
  /-- Additions to the head that are under way. -/
  credits : List ℕ
  rdmaChannelHead : ℕ

namespace Link

def start : Link where
  sender := .start 0
  forwarder := .start 0
  ring _ := none
  tails := []
  rdmaChannelTail := 0
  credits := []
  rdmaChannelHead := 0

inductive Event where
  | sender (e : Sender.Event)
  | forwarder (e : Forwarder.Event)
  | landTail (k : ℕ)
  | landCredit (k : ℕ)

/-- Write positions into their slots. -/
def putAll (puts : List (ℕ × ℕ)) (ring : ℕ → Option ℕ) : ℕ → Option ℕ :=
  Store.run (puts.map fun put => ⟨put.1, some put.2⟩) ring

/-- A step while the source is in iteration `i` and the destination in iteration `k`. -/
def step (cfg : Config) (t : Traffic) (own : Bool) (i : ℕ) (l : Link) : Event → Option Link
  | .sender e =>
      (l.sender.step cfg t own i l.rdmaChannelHead e).map fun s =>
        { l with
          sender := s
          ring := putAll (l.sender.puts cfg t own i e) l.ring
          tails := l.tails ++ l.sender.tailAdds cfg own e }
  | .forwarder e =>
      (l.forwarder.step cfg l.rdmaChannelTail e).map fun f =>
        { l with forwarder := f, credits := l.credits ++ l.forwarder.credits e }
  | .landTail k =>
      (l.tails[k]?).map fun n =>
        { l with tails := l.tails.eraseIdx k, rdmaChannelTail := l.rdmaChannelTail + n }
  | .landCredit k =>
      (l.credits[k]?).map fun n =>
        { l with credits := l.credits.eraseIdx k, rdmaChannelHead := l.rdmaChannelHead + n }

end Link

/-! ### What the sender side keeps -/

variable {cfg : Config} {t : Traffic}

/-- The exact count of an iteration ends up in a persistent word, whichever warp adds it. -/
theorem atomicmax_base (it : Iterations) (i : ℕ) {word prev : BitVec 32}
    (prev_eq : prev = BitVec.ofNat 32 (it.base i))
    (word_eq : word = BitVec.ofNat 32 (it.base i) ∨ word = BitVec.ofNat 32 (it.base (i + 1))) :
    atomicmaxReaderPrevCumulative word (prev + BitVec.ofNat 32 (it.numTokens i) + 1) =
      BitVec.ofNat 32 (it.base (i + 1)) := by
  have small := it.isInt i
  have succ := it.base_succ i
  have next : prev + BitVec.ofNat 32 (it.numTokens i) + 1 =
      BitVec.ofNat 32 (it.base (i + 1)) := by
    rw [prev_eq, succ, WrapCounter.ofNat_add]
    exact WrapCounter.ofNat_add _ 1
  rw [next, atomicmaxReaderPrevCumulative]
  rcases word_eq with rfl | rfl
  · rw [WrapCounter.advance_ofNat (by decide) (by omega) (by omega),
      max_eq_right (it.base_mono (Nat.le_succ i))]
  · rw [WrapCounter.advance_ofNat (by decide) (by omega) (by omega), max_self]

namespace Sender

/-- Between two halves of the counter's range, and before any of the warps writes back. -/
def Punctual (t : Traffic) (i head : ℕ) (s : Sender) : Event → Prop
  | .readPrev _ => ∀ w, s.wroteHead w = false
  | .look _ => t.base i ≤ head + 2 ^ 31
  | _ => True

/-- The sender side in iteration `i`, when `head` credits have arrived. -/
structure Inv (cfg : Config) (t : Traffic) (i head : ℕ) (s : Sender) : Prop where
  before : (∀ w, s.wroteHead w = false) → s.readerPrevHead = BitVec.ofNat 32 (t.base i)
  after : ∀ w, s.wroteHead w = true → s.readerPrevHead = BitVec.ofNat 32 (t.base (i + 1))
  prevHead : ∀ w prev, s.prevHead w = some prev → prev = BitVec.ofNat 32 (t.base i)
  cachedHead : ∀ w cached, s.cachedHead w = some cached → cached ≤ (head : ℤ) - t.base i
  staged : ∀ j, s.staged j = true →
    j < t.numTokens i ∧ t.base i + j + 1 < head + cfg.numMaxRdmaChunkedRecvTokens
  released : ∀ j, s.released j = true → s.staged j = true
  window : s.window.Tracks fun j => s.released j = true
  issued : s.lastIssuedTail ≤ s.window.tail
  first : s.headerSent = false → s.lastIssuedTail = 0

namespace Inv

variable {i head : ℕ} {s s' : Sender}

/-- The word holds one of the two bases. -/
theorem readerPrevHead (inv : s.Inv cfg t i head) :
    s.readerPrevHead = BitVec.ofNat 32 (t.base i) ∨
      s.readerPrevHead = BitVec.ofNat 32 (t.base (i + 1)) := by
  by_cases all : ∀ w, s.wroteHead w = false
  · exact Or.inl (inv.before all)
  · obtain ⟨w, wrote⟩ := not_forall.1 all
    exact Or.inr (inv.after w (Bool.eq_true_of_not_eq_false wrote))

/-- Credits that arrive later do no harm. -/
theorem mono (inv : s.Inv cfg t i head) {head' : ℕ} (le : head ≤ head') :
    s.Inv cfg t i head' where
  __ := inv
  cachedHead w cached look := (inv.cachedHead w cached look).trans (by omega)
  staged j here := ⟨(inv.staged j here).1, (inv.staged j here).2.trans_le (by omega)⟩

/-- The window never runs ahead of the tokens. -/
theorem tail_le (inv : s.Inv cfg t i head) : s.window.tail ≤ t.numTokens i := by
  by_contra beyond
  have released := inv.window.below _ (not_le.1 beyond)
  exact lt_irrefl _ (inv.staged _ (inv.released _ released)).1

theorem sent_le (inv : s.Inv cfg t i head) : t.base i + s.sent ≤ t.base (i + 1) := by
  have issued := inv.issued.trans inv.tail_le
  rw [t.base_succ, sent]
  split_ifs <;> omega

/-- Tokens that the coordinator has not got to yet are behind what it has sent. -/
theorem le_of_not_staged (inv : s.Inv cfg t i head) {j : ℕ} (new : s.staged j = false) :
    s.lastIssuedTail ≤ j := by
  refine inv.issued.trans (inv.window.tail_le fun released => ?_)
  rw [inv.released j released] at new
  exact Bool.noConfusion new

/-- A look at the head does not see more than has arrived. -/
theorem look_le (inv : s.Inv cfg t i head) {w} {prev : BitVec 32} (read : s.prevHead w = some prev)
    (near : t.base i ≤ head + 2 ^ 31) :
    WrapCounter.diff (BitVec.ofNat 32 head) prev ≤ (head : ℤ) - t.base i := by
  rw [inv.prevHead w prev read]
  rcases le_total (t.base i) head with ahead | behind
  · exact WrapCounter.diff_le ahead
  · exact (WrapCounter.diff_ofNat (by decide) (by omega) near).le

end Inv

theorem start_inv (i head : ℕ) {word : BitVec 32} (exact : word = BitVec.ofNat 32 (t.base i)) :
    (start word).Inv cfg t i head where
  before _ := exact
  after _ wrote := Bool.noConfusion wrote
  prevHead _ _ read := by cases read
  cachedHead _ _ looked := by cases looked
  staged _ here := Bool.noConfusion here
  released _ done := Bool.noConfusion done
  window :=
    have none : (fun j => (start word).released j = true) = fun _ => False :=
      funext fun _ => propext (iff_of_false Bool.false_ne_true id)
    none ▸ SlidingWindow.empty_tracks
  issued := Nat.le_refl 0
  first _ := rfl

/-- **Every step of the sender side keeps the invariant.** -/
theorem step_inv {own : Bool} {i head : ℕ} {s s' : Sender} {e : Event}
    (inv : s.Inv cfg t i head) (punctual : s.Punctual t i head e)
    (fires : s.step cfg t own i head e = some s') : s'.Inv cfg t i head := by
  cases e with
  | readPrev w =>
      simp only [step, Option.ite_none_right_eq_some, Option.some.injEq] at fires
      obtain ⟨-, rfl⟩ := fires
      refine { inv with prevHead := fun w' prev read => ?_ }
      rcases Store.update_cases read with ⟨-, new⟩ | ⟨-, read⟩
      · rw [← Option.some.inj new]
        exact inv.before punctual
      · exact inv.prevHead w' prev read
  | look w =>
      simp only [step, Option.map_eq_some_iff] at fires
      obtain ⟨prev, read, rfl⟩ := fires
      refine { inv with cachedHead := fun w' cached looked => ?_ }
      rcases Store.update_cases looked with ⟨rfl, new⟩ | ⟨-, looked⟩
      · rw [← Option.some.inj new]
        exact inv.look_le read punctual
      · exact inv.cachedHead w' cached looked
  | stage w j =>
      simp only [step, Option.bind_eq_some_iff, Option.ite_none_right_eq_some,
        Option.some.injEq] at fires
      obtain ⟨cached, looked, ⟨⟨lt, -, -⟩, -, room⟩, rfl⟩ := fires
      -- the token fits into the room that the warp has last seen, and heads only grow
      have credit := inv.cachedHead w cached looked
      refine { inv with staged := fun j' here => ?_, released := fun j' done => ?_ }
      · rcases Store.update_cases here with ⟨rfl, -⟩ | ⟨-, here⟩
        · exact ⟨lt, by omega⟩
        · exact inv.staged j' here
      · dsimp only
        rw [update_apply]
        split_ifs
        · rfl
        · exact inv.released j' done
  | release w j =>
      simp only [step, Option.ite_none_right_eq_some, Option.map_eq_some_iff] at fires
      obtain ⟨⟨-, staged, new⟩, window, marks, rfl⟩ := fires
      have new' : ¬s.released j = true := Bool.not_eq_true _ ▸ new
      have now : ∀ k, update s.released j true k = true ↔ k = j ∨ s.released k = true := by
        intro k
        rcases eq_or_ne k j with rfl | other
        · rw [update_self, iff_true_intro rfl, true_iff]
          exact Or.inl rfl
        · rw [update_of_ne other, or_iff_right other]
      refine { inv with released := fun k done => ?_, window := ?_, issued := ?_ }
      · rcases (now k).1 done with rfl | before
        · exact staged
        · exact inv.released k before
      · dsimp only
        rw [show (fun k => update s.released j true k = true) =
          fun k => k = j ∨ s.released k = true from funext fun k => propext (now k)]
        exact SlidingWindow.mark_tracks inv.window new' marks
      · exact inv.issued.trans (SlidingWindow.le_tail_of_mark marks)
  | writeback w =>
      simp only [step, Option.bind_eq_some_iff, Option.ite_none_right_eq_some,
        Option.some.injEq] at fires
      obtain ⟨prev, read, -, rfl⟩ := fires
      -- `atomicMax` makes the write-backs of all warps one
      have word := atomicmax_base t.toIterations i (inv.prevHead w prev read) inv.readerPrevHead
      refine { inv with before := fun none => ?_, after := fun _ _ => word }
      exact Bool.noConfusion ((update_self w true s.wroteHead).symm.trans (none w))
  | coordReadPrev =>
      simp only [step, Option.ite_none_right_eq_some, Option.some.injEq] at fires
      obtain ⟨-, rfl⟩ := fires
      exact { inv with }
  | header =>
      simp only [step, Option.ite_none_right_eq_some, Option.some.injEq] at fires
      obtain ⟨-, rfl⟩ := fires
      exact { inv with first := fun none => Bool.noConfusion none }
  | issue =>
      simp only [step, Option.bind_eq_some_iff, Option.ite_none_right_eq_some,
        Option.some.injEq] at fires
      obtain ⟨prev, -, ⟨sent, -⟩, rfl⟩ := fires
      refine { inv with issued := ?_, first := fun none => ?_ }
      -- what is issued has been released: no chunk goes past the tail of the window
      · have le := numTokensToIssue_le cfg own prev s
        have issued := inv.issued
        rw [numTokensProcessed] at le
        dsimp only
        omega
      · rw [sent] at none
        exact Bool.noConfusion none

end Sender

/-! ### What the forwarder side keeps -/

namespace Forwarder

/-- What a warp accepts as the header is the header of this iteration. -/
def Genuine (t : Traffic) (i : ℕ) : Event → Prop
  | .accept _ count => count = t.numTokens i
  | _ => True

/-- The forwarder side in iteration `i`, when the additions to the tail sum to `tail`. -/
structure Inv (cfg : Config) (t : Traffic) (i tail : ℕ) (s : Forwarder) : Prop where
  before : (∀ f, s.wroteTail f = false) → s.readerPrevTail = BitVec.ofNat 32 (t.base i)
  after : ∀ f, s.wroteTail f = true → s.readerPrevTail = BitVec.ofNat 32 (t.base (i + 1))
  prevTail : ∀ f prev, s.prevTail f = some prev → prev = BitVec.ofNat 32 (t.base i)
  recvCount : ∀ f count, s.recvCount f = some count →
    count = t.numTokens i ∧ t.base i + 1 ≤ tail ∧ s.prevTail f ≠ none
  arrived : ∀ f, t.base i + s.forwardChannelHead f ≤ tail
  head_le : ∀ f, s.forwardChannelHead f ≤ t.numTokens i + 1
  seeded : ∀ f, 0 < s.forwardChannelHead f → ∀ f', s.recvCount f' ≠ none
  retired : ∀ f, s.forwardChannelRetired f = true → s.forwardChannelHead f = t.numTokens i + 1
  wrote : ∀ f, s.wroteTail f = true → s.forwardChannelRetired f = true
  lastHead : ∀ f, s.lastHead ≤ s.forwardChannelHead f
  flushed : s.lastHead = 0 ∨ cfg.numMaxRdmaChunkedSendTokens ≤ s.lastHead
  running : s.exited = false → s.returned.sum = s.lastHead
  exited : s.exited = true →
    s.returned.sum = t.numTokens i + 1 ∧ ∀ f, s.forwardChannelRetired f = true

namespace Inv

variable {i tail : ℕ} {s : Forwarder}

/-- The word holds one of the two bases. -/
theorem readerPrevTail (inv : s.Inv cfg t i tail) :
    s.readerPrevTail = BitVec.ofNat 32 (t.base i) ∨
      s.readerPrevTail = BitVec.ofNat 32 (t.base (i + 1)) := by
  by_cases all : ∀ f, s.wroteTail f = false
  · exact Or.inl (inv.before all)
  · obtain ⟨f, wrote⟩ := not_forall.1 all
    exact Or.inr (inv.after f (Bool.eq_true_of_not_eq_false wrote))

/-- Additions that arrive later do no harm. -/
theorem mono (inv : s.Inv cfg t i tail) {tail' : ℕ} (le : tail ≤ tail') :
    s.Inv cfg t i tail' where
  __ := inv
  recvCount f count accepted :=
    have ⟨same, arrived, read⟩ := inv.recvCount f count accepted
    ⟨same, arrived.trans le, read⟩
  arrived f := (inv.arrived f).trans le

theorem base_le (inv : s.Inv cfg t i tail) : t.base i ≤ tail :=
  (Nat.le_add_right _ _).trans (inv.arrived 0)

/-- A warp reads its baseline before any of them may retire. -/
theorem none_wrote (inv : s.Inv cfg t i tail) {f} (unread : s.prevTail f = none) (f') :
    s.wroteTail f' = false := by
  by_contra wrote
  have head := inv.retired f' (inv.wrote f' (Bool.eq_true_of_not_eq_false wrote))
  obtain ⟨count, accepted⟩ :=
    Option.ne_none_iff_exists'.1 (inv.seeded f' (head ▸ Nat.succ_pos _) f)
  exact (inv.recvCount f count accepted).2.2 unread

/-- A published head is behind what the warp has read. -/
theorem head_le_consumed (inv : s.Inv cfg t i tail) (f) :
    s.forwardChannelHead f ≤ s.consumed f := by
  rcases Nat.eq_zero_or_pos (s.forwardChannelHead f) with none | some
  · exact none ▸ Nat.zero_le _
  · rw [consumed, if_neg (inv.seeded f some f)]
    exact le_max_right _ _

/-- What has been read has arrived. -/
theorem consumed_arrived (inv : s.Inv cfg t i tail) (f) : t.base i + s.consumed f ≤ tail := by
  rw [consumed]
  split_ifs with unread
  · exact inv.base_le
  · obtain ⟨count, accepted⟩ := Option.ne_none_iff_exists'.1 unread
    have header := (inv.recvCount f count accepted).2.1
    have head := inv.arrived f
    omega

/-- A warp moves on to position `n`. -/
theorem raise (inv : s.Inv cfg t i tail) {f} {n : ℕ} (up : s.forwardChannelHead f ≤ n)
    (arrived : t.base i + n ≤ tail) (le : n ≤ t.numTokens i + 1) (all : ∀ f', s.recvCount f' ≠ none)
    (retired : s.forwardChannelRetired f = true → n = t.numTokens i + 1) :
    Inv cfg t i tail { s with forwardChannelHead := update s.forwardChannelHead f n } := by
  have cases : ∀ f', (f' = f ∧ update s.forwardChannelHead f n f' = n) ∨
      update s.forwardChannelHead f n f' = s.forwardChannelHead f' := fun f' => by
    rcases eq_or_ne f' f with rfl | other
    · exact Or.inl ⟨rfl, update_self _ _ _⟩
    · exact Or.inr (update_of_ne other _ _)
  refine { inv with
    arrived := fun f' => ?_
    head_le := fun f' => ?_
    seeded := fun _ _ => all
    retired := fun f' through => ?_
    lastHead := fun f' => ?_ }
  all_goals
    dsimp only
    rcases cases f' with ⟨rfl, value⟩ | value
    all_goals rw [value]
  · exact arrived
  · exact inv.arrived f'
  · exact le
  · exact inv.head_le f'
  · exact retired through
  · exact inv.retired f' through
  · exact (inv.lastHead f').trans up
  · exact inv.lastHead f'

/-- Credits are returned for what all warps have drained. -/
theorem returned_le (inv : s.Inv cfg t i tail) (f) :
    s.returned.sum ≤ s.forwardChannelHead f := by
  cases exited : s.exited with
  | false =>
      rw [inv.running exited]
      exact inv.lastHead f
  | true =>
      have ⟨all, retired⟩ := inv.exited exited
      rw [all, inv.retired f (retired f)]

end Inv

theorem start_inv {i tail : ℕ} {word : BitVec 32} (exact : word = BitVec.ofNat 32 (t.base i))
    (arrived : t.base i ≤ tail) : (start word).Inv cfg t i tail where
  before _ := exact
  after _ wrote := Bool.noConfusion wrote
  prevTail _ _ read := by cases read
  recvCount _ _ accepted := by cases accepted
  arrived _ := arrived
  head_le _ := Nat.zero_le _
  seeded _ pos := absurd pos (Nat.lt_irrefl 0)
  retired _ through := Bool.noConfusion through
  wrote _ wrote := Bool.noConfusion wrote
  lastHead _ := Nat.le_refl 0
  flushed := Or.inl rfl
  running _ := rfl
  exited exited := Bool.noConfusion exited

/-- The last minimum, over warps that have all drained the ring. -/
theorem finalHead_eq {s : Forwarder} {n : ℕ} (all : ∀ f, s.forwardChannelHead f = n) :
    s.finalHead = n := by
  refine le_antisymm ?_ (Finset.le_inf' _ _ fun f _ => (all f).ge)
  exact (Finset.inf'_le _ (mem_univ 0)).trans (all 0).le

/-- **Every step of the forwarder side keeps the invariant.** -/
theorem step_inv {i tail : ℕ} {s s' : Forwarder} {e : Event} (inv : s.Inv cfg t i tail)
    (genuine : Genuine t i e) (fires : s.step cfg tail e = some s') : s'.Inv cfg t i tail := by
  cases e with
  | readPrev f =>
      simp only [step, Option.ite_none_right_eq_some, Option.some.injEq] at fires
      obtain ⟨unread, rfl⟩ := fires
      -- a warp that has not read yet holds the write-backs of all others up
      refine { inv with prevTail := fun f' prev read => ?_, recvCount := fun f' n accepted => ?_ }
      · rcases Store.update_cases read with ⟨-, new⟩ | ⟨-, read⟩
        · rw [← Option.some.inj new]
          exact inv.before (inv.none_wrote unread)
        · exact inv.prevTail f' prev read
      · have ⟨same, arrived, read⟩ := inv.recvCount f' n accepted
        refine ⟨same, arrived, fun none => read ?_⟩
        rcases Store.update_cases none with ⟨-, new⟩ | ⟨-, old⟩
        · exact absurd new (Option.some_ne_none _)
        · exact old
  | accept f count =>
      simp only [step, Option.bind_eq_some_iff, Option.ite_none_right_eq_some,
        Option.some.injEq] at fires
      obtain ⟨prev, read, ⟨-, one_le⟩, rfl⟩ := fires
      rw [inv.prevTail f prev read] at one_le
      -- the difference of two 32-bit words is never more than what there is
      have gap := one_le.trans (WrapCounter.diff_le inv.base_le)
      refine { inv with recvCount := fun f' n accepted => ?_, seeded := fun f' pos f'' none => ?_ }
      · rcases Store.update_cases accepted with ⟨rfl, new⟩ | ⟨-, accepted⟩
        · refine ⟨(Option.some.inj new).symm.trans genuine, by omega, ?_⟩
          exact read ▸ Option.some_ne_none _
        · exact inv.recvCount f' n accepted
      · rcases Store.update_cases none with ⟨-, new⟩ | ⟨-, old⟩
        · exact absurd new (Option.some_ne_none _)
        · exact inv.seeded f' pos f'' old
  | seed f =>
      simp only [step, Option.ite_none_right_eq_some, Option.some.injEq] at fires
      obtain ⟨⟨all, zero⟩, rfl⟩ := fires
      obtain ⟨count, accepted⟩ := Option.ne_none_iff_exists'.1 (all f)
      have header := (inv.recvCount f count accepted).2.1
      exact inv.raise (by omega) header (Nat.le_add_left _ _) all fun retired => by
        have := inv.retired f retired
        omega
  | drain f m =>
      simp only [step, Option.bind_eq_some_iff, Option.ite_none_right_eq_some,
        Option.some.injEq] at fires
      obtain ⟨prev, read, count, accepted, ⟨⟨pos, more⟩, visible⟩, rfl⟩ := fires
      rw [inv.prevTail f prev read, (inv.recvCount f count accepted).1] at visible
      have gap := WrapCounter.diff_le (w := 32) inv.base_le
      exact inv.raise (by omega) (by omega) (by omega) (inv.seeded f pos) fun retired => by
        have := inv.retired f retired
        omega
  | retire f =>
      simp only [step, Option.bind_eq_some_iff, Option.ite_none_right_eq_some,
        Option.some.injEq] at fires
      obtain ⟨count, accepted, ⟨through, -⟩, rfl⟩ := fires
      have still : ∀ f', s.forwardChannelRetired f' = true →
          update s.forwardChannelRetired f true f' = true := fun f' retired => by
        rw [update_apply, retired, ite_self]
      refine { inv with
        retired := fun f' retired => ?_
        wrote := fun f' wrote => still f' (inv.wrote f' wrote)
        exited := fun exited => ⟨(inv.exited exited).1, fun f' => still f' ?_⟩ }
      · rcases Store.update_cases retired with ⟨rfl, -⟩ | ⟨-, retired⟩
        · exact (inv.recvCount f' count accepted).1 ▸ through
        · exact inv.retired f' retired
      · exact (inv.exited exited).2 f'
  | writeback f =>
      simp only [step, Option.bind_eq_some_iff, Option.ite_none_right_eq_some,
        Option.some.injEq] at fires
      obtain ⟨prev, read, count, accepted, ⟨retired, -⟩, rfl⟩ := fires
      have word := atomicmax_base t.toIterations i (inv.prevTail f prev read) inv.readerPrevTail
      rw [← (inv.recvCount f count accepted).1] at word
      refine { inv with
        before := fun none => ?_
        after := fun _ _ => word
        wrote := fun f' wrote => ?_ }
      · exact Bool.noConfusion ((update_self f true s.wroteTail).symm.trans (none f))
      · rcases Store.update_cases wrote with ⟨rfl, -⟩ | ⟨-, wrote⟩
        · exact retired
        · exact inv.wrote f' wrote
  | flush m =>
      simp only [step, credits, Option.ite_none_right_eq_some, Option.some.injEq] at fires
      obtain ⟨⟨runs, threshold, ⟨f₀, some⟩, all⟩, rfl⟩ := fires
      -- a retired warp is at the end of its tokens, so the minimum need not look at it
      have le : ∀ f, m ≤ s.forwardChannelHead f := fun f => by
        cases retired : s.forwardChannelRetired f with
        | false => exact all f retired
        | true =>
            rw [inv.retired f retired]
            exact some.trans (inv.head_le f₀)
      refine { inv with
        lastHead := le
        flushed := Or.inr (le_of_add_le_right threshold)
        running := fun _ => ?_
        exited := fun exited => Bool.noConfusion (runs.symm.trans exited) }
      rw [List.sum_append, List.sum_singleton, inv.running runs]
      dsimp only
      omega
  | exit =>
      simp only [step, credits, Option.ite_none_right_eq_some, Option.some.injEq] at fires
      obtain ⟨⟨runs, all⟩, rfl⟩ := fires
      refine { inv with
        running := fun still => Bool.noConfusion still
        exited := fun _ => ⟨?_, all⟩ }
      -- the rest that no flush has returned goes back at the exit
      have last := inv.lastHead 0
      have heads := fun f => inv.retired f (all f)
      rw [heads 0] at last
      rw [List.sum_append, inv.running runs, finalHead_eq heads]
      split_ifs with short
      · rw [List.sum_singleton]
        omega
      · rw [List.sum_nil]
        omega

end Forwarder

end StreamEP.Internode
