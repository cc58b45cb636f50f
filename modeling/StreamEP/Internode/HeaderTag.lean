import StreamEP.Internode.RingPhase
import StreamEP.Lib.Loop
import StreamEP.Lib.TransitionSystem

/-!
# The tag of a dispatch header

A forwarder accepts the header of its iteration when the tail has moved on and the slot
carries the tag `nvl_seq & 0xffff`.  The tail may become visible before the data, so the
slot may still hold what an earlier iteration left there: a token, whose tag is its
position modulo `2 ^ 16`, a header with its own sequence number, or zeros.

**The history.**  A `History` is the sequence of iterations on the ring, with their token
numbers, their sequence numbers and whether each is a dispatch or a dispatch_grads.  Rows are
not data but names (`Row`), the header or a token of some iteration, or zeros; a row determines
its tag, and `ringAfter` which row every slot holds when an iteration starts.

**One wait.**  `headerWait` is the system of one iteration's puts, of the tail increments behind
them and of the forwarder's wait, over the ring as the earlier iterations left it.  The puts take
effect in any order, and so do the increments.  A put of this iteration in the header's slot would
have to be a whole ring behind the header, and the credits that it takes come back only after the
header has been accepted (`slot_ne_watched`); but the header of a dispatch_grads may follow
without credit.

`header_confusion_iff`: no wait ever accepts anything but its own header exactly when the
row left in the header's slot has another tag, and so has a following header that may be
sent into the same slot.  In one direction the invariant `Inv` lists what the watched slot may
hold; in the other there is a run for each way to fail (`accepts_stale`, `accepts_next`).

In the example two dispatches follow each other over 260 slots, with 263 tokens in the first: the
header of the second falls on a token whose position has the header's tag.
-/

namespace StreamEP.Internode

open Function Loop

/-- Iterations of dispatch and dispatch_grads over one ring, with their numbers. -/
structure History extends Iterations where
  dispatchSeq : ℕ → ℕ
  /-- The iteration is one of dispatch_grads. -/
  backward : ℕ → Bool

/-- What a slot of the ring holds. -/
inductive Row where
  | zeroed
  | header (i : ℕ)
  | token (i t : ℕ)
  deriving DecidableEq

/-- The row comes from an iteration before `i`. -/
def Row.Before (i : ℕ) : Row → Prop
  | .zeroed => True
  | .header j => j < i
  | .token j _ => j < i

namespace History

variable (hist : History)

/-- `nvl_seq`, with the phase in its lowest bit. -/
def nvlSeq (i : ℕ) : ℕ :=
  if hist.backward i = true then hist.dispatchSeq i <<< 1 ||| 1 else hist.dispatchSeq i <<< 1

/-- `hdr_tag_want`. -/
def headerTag (i : ℕ) : ℕ := hist.nvlSeq i &&& 0xffff

/-- `slot_ring_tag` of token `t`. -/
def tokenTag (i t : ℕ) : ℕ :=
  (hist.readerPrevHead i + BitVec.ofNat 32 t + 1).toNat &&& 0xffff

/-- `seq_tag` of a row: bits 48 to 63 of its metadata word. -/
def tag : Row → ℕ
  | .zeroed => 0
  | .header i => hist.headerTag i
  | .token i t => hist.tokenTag i t

/-- The row at position `j` of iteration `i`. -/
def rowAt (i : ℕ) : ℕ → Row
  | 0 => .header i
  | t + 1 => .token i t

/-- The ring when the rows of the iterations before `i` have arrived. -/
def ringAfter (cfg : Config) : ℕ → ℕ → Row
  | 0 => fun _ => .zeroed
  | i + 1 =>
      for' (hist.numTokens i + 1)
        (fun ring j => update ring (senderSlot cfg (hist.readerPrevHead i) j) (rowAt i j))
        (ringAfter cfg i)

end History

/-! ### One wait -/

/-- The puts of iteration `i`, which take effect in any order, and the forwarder's wait. -/
structure HeaderWait where
  /-- Puts that the coordinator has issued: the header, the tokens, the next header. -/
  issued : ℕ
  landed : ℕ → Bool
  counted : ℕ → Bool
  /-- The tail, less the forwarder's baseline. -/
  tail : ℕ
  ring : ℕ → Row
  accepted : Option Row

namespace HeaderWait

inductive Event where
  | issue
  | land (j : ℕ)
  | count (j : ℕ)
  | accept

section Step

variable (cfg : Config) (hist : History) (i : ℕ)

/-- Slot of the `j`-th put. -/
def slot (j : ℕ) : ℕ :=
  if j ≤ hist.numTokens i then senderSlot cfg (hist.readerPrevHead i) j
  else senderSlot cfg (hist.readerPrevHead (i + 1)) 0

/-- Row of the `j`-th put. -/
def row (j : ℕ) : Row := if j ≤ hist.numTokens i then History.rowAt i j else .header (i + 1)

/-- The slot that the forwarder watches. -/
def watched : ℕ := forwarderSlot cfg (hist.readerPrevTail i) 0

/-- The `j`-th put takes effect, -/
def land (s : HeaderWait) (j : ℕ) : HeaderWait :=
  { s with
    landed := update s.landed j true
    ring := update s.ring (slot cfg hist i j) (row hist i j) }

/-- and so does the increment behind it. -/
def count (s : HeaderWait) (j : ℕ) : HeaderWait :=
  { s with counted := update s.counted j true, tail := s.tail + 1 }

/-- Until all forwarder warps have accepted the header no credit comes back, so tokens are
sent as far as the ring reaches.  After the last of them an iteration of dispatch_grads may
start; the metadata kernel before a dispatch waits for the forwarder's node. -/
def step (s : HeaderWait) : Event → Option HeaderWait
  | .issue =>
      if s.issued ≤ hist.numTokens i ∧ s.issued < cfg.numMaxRdmaChunkedRecvTokens ∨
          s.issued = hist.numTokens i + 1 ∧ i + 1 < hist.count ∧ hist.backward (i + 1) = true then
        some { s with issued := s.issued + 1 }
      else none
  | .land j => if j < s.issued ∧ s.landed j = false then some (s.land cfg hist i j) else none
  | .count j => if j < s.issued ∧ s.counted j = false then some (s.count j) else none
  | .accept =>
      if s.accepted = none ∧ 1 ≤ s.tail ∧
          hist.tag (s.ring (watched cfg hist i)) = hist.headerTag i then
        some { s with accepted := some (s.ring (watched cfg hist i)) }
      else none

end Step

end HeaderWait

/-- `n` puts have been issued, and none has taken effect. -/
def HeaderWait.sent (ring : ℕ → Row) (n : ℕ) : HeaderWait where
  issued := n
  landed _ := false
  counted _ := false
  tail := 0
  ring := ring
  accepted := none

/-- The wait for header `i`, over what the earlier iterations left in the ring. -/
def headerWait (cfg : Config) (hist : History) (i : ℕ) :
    TransitionSystem HeaderWait HeaderWait.Event where
  init := .sent (hist.ringAfter cfg i) 0
  step := HeaderWait.step cfg hist i

/-- Whatever a forwarder accepts is the header of its iteration. -/
def History.HeaderNeverConfused (cfg : Config) (hist : History) : Prop :=
  ∀ i < hist.count, ∀ s, (headerWait cfg hist i).Reachable s →
    ∀ row, s.accepted = some row → row = .header i

/-- The row left in the slot of header `i` has another tag, and so has the next header if it
may be sent into this slot while the forwarder still waits. -/
structure History.TagsDistinct (cfg : Config) (hist : History) (i : ℕ) : Prop where
  stale : hist.tag (hist.ringAfter cfg i (HeaderWait.watched cfg hist i)) ≠ hist.headerTag i
  next : i + 1 < hist.count → hist.backward (i + 1) = true →
    hist.numTokens i < cfg.numMaxRdmaChunkedRecvTokens →
    senderSlot cfg (hist.readerPrevHead (i + 1)) 0 = HeaderWait.watched cfg hist i →
      hist.headerTag (i + 1) ≠ hist.headerTag i

variable {cfg : Config} {hist : History}

/-- The ring holds only earlier rows. -/
theorem History.ringAfter_before (i slot : ℕ) : (hist.ringAfter cfg i slot).Before i := by
  induction i generalizing slot with
  | zero => trivial
  | succ i ih =>
      have later : ∀ row : Row, row.Before i → row.Before (i + 1) := by
        intro row before
        cases row with
        | zeroed => trivial
        | header j => exact Nat.lt_succ_of_lt before
        | token j t => exact Nat.lt_succ_of_lt before
      refine for_invariant (fun _ (ring : ℕ → Row) => ∀ slot, (ring slot).Before (i + 1))
        (fun slot => later _ (ih slot)) (fun j _ ring all slot => ?_) slot
      rcases eq_or_ne slot (senderSlot cfg (hist.readerPrevHead i) j) with rfl | other
      · rw [update_self]
        cases j <;> exact Nat.lt_succ_self i
      · rw [update_of_ne other]
        exact all slot

theorem History.ringAfter_ne_header (i slot : ℕ) : hist.ringAfter cfg i slot ≠ .header i := by
  intro same
  have before : (hist.ringAfter cfg i slot).Before i := hist.ringAfter_before i slot
  rw [same] at before
  exact lt_irrefl i before

namespace HeaderWait

theorem watched_eq (i : ℕ) :
    watched cfg hist i = senderSlot cfg (hist.readerPrevHead i) 0 := by
  rw [watched, forwarderSlot_eq, Iterations.readerPrevTail_eq]

/-- Tokens sent without credit stay out of the header's slot. -/
theorem slot_ne_watched {i j : ℕ} (pos : 0 < j) (isToken : j ≤ hist.numTokens i)
    (near : j < cfg.numMaxRdmaChunkedRecvTokens) : slot cfg hist i j ≠ watched cfg hist i := by
  rw [slot, if_pos isToken, watched_eq, senderSlot_eq, senderSlot_eq]
  exact (ReplayRings.mod_ne (Nat.add_lt_add_left pos _) (by omega)).symm

/-- What the watched slot may hold. -/
structure Inv (cfg : Config) (hist : History) (i : ℕ) (s : HeaderWait) : Prop where
  tokens : ∀ j < s.issued, j ≤ hist.numTokens i → j < cfg.numMaxRdmaChunkedRecvTokens
  next : ∀ j < s.issued, ¬j ≤ hist.numTokens i →
    hist.numTokens i < cfg.numMaxRdmaChunkedRecvTokens ∧ i + 1 < hist.count ∧
      hist.backward (i + 1) = true
  watched : s.ring (watched cfg hist i) = hist.ringAfter cfg i (watched cfg hist i) ∨
    s.ring (watched cfg hist i) = .header i ∨
    (s.ring (watched cfg hist i) = .header (i + 1) ∧
      (i + 1 < hist.count ∧ hist.backward (i + 1) = true) ∧
        hist.numTokens i < cfg.numMaxRdmaChunkedRecvTokens ∧
        senderSlot cfg (hist.readerPrevHead (i + 1)) 0 = HeaderWait.watched cfg hist i)
  accepted : ∀ row, s.accepted = some row → row = .header i

/-- A put that takes effect leaves one of these rows in the watched slot. -/
theorem Inv.land {i j : ℕ} {s : HeaderWait} (inv : Inv cfg hist i s) (sent : j < s.issued) :
    Inv cfg hist i (s.land cfg hist i j) where
  tokens := inv.tokens
  next := inv.next
  watched := by
    dsimp only [HeaderWait.land]
    rcases eq_or_ne (HeaderWait.watched cfg hist i) (slot cfg hist i j) with here | elsewhere
    · rw [here, update_self, ← here]
      right
      by_cases isToken : j ≤ hist.numTokens i
      · -- only the header itself can fall there
        have first : j = 0 := by
          by_contra later
          exact slot_ne_watched (Nat.pos_of_ne_zero later) isToken
            (inv.tokens j sent isToken) here.symm
        left
        rw [row, if_pos isToken, first]
        rfl
      · obtain ⟨small, more⟩ := inv.next j sent isToken
        refine Or.inr ⟨if_neg isToken, more, small, ?_⟩
        rw [here, slot, if_neg isToken]
    · rw [update_of_ne elsewhere]
      exact inv.watched
  accepted := inv.accepted

/-- **Every step keeps the invariant** when the tags are distinct. -/
theorem step_inv {i : ℕ} (distinct : hist.TagsDistinct cfg i) {s s' : HeaderWait} {e : Event}
    (inv : Inv cfg hist i s) (fires : step cfg hist i s e = some s') : Inv cfg hist i s' := by
  cases e with
  | issue =>
      simp only [step, Option.ite_none_right_eq_some, Option.some.injEq] at fires
      obtain ⟨gate, rfl⟩ := fires
      refine ⟨fun j hj isToken => ?_, fun j hj isNext => ?_, inv.watched, inv.accepted⟩
      · rcases Nat.lt_succ_iff_lt_or_eq.1 hj with earlier | rfl
        · exact inv.tokens j earlier isToken
        · rcases gate with ⟨-, near⟩ | ⟨last, -⟩
          · exact near
          · omega
      · rcases Nat.lt_succ_iff_lt_or_eq.1 hj with earlier | rfl
        · exact inv.next j earlier isNext
        · rcases gate with ⟨isToken, -⟩ | ⟨last, more⟩
          · exact absurd isToken isNext
          · exact ⟨inv.tokens _ (by omega) le_rfl, more⟩
  | land j =>
      simp only [step, Option.ite_none_right_eq_some, Option.some.injEq] at fires
      obtain ⟨⟨sent, -⟩, rfl⟩ := fires
      exact inv.land sent
  | count j =>
      simp only [step, Option.ite_none_right_eq_some, Option.some.injEq] at fires
      obtain ⟨-, rfl⟩ := fires
      exact ⟨inv.tokens, inv.next, inv.watched, inv.accepted⟩
  | accept =>
      simp only [step, Option.ite_none_right_eq_some, Option.some.injEq] at fires
      obtain ⟨⟨-, -, matched⟩, rfl⟩ := fires
      refine ⟨inv.tokens, inv.next, inv.watched, fun row got => ?_⟩
      obtain rfl := Option.some.inj got
      rcases inv.watched with old | own | ⟨ahead, more, small, same⟩
      · rw [old] at matched
        exact absurd matched distinct.stale
      · exact own
      · rw [ahead] at matched
        exact absurd matched (distinct.next more.1 more.2 small same)

/-- Issuing can go on to any point that the ring allows. -/
theorem reachable_issued {i n : ℕ} (tokens : n ≤ hist.numTokens i + 1)
    (near : n ≤ cfg.numMaxRdmaChunkedRecvTokens) :
    (headerWait cfg hist i).Reachable (sent (hist.ringAfter cfg i) n) := by
  induction n with
  | zero => exact .init
  | succ n ih =>
      have before := ih (Nat.le_of_succ_le tokens) (Nat.le_of_succ_le near)
      have fires : step cfg hist i (sent (hist.ringAfter cfg i) n) .issue =
          some (sent (hist.ringAfter cfg i) (n + 1)) :=
        if_pos (Or.inl ⟨Nat.le_of_succ_le_succ tokens, near⟩)
      exact before.step .issue fires

theorem Reachable.count {i j : ℕ} {s : HeaderWait} (reach : (headerWait cfg hist i).Reachable s)
    (sent : j < s.issued) (new : s.counted j = false) :
    (headerWait cfg hist i).Reachable (s.count j) :=
  reach.step (.count j) (if_pos ⟨sent, new⟩)

theorem Reachable.land {i j : ℕ} {s : HeaderWait} (reach : (headerWait cfg hist i).Reachable s)
    (sent : j < s.issued) (new : s.landed j = false) :
    (headerWait cfg hist i).Reachable (s.land cfg hist i j) :=
  reach.step (.land j) (if_pos ⟨sent, new⟩)

/-- The forwarder takes whatever row carries the tag. -/
theorem Reachable.accept {i : ℕ} {s : HeaderWait} (reach : (headerWait cfg hist i).Reachable s)
    (waiting : s.accepted = none) (arrived : 1 ≤ s.tail)
    (matched : hist.tag (s.ring (HeaderWait.watched cfg hist i)) = hist.headerTag i) :
    ∃ s', (headerWait cfg hist i).Reachable s' ∧
      s'.accepted = some (s.ring (HeaderWait.watched cfg hist i)) :=
  ⟨_, reach.step .accept (if_pos ⟨waiting, arrived, matched⟩), rfl⟩

/-- **An old row with the right tag is accepted**: the tail is seen before the data. -/
theorem accepts_stale {i : ℕ}
    (same : hist.tag (hist.ringAfter cfg i (watched cfg hist i)) = hist.headerTag i) :
    ∃ s, (headerWait cfg hist i).Reachable s ∧
      s.accepted = some (hist.ringAfter cfg i (watched cfg hist i)) := by
  have issued : (headerWait cfg hist i).Reachable (sent (hist.ringAfter cfg i) 1) :=
    reachable_issued (Nat.le_add_left _ _) Config.rdmaRecv_pos
  have counted := Reachable.count (j := 0) issued Nat.one_pos rfl
  exact Reachable.accept counted rfl le_rfl same

/-- **A following header with the same tag is accepted** when it falls into the same slot. -/
theorem accepts_next {i : ℕ} (more : i + 1 < hist.count ∧ hist.backward (i + 1) = true)
    (small : hist.numTokens i < cfg.numMaxRdmaChunkedRecvTokens)
    (slot_eq : senderSlot cfg (hist.readerPrevHead (i + 1)) 0 = watched cfg hist i)
    (same : hist.headerTag (i + 1) = hist.headerTag i) :
    ∃ s, (headerWait cfg hist i).Reachable s ∧ s.accepted = some (.header (i + 1)) := by
  have past : ¬hist.numTokens i + 1 ≤ hist.numTokens i := Nat.not_succ_le_self _
  have all : (headerWait cfg hist i).Reachable
      (sent (hist.ringAfter cfg i) (hist.numTokens i + 1)) := reachable_issued le_rfl small
  have issues : step cfg hist i (sent (hist.ringAfter cfg i) (hist.numTokens i + 1)) .issue =
      some (sent (hist.ringAfter cfg i) (hist.numTokens i + 2)) := if_pos (Or.inr ⟨rfl, more⟩)
  have landed := Reachable.land (j := hist.numTokens i + 1) (all.step .issue issues)
    (Nat.lt_succ_self _) rfl
  have counted := Reachable.count (j := 0) landed (Nat.succ_pos _) rfl
  have holds : update (hist.ringAfter cfg i) (slot cfg hist i (hist.numTokens i + 1))
      (row hist i (hist.numTokens i + 1)) (watched cfg hist i) = .header (i + 1) := by
    rw [slot, if_neg past, slot_eq, update_self, row, if_neg past]
  obtain ⟨s, reach, accepted⟩ := Reachable.accept counted rfl le_rfl
    ((congrArg hist.tag holds).trans same)
  exact ⟨s, reach, accepted.trans (congrArg some holds)⟩

end HeaderWait

/-- **When the header is never confused.** -/
theorem header_confusion_iff (cfg : Config) (hist : History) :
    hist.HeaderNeverConfused cfg ↔ ∀ i < hist.count, hist.TagsDistinct cfg i := by
  constructor
  · intro never i hi
    constructor
    case stale =>
      intro same
      obtain ⟨s, reach, accepted⟩ := HeaderWait.accepts_stale same
      exact hist.ringAfter_ne_header i _ (never i hi s reach _ accepted)
    case next =>
      intro more grads small slot_eq same
      obtain ⟨s, reach, accepted⟩ := HeaderWait.accepts_next ⟨more, grads⟩ small slot_eq same
      have := never i hi s reach _ accepted
      simp at this
  · intro distinct i hi s reach
    have inv : HeaderWait.Inv cfg hist i s := by
      refine reach.invariant ?_ fun s e s' inv fires => ?_
      · exact ⟨fun j hj => absurd hj (Nat.not_lt_zero j), fun j hj => absurd hj (Nat.not_lt_zero j),
          Or.inl rfl, fun row none => by simp [headerWait, HeaderWait.sent] at none⟩
      · exact HeaderWait.step_inv (distinct i hi) inv fires
    exact inv.accepted

/-! ### Two dispatches over 260 slots -/

/-- A dispatch with 263 tokens for one node, then another one. -/
def secondDispatch : History where
  count := 2
  numTokens _ := 263
  isInt _ := Nat.le_of_ble_eq_true rfl
  dispatchSeq i := i + 1
  backward _ := false

/-- The second header has the tag 4, and so has the token left in its slot. -/
theorem secondDispatch_confused : ¬secondDispatch.HeaderNeverConfused twoNodeConfig := by
  intro never
  have stale : secondDispatch.ringAfter twoNodeConfig 1
      (HeaderWait.watched twoNodeConfig secondDispatch 1) = .token 0 3 := by
    decide +kernel
  have same : secondDispatch.tag (.token 0 3) = secondDispatch.headerTag 1 := by
    decide +kernel
  obtain ⟨s, reach, accepted⟩ := HeaderWait.accepts_stale (stale ▸ same)
  have wrong := never 1 (by decide) s reach _ accepted
  rw [stale] at wrong
  simp at wrong

end StreamEP.Internode
