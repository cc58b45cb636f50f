import Mathlib.Algebra.BigOperators.Group.Finset.Piecewise
import Mathlib.Algebra.Order.BigOperators.Group.Finset
import Mathlib.Data.Fintype.Card
import Mathlib.Data.Nat.ModEq
import StreamEP.Lib.TransitionSystem

/-!
# Rings that are used again and again

Participants exchange packets in rounds.  In the first half of a round every participant sends
packets `out`, over one lane for each channel and destination; what becomes of them is sent
`back` along the same lanes in the second half.  Every lane has a ring for either half, and all
rounds use the same rings and the same words: nothing is reset between two rounds, and nobody
waits for the others.  A participant goes on to its next half when it has done its own part.

**Stamps.**  Every word carries the stamp of the round that wrote it.  A reader takes a word with
the stamp of its own round for current, and reads any other head or tail as zero.

**Causality.**  What keeps the rounds apart is that a packet goes back only when everything it
depends on has been computed.  The packets of a lane go to tiles, a tile is computed when the
shares of all lanes have arrived, and a lane adds its shares when it has been drained.  So a
sender that has got its packets back knows that the other side has read what it sent
(`Inv.read_out`); and a packet that goes back shows that the other side has begun the round, so
that it is done with the rounds before (`Inv.read_back`).  A lane without packets needs no such
argument, as nothing of it can be unread.

**The invariant.**  Either way nothing that has not been read is in the way of a new packet
(`Inv.drained_before`), and a packet stays in its slot until it has been read (`Inv.kept`).  That
words of the right stamp are words of the right round is needed for what is taken from them, and
only there (`Word.Stamped.current`); it holds as long as the stamps of the rounds that have been
begun differ (`Fresh`).
-/

namespace RingReuse

open Finset Function

/-- The halves of a round. -/
inductive Way where
  | out
  | back
  deriving DecidableEq

/-- The way from one participant to another, over one channel. -/
structure Lane (ρ χ : Type*) where
  src : ρ
  channel : χ
  dst : ρ
  deriving DecidableEq

/-- Either half of a round has its own ring on each lane. -/
structure Ring (ρ χ : Type*) where
  way : Way
  lane : Lane ρ χ
  deriving DecidableEq

/-- What the source announces on a lane: where its packets start, and where they stop. -/
inductive Offset where
  | start
  | stop
  deriving DecidableEq

/-- A stamped word.  Nobody reads in which round it was written. -/
structure Word (σ V : Type*) where
  stamp : σ
  value : V
  writtenIn : Option ℕ

/-- What is exchanged in the rounds, each of which may have its own. -/
structure Traffic (ρ χ σ V : Type*) where
  ringSize : Ring ρ χ → ℕ
  stamp : ℕ → σ
  /-- The stamp of the words before the first round. -/
  blank : σ
  /-- How many packets go over a ring. -/
  count : ℕ → Ring ρ χ → ℕ
  /-- The announcements of a round, and how many packets they stand for. -/
  offset : ℕ × Offset × Lane ρ χ → V
  number : V → V → ℕ
  /-- The tiles of a participant, and those that a packet goes to. -/
  numTiles : ℕ → ρ → ℕ
  tiles : ℕ → Lane ρ χ → ℕ → Finset ℕ
  /-- What a lane adds to a tile, and what the tile waits for. -/
  share : ℕ → Lane ρ χ → ℕ → ℕ
  target : ℕ → ρ → ℕ → ℕ

variable {ρ χ σ V : Type*}

/-- The place of a half among all halves. -/
def Way.half : Way → ℕ → ℕ
  | .out, k => 2 * k
  | .back, k => 2 * k + 1

namespace Ring

variable (ring : Ring ρ χ)

def sender : ρ :=
  match ring.way with
  | .out => ring.lane.src
  | .back => ring.lane.dst

def receiver : ρ :=
  match ring.way with
  | .out => ring.lane.dst
  | .back => ring.lane.src

end Ring

/-- Words, slots and counters, and how far everybody has got.  What belongs to one round is
indexed by it. -/
structure State (ρ χ σ V : Type*) where
  /-- Halves that a participant is done with. -/
  left : ρ → ℕ
  offsetWord : Offset × Lane ρ χ → Word σ V
  tailWord : Ring ρ χ → Word σ ℕ
  headWord : Ring ρ χ → Word σ ℕ
  /-- The packet in a slot: its round and its position. -/
  slots : Ring ρ χ → ℕ → Option (ℕ × ℕ)
  /-- What the destination has taken for the announcements, -/
  offset : ℕ × Offset × Lane ρ χ → Option V
  /-- what the sender has taken for the head, and the receiver for the tail. -/
  seen : ℕ × Ring ρ χ → ℕ
  accepted : ℕ × Ring ρ χ → ℕ
  stored : ℕ × Ring ρ χ → Finset ℕ
  fetched : ℕ × Ring ρ χ → Finset ℕ
  /-- The shares that have been added, and the tiles that have been computed. -/
  fired : Finset (ℕ × Lane ρ χ × ℕ)
  arrived : ℕ × ρ × ℕ → ℕ
  computed : Finset (ℕ × ρ × ℕ)

inductive Event (ρ χ : Type*) where
  | announce (o : Offset) (l : Lane ρ χ)
  | accept (o : Offset) (l : Lane ρ χ)
  | look (ring : Ring ρ χ)
  | store (ring : Ring ρ χ) (i : ℕ)
  | publish (ring : Ring ρ χ) (tail : ℕ)
  | poll (ring : Ring ρ χ)
  | fetch (ring : Ring ρ χ) (i : ℕ)
  | free (ring : Ring ρ χ) (head : ℕ)
  | fire (l : Lane ρ χ) (tile : ℕ)
  | compute (k : ℕ) (r : ρ) (tile : ℕ)
  | leave (r : ρ)

/-! ### Guards -/

namespace State

variable (tr : Traffic ρ χ σ V) (s : State ρ χ σ V)

/-- The round that a participant is in, -/
def round (r : ρ) : ℕ := s.left r / 2

/-- and the half of it. -/
def way (r : ρ) : Way := if s.left r % 2 = 0 then .out else .back

/-- A word, as a participant reads it: zero without the stamp of its round. -/
def read [DecidableEq σ] (r : ρ) (w : Word σ ℕ) : ℕ :=
  if w.stamp = tr.stamp (s.round r) then w.value else 0

/-- The packets that the destination waits for, once it knows. -/
def toReceive (k : ℕ) (l : Lane ρ χ) : Option ℕ :=
  (s.offset (k, .start, l)).bind fun v => (s.offset (k, .stop, l)).map (tr.number v)

/-- The destination has read the whole lane. -/
def Drained (k : ℕ) (l : Lane ρ χ) : Prop :=
  ∃ n ∈ s.toReceive tr k l, ∀ i < n, i ∈ s.fetched (k, ⟨.out, l⟩)

/-- A packet may go: on the way back when its tiles have been computed. -/
def Gated (k : ℕ) (ring : Ring ρ χ) (i : ℕ) : Prop :=
  ring.way = .back → (tr.tiles k ring.lane i).Nonempty ∧
    ∀ tile ∈ tr.tiles k ring.lane i, (k, ring.lane.dst, tile) ∈ s.computed

/-- A position is there to be read. -/
def Expected (k : ℕ) (ring : Ring ρ χ) (i : ℕ) : Prop :=
  match ring.way with
  | .out => (s.toReceive tr k ring.lane).isSome
  | .back => i < tr.count k ring

/-- The sender's part on a ring is done. -/
def Sent (k : ℕ) (ring : Ring ρ χ) : Prop :=
  (∀ i < tr.count k ring, i ∈ s.stored (k, ring)) ∧
    (tr.count k ring ≠ 0 → (s.tailWord ring).stamp = tr.stamp k ∧
      (s.tailWord ring).value = tr.count k ring)

/-- A participant has done its part of a half: as sender and as receiver. -/
def Done (r : ρ) : Way → Prop
  | .out => ∀ c q,
      ((s.offsetWord (.start, ⟨r, c, q⟩)).stamp = tr.stamp (s.round r) ∧
        (s.offsetWord (.stop, ⟨r, c, q⟩)).stamp = tr.stamp (s.round r) ∧
        s.Sent tr (s.round r) ⟨.out, ⟨r, c, q⟩⟩) ∧
      s.Drained tr (s.round r) ⟨q, c, r⟩ ∧
      ∀ tile < tr.numTiles (s.round r) r, (s.round r, ⟨q, c, r⟩, tile) ∈ s.fired
  | .back => ∀ c q, s.Sent tr (s.round r) ⟨.back, ⟨q, c, r⟩⟩ ∧
      ∀ i < tr.count (s.round r) ⟨.back, ⟨r, c, q⟩⟩,
        i ∈ s.fetched (s.round r, ⟨.back, ⟨r, c, q⟩⟩)

section Decidable

variable [DecidableEq ρ] [DecidableEq χ] [DecidableEq σ]

instance (k : ℕ) (l : Lane ρ χ) : Decidable (s.Drained tr k l) :=
  inferInstanceAs (Decidable (∃ n ∈ s.toReceive tr k l, ∀ i < n, _))

instance (k : ℕ) (ring : Ring ρ χ) (i : ℕ) : Decidable (s.Gated tr k ring i) :=
  inferInstanceAs (Decidable (_ → _))

instance (k : ℕ) (ring : Ring ρ χ) (i : ℕ) : Decidable (s.Expected tr k ring i) :=
  match ring with
  | ⟨.out, l⟩ => inferInstanceAs (Decidable ((s.toReceive tr k l).isSome = true))
  | ⟨.back, l⟩ => inferInstanceAs (Decidable (i < tr.count k ⟨.back, l⟩))

instance (k : ℕ) (ring : Ring ρ χ) : Decidable (s.Sent tr k ring) :=
  inferInstanceAs (Decidable (_ ∧ _))

instance [Fintype ρ] [Fintype χ] (r : ρ) : (way : Way) → Decidable (s.Done tr r way)
  | .out => inferInstanceAs (Decidable (∀ _ _, _))
  | .back => inferInstanceAs (Decidable (∀ _ _, _))

end Decidable

end State

/-! ### The system -/

section System

variable [DecidableEq ρ] [DecidableEq χ] [DecidableEq σ] [Fintype ρ] [Fintype χ]

/-- One event. -/
def step (tr : Traffic ρ χ σ V) (s : State ρ χ σ V) : Event ρ χ → Option (State ρ χ σ V)
  | .announce o l =>
    let k := s.round l.src
    if s.way l.src = .out then
      some { s with
        offsetWord := update s.offsetWord (o, l) ⟨tr.stamp k, tr.offset (k, o, l), some k⟩ }
    else none
  | .accept o l =>
    let k := s.round l.dst
    if s.way l.dst = .out ∧ (s.offsetWord (o, l)).stamp = tr.stamp k then
      some { s with offset := update s.offset (k, o, l) (some (s.offsetWord (o, l)).value) }
    else none
  | .look ring =>
    let k := s.round ring.sender
    if s.way ring.sender = ring.way then
      some { s with seen := update s.seen (k, ring) (s.read tr ring.sender (s.headWord ring)) }
    else none
  | .store ring i =>
    let k := s.round ring.sender
    if s.way ring.sender = ring.way ∧ i < tr.count k ring ∧ i ∉ s.stored (k, ring) ∧
        i < s.seen (k, ring) + tr.ringSize ring ∧ s.Gated tr k ring i then
      some { s with
        slots := update s.slots ring (update (s.slots ring) (i % tr.ringSize ring) (some (k, i)))
        stored := update s.stored (k, ring) (insert i (s.stored (k, ring))) }
    else none
  | .publish ring tail =>
    let k := s.round ring.sender
    if s.way ring.sender = ring.way ∧ ∀ i < tail, i ∈ s.stored (k, ring) then
      some { s with tailWord := update s.tailWord ring ⟨tr.stamp k, tail, some k⟩ }
    else none
  | .poll ring =>
    let k := s.round ring.receiver
    if s.way ring.receiver = ring.way then
      some { s with
        accepted := update s.accepted (k, ring) (s.read tr ring.receiver (s.tailWord ring)) }
    else none
  | .fetch ring i =>
    let k := s.round ring.receiver
    if s.way ring.receiver = ring.way ∧ s.Expected tr k ring i ∧ i < s.accepted (k, ring) ∧
        i ∉ s.fetched (k, ring) then
      some { s with fetched := update s.fetched (k, ring) (insert i (s.fetched (k, ring))) }
    else none
  | .free ring head =>
    let k := s.round ring.receiver
    if s.way ring.receiver = ring.way ∧ ∀ i < head, i ∈ s.fetched (k, ring) then
      some { s with headWord := update s.headWord ring ⟨tr.stamp k, head, some k⟩ }
    else none
  | .fire l tile =>
    let k := s.round l.dst
    if s.way l.dst = .out ∧ s.Drained tr k l ∧ tile < tr.numTiles k l.dst ∧
        (k, l, tile) ∉ s.fired then
      some { s with
        fired := insert (k, l, tile) s.fired
        arrived := update s.arrived (k, l.dst, tile)
          (s.arrived (k, l.dst, tile) + tr.share k l tile) }
    else none
  | .compute k r tile =>
    if s.arrived (k, r, tile) = tr.target k r tile then
      some { s with computed := insert (k, r, tile) s.computed }
    else none
  | .leave r =>
    if s.Done tr r (s.way r) then some { s with left := update s.left r (s.left r + 1) } else none

/-- Before the first round. -/
def start (tr : Traffic ρ χ σ V) (v : V) : State ρ χ σ V where
  left _ := 0
  offsetWord _ := ⟨tr.blank, v, none⟩
  tailWord _ := ⟨tr.blank, 0, none⟩
  headWord _ := ⟨tr.blank, 0, none⟩
  slots _ _ := none
  offset _ := none
  seen _ := 0
  accepted _ := 0
  stored _ := ∅
  fetched _ := ∅
  fired := ∅
  arrived _ := 0
  computed := ∅

def system (tr : Traffic ρ χ σ V) (v : V) :
    TransitionSystem (State ρ χ σ V) (Event ρ χ) where
  init := start tr v
  step := step tr

end System

/-! ### What holds in every run -/

/-- The numbers fit together. -/
structure Sound [Fintype ρ] [Fintype χ] (tr : Traffic ρ χ σ V) : Prop where
  number_eq : ∀ k l,
    tr.number (tr.offset (k, .start, l)) (tr.offset (k, .stop, l)) = tr.count k ⟨.out, l⟩
  /-- As many packets come back as have gone out. -/
  count_back : ∀ k l, tr.count k ⟨.back, l⟩ = tr.count k ⟨.out, l⟩
  /-- A lane has a share in the tiles of its packets, -/
  share_pos : ∀ k l, ∀ i < tr.count k ⟨.out, l⟩, ∀ tile ∈ tr.tiles k l i, 0 < tr.share k l tile
  /-- and these wait for the shares of all lanes. -/
  sum_share : ∀ k l, ∀ i < tr.count k ⟨.out, l⟩, ∀ tile ∈ tr.tiles k l i,
    ∑ q, ∑ c, tr.share k ⟨q, c, l.dst⟩ tile = tr.target k l.dst tile

variable {tr : Traffic ρ χ σ V} {s s' : State ρ χ σ V} {k : ℕ}

/-- Somebody has got to the round. -/
def Begun (s : State ρ χ σ V) (k : ℕ) : Prop := ∃ r, 2 * k ≤ s.left r

/-- No two of the rounds that have been begun have the same stamp, and none has that of the words
before them. -/
structure Fresh (tr : Traffic ρ χ σ V) (s : State ρ χ σ V) : Prop where
  injective : ∀ k k', Begun s k → Begun s k' → tr.stamp k = tr.stamp k' → k = k'
  ne_blank : ∀ k, Begun s k → tr.stamp k ≠ tr.blank

/-- A word has the stamp of the round it was written in, and means what is so in that round. -/
structure Word.Stamped {W : Type*} (tr : Traffic ρ χ σ V) (w : Word σ W)
    (meaning : ℕ → W → Prop) : Prop where
  blank : w.writtenIn = none → w.stamp = tr.blank
  written : ∀ k, w.writtenIn = some k → w.stamp = tr.stamp k ∧ meaning k w.value

theorem Word.Stamped.mono {W : Type*} {w : Word σ W} {meaning meaning' : ℕ → W → Prop}
    (h : w.Stamped tr meaning) (le : ∀ k v, meaning k v → meaning' k v) :
    w.Stamped tr meaning' where
  blank := h.blank
  written k of := ⟨(h.written k of).1, le k _ (h.written k of).2⟩

theorem Word.Stamped.new {W : Type*} {meaning : ℕ → W → Prop} {v : W} (so : meaning k v) :
    (Word.mk (tr.stamp k) v (some k)).Stamped tr meaning where
  blank none := nomatch none
  written k' of := by
    obtain rfl := Option.some.inj of
    exact ⟨rfl, so⟩

/-- Writing one of many words. -/
theorem Word.Stamped.update {κ W : Type*} [DecidableEq κ] {words : κ → Word σ W}
    {meaning : κ → ℕ → W → Prop} (old : ∀ x, (words x).Stamped tr (meaning x)) {x : κ} {v : W}
    (so : meaning x k v) (y : κ) :
    (Function.update words x ⟨tr.stamp k, v, some k⟩ y).Stamped tr (meaning y) := by
  rcases eq_or_ne y x with rfl | other
  · rw [update_self]
    exact .new so
  · rw [update_of_ne other]
    exact old y

/-- **A word with the stamp of a round is a word of the round.** -/
theorem Word.Stamped.current {W : Type*} {w : Word σ W} {meaning : ℕ → W → Prop}
    (h : w.Stamped tr meaning) (begun : ∀ k v, meaning k v → Begun s k) (fresh : Fresh tr s)
    (here : Begun s k) (stamp : w.stamp = tr.stamp k) :
    w.writtenIn = some k ∧ meaning k w.value := by
  cases written : w.writtenIn with
  | none => exact absurd (stamp.symm.trans (h.blank written)) (fresh.ne_blank k here)
  | some k' =>
    obtain ⟨stamp', so⟩ := h.written k' written
    obtain rfl := fresh.injective k' k (begun k' _ so) here (stamp'.symm.trans stamp)
    exact ⟨rfl, so⟩

/-- The shares in a tile that have been added. -/
def arrivals [Fintype ρ] [Fintype χ] [DecidableEq ρ] [DecidableEq χ] (tr : Traffic ρ χ σ V)
    (fired : Finset (ℕ × Lane ρ χ × ℕ)) (k : ℕ) (r : ρ) (tile : ℕ) : ℕ :=
  ∑ q, ∑ c, if (k, ⟨q, c, r⟩, tile) ∈ fired then tr.share k ⟨q, c, r⟩ tile else 0

/-- The invariant. -/
structure Inv [Fintype ρ] [Fintype χ] [DecidableEq ρ] [DecidableEq χ]
    (tr : Traffic ρ χ σ V) (s : State ρ χ σ V) : Prop where
  -- the words
  offsetWord : ∀ x, (s.offsetWord x).Stamped tr fun k v =>
    Way.out.half k ≤ s.left x.2.src ∧ v = tr.offset (k, x)
  tailWord : ∀ ring, (s.tailWord ring).Stamped tr fun k tail =>
    ring.way.half k ≤ s.left ring.sender ∧ ∀ i < tail, i ∈ s.stored (k, ring)
  headWord : ∀ ring, (s.headWord ring).Stamped tr fun k head =>
    ring.way.half k ≤ s.left ring.receiver ∧ ∀ i < head, i ∈ s.fetched (k, ring)
  -- what has been taken from them
  offset : ∀ x v, s.offset x = some v → v = tr.offset x
  accepted : ∀ x, ∀ i < s.accepted x, i ∈ s.stored x
  seen : ∀ x, ∀ i < s.seen x, i ∈ s.fetched x
  -- the packets
  stored : ∀ k ring, ∀ i ∈ s.stored (k, ring),
    i < tr.count k ring ∧ ring.way.half k ≤ s.left ring.sender ∧ s.Gated tr k ring i
  /-- A packet that has been stored is less than a ring ahead of what has been read. -/
  window : ∀ k ring, ∀ i ∈ s.stored (k, ring), ∀ j, j + tr.ringSize ring ≤ i →
    j ∈ s.fetched (k, ring)
  fetched : ∀ x, ∀ i ∈ s.fetched x, i ∈ s.stored x
  /-- Who has left a half has read everything that was sent to it in that half. -/
  drained : ∀ k ring, ring.way.half k < s.left ring.receiver → ∀ i < tr.count k ring,
    i ∈ s.fetched (k, ring)
  /-- A packet that has not been read is still in its slot. -/
  kept : ∀ k ring, ∀ i ∈ s.stored (k, ring), i ∉ s.fetched (k, ring) →
    s.slots ring (i % tr.ringSize ring) = some (k, i)
  /-- What lies in a slot has been stored there. -/
  slots : ∀ ring n k i, s.slots ring n = some (k, i) →
    i ∈ s.stored (k, ring) ∧ i % tr.ringSize ring = n
  -- the tiles
  fired : ∀ k l tile, (k, l, tile) ∈ s.fired → ∀ i < tr.count k ⟨.out, l⟩,
    i ∈ s.fetched (k, ⟨.out, l⟩)
  arrived : ∀ k r tile, s.arrived (k, r, tile) = arrivals tr s.fired k r tile
  /-- A tile that has been computed had the shares of all lanes that have one. -/
  computed : ∀ k r tile, (k, r, tile) ∈ s.computed →
    ∑ q, ∑ c, tr.share k ⟨q, c, r⟩ tile = tr.target k r tile →
      ∀ q c, 0 < tr.share k ⟨q, c, r⟩ tile → (k, ⟨q, c, r⟩, tile) ∈ s.fired

/-! ### What a participant knows of the others -/

theorem two_mul_le_half (way : Way) (k : ℕ) : 2 * k ≤ way.half k := by
  cases way with
  | out => exact le_rfl
  | back => exact Nat.le_succ _

theorem half_lt_half {way : Way} {k k' : ℕ} : way.half k' < way.half k ↔ k' < k := by
  cases way <;> simp only [Way.half] <;> omega

/-- A participant in some half has left those before it. -/
theorem left_eq {r : ρ} {way : Way} (here : s.way r = way) : s.left r = way.half (s.round r) := by
  subst here
  rw [State.way, State.round]
  split_ifs with first <;> simp only [Way.half] <;> omega

theorem way_of_left {r : ρ} {way : Way} (here : s.left r = way.half k) :
    s.way r = way ∧ s.round r = k := by
  rw [State.way, State.round, here]
  cases way with
  | out => exact ⟨if_pos (by rw [Way.half]; omega), by rw [Way.half]; omega⟩
  | back => exact ⟨if_neg (by rw [Way.half]; omega), by rw [Way.half]; omega⟩

theorem begun_of_half {r : ρ} {way : Way} (le : way.half k ≤ s.left r) : Begun s k :=
  ⟨r, (two_mul_le_half way k).trans le⟩

theorem begun_round (s : State ρ χ σ V) (r : ρ) : Begun s (s.round r) :=
  begun_of_half (left_eq rfl).ge

namespace Inv

variable [Fintype ρ] [Fintype χ] [DecidableEq ρ] [DecidableEq χ] (inv : Inv tr s)

include inv

/-- **A packet goes back only when its lane has been drained.** -/
theorem read_out (sound : Sound tr) {l : Lane ρ χ} {i : ℕ} (hi : i < tr.count k ⟨.out, l⟩)
    (gated : s.Gated tr k ⟨.back, l⟩ i) :
    ∀ j < tr.count k ⟨.out, l⟩, j ∈ s.fetched (k, ⟨.out, l⟩) := by
  obtain ⟨⟨tile, here⟩, computed⟩ := gated rfl
  exact inv.fired k l tile (inv.computed k l.dst tile (computed tile here)
    (sound.sum_share k l i hi tile here) l.src l.channel (sound.share_pos k l i hi tile here))

/-- **A packet that goes back shows that its source has begun the round.** -/
theorem read_back (sound : Sound tr) {l : Lane ρ χ} {i : ℕ} (hi : i < tr.count k ⟨.out, l⟩)
    (gated : s.Gated tr k ⟨.back, l⟩ i) : Way.out.half k ≤ s.left l.src :=
  (inv.stored k ⟨.out, l⟩ i (inv.fetched _ i (inv.read_out sound hi gated i hi))).2.1

/-- **Before a packet goes, all packets of earlier rounds have been read.** -/
theorem drained_before (sound : Sound tr) {ring : Ring ρ χ} {i k' : ℕ}
    (here : s.left ring.sender = ring.way.half k) (hi : i < tr.count k ring)
    (gated : s.Gated tr k ring i) (before : k' < k) :
    ∀ j < tr.count k' ring, j ∈ s.fetched (k', ring) := by
  intro j hj
  obtain ⟨way, l⟩ := ring
  cases way with
  | out =>
    -- the sender has all of that round back, so the packets had been read
    have here : s.left l.src = 2 * k := here
    have got := inv.drained k' ⟨.back, l⟩ (show 2 * k' + 1 < s.left l.src by omega) j
      (sound.count_back k' l ▸ hj)
    exact inv.read_out sound hj (inv.stored k' _ j (inv.fetched _ j got)).2.2 j hj
  | back =>
    -- the receiver is in this round, so it has got all of that one
    rw [sound.count_back] at hi
    have begun : 2 * k ≤ s.left l.src := inv.read_back sound hi gated
    exact inv.drained k' ⟨.back, l⟩ (show 2 * k' + 1 < s.left l.src by omega) j hj

/-- What lies in the slot of a new packet has been read. -/
theorem overwrites_read (sound : Sound tr) {ring : Ring ρ χ} {i k' j : ℕ}
    (here : s.left ring.sender = ring.way.half k) (hi : i < tr.count k ring)
    (new : i ∉ s.stored (k, ring)) (room : i < s.seen (k, ring) + tr.ringSize ring)
    (gated : s.Gated tr k ring i) (stored : j ∈ s.stored (k', ring))
    (same : j % tr.ringSize ring = i % tr.ringSize ring) : j ∈ s.fetched (k', ring) := by
  obtain ⟨hj, entered, -⟩ := inv.stored k' ring j stored
  rcases lt_trichotomy k' k with before | rfl | after
  · exact inv.drained_before sound here hi gated before j hj
  · rcases lt_trichotomy j i with less | rfl | greater
    · have apart := Nat.ModEq.add_le_of_lt same less
      exact inv.seen _ j (by omega)
    · exact absurd stored new
    · -- a packet a ring ahead has shown that this one was there
      have apart := Nat.ModEq.add_le_of_lt same.symm greater
      exact absurd (inv.fetched _ i (inv.window k' ring j stored i apart)) new
  · rw [here] at entered
    exact absurd (half_lt_half.2 after) entered.not_gt

end Inv

/-! ### One step -/

/-- Putting an element into one of many sets. -/
theorem mem_update_insert {κ α : Type*} [DecidableEq κ] [DecidableEq α] {f : κ → Finset α}
    {x y : κ} {a b : α} :
    b ∈ update f x (insert a (f x)) y ↔ y = x ∧ b = a ∨ b ∈ f y := by
  rw [update_apply]
  split_ifs with same
  · subst same
    simp only [mem_insert, true_and]
  · simp only [same, false_and, false_or]

/-- Taking a bound for one of many sets. -/
theorem below_update {κ : Type*} [DecidableEq κ] {f : κ → ℕ} {S : κ → Finset ℕ} {x : κ} {n : ℕ}
    (old : ∀ y, ∀ i < f y, i ∈ S y) (new : ∀ i < n, i ∈ S x) (y : κ) :
    ∀ i < update f x n y, i ∈ S y := by
  rcases eq_or_ne y x with rfl | other
  · rw [update_self]
    exact new
  · rw [update_of_ne other]
    exact old y

/-- What is read from a word of the round, or else nothing, is so in the round. -/
theorem read_spec [DecidableEq σ] (fresh : Fresh tr s) {r : ρ} {w : Word σ ℕ}
    {way : Way} {r' : ρ} {x : ℕ → Finset ℕ}
    (word : w.Stamped tr fun k n => way.half k ≤ s.left r' ∧ ∀ i < n, i ∈ x k) :
    ∀ i < s.read tr r w, i ∈ x (s.round r) := by
  intro i hi
  rw [State.read] at hi
  split_ifs at hi with stamp
  · exact (word.current (fun _ _ so => begun_of_half so.1) fresh (begun_round s r) stamp).2.2 i hi
  · exact absurd hi (Nat.not_lt_zero i)

section Steps

variable [Fintype ρ] [Fintype χ] [DecidableEq ρ] [DecidableEq χ]

theorem announce_inv (inv : Inv tr s) {o : Offset} {l : Lane ρ χ} (here : s.way l.src = .out) :
    Inv tr { s with
      offsetWord := update s.offsetWord (o, l)
        ⟨tr.stamp (s.round l.src), tr.offset (s.round l.src, o, l), some (s.round l.src)⟩ } where
  __ := inv
  offsetWord := Word.Stamped.update inv.offsetWord ⟨(left_eq here).ge, rfl⟩

theorem accept_inv (inv : Inv tr s) (fresh : Fresh tr s) {o : Offset} {l : Lane ρ χ}
    (stamp : (s.offsetWord (o, l)).stamp = tr.stamp (s.round l.dst)) :
    Inv tr { s with
      offset := update s.offset (s.round l.dst, o, l) (some (s.offsetWord (o, l)).value) } where
  __ := inv
  offset x v taken := by
    dsimp only at taken
    rw [update_apply] at taken
    split_ifs at taken with same
    · obtain rfl := Option.some.inj taken
      rw [same]
      exact ((inv.offsetWord (o, l)).current (fun _ _ so => begun_of_half so.1) fresh
        (begun_round s _) stamp).2.2
    · exact inv.offset x v taken

theorem look_inv [DecidableEq σ] (inv : Inv tr s) (fresh : Fresh tr s) {ring : Ring ρ χ} :
    Inv tr { s with
      seen := update s.seen (s.round ring.sender, ring)
        (s.read tr ring.sender (s.headWord ring)) } where
  __ := inv
  seen := below_update inv.seen
    (read_spec fresh (x := fun k => s.fetched (k, ring)) (inv.headWord ring))

theorem poll_inv [DecidableEq σ] (inv : Inv tr s) (fresh : Fresh tr s) {ring : Ring ρ χ} :
    Inv tr { s with
      accepted := update s.accepted (s.round ring.receiver, ring)
        (s.read tr ring.receiver (s.tailWord ring)) } where
  __ := inv
  accepted := below_update inv.accepted
    (read_spec fresh (x := fun k => s.stored (k, ring)) (inv.tailWord ring))

theorem publish_inv (inv : Inv tr s) {ring : Ring ρ χ} {tail : ℕ}
    (here : s.way ring.sender = ring.way)
    (all : ∀ i < tail, i ∈ s.stored (s.round ring.sender, ring)) :
    Inv tr { s with
      tailWord := update s.tailWord ring
        ⟨tr.stamp (s.round ring.sender), tail, some (s.round ring.sender)⟩ } where
  __ := inv
  tailWord := Word.Stamped.update inv.tailWord ⟨(left_eq here).ge, all⟩

theorem free_inv (inv : Inv tr s) {ring : Ring ρ χ} {head : ℕ}
    (here : s.way ring.receiver = ring.way)
    (all : ∀ i < head, i ∈ s.fetched (s.round ring.receiver, ring)) :
    Inv tr { s with
      headWord := update s.headWord ring
        ⟨tr.stamp (s.round ring.receiver), head, some (s.round ring.receiver)⟩ } where
  __ := inv
  headWord := Word.Stamped.update inv.headWord ⟨(left_eq here).ge, all⟩

theorem store_inv (sound : Sound tr) (inv : Inv tr s) {ring : Ring ρ χ} {i : ℕ}
    (here : s.way ring.sender = ring.way) (hi : i < tr.count (s.round ring.sender) ring)
    (new : i ∉ s.stored (s.round ring.sender, ring))
    (room : i < s.seen (s.round ring.sender, ring) + tr.ringSize ring)
    (gated : s.Gated tr (s.round ring.sender) ring i) :
    Inv tr { s with
      slots := update s.slots ring (update (s.slots ring) (i % tr.ringSize ring)
        (some (s.round ring.sender, i)))
      stored := update s.stored (s.round ring.sender, ring)
        (insert i (s.stored (s.round ring.sender, ring))) } where
  __ := inv
  tailWord ring' := (inv.tailWord ring').mono fun _ _ so =>
    ⟨so.1, fun j hj => mem_update_insert.2 (Or.inr (so.2 j hj))⟩
  accepted y j hj := mem_update_insert.2 (Or.inr (inv.accepted y j hj))
  stored k ring' j stored := by
    rcases mem_update_insert.1 stored with ⟨at_, rfl⟩ | old
    · obtain ⟨rfl, rfl⟩ := Prod.mk.inj at_
      exact ⟨hi, (left_eq here).ge, gated⟩
    · exact inv.stored k ring' j old
  window k ring' j stored j' apart := by
    rcases mem_update_insert.1 stored with ⟨at_, rfl⟩ | old
    · obtain ⟨rfl, rfl⟩ := Prod.mk.inj at_
      exact inv.seen _ j' (by omega)
    · exact inv.window k ring' j old j' apart
  fetched y j fetched := mem_update_insert.2 (Or.inr (inv.fetched y j fetched))
  kept k ring' j stored unread := by
    dsimp only at unread ⊢
    rcases mem_update_insert.1 stored with ⟨at_, rfl⟩ | old
    · obtain ⟨rfl, rfl⟩ := Prod.mk.inj at_
      rw [update_self, update_self]
    · rcases eq_or_ne ring' ring with rfl | other
      · rw [update_self, update_of_ne, inv.kept k ring' j old unread]
        exact fun same =>
          unread (inv.overwrites_read sound (left_eq here) hi new room gated old same)
      · rw [update_of_ne other]
        exact inv.kept k ring' j old unread
  slots ring' n k j there := by
    dsimp only at there ⊢
    rcases eq_or_ne ring' ring with rfl | other
    · rw [update_self, update_apply] at there
      split_ifs at there with same
      · obtain ⟨rfl, rfl⟩ := Prod.mk.inj (Option.some.inj there)
        exact ⟨mem_update_insert.2 (Or.inl ⟨rfl, rfl⟩), same.symm⟩
      · obtain ⟨stored, slot⟩ := inv.slots ring' n k j there
        exact ⟨mem_update_insert.2 (Or.inr stored), slot⟩
    · rw [update_of_ne other] at there
      obtain ⟨stored, slot⟩ := inv.slots ring' n k j there
      exact ⟨mem_update_insert.2 (Or.inr stored), slot⟩

theorem fetch_inv (inv : Inv tr s) {ring : Ring ρ χ} {i : ℕ}
    (there : i < s.accepted (s.round ring.receiver, ring)) :
    Inv tr { s with
      fetched := update s.fetched (s.round ring.receiver, ring)
        (insert i (s.fetched (s.round ring.receiver, ring))) } where
  __ := inv
  headWord ring' := (inv.headWord ring').mono fun _ _ so =>
    ⟨so.1, fun j hj => mem_update_insert.2 (Or.inr (so.2 j hj))⟩
  seen y j hj := mem_update_insert.2 (Or.inr (inv.seen y j hj))
  window k ring' j stored j' apart :=
    mem_update_insert.2 (Or.inr (inv.window k ring' j stored j' apart))
  fetched y j fetched := by
    rcases mem_update_insert.1 fetched with ⟨rfl, rfl⟩ | old
    · exact inv.accepted _ j there
    · exact inv.fetched y j old
  drained k ring' left j hj := mem_update_insert.2 (Or.inr (inv.drained k ring' left j hj))
  kept k ring' j stored unread :=
    inv.kept k ring' j stored fun old => unread (mem_update_insert.2 (Or.inr old))
  fired k l tile fired j hj := mem_update_insert.2 (Or.inr (inv.fired k l tile fired j hj))

/-- What the destination waits for is what goes over the lane. -/
theorem Inv.drained_lane (inv : Inv tr s) (sound : Sound tr) {l : Lane ρ χ}
    (drained : s.Drained tr k l) : ∀ i < tr.count k ⟨.out, l⟩, i ∈ s.fetched (k, ⟨.out, l⟩) := by
  obtain ⟨n, known, all⟩ := drained
  obtain ⟨v, start, known⟩ := Option.bind_eq_some_iff.1 known
  obtain ⟨w, stop, rfl⟩ := Option.map_eq_some_iff.1 known
  rw [inv.offset _ v start, inv.offset _ w stop, sound.number_eq] at all
  exact all

theorem arrivals_insert {fired : Finset (ℕ × Lane ρ χ × ℕ)} {l : Lane ρ χ} {tile : ℕ}
    (new : (k, l, tile) ∉ fired) :
    arrivals tr (insert (k, l, tile) fired) k l.dst tile =
      arrivals tr fired k l.dst tile + tr.share k l tile := by
  have summand : ∀ q c,
      (if (k, ⟨q, c, l.dst⟩, tile) ∈ insert (k, l, tile) fired
        then tr.share k ⟨q, c, l.dst⟩ tile else 0) =
      (if (k, ⟨q, c, l.dst⟩, tile) ∈ fired then tr.share k ⟨q, c, l.dst⟩ tile else 0) +
        if c = l.channel then if q = l.src then tr.share k l tile else 0 else 0 := by
    intro q c
    by_cases same : q = l.src ∧ c = l.channel
    · obtain ⟨rfl, rfl⟩ := same
      rw [if_pos (mem_insert_self _ _), if_neg new, if_pos rfl, if_pos rfl, Nat.zero_add]
    · have other : (k, Lane.mk q c l.dst, tile) ≠ (k, l, tile) := by
        intro eq
        have lane : Lane.mk q c l.dst = l := (Prod.mk.inj (Prod.mk.inj eq).2).1
        exact same ⟨congrArg Lane.src lane, congrArg Lane.channel lane⟩
      simp only [mem_insert, other, false_or]
      rw [← ite_and, if_neg fun both : _ ∧ _ => same ⟨both.2, both.1⟩, Nat.add_zero]
  simp only [arrivals, summand, sum_add_distrib, sum_ite_eq', mem_univ, if_true]

theorem arrivals_insert_of_ne {fired : Finset (ℕ × Lane ρ χ × ℕ)} {k' : ℕ} {l : Lane ρ χ}
    {r : ρ} {tile tile' : ℕ} (other : k = k' → r = l.dst → tile = tile' → False) :
    arrivals tr (insert (k', l, tile') fired) k r tile = arrivals tr fired k r tile := by
  refine sum_congr rfl fun q _ => sum_congr rfl fun c _ => ?_
  have ne : (k, Lane.mk q c r, tile) ≠ (k', l, tile') := by
    rintro ⟨⟩
    exact other rfl rfl rfl
  simp only [mem_insert, ne, false_or]

/-- Once all shares have arrived, no lane is missing. -/
theorem fired_of_arrivals {fired : Finset (ℕ × Lane ρ χ × ℕ)} {r : ρ} {tile : ℕ}
    (all : arrivals tr fired k r tile = ∑ q, ∑ c, tr.share k ⟨q, c, r⟩ tile) {q : ρ} {c : χ}
    (shared : 0 < tr.share k ⟨q, c, r⟩ tile) : (k, ⟨q, c, r⟩, tile) ∈ fired := by
  have le : ∀ q c, (if (k, ⟨q, c, r⟩, tile) ∈ fired then tr.share k ⟨q, c, r⟩ tile else 0) ≤
      tr.share k ⟨q, c, r⟩ tile := by
    intro q c
    split_ifs
    · exact le_rfl
    · exact Nat.zero_le _
  rw [arrivals, sum_eq_sum_iff_of_le fun q _ => sum_le_sum fun c _ => le q c] at all
  have here := (sum_eq_sum_iff_of_le fun c _ => le q c).1 (all q (mem_univ q)) c (mem_univ c)
  by_contra missing
  rw [if_neg missing] at here
  omega

theorem fire_inv (sound : Sound tr) (inv : Inv tr s) {l : Lane ρ χ} {tile : ℕ}
    (drained : s.Drained tr (s.round l.dst) l) (new : (s.round l.dst, l, tile) ∉ s.fired) :
    Inv tr { s with
      fired := insert (s.round l.dst, l, tile) s.fired
      arrived := update s.arrived (s.round l.dst, l.dst, tile)
        (s.arrived (s.round l.dst, l.dst, tile) + tr.share (s.round l.dst) l tile) } where
  __ := inv
  fired k l' tile' fired := by
    rcases mem_insert.1 fired with same | old
    · obtain ⟨rfl, rfl, rfl⟩ := same
      exact inv.drained_lane sound drained
    · exact inv.fired k l' tile' old
  arrived k r tile' := by
    dsimp only
    rcases eq_or_ne (k, r, tile') (s.round l.dst, l.dst, tile) with same | other
    · obtain ⟨rfl, rfl, rfl⟩ := same
      rw [update_self, inv.arrived, arrivals_insert new]
    · rw [update_of_ne other, inv.arrived, arrivals_insert_of_ne]
      rintro rfl rfl rfl
      exact other rfl
  computed k r tile' computed total q c shared :=
    mem_insert_of_mem (inv.computed k r tile' computed total q c shared)

theorem compute_inv (inv : Inv tr s) {r : ρ} {tile : ℕ}
    (full : s.arrived (k, r, tile) = tr.target k r tile) :
    Inv tr { s with computed := insert (k, r, tile) s.computed } where
  __ := inv
  stored k ring i stored := by
    obtain ⟨inside, entered, gated⟩ := inv.stored k ring i stored
    exact ⟨inside, entered, fun back => ⟨(gated back).1, fun tile here =>
      mem_insert_of_mem ((gated back).2 tile here)⟩⟩
  computed k' r' tile' computed total q c shared := by
    rcases mem_insert.1 computed with same | old
    · obtain ⟨rfl, rfl, rfl⟩ := same
      exact fired_of_arrivals ((inv.arrived _ _ _).symm.trans (full.trans total.symm)) shared
    · exact inv.computed k' r' tile' old total q c shared

/-- Who leaves has read everything that was sent to it. -/
theorem Inv.drained_of_done (inv : Inv tr s) (sound : Sound tr) {ring : Ring ρ χ}
    (here : s.left ring.receiver = ring.way.half k)
    (done : s.Done tr ring.receiver (s.way ring.receiver)) :
    ∀ i < tr.count k ring, i ∈ s.fetched (k, ring) := by
  obtain ⟨where_, round⟩ := way_of_left here
  rw [where_] at done
  obtain ⟨way, l⟩ := ring
  cases way with
  | out =>
    have drained := (done l.channel l.src).2.1
    rw [round] at drained
    exact inv.drained_lane sound drained
  | back =>
    have drained := (done l.channel l.dst).2
    rw [round] at drained
    exact drained

theorem leave_inv (sound : Sound tr) (inv : Inv tr s) {r : ρ} (done : s.Done tr r (s.way r)) :
    Inv tr { s with left := update s.left r (s.left r + 1) } := by
  have later : s.left ≤ update s.left r (s.left r + 1) := le_update_self_iff.2 (Nat.le_succ _)
  exact
    { inv with
      offsetWord := fun x => (inv.offsetWord x).mono fun _ _ so => ⟨so.1.trans (later _), so.2⟩
      tailWord := fun ring => (inv.tailWord ring).mono fun _ _ so => ⟨so.1.trans (later _), so.2⟩
      headWord := fun ring => (inv.headWord ring).mono fun _ _ so => ⟨so.1.trans (later _), so.2⟩
      stored := fun k ring i stored =>
        have old := inv.stored k ring i stored
        ⟨old.1, old.2.1.trans (later _), old.2.2⟩
      drained := fun k ring left => by
        dsimp only at left
        rw [update_apply] at left
        split_ifs at left with same
        · subst same
          rcases (Nat.lt_succ_iff.1 left).lt_or_eq with before | here
          · exact inv.drained k ring before
          · exact inv.drained_of_done sound here.symm done
        · exact inv.drained k ring left }

end Steps

/-! ### Every run -/

section Runs

variable [Fintype ρ] [Fintype χ] [DecidableEq ρ] [DecidableEq χ] [DecidableEq σ]

omit [DecidableEq σ] in
theorem start_inv (tr : Traffic ρ χ σ V) (v : V) : Inv tr (start tr v : State ρ χ σ V) where
  offsetWord _ := ⟨fun _ => rfl, fun _ none => nomatch none⟩
  tailWord _ := ⟨fun _ => rfl, fun _ none => nomatch none⟩
  headWord _ := ⟨fun _ => rfl, fun _ none => nomatch none⟩
  offset _ _ none := nomatch none
  accepted _ _ none := absurd none (Nat.not_lt_zero _)
  seen _ _ none := absurd none (Nat.not_lt_zero _)
  stored _ _ _ none := absurd none (notMem_empty _)
  window _ _ _ none := absurd none (notMem_empty _)
  fetched _ _ none := absurd none (notMem_empty _)
  drained _ _ left := absurd left (Nat.not_lt_zero _)
  kept _ _ _ none := absurd none (notMem_empty _)
  slots _ _ _ _ none := nomatch none
  fired _ _ _ none := absurd none (notMem_empty _)
  arrived _ _ _ := by
    simp only [start, arrivals, notMem_empty, if_false, sum_const_zero]
  computed _ _ _ none := absurd none (notMem_empty _)

/-- Nobody goes back. -/
theorem left_le_step {e : Event ρ χ} (fires : step tr s e = some s') (r : ρ) :
    s.left r ≤ s'.left r := by
  cases e <;> simp only [step, Option.ite_none_right_eq_some, Option.some.injEq] at fires <;>
    obtain ⟨-, rfl⟩ := fires
  case leave r' => exact le_update_self_iff.2 (Nat.le_succ (s.left r')) r
  all_goals exact le_rfl

theorem Fresh.of_step {e : Event ρ χ} (fires : step tr s e = some s') (fresh : Fresh tr s') :
    Fresh tr s := by
  have begun : ∀ k, Begun s k → Begun s' k := fun _ ⟨r, le⟩ => ⟨r, le.trans (left_le_step fires r)⟩
  exact ⟨fun k k' here here' => fresh.injective k k' (begun k here) (begun k' here'),
    fun k here => fresh.ne_blank k (begun k here)⟩

theorem step_inv (sound : Sound tr) (inv : Inv tr s) (fresh : Fresh tr s) {e : Event ρ χ}
    (fires : step tr s e = some s') : Inv tr s' := by
  cases e <;> simp only [step, Option.ite_none_right_eq_some, Option.some.injEq] at fires <;>
    obtain ⟨guard, rfl⟩ := fires
  case announce => exact announce_inv inv guard
  case accept => exact accept_inv inv fresh guard.2
  case look => exact look_inv inv fresh
  case store =>
    obtain ⟨here, inside, new, room, gated⟩ := guard
    exact store_inv sound inv here inside new room gated
  case publish => exact publish_inv inv guard.1 guard.2
  case poll => exact poll_inv inv fresh
  case fetch => exact fetch_inv inv guard.2.2.1
  case free => exact free_inv inv guard.1 guard.2
  case fire => exact fire_inv sound inv guard.2.1 guard.2.2.2
  case compute => exact compute_inv inv guard
  case leave => exact leave_inv sound inv guard

theorem reachable_inv (sound : Sound tr) {v : V} (reach : (system tr v).Reachable s)
    (fresh : Fresh tr s) : Inv tr s := by
  induction reach with
  | init => exact start_inv tr v
  | step e _ fires ih =>
    have before := fresh.of_step fires
    exact step_inv sound (ih before) before fires

/-- A word that has the stamp of a round was written in it. -/
def Word.CurrentIn {W : Type*} (tr : Traffic ρ χ σ V) (w : Word σ W) (k : ℕ) : Prop :=
  w.stamp = tr.stamp k → w.writtenIn = some k

/-- Using the rings again does no harm in a state. -/
structure Safe (tr : Traffic ρ χ σ V) (s : State ρ χ σ V) : Prop where
  /-- A packet that has not been read is still in its slot, -/
  kept : ∀ k ring, ∀ i ∈ s.stored (k, ring), i ∉ s.fetched (k, ring) →
    s.slots ring (i % tr.ringSize ring) = some (k, i)
  /-- a new one overwrites only what has been read, -/
  overwrites_read : ∀ ring i s', step tr s (.store ring i) = some s' → ∀ k j,
    s.slots ring (i % tr.ringSize ring) = some (k, j) → j ∈ s.fetched (k, ring)
  /-- and what is read is the packet that has been sent at this position in this round. -/
  reads_own : ∀ ring i s', step tr s (.fetch ring i) = some s' →
    s.slots ring (i % tr.ringSize ring) = some (s.round ring.receiver, i)
  /-- Nobody takes a word of another round for one of its own. -/
  offsetWord : ∀ x, (s.offsetWord x).CurrentIn tr (s.round x.2.dst)
  tailWord : ∀ ring, (s.tailWord ring).CurrentIn tr (s.round ring.receiver)
  headWord : ∀ ring, (s.headWord ring).CurrentIn tr (s.round ring.sender)
  /-- What has been taken from the words is so. -/
  offset : ∀ x v, s.offset x = some v → v = tr.offset x
  accepted : ∀ x, ∀ i < s.accepted x, i ∈ s.stored x
  seen : ∀ x, ∀ i < s.seen x, i ∈ s.fetched x

theorem Inv.safe (sound : Sound tr) (inv : Inv tr s) (fresh : Fresh tr s) : Safe tr s where
  __ := inv
  overwrites_read ring i s' fires k j there := by
    simp only [step, Option.ite_none_right_eq_some] at fires
    obtain ⟨⟨here, inside, new, room, gated⟩, -⟩ := fires
    obtain ⟨stored, slot⟩ := inv.slots ring _ k j there
    exact inv.overwrites_read sound (left_eq here) inside new room gated stored slot
  reads_own ring i s' fires := by
    simp only [step, Option.ite_none_right_eq_some] at fires
    obtain ⟨⟨-, -, there, unread⟩, -⟩ := fires
    exact inv.kept _ ring i (inv.accepted _ i there) unread
  offsetWord x stamp := ((inv.offsetWord x).current (fun _ _ so => begun_of_half so.1) fresh
    (begun_round s _) stamp).1
  tailWord ring stamp := ((inv.tailWord ring).current (fun _ _ so => begun_of_half so.1) fresh
    (begun_round s _) stamp).1
  headWord ring stamp := ((inv.headWord ring).current (fun _ _ so => begun_of_half so.1) fresh
    (begun_round s _) stamp).1

/-- **Rings can be used again without a barrier**, in every run, as long as the stamps of the
rounds that have been begun differ. -/
theorem safe_of_reachable (sound : Sound tr) {v : V} (reach : (system tr v).Reachable s)
    (fresh : Fresh tr s) : Safe tr s :=
  (reachable_inv sound reach fresh).safe sound fresh

end Runs

end RingReuse
