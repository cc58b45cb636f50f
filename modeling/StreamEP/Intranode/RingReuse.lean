import Mathlib.Algebra.BigOperators.Fin
import StreamEP.Intranode.Arrival
import StreamEP.Intranode.Combine
import StreamEP.Intranode.DispatchRing
import StreamEP.Lib.RingReuse

/-!
# The rings between successive kernels

All kernels of a training run use the same rings.  A step runs dispatch, combine, `dispatch_grads`
and `combine_grads` on every rank, on one stream and in this order; then the next step follows.
The first and the third share the rings of dispatch, the second and the fourth those of combine,
with the same words for offsets, heads and tails.  None of these kernels clears them or waits for
the other ranks, which may be anywhere in the order; the barriers of the metadata exchange before
a dispatch are left out too.

**Rounds.**  A step is two rounds of the library, forward and backward (`traffic`), with the
routing of the step.  Both rounds have the sequence number of the step in their stamp and differ
in its lowest bit (`nvlSeq`).  Senders announce the offsets that the dispatch sender computes; a
sender of combine takes its range of tokens from the tables that dispatch left.  The tiles of a
packet are those of its token's slots, and a lane adds to them what Pass 2 adds.

**Events.**  On the sending side, `announce` is the store of an offset word, `look` the read in
`sender_wait_for_queue_space`, `store` the copy of one packet and `publish` the release of the
tail.  On the receiving side, `accept` ends a spin on an offset word, `poll` is the read of the
tail, `fetch` the read of one packet, `free` the store of the head, and `fire` an addition of
Pass 2.  `compute` is a tile of the expert layers, and `leave` the end of a kernel.

**What is not refined.**  Warps are not told apart here.  Any packet within the window may be
stored, and any that is published may be read, in any order; a head may be published as soon as
everything in front of it has been read, and a sender or receiver may act on a head or tail that
it has seen earlier.  This leaves more runs than the loops of the kernels have.  A token goes back
when all tiles that it has a row in have been computed, and these start at their target.  The
counters that say so are fresh in every step, so they are indexed by the round.

**The horizon.**  A stamp has 32 bits, so the sequence numbers of two steps must differ in their
low 31 bits, and from the zero words of the new buffer (`WithinHorizon`).  `ring_reuse` says that
nothing else is needed; `staleWords_accepted`, that this is.
-/

namespace StreamEP

/-- The shape with other experts and tiles, which a `Buffer` does not pin. -/
abbrev Shape.withPool (sh : Shape) (numExpertsPerRank tileM : ℕ+) : Shape :=
  { sh with
    numExpertsPerRank := numExpertsPerRank
    tileM := tileM
    numExpertsPerRank_pos := numExpertsPerRank.pos
    tileM_pos := tileM.pos }

namespace Intranode

open Finset RingReuse

variable {sh : Shape} {Row Weight : Type}

/-- The training steps that use one buffer, in order. -/
structure Training (sh : Shape) (Row Weight : Type) where
  numExpertsPerRank : ℕ → ℕ+
  tileM : ℕ → ℕ+
  world : (j : ℕ) → World (sh.withPool (numExpertsPerRank j) (tileM j)) Row Weight
  /-- `dispatch_seq` of a step. -/
  dispatchSeq : ℕ → ℕ
  /-- Slots of every ring, of dispatch and of combine. -/
  numRecvBufferTokens : ℕ

namespace Training

variable (t : Training sh Row Weight)

/-- `nvl_seq` of the kernels of a round: the second round of a step has the phase bit. -/
def nvlSeq (k : ℕ) : BitVec 32 := BitVec.ofNat 32 (t.dispatchSeq (k / 2) <<< 1 ||| k % 2)

/-- The shape of a round, -/
abbrev shape (k : ℕ) : Shape := sh.withPool (t.numExpertsPerRank (k / 2)) (t.tileM (k / 2))

/-- and its routing. -/
def worldOf (k : ℕ) : World (t.shape k) Row Weight := t.world (k / 2)

/-- The tiles of rank `l.dst` in which a token has a row. -/
def tiles (k : ℕ) (l : Lane (Fin sh.numRanks) (Fin sh.numChannels)) (i : ℕ) : Finset ℕ :=
  let w := t.worldOf k
  match (selected (w.inputs l.src) l.dst l.channel)[i]? with
  | none => ∅
  | some token =>
    let slot k' := (w.plan l.dst).pairSlot l.channel l.src (token * sh.numTopk + k')
    ((range sh.numTopk).filter fun k' => 0 ≤ slot k').image fun k' =>
      (slot k').toNat / (t.shape k).tileM

/-- What Pass 2 of a receiver adds to a tile: it has counted its substream, and in the backward
pass it reads the counts from `seen_per_substream`. -/
def share (k : ℕ) (l : Lane (Fin sh.numRanks) (Fin sh.numChannels)) (tile : ℕ) : ℕ :=
  let w := t.worldOf k
  Store.added (pass2 (t.shape k) (w.basePoolSubstream l.dst l.channel l.src) fun e =>
    substreamPairs w.inputs l.dst e (l.channel * sh.numRanks + l.src)) tile

/-- Dispatch and combine are the halves of one round of a step, `dispatch_grads` and
`combine_grads` those of the other. -/
def traffic : Traffic (Fin sh.numRanks) (Fin sh.numChannels) (BitVec 32) ℤ where
  ringSize _ := t.numRecvBufferTokens
  stamp := t.nvlSeq
  blank := 0
  count k ring :=
    let w := t.worldOf k
    let l := ring.lane
    match ring.way with
    | .out => (selected (w.inputs l.src) l.dst l.channel).length
    | .back => (w.combineTokenEnd l.dst l.src l.channel -
        w.combineTokenStart l.dst l.src l.channel).toNat
  offset
    | (k, .start, l) => startOffset ((t.worldOf k).inputs l.src) l.dst l.channel
    | (k, .stop, l) => endOffset ((t.worldOf k).inputs l.src) l.dst l.channel
  number start last := (-last - 1 - (-start - 1)).toNat
  numTiles k r := totalTiles (t.shape k) ((t.worldOf k).eIn r)
  tiles := t.tiles
  share := t.share
  target k r := (t.worldOf k).arrivalTarget r

/-- All ranks, over a buffer whose words are zero. -/
def system := RingReuse.system t.traffic 0

/-- Some rank has got to a step. -/
def BegunStep (s : RingReuse.State (Fin sh.numRanks) (Fin sh.numChannels) (BitVec 32) ℤ)
    (j : ℕ) : Prop :=
  ∃ r, 4 * j ≤ s.left r

/-- The sequence numbers of the steps that have been begun are within the horizon of the stamps:
they differ in their low 31 bits from each other, and from the zero words. -/
structure WithinHorizon
    (s : RingReuse.State (Fin sh.numRanks) (Fin sh.numChannels) (BitVec 32) ℤ) : Prop where
  differ : ∀ j j', BegunStep s j → BegunStep s j' →
    t.dispatchSeq j % 2 ^ 31 = t.dispatchSeq j' % 2 ^ 31 → j = j'
  ne_zero : ∀ j, BegunStep s j → t.dispatchSeq j % 2 ^ 31 ≠ 0

variable {t} {k : ℕ} {s : RingReuse.State (Fin sh.numRanks) (Fin sh.numChannels) (BitVec 32) ℤ}

/-! ### Stamps -/

theorem shiftLeft_or_mod_two (n b : ℕ) : n <<< 1 ||| b % 2 = 2 * n + b % 2 := by
  have parts := Nat.two_pow_add_eq_or_of_lt (i := 1) (Nat.mod_lt b Nat.two_pos) n
  rw [Nat.shiftLeft_eq, Nat.mul_comm]
  exact parts.symm

theorem nvlSeq_inj {k' : ℕ} (same : t.nvlSeq k = t.nvlSeq k') :
    t.dispatchSeq (k / 2) % 2 ^ 31 = t.dispatchSeq (k' / 2) % 2 ^ 31 ∧ k % 2 = k' % 2 := by
  have words := congrArg BitVec.toNat same
  rw [nvlSeq, nvlSeq, BitVec.toNat_ofNat, BitVec.toNat_ofNat, shiftLeft_or_mod_two,
    shiftLeft_or_mod_two] at words
  omega

theorem fresh (horizon : t.WithinHorizon s) : Fresh t.traffic s where
  injective k k' := by
    rintro ⟨r, here⟩ ⟨r', here'⟩ same
    obtain ⟨seqs, halves⟩ := nvlSeq_inj same
    have step := horizon.differ (k / 2) (k' / 2) ⟨r, by omega⟩ ⟨r', by omega⟩ seqs
    omega
  ne_blank k := by
    rintro ⟨r, here⟩ (zero : t.nvlSeq k = 0)
    have word := congrArg BitVec.toNat zero
    rw [nvlSeq, BitVec.toNat_ofNat, shiftLeft_or_mod_two] at word
    have := horizon.ne_zero (k / 2) ⟨r, by omega⟩
    have zero : (0 : BitVec 32).toNat = 0 := rfl
    omega

/-! ### The numbers fit together -/

theorem share_eq (k : ℕ) (l : Lane (Fin sh.numRanks) (Fin sh.numChannels)) (tile : ℕ) :
    t.share k l tile =
      ((t.worldOf k).plan l.dst).share tile (l.channel * sh.numRanks + l.src) := by
  rw [share, added_pass2, PoolPlan.share]
  rfl

/-- A tile of a token is a tile of the rank, and its lane has a share in it. -/
theorem tile_spec {l : Lane (Fin sh.numRanks) (Fin sh.numChannels)} {i tile : ℕ}
    (here : tile ∈ t.tiles k l i) :
    tile < totalTiles (t.shape k) ((t.worldOf k).eIn l.dst) ∧ 0 < t.share k l tile := by
  rw [tiles] at here
  cases found : (selected ((t.worldOf k).inputs l.src) l.dst l.channel)[i]? with
  | none =>
    simp only [found] at here
    exact absurd here (notMem_empty tile)
  | some token =>
    simp only [found, mem_image, mem_filter, mem_range] at here
    obtain ⟨k', ⟨hk, assigned⟩, rfl⟩ := here
    have mem := List.mem_of_getElem? found
    rcases PoolPlan.pairSlot_cases ((t.worldOf k).plan l.dst) l.channel.isLt l.src.isLt mem hk with
      ⟨-, none⟩ | ⟨e, -, pair⟩
    · exact absurd (assigned.trans_eq none) (by decide)
    · have slot := (Int.toNat_of_nonneg assigned).symm
      refine ⟨?_, (share_eq k l _).symm ▸ PoolPlan.share_pos pair slot⟩
      rw [PoolPlan.pairSlot_of_isPair pair, Int.toNat_natCast]
      exact (Nat.div_lt_iff_lt_mul (t.shape k).tileM_pos).2
        ((Nat.add_lt_add_left (PoolPlan.pairIndex_lt pair) _).trans_le
          (PoolPlan.expert_block_le_totalTiles pair.expert))

/-- The shares of all lanes to a rank are the target. -/
theorem sum_share {r : Fin sh.numRanks} {tile : ℕ}
    (inside : tile < totalTiles (t.shape k) ((t.worldOf k).eIn r)) :
    ∑ q, ∑ c, t.share k ⟨q, c, r⟩ tile = (t.worldOf k).arrivalTarget r tile := by
  have total : ∑ cs ∈ range (sh.numChannels * sh.numRanks), ((t.worldOf k).plan r).share tile cs =
      (t.worldOf k).arrivalTarget r tile := PoolPlan.sum_share inside
  rw [← total, sum_comm, sum_range, ← finProdFinEquiv.sum_comp, Fintype.sum_prod_type]
  refine sum_congr rfl fun c _ => sum_congr rfl fun q _ => ?_
  rw [share_eq, finProdFinEquiv_apply_val, Nat.mul_comm, Nat.add_comm]

theorem traffic_sound (t : Training sh Row Weight) : Sound t.traffic where
  number_eq k l := by
    show (numTokensToRecv ((t.worldOf k).inputs l.src) l.dst l.channel).toNat = _
    rw [numTokensToRecv_eq, ← length_selected]
    rfl
  count_back k l := by
    show ((t.worldOf k).combineTokenEnd l.dst l.src l.channel -
      (t.worldOf k).combineTokenStart l.dst l.src l.channel).toNat =
        (selected ((t.worldOf k).inputs l.src) l.dst l.channel).length
    have tokens : (t.worldOf k).numChannelTokens l.dst l.src l.channel =
        ((t.worldOf k).inputs l.src).tokensIn l.dst l.channel :=
      World.numChannelTokens_eq l.dst.isLt l.src.isLt l.channel.isLt
    rw [World.combineTokenEnd, World.combineTokenStart, add_sub_cancel_left, tokens,
      Int.toNat_natCast, length_selected]
  share_pos _ _ _ _ _ here := (tile_spec here).2
  sum_share _ _ _ _ _ here := sum_share (tile_spec here).1

/-- **The rings can be used by one kernel after another** with no barrier between them. -/
theorem ring_reuse (t : Training sh Row Weight)
    {s : RingReuse.State (Fin sh.numRanks) (Fin sh.numChannels) (BitVec 32) ℤ}
    (reach : t.system.Reachable s) (horizon : t.WithinHorizon s) : Safe t.traffic s :=
  safe_of_reachable (traffic_sound t) reach (fresh horizon)

/-! ### Within and beyond the horizon -/

/-- Two ranks with one expert each, and tiles of two rows. -/
def oneExpertShape : Shape where
  numRanks := 2
  numChannels := 1
  numExpertsPerRank := 1
  numTopk := 1
  tileM := 2
  numRanks_pos := Nat.two_pos
  numChannels_pos := Nat.one_pos
  numExpertsPerRank_pos := Nat.one_pos
  tileM_pos := Nat.two_pos

/-- Three tokens, of which the first ones go to the expert of rank 1 and the others nowhere. -/
def tokenInputs (routed : ℕ) (few : routed ≤ 3) :
    DispatchInputs (oneExpertShape.withPool (Nat.succPNat 0) (Nat.succPNat 1)) ℕ ℕ where
  numTokens := 3
  x t := t
  topkIdx p := if p < routed then 1 else -1
  topkWeights _ := 1
  isTokenInRank i := decide (i % 2 = 1 ∧ i / 2 < routed)
  topkIdx_lower := by
    revert routed
    decide
  topkIdx_upper := by
    revert routed
    decide
  topkIdx_distinct _ _ _ hk _ hk' _ _ := (Nat.lt_one_iff.1 hk).trans (Nat.lt_one_iff.1 hk').symm
  isTokenInRank_iff := by
    revert routed
    decide

/-- In each step rank 0 sends some of its tokens to rank 1, and rank 1 sends none. -/
def tokenTraining (numRecvBufferTokens : ℕ) (routed dispatchSeq : ℕ → ℕ) :
    Training oneExpertShape ℕ ℕ where
  numExpertsPerRank _ := Nat.succPNat 0
  tileM _ := Nat.succPNat 1
  world j :=
    { inputs := fun src =>
        if src = 0 then tokenInputs (min (routed j) 3) (min_le_right _ _)
        else tokenInputs 0 (Nat.zero_le 3)
      numRecvBufferTokens := numRecvBufferTokens
      staleE := fun _ _ => 0
      staleU := fun _ _ => 0
      uninitSeen := fun _ => 0
      uninitSlot := fun _ => 0 }
  dispatchSeq := dispatchSeq
  numRecvBufferTokens := numRecvBufferTokens

section Runs

def rank0 : Fin 2 := ⟨0, Nat.two_pos⟩

def rank1 : Fin 2 := ⟨1, Nat.one_lt_two⟩

/-- The lane from one rank to the other, over the only channel. -/
def laneOf (src dst : Fin 2) : Lane (Fin 2) (Fin 1) := ⟨src, ⟨0, Nat.one_pos⟩, dst⟩

def twoRankLanes : List (Lane (Fin 2) (Fin 1)) :=
  [laneOf rank0 rank0, laneOf rank0 rank1, laneOf rank1 rank0, laneOf rank1 rank1]

/-- The lane of the tokens. -/
def tokenLane : Lane (Fin 2) (Fin 1) := laneOf rank0 rank1

/-- Packet `i` is sent, published and read. -/
def onePacket (way : Way) (i : ℕ) : List (Event (Fin 2) (Fin 1)) :=
  [.store ⟨way, tokenLane⟩ i, .publish ⟨way, tokenLane⟩ (i + 1), .poll ⟨way, tokenLane⟩,
    .fetch ⟨way, tokenLane⟩ i]

/-- The receiver publishes its head, and the sender sees it. -/
def oneHead (way : Way) (head : ℕ) : List (Event (Fin 2) (Fin 1)) :=
  [.free ⟨way, tokenLane⟩ head, .look ⟨way, tokenLane⟩]

/-- All sender blocks announce what they have, and publish the tails of rings without packets. -/
def announced (idle : List (Lane (Fin 2) (Fin 1))) : List (Event (Fin 2) (Fin 1)) :=
  twoRankLanes.flatMap (fun l => [.announce .start l, .announce .stop l]) ++
    idle.map (fun l => .publish ⟨.out, l⟩ 0) ++
    twoRankLanes.flatMap fun l => [.accept .start l, .accept .stop l]

def leaveBoth : List (Event (Fin 2) (Fin 1)) := [.leave rank0, .leave rank1]

/-- The first half of a round with some tokens, and their tiles. -/
def tokensOut (k tokens tiles : ℕ) : List (Event (Fin 2) (Fin 1)) :=
  announced (twoRankLanes.filter fun l => decide (l ≠ tokenLane)) ++
    (List.range tokens).flatMap (fun i => onePacket .out i ++ oneHead .out (i + 1)) ++
    (List.range tiles).flatMap
      (fun tile => [.fire tokenLane tile, .fire (laneOf rank1 rank1) tile]) ++ leaveBoth ++
    (List.range tiles).map fun tile => .compute k rank1 tile

/-- A round with one token.  The last head of its second half is not always published. -/
def oneTokenRound (k : ℕ) (last : List (Event (Fin 2) (Fin 1))) : List (Event (Fin 2) (Fin 1)) :=
  tokensOut k 1 1 ++ onePacket .back 0 ++ last ++ leaveBoth

/-- Both rounds of a step with one token. -/
def oneTokenStep : List (Event (Fin 2) (Fin 1)) :=
  oneTokenRound 0 [.free ⟨.back, tokenLane⟩ 1] ++ oneTokenRound 1 []

/-- A step with one token, and one without up to `combine_grads`. -/
def thenNone : List (Event (Fin 2) (Fin 1)) :=
  oneTokenStep ++ announced twoRankLanes ++ leaveBoth ++ leaveBoth ++
    announced twoRankLanes ++ leaveBoth

/-- A step with one token, and one with three up to combine, whose sender reads the head and
stores two of them. -/
def thenThree : List (Event (Fin 2) (Fin 1)) :=
  oneTokenStep ++ tokensOut 2 3 2 ++
    [.look ⟨.back, tokenLane⟩, .store ⟨.back, tokenLane⟩ 0, .store ⟨.back, tokenLane⟩ 1]

/-- One token in the first step, and none behind it. -/
def onlyFirst (j : ℕ) : ℕ := if j = 0 then 1 else 0

/-- The sequence numbers count the steps. -/
def countingTraining : Training oneExpertShape ℕ ℕ := tokenTraining 256 onlyFirst fun j => j + 1

/-- The numbers of successive steps differ by the horizon. -/
def wrappingTraining : Training oneExpertShape ℕ ℕ :=
  tokenTraining 256 onlyFirst fun j => 1 + j * 2 ^ 31

/-- The same over rings of two slots, with three tokens from the second step on. -/
def crowdedTraining : Training oneExpertShape ℕ ℕ :=
  tokenTraining 2 (fun j => if j = 0 then 1 else 3) fun j => 1 + j * 2 ^ 31

/-- The first number is that of the horizon. -/
def lateTraining : Training oneExpertShape ℕ ℕ :=
  tokenTraining 256 onlyFirst fun j => (j + 1) * 2 ^ 31

/-- As long as the numbers count the steps, the rings are safe. -/
theorem countingTraining_safe :
    ∃ s, countingTraining.system.Reachable s ∧ (∀ r, s.left r = 7) ∧
      Safe countingTraining.traffic s := by
  have replays : (countingTraining.system.run countingTraining.system.init thenNone).any
      (fun s => decide (∀ r, s.left r = 7)) = true := by decide +kernel
  obtain ⟨s, replay, left⟩ := (Option.any_eq_true _ _).1 replays
  have left := of_decide_eq_true left
  have reach := TransitionSystem.Reachable.init.run replay
  have few : ∀ j, BegunStep s j → j ≤ 1 := by
    rintro j ⟨r, begun⟩
    rw [left r] at begun
    omega
  refine ⟨s, reach, left, ring_reuse countingTraining reach ⟨fun j j' here here' same => ?_,
    fun j here => ?_⟩⟩
  · have := few j here
    have := few j' here'
    change (j + 1) % 2 ^ 31 = (j' + 1) % 2 ^ 31 at same
    omega
  · have := few j here
    change (j + 1) % 2 ^ 31 ≠ 0
    omega

theorem strictMono_wrapping : StrictMono fun j => 1 + j * 2 ^ 31 := fun _ _ less =>
  Nat.add_lt_add_left (Nat.mul_lt_mul_of_pos_right less (by decide)) 1

/-- **Stamps that come again are taken for current.**  A receiver of combine takes the tail of the
step before for one of its own; a sender of combine takes the head of the step before for one of
its own, and overwrites a packet that nobody has read; and a receiver of dispatch takes the zero
word for an announcement. -/
theorem staleWords_accepted :
    (StrictMono wrappingTraining.dispatchSeq ∧
      ∃ s s', wrappingTraining.system.Reachable s ∧
        wrappingTraining.system.step s (.poll ⟨.back, tokenLane⟩) = some s' ∧
        s.round rank0 = 3 ∧ (s.tailWord ⟨.back, tokenLane⟩).writtenIn = some 1 ∧
        s'.accepted (3, ⟨.back, tokenLane⟩) = 1 ∧ s'.stored (3, ⟨.back, tokenLane⟩) = ∅) ∧
    (StrictMono crowdedTraining.dispatchSeq ∧
      ∃ s s', crowdedTraining.system.Reachable s ∧
        crowdedTraining.system.step s (.store ⟨.back, tokenLane⟩ 2) = some s' ∧
        (s.headWord ⟨.back, tokenLane⟩).writtenIn = some 0 ∧
        s.slots ⟨.back, tokenLane⟩ 0 = some (2, 0) ∧ 0 ∉ s.fetched (2, ⟨.back, tokenLane⟩) ∧
        s'.slots ⟨.back, tokenLane⟩ 0 = some (2, 2)) ∧
    StrictMono lateTraining.dispatchSeq ∧
      ∃ s', lateTraining.system.step lateTraining.system.init (.accept .start tokenLane) =
          some s' ∧
        s'.offset (0, .start, tokenLane) = some 0 ∧
        lateTraining.traffic.offset (0, .start, tokenLane) = -1 := by
  have tail : (wrappingTraining.system.run wrappingTraining.system.init thenNone).any
      (fun s => (wrappingTraining.system.step s (.poll ⟨.back, tokenLane⟩)).any fun s' =>
        decide (s.round rank0 = 3 ∧ (s.tailWord ⟨.back, tokenLane⟩).writtenIn = some 1 ∧
          s'.accepted (3, ⟨.back, tokenLane⟩) = 1 ∧ s'.stored (3, ⟨.back, tokenLane⟩) = ∅)) =
      true := by
    decide +kernel
  have head : (crowdedTraining.system.run crowdedTraining.system.init thenThree).any
      (fun s => (crowdedTraining.system.step s (.store ⟨.back, tokenLane⟩ 2)).any fun s' =>
        decide ((s.headWord ⟨.back, tokenLane⟩).writtenIn = some 0 ∧
          s.slots ⟨.back, tokenLane⟩ 0 = some (2, 0) ∧
          0 ∉ s.fetched (2, ⟨.back, tokenLane⟩) ∧
          s'.slots ⟨.back, tokenLane⟩ 0 = some (2, 2))) = true := by
    decide +kernel
  have zero : (lateTraining.system.step lateTraining.system.init (.accept .start tokenLane)).any
      (fun s' => decide (s'.offset (0, .start, tokenLane) = some 0)) = true := by
    decide +kernel
  obtain ⟨s, replay, polls⟩ := (Option.any_eq_true _ _).1 tail
  obtain ⟨s', polls, stale⟩ := (Option.any_eq_true _ _).1 polls
  obtain ⟨t, replay', stores⟩ := (Option.any_eq_true _ _).1 head
  obtain ⟨t', stores, overwrites⟩ := (Option.any_eq_true _ _).1 stores
  obtain ⟨u, accepts, taken⟩ := (Option.any_eq_true _ _).1 zero
  refine ⟨⟨strictMono_wrapping, s, s', TransitionSystem.Reachable.init.run replay, polls,
      of_decide_eq_true stale⟩,
    ⟨strictMono_wrapping, t, t', TransitionSystem.Reachable.init.run replay', stores,
      of_decide_eq_true overwrites⟩, fun j j' less => ?_, u, accepts, of_decide_eq_true taken,
    by decide +kernel⟩
  exact Nat.mul_lt_mul_of_pos_right (Nat.succ_lt_succ less) (by decide)

end Runs

end Training

end Intranode

end StreamEP
