import Mathlib.Algebra.BigOperators.Group.Finset.Basic
import Mathlib.Algebra.BigOperators.Intervals
import StreamEP.Config
import StreamEP.Lib.PrefixSum
import StreamEP.Lib.ReplayRings
import StreamEP.Lib.WrapCounter

/-!
# The phase of an RDMA ring

On the ring of a (channel, source node, destination node) every iteration of dispatch
sends a header and then its tokens.  The stream goes on from one iteration to the next:
both sides keep the number of positions of all earlier iterations in a 32-bit counter
(`reader_prev_head` at the sender, `reader_prev_tail` at the forwarder), and position `j`
of the iteration has the slot `(reader_prev % ring + j) % ring`.

**The counters.**  Each side has its own recursion over the iterations, as its code has it: the
sender adds what it has put, the forwarder what the headers announce.  `readerPrevHead_eq` and
`readerPrevTail_eq` say that both are the number of positions so far, as a 32-bit word.

**The slots.**  The sender's side writes the header and the tokens by different expressions, and
the forwarder reads by a third (`senderSlot`, `forwarderSlot`); all give the same slot.  In
terms of the stream the slot is the position modulo the ring, except that the counter has lost
its multiples of `2 ^ 32` (`senderSlot_base`).

`positions_distinct_iff` says when any `ring` consecutive positions of the stream have
different slots: when the ring's size divides `2 ^ 32`, or no iteration starts at a
position from `2 ^ 32` on.  For the converse, the first iteration that starts beyond the wrap has
its header on the slot of a position less than a ring behind it (`not_positionsDistinct`).  The
rings that sixteen ranks are given have 260 slots, which does not divide `2 ^ 32`.
-/

namespace StreamEP.Internode

open Finset

/-- `atomicmax_reader_prev_cumulative`: what the word holds afterwards. -/
def atomicmaxReaderPrevCumulative (old curLow : BitVec 32) : BitVec 32 :=
  WrapCounter.advance old curLow

/-- Iterations of dispatch over one ring. -/
structure Iterations where
  /-- How many iterations there are. -/
  count : ℕ
  /-- Tokens that an iteration sends over the ring. -/
  numTokens : ℕ → ℕ
  /-- A header and its tokens are counted by an `int`. -/
  isInt : ∀ i, numTokens i + 1 < 2 ^ 31

namespace Iterations

variable (it : Iterations)

/-- Positions of the stream before iteration `i`: each iteration has a header. -/
def base (i : ℕ) : ℕ := ∑ j ∈ range i, (it.numTokens j + 1)

/-- `reader_prev_head` when iteration `i` starts. -/
def readerPrevHead : ℕ → BitVec 32
  | 0 => 0
  | i + 1 =>
      let prev := readerPrevHead i
      atomicmaxReaderPrevCumulative prev (prev + BitVec.ofNat 32 (it.numTokens i) + 1)

/-- `reader_prev_tail` when iteration `i` starts; the forwarder takes the number of tokens
from the header. -/
def readerPrevTail : ℕ → BitVec 32
  | 0 => 0
  | i + 1 =>
      let prev := readerPrevTail i
      atomicmaxReaderPrevCumulative prev (prev + BitVec.ofNat 32 (it.numTokens i) + 1)

end Iterations

section Slots

variable (cfg : Config)

/-- `ring_phase_base`, also `coord_phase_base`. -/
def ringPhaseBase (prev : BitVec 32) : ℕ := prev.toNat % cfg.numMaxRdmaChunkedRecvTokens

/-- Where the sender side stages position `j` of an iteration: the coordinator's header for
`j = 0`, a sender warp's token `j - 1` otherwise. -/
def senderSlot (prevHead : BitVec 32) : ℕ → ℕ
  | 0 => ringPhaseBase cfg prevHead
  | slotIdx + 1 =>
      (slotIdx + 1 + ringPhaseBase cfg prevHead) % cfg.numMaxRdmaChunkedRecvTokens

/-- Where the forwarder looks for position `j`. -/
def forwarderSlot (prevTail : BitVec 32) : ℕ → ℕ
  | 0 => ringPhaseBase cfg prevTail
  | i + 1 => (i + 1 + ringPhaseBase cfg prevTail) % cfg.numMaxRdmaChunkedRecvTokens

/-- Both sides agree on the slots of all positions, and positions less than a ring apart
have different slots. -/
structure Iterations.PositionsDistinct (it : Iterations) : Prop where
  agree : ∀ i < it.count, ∀ j ≤ it.numTokens i,
    forwarderSlot cfg (it.readerPrevTail i) j = senderSlot cfg (it.readerPrevHead i) j
  distinct : ∀ i < it.count, ∀ j ≤ it.numTokens i, ∀ i' < it.count, ∀ j' ≤ it.numTokens i',
    it.base i + j < it.base i' + j' →
    it.base i' + j' < it.base i + j + cfg.numMaxRdmaChunkedRecvTokens →
      senderSlot cfg (it.readerPrevHead i) j ≠ senderSlot cfg (it.readerPrevHead i') j'

end Slots

variable {cfg : Config} {it : Iterations}

theorem Config.rdmaRecv_pos : 0 < cfg.numMaxRdmaChunkedRecvTokens :=
  cfg.rdmaSend_pos.trans cfg.rdmaSend_lt_recv

namespace Iterations

theorem base_succ (i : ℕ) : it.base (i + 1) = it.base i + (it.numTokens i + 1) :=
  sum_range_succ _ _

theorem base_mono {i j : ℕ} (h : i ≤ j) : it.base i ≤ it.base j :=
  sum_le_sum_of_subset (range_mono h)

/-- **The sender's counter is the number of positions so far**, as a 32-bit word. -/
theorem readerPrevHead_eq (i : ℕ) : it.readerPrevHead i = BitVec.ofNat 32 (it.base i) := by
  induction i with
  | zero => rfl
  | succ i ih =>
      have small := it.isInt i
      have next : it.readerPrevHead i + BitVec.ofNat 32 (it.numTokens i) + 1 =
          BitVec.ofNat 32 (it.base (i + 1)) := by
        rw [ih, base_succ, WrapCounter.ofNat_add]
        exact WrapCounter.ofNat_add _ 1
      rw [readerPrevHead, next, ih, atomicmaxReaderPrevCumulative,
        WrapCounter.advance_ofNat (by decide) (by rw [base_succ]; omega)
          (by rw [base_succ]; omega), max_eq_right (base_mono (Nat.le_succ i))]

/-- The forwarder's counter is the same. -/
theorem readerPrevTail_eq (i : ℕ) : it.readerPrevTail i = it.readerPrevHead i := by
  induction i with
  | zero => rfl
  | succ i ih => rw [readerPrevTail, readerPrevHead, ih]

end Iterations

/-- Position `j` has the slot `(reader_prev % ring + j) % ring`. -/
theorem senderSlot_eq (prev : BitVec 32) (j : ℕ) :
    senderSlot cfg prev j =
      (prev.toNat % cfg.numMaxRdmaChunkedRecvTokens + j) % cfg.numMaxRdmaChunkedRecvTokens := by
  cases j with
  | zero => exact (Nat.mod_mod _ _).symm
  | succ j => rw [senderSlot, ringPhaseBase, Nat.add_comm]

theorem forwarderSlot_eq (prev : BitVec 32) (j : ℕ) :
    forwarderSlot cfg prev j = senderSlot cfg prev j := by
  cases j <;> rfl

namespace Iterations

/-- The slot in terms of the stream: the counter has lost its multiples of `2 ^ 32`. -/
theorem senderSlot_base (i j : ℕ) :
    senderSlot cfg (it.readerPrevHead i) j =
      (it.base i % 2 ^ 32 + j) % cfg.numMaxRdmaChunkedRecvTokens := by
  rw [senderSlot_eq, readerPrevHead_eq, BitVec.toNat_ofNat, Nat.mod_add_mod]

/-- When the counter's wrap is a multiple of the ring, or has not happened yet, the slot of a
position is the position itself modulo the ring. -/
theorem senderSlot_of_phase {i : ℕ} (j : ℕ)
    (phase : cfg.numMaxRdmaChunkedRecvTokens ∣ 2 ^ 32 ∨ it.base i < 2 ^ 32) :
    senderSlot cfg (it.readerPrevHead i) j =
      (it.base i + j) % cfg.numMaxRdmaChunkedRecvTokens := by
  rw [senderSlot_base]
  rcases phase with divides | before
  · rw [← Nat.mod_add_mod, Nat.mod_mod_of_dvd _ divides, Nat.mod_add_mod]
  · rw [Nat.mod_eq_of_lt before]

theorem positionsDistinct_of_phase
    (phase : cfg.numMaxRdmaChunkedRecvTokens ∣ 2 ^ 32 ∨ ∀ i < it.count, it.base i < 2 ^ 32) :
    it.PositionsDistinct cfg where
  agree i _ j _ := by rw [readerPrevTail_eq, forwarderSlot_eq]
  distinct i hi j _ i' hi' j' _ before near := by
    rw [senderSlot_of_phase j (phase.imp_right fun all => all i hi),
      senderSlot_of_phase j' (phase.imp_right fun all => all i' hi')]
    exact ReplayRings.mod_ne before near

/-- The first iteration that starts beyond the wrap, when there is one. -/
theorem exists_first_wrap (beyond : ∃ i < it.count, 2 ^ 32 ≤ it.base i) :
    ∃ i, i + 1 < it.count ∧ it.base i < 2 ^ 32 ∧ 2 ^ 32 ≤ it.base (i + 1) := by
  obtain ⟨hi, le⟩ := Nat.find_spec beyond
  have least := fun k => Nat.find_min beyond (m := k)
  cases first : Nat.find beyond with
  | zero =>
      rw [first] at le
      exact absurd (Nat.le_zero.1 le) (by decide)
  | succ i =>
      rw [first] at hi le
      have before := least i (first ▸ Nat.lt_succ_self i)
      exact ⟨i, hi, not_le.1 fun wrapped => before ⟨Nat.lt_of_succ_lt hi, wrapped⟩, le⟩

/-- Every position of the stream belongs to an iteration. -/
theorem exists_position {k q : ℕ} (hq : q < it.base k) :
    ∃ i < k, ∃ j ≤ it.numTokens i, it.base i + j = q := by
  obtain ⟨i, hi, start_le, lt_end⟩ := PrefixSum.exists_block hq
  refine ⟨i, hi, q - it.base i, ?_, Nat.add_sub_cancel' start_le⟩
  rw [base]
  omega

/-- **At the wrap two near positions collide**, unless the ring divides `2 ^ 32`: the header
of the first iteration beyond it falls on a position less than a ring before it. -/
theorem not_positionsDistinct
    (odd : ¬cfg.numMaxRdmaChunkedRecvTokens ∣ 2 ^ 32)
    (beyond : ∃ i < it.count, 2 ^ 32 ≤ it.base i) : ¬it.PositionsDistinct cfg := by
  intro all
  obtain ⟨i, hi, before, after⟩ := exists_first_wrap beyond
  have small := it.isInt i
  have step := it.base_succ i
  set ring := cfg.numMaxRdmaChunkedRecvTokens
  have pos : 0 < ring := Config.rdmaRecv_pos
  have gap_pos : 0 < 2 ^ 32 % ring := Nat.pos_of_ne_zero fun none =>
    odd (Nat.dvd_of_mod_eq_zero none)
  have gap_lt : 2 ^ 32 % ring < ring := Nat.mod_lt _ pos
  have gap_le : 2 ^ 32 % ring ≤ 2 ^ 32 := Nat.mod_le _ _
  obtain ⟨k, hk, j, hj, here⟩ := it.exists_position (k := i + 1)
    (q := it.base (i + 1) - 2 ^ 32 % ring) (by omega)
  refine all.distinct k (hk.trans hi) j hj (i + 1) hi 0 (Nat.zero_le _) (by omega) (by omega) ?_
  have unwrapped : it.base k < 2 ^ 32 := (base_mono (Nat.lt_succ_iff.1 hk)).trans_lt before
  have wrapped : it.base (i + 1) % 2 ^ 32 = it.base (i + 1) - 2 ^ 32 := by
    rw [Nat.mod_eq_sub_mod after, Nat.mod_eq_of_lt (by omega)]
  rw [senderSlot_of_phase j (Or.inr unwrapped), senderSlot_base, wrapped, here]
  -- the two positions differ by `2 ^ 32` less its remainder, a multiple of the ring
  have apart : it.base (i + 1) - 2 ^ 32 % ring =
      it.base (i + 1) - 2 ^ 32 + ring * (2 ^ 32 / ring) := by
    have split := Nat.div_add_mod (2 ^ 32) ring
    omega
  rw [apart, Nat.add_mul_mod_self_left, Nat.add_zero (it.base (i + 1) - 2 ^ 32)]

end Iterations

/-- **When the map from positions to slots stays injective.** -/
theorem positions_distinct_iff (cfg : Config) (it : Iterations) :
    it.PositionsDistinct cfg ↔
      cfg.numMaxRdmaChunkedRecvTokens ∣ 2 ^ 32 ∨ ∀ i < it.count, it.base i < 2 ^ 32 := by
  constructor
  · intro all
    by_contra phase
    obtain ⟨odd, beyond⟩ := not_or.1 phase
    refine Iterations.not_positionsDistinct odd ?_ all
    by_contra none
    exact beyond fun i hi => not_le.1 fun le => none ⟨i, hi, le⟩
  · exact Iterations.positionsDistinct_of_phase

/-! ### A ring of 260 slots -/

/-- The rings that 16 ranks are given: 256 slots, rounded up to whole chunks of 20. -/
def twoNodeConfig : Config where
  numSms := 24
  numMaxNvlChunkedSendTokens := 36
  numMaxNvlChunkedRecvTokens := 288
  numMaxRdmaChunkedSendTokens := 20
  numMaxRdmaChunkedRecvTokens := 260
  nvlSend_pos := Nat.succ_pos _
  nvlSend_lt_recv := Nat.le_of_ble_eq_true rfl
  rdmaSend_pos := Nat.succ_pos _
  rdmaSend_lt_recv := Nat.le_of_ble_eq_true rfl
  rdmaSend_le_half := Nat.le_of_ble_eq_true rfl
  rdmaRecv_aligned := ⟨13, rfl⟩

/-- 8191 tokens in every iteration, until the counter has wrapped. -/
def steadyIterations : Iterations where
  count := 2 ^ 19 + 1
  numTokens _ := 8191
  isInt _ := Nat.le_of_ble_eq_true rfl

theorem steadyIterations_base (i : ℕ) : steadyIterations.base i = i * 8192 := by
  show ∑ _j ∈ range i, 8192 = i * 8192
  rw [sum_const, card_range]
  rfl

/-- Its last header falls on a token of the iteration before, 256 positions back. -/
theorem steadyIterations_collide :
    Config.new 24 36 288 20 256 = some twoNodeConfig ∧
      ¬steadyIterations.PositionsDistinct twoNodeConfig := by
  refine ⟨rfl, fun all => ?_⟩
  refine all.distinct (2 ^ 19 - 1) (by decide) 7936 (by decide) (2 ^ 19) (by decide) 0
    (by decide) ?_ ?_ ?_
  · rw [steadyIterations_base, steadyIterations_base]
    decide
  · rw [steadyIterations_base, steadyIterations_base]
    decide
  · rw [Iterations.senderSlot_base, Iterations.senderSlot_base, steadyIterations_base,
      steadyIterations_base]
    rfl

end StreamEP.Internode
