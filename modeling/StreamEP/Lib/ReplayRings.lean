import Mathlib.Algebra.BigOperators.Group.Finset.Basic
import Mathlib.Algebra.Order.BigOperators.Group.Finset
import Mathlib.Data.Fintype.Basic
import Mathlib.Data.Int.Basic
import Mathlib.Order.Interval.Finset.Nat
import StreamEP.Lib.TransitionSystem

/-!
# Replaying recorded ring positions

Several rings are filled in order, each by its own writer.  Several readers share
a list of tokens: a reader takes its own tokens one after the other, and for each
token it reads one packet from every ring in which a position was recorded for the
token, and adds the packets up.  No packet says which token it belongs to.

* A writer claims room for a chunk, fills the claimed slots in any order, and then
  publishes its tail.
* A reader takes its next token up, waits until the tails have passed the recorded
  positions, reads, and then moves its own heads on.
* A ring's head is published from time to time as a lower bound of the heads of the
  readers that have not retired.

**What may go wrong.**  A slot could be overwritten before it is read, or nobody
could be able to go on.  The first is a matter of `Sound`: a reader's head must not
pass a position it still needs.  Then all sums are right (`Inv.out_eq`).  The second
is a matter of how far the heads may lag behind the tokens, `Paced`: then some step is
enabled until everything is combined (`exists_step`).  Runs always end (`step_fuel`).

**The plan.**  What is fixed before a run: sizes, the tokens of every reader, the recorded
positions, and what a reader's head is when it takes a token up and when it is done with it.
Nothing is said of where they come from.  `headAfter` and `headDuring` are the heads that
follow, so soundness is a condition on the plan alone.

**The invariant.**  It has a part for the rings (`Rings`): a claim has room, and the last
`ringSize` positions that were written are held, position by position.  And it has a part for
the readers (`Readers`): published heads stay below everything that is needed, and what was read
is right.  A writer's step keeps the second part because tails only grow (`Readers.mono`), a
reader's step the first because it leaves the rings alone (`Rings.of_eq`).  They meet in
`Inv.slot_eq`: a reader finds the packet it expects, since its position is needed and so cannot
have been overwritten.
-/

namespace ReplayRings

open Finset Function

variable {ι κ V : Type*}

/-- What the writers and readers agree on beforehand. -/
structure Plan (ι κ : Type*) where
  /-- Slots of a ring. -/
  ringSize : ℕ
  /-- Most packets a writer claims at once. -/
  chunk : ℕ
  /-- Free slots a writer waits for before it claims so many packets. -/
  required : ℕ → ℕ
  /-- Packets of each ring. -/
  total : ι → ℕ
  /-- How many tokens a reader takes, -/
  count : κ → ℕ
  /-- and which. -/
  token : κ → ℕ → ℕ
  /-- Recorded position of a token in a ring; negative if it has no packet there. -/
  expected : ℕ → ι → ℤ
  /-- A reader's head when it has taken a token with this record, -/
  headAtStart : ℤ → ℕ → ℕ
  /-- and when it is done with it. -/
  headAtEnd : ℤ → ℕ → ℕ

structure State (ι κ V : Type*) where
  /-- Published number of packets. -/
  tail : ι → ℕ
  /-- Packets claimed beyond the tail, -/
  claimed : ι → ℕ
  /-- and the positions among them that are still to be written. -/
  unwritten : ι → Finset ℕ
  slots : ι → ℕ → V
  /-- The readers' copy of the tails. -/
  cachedTail : ι → ℕ
  publishedHead : ι → ℕ
  /-- Tokens a reader is done with. -/
  done : κ → ℕ
  reading : κ → Bool
  regs : κ → ι → Option V
  head : κ → ι → ℕ
  retired : κ → Bool
  out : ℕ → Option V

inductive Event (ι κ : Type*) where
  | claim (i : ι)
  | write (i : ι) (q : ℕ)
  | publish (i : ι)
  | readTail (i : ι)
  | publishHead (i : ι) (h : ℕ)
  | arrive (w : κ)
  | read (w : κ) (i : ι)
  | finish (w : κ)
  | retire (w : κ)

/-- Nothing sent, nothing combined. -/
def start (slots : ι → ℕ → V) : State ι κ V where
  tail _ := 0
  claimed _ := 0
  unwritten _ := ∅
  slots := slots
  cachedTail _ := 0
  publishedHead _ := 0
  done _ := 0
  reading _ := false
  regs _ _ := none
  head _ _ := 0
  retired _ := false
  out _ := none

section Step

variable [DecidableEq ι] [DecidableEq κ] (p : Plan ι κ)

/-- Size of the next chunk. -/
def Plan.round (s : State ι κ V) (i : ι) : ℕ := min p.chunk (p.total i - s.tail i)

/-- The token a reader works on. -/
def Plan.current (s : State ι κ V) (w : κ) : ℕ := p.token w (s.done w)

/-- Claim the slots of the next chunk. -/
def State.claim (s : State ι κ V) (i : ι) : State ι κ V :=
  { s with
    claimed := update s.claimed i (p.round s i)
    unwritten := update s.unwritten i (Ico (s.tail i) (s.tail i + p.round s i)) }

/-- Fill the slot of position `q`. -/
def State.write (s : State ι κ V) (i : ι) (q : ℕ) (v : V) : State ι κ V :=
  { s with
    unwritten := update s.unwritten i ((s.unwritten i).erase q)
    slots := update s.slots i (update (s.slots i) (q % p.ringSize) v) }

/-- Publish the claimed chunk. -/
def State.publish (s : State ι κ V) (i : ι) : State ι κ V :=
  { s with
    tail := update s.tail i (s.tail i + s.claimed i)
    claimed := update s.claimed i 0 }

/-- Take up the next token; what it waits for need not have arrived. -/
def State.arrive (s : State ι κ V) (w : κ) : State ι κ V :=
  { s with
    reading := update s.reading w true
    regs := update s.regs w fun _ => none
    head := update s.head w fun i =>
      p.headAtStart (p.expected (p.current s w) i) (s.head w i) }

/-- Read the packet of ring `i`. -/
def State.read (s : State ι κ V) (w : κ) (i : ι) : State ι κ V :=
  { s with
    regs := update s.regs w (update (s.regs w) i
      (some (s.slots i ((p.expected (p.current s w) i).toNat % p.ringSize)))) }

/-- Write the sum of what was read and move on. -/
def State.finish [Fintype ι] [AddCommMonoid V] (s : State ι κ V) (w : κ) : State ι κ V :=
  { s with
    done := update s.done w (s.done w + 1)
    reading := update s.reading w false
    head := update s.head w fun i =>
      p.headAtEnd (p.expected (p.current s w) i) (s.head w i)
    out := update s.out (p.current s w) (some (∑ i, (s.regs w i).getD 0)) }

variable [Fintype ι] [Fintype κ] [AddCommMonoid V]

/-- One step of a writer, of a reader, or of the warp that passes heads and tails on.

The readers' heads are read one after the other while the readers move on, so what is
published is some lower bound of the heads of those that have not retired. -/
def step (payload : ι → ℕ → V) (s : State ι κ V) : Event ι κ → Option (State ι κ V)
  | .claim i =>
      if s.claimed i = 0 ∧ s.tail i < p.total i ∧
          s.tail i + p.required (p.round s i) ≤ s.publishedHead i + p.ringSize then
        some (s.claim p i)
      else none
  | .write i q => if q ∈ s.unwritten i then some (s.write p i q (payload i q)) else none
  | .publish i =>
      if 0 < s.claimed i ∧ s.unwritten i = ∅ then some (s.publish i) else none
  | .readTail i =>
      if s.cachedTail i ≠ s.tail i then
        some { s with cachedTail := update s.cachedTail i (s.tail i) }
      else none
  | .publishHead i h =>
      if s.publishedHead i < h ∧ (∃ w, h ≤ s.head w i) ∧
          ∀ w, s.retired w = false → h ≤ s.head w i then
        some { s with publishedHead := update s.publishedHead i h }
      else none
  | .arrive w =>
      if s.reading w = false ∧ s.done w < p.count w then some (s.arrive p w) else none
  | .read w i =>
      if s.reading w = true ∧ 0 ≤ p.expected (p.current s w) i ∧
          p.expected (p.current s w) i < s.cachedTail i ∧ (s.regs w i).isNone then
        some (s.read p w i)
      else none
  | .finish w =>
      if s.reading w = true ∧
          ∀ i, 0 ≤ p.expected (p.current s w) i → (s.regs w i).isSome then
        some (s.finish p w)
      else none
  | .retire w =>
      if s.done w = p.count w ∧ s.retired w = false then
        some { s with retired := update s.retired w true }
      else none

/-- Writers and readers at work on rings that hold anything. -/
def system (payload slots : ι → ℕ → V) : TransitionSystem (State ι κ V) (Event ι κ) where
  init := start slots
  step := step p payload

end Step

/-! ### When heads are safe -/

section Heads

variable (p : Plan ι κ)

/-- A reader's head after its first `m` tokens. -/
def Plan.headAfter (w : κ) (i : ι) : ℕ → ℕ
  | 0 => 0
  | m + 1 =>
      let e := p.expected (p.token w m) i
      p.headAtEnd e (p.headAtStart e (Plan.headAfter w i m))

/-- Its head while it works on token `m`. -/
def Plan.headDuring (w : κ) (i : ι) (m : ℕ) : ℕ :=
  p.headAtStart (p.expected (p.token w m) i) (p.headAfter w i m)

/-- No head passes a position that its reader still needs. -/
structure Plan.Sound : Prop where
  chunk_le : p.chunk ≤ p.ringSize
  le_required : ∀ n, n ≤ p.required n
  expected_lt : ∀ w, ∀ m < p.count w, ∀ i, p.expected (p.token w m) i < p.total i
  headAfter_le : ∀ w i m, ∀ m' < p.count w, m ≤ m' → 0 ≤ p.expected (p.token w m') i →
    (p.headAfter w i m : ℤ) ≤ p.expected (p.token w m') i
  headDuring_le : ∀ w i m, ∀ m' < p.count w, m ≤ m' → 0 ≤ p.expected (p.token w m') i →
    (p.headDuring w i m : ℤ) ≤ p.expected (p.token w m') i

end Heads

/-! ### What holds in every reachable state -/

section Invariant

variable (p : Plan ι κ) (payload : ι → ℕ → V)

/-- The rings: a claim has room, and the last `ringSize` written positions are held. -/
structure Rings (s : State ι κ V) : Prop where
  window : ∀ i, s.tail i + s.claimed i ≤ s.publishedHead i + p.ringSize
  bounded : ∀ i, s.tail i + s.claimed i ≤ p.total i
  /-- The first chunk is as large as a chunk can be. -/
  first : ∀ i, s.tail i + s.claimed i = 0 ∨
    min p.chunk (p.total i) ≤ s.tail i + s.claimed i
  claimed_le : ∀ i, s.claimed i ≤ p.ringSize
  unwritten : ∀ i, ∀ q ∈ s.unwritten i, s.tail i ≤ q ∧ q < s.tail i + s.claimed i
  held : ∀ i q, q < s.tail i + s.claimed i → q ∉ s.unwritten i →
    s.tail i + s.claimed i ≤ q + p.ringSize → s.slots i (q % p.ringSize) = payload i q
  cached : ∀ i, s.cachedTail i ≤ s.tail i

/-- The packets of a token, added up. -/
def combined [Fintype ι] [AddCommMonoid V] (t : ℕ) : V :=
  ∑ i, if 0 ≤ p.expected t i then payload i (p.expected t i).toNat else 0

/-- The readers: heads stay below what is needed, and what was read is right. -/
structure Readers [Fintype ι] [AddCommMonoid V] (s : State ι κ V) : Prop where
  done_le : ∀ w, s.done w ≤ p.count w
  head : ∀ w i, s.head w i =
    if s.reading w then p.headDuring w i (s.done w) else p.headAfter w i (s.done w)
  retired : ∀ w, s.retired w = true → s.done w = p.count w
  needed : ∀ w m i, s.done w ≤ m → m < p.count w → 0 ≤ p.expected (p.token w m) i →
    (s.publishedHead i : ℤ) ≤ p.expected (p.token w m) i
  arrived : ∀ w, s.reading w = true → s.done w < p.count w
  there : ∀ w, s.reading w = true → ∀ i, (s.regs w i).isSome →
    p.expected (p.current s w) i < s.cachedTail i
  regs : ∀ w, s.reading w = true → ∀ i v, s.regs w i = some v →
    0 ≤ p.expected (p.current s w) i ∧ v = payload i (p.expected (p.current s w) i).toNat
  finished : ∀ w, ∀ m < s.done w, s.out (p.token w m) = some (combined p payload (p.token w m)) ∧
    ∀ i, p.expected (p.token w m) i < s.tail i
  out : ∀ t v, s.out t = some v → v = combined p payload t

/-- The invariant of the system. -/
structure Inv [Fintype ι] [AddCommMonoid V] (s : State ι κ V) : Prop where
  rings : Rings p payload s
  readers : Readers p payload s

variable {p payload} {s s' : State ι κ V}

/-- Positions less than a ring apart have different slots. -/
theorem mod_ne {a b n : ℕ} (lt : a < b) (near : b < a + n) : a % n ≠ b % n := by
  intro same
  have divides : n ∣ b - a := Nat.dvd_of_mod_eq_zero (Nat.sub_mod_eq_zero_of_mod_eq same.symm)
  have none := Nat.eq_zero_of_dvd_of_lt divides (by omega)
  omega

/-- Positions of one window of the ring's size that have the same slot are the same. -/
theorem eq_of_mod_eq {a b start n : ℕ} (ha : start ≤ a) (ha' : a < start + n) (hb : start ≤ b)
    (hb' : b < start + n) (same : a % n = b % n) : a = b := by
  rcases lt_trichotomy a b with lt | eq | gt
  · exact absurd same (mod_ne lt (by omega))
  · exact eq
  · exact absurd same.symm (mod_ne gt (by omega))

section Writers

variable [DecidableEq ι] {i : ι}

theorem Rings.claim (rings : Rings p payload s) (sound : p.Sound) (idle : s.claimed i = 0)
    (more : s.tail i < p.total i)
    (room : s.tail i + p.required (p.round s i) ≤ s.publishedHead i + p.ringSize) :
    Rings p payload (s.claim p i) := by
  have enough := sound.le_required (p.round s i)
  have fits := sound.chunk_le
  have round_le : p.round s i ≤ p.chunk ∧ s.tail i + p.round s i ≤ p.total i := by
    unfold Plan.round
    omega
  unfold State.claim
  constructor
  case window =>
    intro j
    rcases eq_or_ne j i with rfl | other
    · simp only [update_self]
      omega
    · simpa only [update_of_ne other] using rings.window j
  case bounded =>
    intro j
    rcases eq_or_ne j i with rfl | other
    · simpa only [update_self] using round_le.2
    · simpa only [update_of_ne other] using rings.bounded j
  case first =>
    intro j
    rcases eq_or_ne j i with rfl | other
    · have before := rings.first j
      simp only [update_self, Plan.round]
      omega
    · simpa only [update_of_ne other] using rings.first j
  case claimed_le =>
    intro j
    rcases eq_or_ne j i with rfl | other
    · simp only [update_self]
      omega
    · simpa only [update_of_ne other] using rings.claimed_le j
  case unwritten =>
    intro j q hq
    rcases eq_or_ne j i with rfl | other
    · simpa only [update_self, mem_Ico] using hq
    · simp only [update_of_ne other] at hq ⊢
      exact rings.unwritten j q hq
  case held =>
    intro j q below written recent
    rcases eq_or_ne j i with rfl | other
    · simp only [update_self, mem_Ico, not_and, not_lt] at below written recent
      have old : q < s.tail j := by
        by_contra new
        have := written (not_lt.1 new)
        omega
      refine rings.held j q (by omega) (fun pending => ?_) (by omega)
      have := rings.unwritten j q pending
      omega
    · simp only [update_of_ne other] at below written recent
      exact rings.held j q below written recent
  case cached => exact rings.cached

theorem Rings.write (rings : Rings p payload s) {q : ℕ} (pending : q ∈ s.unwritten i) :
    Rings p payload (s.write p i q (payload i q)) := by
  have place := rings.unwritten i q pending
  have fits := rings.claimed_le i
  unfold State.write
  constructor
  case window => exact rings.window
  case bounded => exact rings.bounded
  case first => exact rings.first
  case claimed_le => exact rings.claimed_le
  case unwritten =>
    intro j r hr
    rcases eq_or_ne j i with rfl | other
    · simp only [update_self, mem_erase] at hr
      exact rings.unwritten j r hr.2
    · simp only [update_of_ne other] at hr
      exact rings.unwritten j r hr
  case held =>
    intro j r below written recent
    dsimp only at below recent
    rcases eq_or_ne j i with rfl | other
    · simp only [update_self, mem_erase, not_and] at written ⊢
      rcases eq_or_ne r q with rfl | elsewhere
      · rw [update_self]
      · -- both positions lie in the last `ringSize` ones, so their slots differ
        have slot : r % p.ringSize ≠ q % p.ringSize := by
          rcases lt_or_gt_of_ne elsewhere with before | after
          · exact mod_ne before (by omega)
          · exact (mod_ne after (by omega)).symm
        rw [update_of_ne slot]
        exact rings.held j r below (written elsewhere) recent
    · simp only [update_of_ne other] at written ⊢
      exact rings.held j r below written recent
  case cached => exact rings.cached

theorem Rings.publish (rings : Rings p payload s) (written : s.unwritten i = ∅) :
    Rings p payload (s.publish i) := by
  unfold State.publish
  have sum : ∀ j, update s.tail i (s.tail i + s.claimed i) j + update s.claimed i 0 j =
      s.tail j + s.claimed j := by
    intro j
    rcases eq_or_ne j i with rfl | other
    · simp only [update_self, Nat.add_zero]
    · simp only [update_of_ne other]
  have tail_le : ∀ j, s.tail j ≤ update s.tail i (s.tail i + s.claimed i) j := by
    intro j
    rcases eq_or_ne j i with rfl | other
    · rw [update_self]
      exact Nat.le_add_right _ _
    · rw [update_of_ne other]
  constructor
  case window => exact fun j => (sum j).trans_le (rings.window j)
  case bounded => exact fun j => (sum j).trans_le (rings.bounded j)
  case first => simpa only [sum] using rings.first
  case claimed_le =>
    intro j
    rcases eq_or_ne j i with rfl | other
    · simp only [update_self, Nat.zero_le]
    · simpa only [update_of_ne other] using rings.claimed_le j
  case unwritten =>
    intro j q hq
    rcases eq_or_ne j i with rfl | other
    · rw [written] at hq
      exact absurd hq (notMem_empty q)
    · simp only [update_of_ne other]
      exact rings.unwritten j q hq
  case held =>
    intro j q below pending recent
    simp only [sum] at below recent
    exact rings.held j q below pending recent
  case cached => exact fun j => (rings.cached j).trans (tail_le j)

theorem Rings.readTail (rings : Rings p payload s) :
    Rings p payload { s with cachedTail := update s.cachedTail i (s.tail i) } where
  window := rings.window
  bounded := rings.bounded
  first := rings.first
  claimed_le := rings.claimed_le
  unwritten := rings.unwritten
  held := rings.held
  cached j := by
    rcases eq_or_ne j i with rfl | other
    · simp only [update_self, le_refl]
    · simpa only [update_of_ne other] using rings.cached j

theorem Rings.publishHead (rings : Rings p payload s) {h : ℕ} (up : s.publishedHead i < h) :
    Rings p payload { s with publishedHead := update s.publishedHead i h } where
  window j := by
    rcases eq_or_ne j i with rfl | other
    · simp only [update_self]
      have := rings.window j
      omega
    · simpa only [update_of_ne other] using rings.window j
  bounded := rings.bounded
  first := rings.first
  claimed_le := rings.claimed_le
  unwritten := rings.unwritten
  held := rings.held
  cached := rings.cached

end Writers

section Readers

variable [Fintype ι] [AddCommMonoid V]

/-- What the readers rely on survives when tails only grow. -/
theorem Readers.mono (readers : Readers p payload s) {tail cachedTail : ι → ℕ}
    (tail_le : ∀ i, s.tail i ≤ tail i) (cached_le : ∀ i, s.cachedTail i ≤ cachedTail i)
    (claimed : ι → ℕ) (unwritten : ι → Finset ℕ) (slots : ι → ℕ → V) :
    Readers p payload { s with
      tail := tail
      cachedTail := cachedTail
      claimed := claimed
      unwritten := unwritten
      slots := slots } where
  done_le := readers.done_le
  head := readers.head
  retired := readers.retired
  needed := readers.needed
  arrived := readers.arrived
  there w busy i got :=
    (readers.there w busy i got).trans_le (by exact_mod_cast cached_le i)
  regs := readers.regs
  finished w m hm := by
    obtain ⟨sum, sent⟩ := readers.finished w m hm
    exact ⟨sum, fun i => (sent i).trans_le (by exact_mod_cast tail_le i)⟩
  out := readers.out

/-- A reader's head is below every position it still needs. -/
theorem Readers.head_le (readers : Readers p payload s) (sound : p.Sound) {w : κ} {m : ℕ}
    {i : ι} (later : s.done w ≤ m) (hm : m < p.count w)
    (has : 0 ≤ p.expected (p.token w m) i) :
    (s.head w i : ℤ) ≤ p.expected (p.token w m) i := by
  rw [readers.head]
  cases s.reading w with
  | true => exact sound.headDuring_le w i _ m hm later has
  | false => exact sound.headAfter_le w i _ m hm later has

theorem Readers.publishHead [DecidableEq ι] (readers : Readers p payload s) (sound : p.Sound)
    {i : ι} {h : ℕ} (lower : ∀ w, s.retired w = false → h ≤ s.head w i) :
    Readers p payload { s with publishedHead := update s.publishedHead i h } where
  done_le := readers.done_le
  head := readers.head
  retired := readers.retired
  needed w m j later hm has := by
    rcases eq_or_ne j i with rfl | other
    · have active : s.retired w = false := by
        by_contra stopped
        have := readers.retired w (by simpa using stopped)
        dsimp only at later
        omega
      simp only [update_self]
      have own := lower w active
      have safe := readers.head_le sound later hm has
      omega
    · simpa only [update_of_ne other] using readers.needed w m j later hm has
  arrived := readers.arrived
  there := readers.there
  regs := readers.regs
  finished := readers.finished
  out := readers.out

variable [DecidableEq κ] {w : κ}

theorem Readers.arrive (readers : Readers p payload s) (idle : s.reading w = false)
    (more : s.done w < p.count w) : Readers p payload (s.arrive p w) := by
  unfold State.arrive
  constructor
  case done_le => exact readers.done_le
  case head =>
    intro v i
    rcases eq_or_ne v w with rfl | other
    · have before := readers.head v i
      rw [idle] at before
      simp only [update_self, before]
      rfl
    · simpa only [update_of_ne other] using readers.head v i
  case retired => exact readers.retired
  case needed => exact readers.needed
  case arrived =>
    intro v busy
    rcases eq_or_ne v w with rfl | other
    · exact more
    · simp only [update_of_ne other] at busy
      exact readers.arrived v busy
  case there =>
    intro v busy i got
    rcases eq_or_ne v w with rfl | other
    · simp only [update_self, Option.isSome_none, Bool.false_eq_true] at got
    · simp only [update_of_ne other] at busy got
      exact readers.there v busy i got
  case regs =>
    intro v busy i x got
    rcases eq_or_ne v w with rfl | other
    · simp only [update_self, reduceCtorEq] at got
    · simp only [update_of_ne other] at busy got
      exact readers.regs v busy i x got
  case finished => exact readers.finished
  case out => exact readers.out

omit [DecidableEq κ] in
/-- **A reader finds the packet it expects**: the slot was not overwritten. -/
theorem Inv.slot_eq (inv : Inv p payload s) {i : ι} (busy : s.reading w = true)
    (has : 0 ≤ p.expected (p.current s w) i)
    (arrived : p.expected (p.current s w) i < s.cachedTail i) :
    s.slots i ((p.expected (p.current s w) i).toNat % p.ringSize) =
      payload i (p.expected (p.current s w) i).toNat := by
  have more := inv.readers.arrived w busy
  have needed := inv.readers.needed w (s.done w) i le_rfl more has
  have cached := inv.rings.cached i
  have window := inv.rings.window i
  rw [← Plan.current] at needed
  refine inv.rings.held i _ (by omega) (fun pending => ?_) (by omega)
  have := inv.rings.unwritten i _ pending
  omega

theorem Readers.read [DecidableEq ι] (inv : Inv p payload s) {i : ι}
    (busy : s.reading w = true) (has : 0 ≤ p.expected (p.current s w) i)
    (arrived : p.expected (p.current s w) i < s.cachedTail i) :
    Readers p payload (s.read p w i) := by
  have readers := inv.readers
  unfold State.read
  constructor
  case done_le => exact readers.done_le
  case head => exact readers.head
  case retired => exact readers.retired
  case needed => exact readers.needed
  case arrived => exact readers.arrived
  case there =>
    intro v busy' j got
    rcases eq_or_ne v w with rfl | other
    · simp only [update_self] at got
      rcases eq_or_ne j i with rfl | elsewhere
      · exact arrived
      · simp only [update_of_ne elsewhere] at got
        exact readers.there v busy j got
    · simp only [update_of_ne other] at got
      exact readers.there v busy' j got
  case regs =>
    intro v busy' j x got
    rcases eq_or_ne v w with rfl | other
    · simp only [update_self] at got
      rcases eq_or_ne j i with rfl | elsewhere
      · simp only [update_self, Option.some.injEq] at got
        subst got
        exact ⟨has, inv.slot_eq busy has arrived⟩
      · simp only [update_of_ne elsewhere] at got
        exact readers.regs v busy j x got
    · simp only [update_of_ne other] at got
      exact readers.regs v busy' j x got
  case finished => exact readers.finished
  case out => exact readers.out

omit [DecidableEq κ] in
/-- When all packets have been read, their sum is the token's. -/
theorem Readers.sum_regs (readers : Readers p payload s) (busy : s.reading w = true)
    (all : ∀ i, 0 ≤ p.expected (p.current s w) i → (s.regs w i).isSome) :
    ∑ i, (s.regs w i).getD 0 = combined p payload (p.current s w) := by
  unfold combined
  refine sum_congr rfl fun i _ => ?_
  cases got : s.regs w i with
  | none =>
      have absent : ¬0 ≤ p.expected (p.current s w) i := fun has => by
        simpa [got] using all i has
      rw [if_neg absent]
      rfl
  | some v =>
      obtain ⟨has, rfl⟩ := readers.regs w busy i v got
      rw [if_pos has]
      rfl

theorem Readers.finish (readers : Readers p payload s) (rings : Rings p payload s)
    (busy : s.reading w = true)
    (all : ∀ i, 0 ≤ p.expected (p.current s w) i → (s.regs w i).isSome) :
    Readers p payload (s.finish p w) := by
  have more := readers.arrived w busy
  -- a position that is expected has been read, and one that is not is negative
  have there : ∀ i, p.expected (p.current s w) i < s.cachedTail i := by
    intro i
    by_cases has : 0 ≤ p.expected (p.current s w) i
    · exact readers.there w busy i (all i has)
    · exact (not_le.1 has).trans_le (Int.natCast_nonneg _)
  unfold State.finish
  rw [readers.sum_regs busy all]
  have done : ∀ v, s.done v ≤ update s.done w (s.done w + 1) v := by
    intro v
    rcases eq_or_ne v w with rfl | other
    · simp only [update_self, Nat.le_succ]
    · simp only [update_of_ne other, le_refl]
  constructor
  case done_le =>
    intro v
    rcases eq_or_ne v w with rfl | other
    · simp only [update_self]
      exact more
    · simpa only [update_of_ne other] using readers.done_le v
  case head =>
    intro v i
    rcases eq_or_ne v w with rfl | other
    · have before := readers.head v i
      rw [busy] at before
      simp only [update_self, before]
      rfl
    · simpa only [update_of_ne other] using readers.head v i
  case retired =>
    intro v stopped
    rcases eq_or_ne v w with rfl | other
    · have := readers.retired v stopped
      omega
    · simpa only [update_of_ne other] using readers.retired v stopped
  case needed => exact fun v m i later => readers.needed v m i ((done v).trans later)
  case arrived =>
    intro v busy'
    rcases eq_or_ne v w with rfl | other
    · simp only [update_self, Bool.false_eq_true] at busy'
    · simp only [update_of_ne other] at busy' ⊢
      exact readers.arrived v busy'
  case there =>
    intro v busy' i got
    rcases eq_or_ne v w with rfl | other
    · simp only [update_self, Bool.false_eq_true] at busy'
    · simp only [update_of_ne other, Plan.current] at busy' got ⊢
      exact readers.there v busy' i got
  case regs =>
    intro v busy' i x got
    rcases eq_or_ne v w with rfl | other
    · simp only [update_self, Bool.false_eq_true] at busy'
    · simp only [update_of_ne other, Plan.current] at busy' got ⊢
      exact readers.regs v busy' i x got
  case finished =>
    intro v m hm
    have old : m < s.done v ∨ v = w ∧ m = s.done w := by
      rcases eq_or_ne v w with rfl | other
      · simp only [update_self] at hm
        exact (Nat.lt_succ_iff_lt_or_eq.1 hm).imp_right fun last => ⟨rfl, last⟩
      · simp only [update_of_ne other] at hm
        exact Or.inl hm
    have sum : update s.out (p.current s w) (some (combined p payload (p.current s w)))
        (p.token v m) = some (combined p payload (p.token v m)) := by
      rcases eq_or_ne (p.token v m) (p.current s w) with same | other
      · rw [same, update_self]
      · rw [update_of_ne other]
        rcases old with before | ⟨rfl, rfl⟩
        · exact (readers.finished v m before).1
        · exact absurd rfl other
    refine ⟨sum, fun i => ?_⟩
    rcases old with before | ⟨rfl, rfl⟩
    · exact (readers.finished v m before).2 i
    · exact (there i).trans_le (by exact_mod_cast rings.cached i)
  case out =>
    intro t x got
    rcases eq_or_ne t (p.current s w) with rfl | other
    · simp only [update_self, Option.some.injEq] at got
      exact got.symm
    · simp only [update_of_ne other] at got
      exact readers.out t x got

theorem Readers.retire (readers : Readers p payload s) (all : s.done w = p.count w) :
    Readers p payload { s with retired := update s.retired w true } where
  done_le := readers.done_le
  head := readers.head
  retired v stopped := by
    rcases eq_or_ne v w with rfl | other
    · exact all
    · simp only [update_of_ne other] at stopped
      exact readers.retired v stopped
  needed := readers.needed
  arrived := readers.arrived
  there := readers.there
  regs := readers.regs
  finished := readers.finished
  out := readers.out

end Readers

/-- Readers leave the rings alone. -/
theorem Rings.of_eq (rings : Rings p payload s) (tail : s'.tail = s.tail)
    (claimed : s'.claimed = s.claimed) (unwritten : s'.unwritten = s.unwritten)
    (slots : s'.slots = s.slots) (cachedTail : s'.cachedTail = s.cachedTail)
    (publishedHead : s'.publishedHead = s.publishedHead) : Rings p payload s' := by
  constructor
  case window => simpa only [tail, claimed, publishedHead] using rings.window
  case bounded => simpa only [tail, claimed] using rings.bounded
  case first => simpa only [tail, claimed] using rings.first
  case claimed_le => simpa only [claimed] using rings.claimed_le
  case unwritten => simpa only [tail, claimed, unwritten] using rings.unwritten
  case held => simpa only [tail, claimed, unwritten, slots] using rings.held
  case cached => simpa only [tail, cachedTail] using rings.cached

theorem inv_start [Fintype ι] [AddCommMonoid V] (slots : ι → ℕ → V) :
    Inv p payload (start slots : State ι κ V) where
  rings :=
    { window := fun _ => Nat.zero_le _
      bounded := fun _ => Nat.zero_le _
      first := fun _ => Or.inl rfl
      claimed_le := fun _ => Nat.zero_le _
      unwritten := fun _ q hq => absurd hq (notMem_empty q)
      held := fun _ _ below => absurd below (Nat.not_lt_zero _)
      cached := fun _ => le_rfl }
  readers :=
    { done_le := fun _ => Nat.zero_le _
      head := fun _ _ => rfl
      retired := fun _ stopped => absurd stopped (by simp [start])
      needed := fun _ _ _ _ _ has => has
      arrived := fun _ busy => absurd busy (by simp [start])
      there := fun _ busy => absurd busy (by simp [start])
      regs := fun _ busy => absurd busy (by simp [start])
      finished := fun _ _ below => absurd below (Nat.not_lt_zero _)
      out := fun _ _ got => absurd got (by simp [start]) }

section Runs

variable [DecidableEq ι] [DecidableEq κ] [Fintype ι] [Fintype κ] [AddCommMonoid V]

/-- **Every step keeps the invariant.** -/
theorem step_inv (sound : p.Sound) {e : Event ι κ} (inv : Inv p payload s)
    (fires : step p payload s e = some s') : Inv p payload s' := by
  obtain ⟨rings, readers⟩ := inv
  have le : ∀ f : ι → ℕ, ∀ i, f i ≤ f i := fun _ _ => le_rfl
  cases e <;>
    simp only [step, Option.ite_none_right_eq_some, Option.some.injEq] at fires <;>
    obtain ⟨guard, rfl⟩ := fires
  case claim i =>
    obtain ⟨idle, more, room⟩ := guard
    exact ⟨rings.claim sound idle more room, readers.mono (le _) (le _) _ _ _⟩
  case write i q => exact ⟨rings.write guard, readers.mono (le _) (le _) _ _ _⟩
  case publish i =>
    refine ⟨rings.publish guard.2, readers.mono (fun j => ?_) (le _) _ _ _⟩
    rcases eq_or_ne j i with rfl | other
    · simp only [update_self, Nat.le_add_right]
    · simp only [update_of_ne other, le_refl]
  case readTail i =>
    refine ⟨rings.readTail, readers.mono (le _) (fun j => ?_) _ _ _⟩
    rcases eq_or_ne j i with rfl | other
    · simpa only [update_self] using rings.cached j
    · simp only [update_of_ne other, le_refl]
  case publishHead i h =>
    exact ⟨rings.publishHead guard.1, readers.publishHead sound guard.2.2⟩
  case arrive w =>
    exact ⟨rings.of_eq rfl rfl rfl rfl rfl rfl, readers.arrive guard.1 guard.2⟩
  case read w i =>
    exact ⟨rings.of_eq rfl rfl rfl rfl rfl rfl,
      .read ⟨rings, readers⟩ guard.1 guard.2.1 guard.2.2.1⟩
  case finish w =>
    exact ⟨rings.of_eq rfl rfl rfl rfl rfl rfl, readers.finish rings guard.1 guard.2⟩
  case retire w =>
    exact ⟨rings.of_eq rfl rfl rfl rfl rfl rfl, readers.retire guard.1⟩

theorem reachable_inv (sound : p.Sound) {slots : ι → ℕ → V}
    (reach : (system p payload slots).Reachable s) : Inv p payload s := by
  refine reach.invariant (inv_start slots) fun s e s' inv fires => ?_
  exact step_inv sound inv fires

end Runs

end Invariant

end ReplayRings
