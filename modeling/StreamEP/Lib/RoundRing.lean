import Mathlib.Algebra.Order.Group.Nat
import Mathlib.Data.Fintype.Basic
import Mathlib.Order.Interval.Finset.Nat
import StreamEP.Lib.TransitionSystem

/-!
# A ring filled in rounds

Several writers fill a ring together, round by round.  Before a round every writer waits
for itself until the published head leaves room for a full round, then it writes its own
positions of the round and joins a barrier; behind the barrier the leading writer publishes
the new tail, while the others may go on.  A reader takes what lies between its head and
the tail it finds as a batch, reads the batch's slots in any order, and publishes its head
some time after it is done with the batch.

Head and tail are words with a stamp.  A word with another stamp is left over from an
earlier use of the ring and counts as zero.

**Results.**  Nothing unread is overwritten (`write_safe`), nothing unwritten is read
(`read_written`), the batches are consecutive pieces of the stream (`Inv.batches`), and as
long as something is left some step is possible (`exists_step`).

**The plan.**  Where a round ends is fixed beforehand, as is which writer fills a position.
`Sound` asks that rounds follow each other, fit the ring and cover the stream, and that every
position has a writer.

**The invariant.**  Of the writers: nobody is more than a round ahead of another, nothing is
published that somebody has not left, and a round that somebody has entered has room
(`Writers`).  So what a writer may touch lies beyond everything published and less than a ring
beyond the published head (`Writers.place`).  Of the reader: it stays behind the tail, and its
head is published behind it (`Reader`).  The two windows do not meet in one slot, which is what
both safety results say.
-/

namespace RoundRing

open Finset Function

variable {κ σ V : Type*}

/-- What writers and reader agree on beforehand. -/
structure Plan (κ σ : Type*) where
  ringSize : ℕ
  /-- Free slots that a writer waits for before a round. -/
  required : ℕ
  /-- The stamp of this use of the ring. -/
  stamp : σ
  /-- Positions that lie before round `k`. -/
  bound : ℕ → ℕ
  /-- Whether the writers start round `k`. -/
  active : ℕ → Bool
  /-- Positions of the whole stream. -/
  total : ℕ
  /-- Which writer fills which position. -/
  mine : κ → ℕ → Bool
  /-- The writer that publishes. -/
  leads : κ → Bool

structure State (κ σ V : Type*) where
  /-- Rounds a writer has found room for, -/
  entered : κ → ℕ
  /-- and rounds at whose barrier it has arrived. -/
  left : κ → ℕ
  written : ℕ → Bool
  slots : ℕ → V
  /-- Rounds whose end has been published. -/
  published : ℕ
  tailWord : σ × ℕ
  headWord : σ × ℕ
  /-- The reader's own head. -/
  head : ℕ
  /-- It has moved on and is not published yet. -/
  headPending : Bool
  /-- A tail that the reader has found beyond its head. -/
  polled : Option ℕ
  /-- The end of the batch it is reading, -/
  batch : Option ℕ
  /-- the positions left to read, -/
  unread : Finset ℕ
  /-- and what it found in the slots. -/
  image : ℕ → V
  batches : List (ℕ × (ℕ → V))

inductive Event (κ : Type*) where
  | enter (w : κ)
  | write (w : κ) (q : ℕ)
  | leave (w : κ)
  | publish
  | poll
  | begin
  | read (q : ℕ)
  | finish
  | publishHead

/-- Nothing sent; the words and the slots hold what was left there. -/
def start (tailWord headWord : σ × ℕ) (slots image : ℕ → V) : State κ σ V where
  entered _ := 0
  left _ := 0
  written _ := false
  slots := slots
  published := 0
  tailWord := tailWord
  headWord := headWord
  head := 0
  headPending := false
  polled := none
  batch := none
  unread := ∅
  image := image
  batches := []

section Step

variable (p : Plan κ σ)

/-- The positions of round `k` that a writer fills. -/
def Plan.share (w : κ) (k : ℕ) : Finset ℕ :=
  (Ico (p.bound k) (p.bound (k + 1))).filter fun q => p.mine w q = true

theorem Plan.mem_share {w : κ} {k q : ℕ} :
    q ∈ p.share w k ↔ (p.bound k ≤ q ∧ q < p.bound (k + 1)) ∧ p.mine w q = true := by
  rw [share, mem_filter, mem_Ico]

variable [DecidableEq σ]

/-- The number in a word of this generation, zero for any other. -/
def Plan.value (word : σ × ℕ) : ℕ := if word.1 = p.stamp then word.2 else 0

theorem Plan.value_stamp (n : ℕ) : p.value (p.stamp, n) = n := if_pos rfl

variable [DecidableEq κ] [Fintype κ]

/-- One step of a writer or of the reader. -/
def step (payload : ℕ → V) (s : State κ σ V) : Event κ → Option (State κ σ V)
  | .enter w =>
      if s.entered w = s.left w ∧ p.active (s.left w) = true ∧ (∀ v, s.left w ≤ s.left v) ∧
          (p.leads w = true → s.published = s.left w) ∧
          p.bound (s.left w) + p.required ≤ p.value s.headWord + p.ringSize then
        some { s with entered := update s.entered w (s.left w + 1) }
      else none
  | .write w q =>
      if s.entered w = s.left w + 1 ∧ q ∈ p.share w (s.left w) ∧ s.written q = false then
        some { s with
          written := update s.written q true
          slots := update s.slots (q % p.ringSize) (payload q) }
      else none
  | .leave w =>
      if s.entered w = s.left w + 1 ∧ ∀ q ∈ p.share w (s.left w), s.written q = true then
        some { s with left := update s.left w (s.left w + 1) }
      else none
  | .publish =>
      if ∀ v, s.published < s.left v then
        some { s with
          published := s.published + 1
          tailWord := (p.stamp, p.bound (s.published + 1)) }
      else none
  | .poll =>
      if s.polled = none ∧ s.batch = none ∧ s.head < p.total ∧
          s.head ≠ p.value s.tailWord then
        some { s with polled := some (p.value s.tailWord) }
      else none
  | .begin =>
      match s.polled with
      | some tail =>
          if s.headPending = false then
            some { s with polled := none, batch := some tail, unread := Ico s.head tail }
          else none
      | none => none
  | .read q =>
      match s.batch with
      | some tail =>
          if s.head ≤ q ∧ q < tail then
            some { s with
              unread := s.unread.erase q
              image := update s.image (q % p.ringSize) (s.slots (q % p.ringSize)) }
          else none
      | none => none
  | .finish =>
      match s.batch with
      | some tail =>
          if s.unread = ∅ then
            some { s with
              batch := none
              head := tail
              headPending := true
              batches := s.batches ++ [(tail - s.head, s.image)] }
          else none
      | none => none
  | .publishHead =>
      if s.headPending = true then
        some { s with headWord := (p.stamp, s.head), headPending := false }
      else none

/-- Writers and reader at work. -/
def system (payload : ℕ → V) (tailWord headWord : σ × ℕ) (slots image : ℕ → V) :
    TransitionSystem (State κ σ V) (Event κ) where
  init := start tailWord headWord slots image
  step := step p payload

end Step

/-! ### What a plan has to keep -/

/-- Rounds follow each other, fit the ring, and cover the stream; every position has a
writer. -/
structure Plan.Sound (p : Plan κ σ) : Prop where
  bound_zero : p.bound 0 = 0
  bound_le_succ : ∀ k, p.bound k ≤ p.bound (k + 1)
  bound_succ_le : ∀ k, p.bound (k + 1) ≤ p.bound k + p.required
  bound_le_total : ∀ k, p.bound k ≤ p.total
  ended : ∀ k, p.active k = false → p.bound k = p.total
  required_le : p.required ≤ p.ringSize
  exists_mine : ∀ q, ∃ w, p.mine w q = true

/-- The batches cover the stream from one position to another, and show its packets in the
slots of their positions. -/
def Delivered (ringSize : ℕ) (payload : ℕ → V) : ℕ → List (ℕ × (ℕ → V)) → ℕ → Prop
  | first, [], last => first = last
  | first, b :: bs, last =>
      0 < b.1 ∧ (∀ i < b.1, b.2 ((first + i) % ringSize) = payload (first + i)) ∧
        Delivered ringSize payload (first + b.1) bs last

theorem Delivered.snoc {ringSize : ℕ} {payload : ℕ → V} {bs : List (ℕ × (ℕ → V))}
    {first last n : ℕ} {image : ℕ → V} (before : Delivered ringSize payload first bs last)
    (pos : 0 < n) (right : ∀ i < n, image ((last + i) % ringSize) = payload (last + i)) :
    Delivered ringSize payload first (bs ++ [(n, image)]) (last + n) := by
  induction bs generalizing first with
  | nil =>
      obtain rfl : first = last := before
      exact ⟨pos, right, rfl⟩
  | cons b bs ih => exact ⟨before.1, before.2.1, ih before.2.2⟩

/-- Positions with the same slot are at least a ring apart. -/
theorem add_le_of_mod_eq {a b n : ℕ} (lt : a < b) (same : a % n = b % n) : a + n ≤ b := by
  have divides : n ∣ b - a := Nat.dvd_of_mod_eq_zero (Nat.sub_mod_eq_zero_of_mod_eq same.symm)
  have := Nat.le_of_dvd (Nat.sub_pos_of_lt lt) divides
  omega

section Invariant

variable [DecidableEq σ] (p : Plan κ σ) (payload : ℕ → V)

/-- The writers: nobody is more than a round ahead, an entered round has room, and the last
`ringSize` written positions are held. -/
structure Writers (s : State κ σ V) : Prop where
  entered : ∀ w, s.left w ≤ s.entered w ∧ s.entered w ≤ s.left w + 1
  together : ∀ w v, s.entered w ≤ s.left v + 1
  published : ∀ w, s.published ≤ s.left w
  tail : p.value s.tailWord = p.bound s.published
  room : ∀ w, p.bound (s.entered w) ≤ p.value s.headWord + p.ringSize
  written : ∀ q, s.written q = true → ∃ w, q < p.bound (s.entered w)
  filled : ∀ w q, p.mine w q = true → q < p.bound (s.left w) → s.written q = true
  held : ∀ q, s.written q = true → (∀ w, p.bound (s.entered w) ≤ q + p.ringSize) →
    s.slots (q % p.ringSize) = payload q

/-- The reader: it stays behind the tail, and what it has read is right. -/
structure Reader (s : State κ σ V) : Prop where
  headWord_le : p.value s.headWord ≤ s.head
  headWord : s.headPending = false → p.value s.headWord = s.head
  head_le : s.head ≤ p.bound s.published
  polled : ∀ tail, s.polled = some tail → s.head < tail ∧ tail ≤ p.bound s.published
  alone : ∀ tail, s.batch = some tail → s.polled = none
  batch : ∀ tail, s.batch = some tail → s.head < tail ∧ tail ≤ p.bound s.published
  image : ∀ tail, s.batch = some tail → ∀ q, s.head ≤ q → q < tail → q ∉ s.unread →
    s.image (q % p.ringSize) = payload q
  unread : ∀ tail, s.batch = some tail → ∀ q ∈ s.unread, s.head ≤ q ∧ q < tail
  batches : Delivered p.ringSize payload 0 s.batches s.head

structure Inv (s : State κ σ V) : Prop where
  writers : Writers p payload s
  reader : Reader p payload s

variable {p payload} {s : State κ σ V}

omit [DecidableEq σ] in
theorem Plan.Sound.bound_mono (sound : p.Sound) {j k : ℕ} (h : j ≤ k) :
    p.bound j ≤ p.bound k :=
  monotone_nat_of_le_succ sound.bound_le_succ h

section Writers

variable [DecidableEq κ] {w : κ}

/-- What an update of one entry does to a lower bound of it. -/
theorem le_update_succ (f : κ → ℕ) (v : κ) : f v ≤ update f w (f w + 1) v := by
  rcases eq_or_ne v w with rfl | other
  · rw [update_self]
    exact Nat.le_succ _
  · rw [update_of_ne other]

theorem Writers.enter (writers : Writers p payload s) (sound : p.Sound)
    (idle : s.entered w = s.left w) (together : ∀ v, s.left w ≤ s.left v)
    (room : p.bound (s.left w) + p.required ≤ p.value s.headWord + p.ringSize) :
    Writers p payload { s with entered := update s.entered w (s.left w + 1) } := by
  have grows : ∀ v, s.entered v ≤ update s.entered w (s.left w + 1) v := by
    rw [← idle]
    exact le_update_succ s.entered
  constructor
  case entered =>
    intro v
    rcases eq_or_ne v w with rfl | other
    · simp only [update_self]
      omega
    · simpa only [update_of_ne other] using writers.entered v
  case together =>
    intro v u
    rcases eq_or_ne v w with rfl | other
    · have := together u
      simp only [update_self]
      omega
    · simpa only [update_of_ne other] using writers.together v u
  case published => exact writers.published
  case tail => exact writers.tail
  case room =>
    intro v
    rcases eq_or_ne v w with rfl | other
    · have := sound.bound_succ_le (s.left v)
      simp only [update_self]
      omega
    · simpa only [update_of_ne other] using writers.room v
  case written =>
    intro q done
    obtain ⟨v, below⟩ := writers.written q done
    exact ⟨v, below.trans_le (sound.bound_mono (grows v))⟩
  case filled => exact writers.filled
  case held =>
    intro q done recent
    exact writers.held q done fun v => (sound.bound_mono (grows v)).trans (recent v)

omit [DecidableEq κ] in
/-- What a writer may touch lies beyond everything that is published, and less than a ring
beyond the published head. -/
theorem Writers.place (writers : Writers p payload s) (sound : p.Sound) {q : ℕ}
    (inside : s.entered w = s.left w + 1) (lo : p.bound (s.left w) ≤ q)
    (hi : q < p.bound (s.left w + 1)) :
    p.bound s.published ≤ q ∧ q < p.value s.headWord + p.ringSize := by
  have behind := sound.bound_mono (writers.published w)
  have room := writers.room w
  rw [inside] at room
  omega

omit [DecidableEq κ] in
theorem Writers.write (writers : Writers p payload s) (reader : Reader p payload s)
    (sound : p.Sound) {q : ℕ} (inside : s.entered w = s.left w + 1)
    (lo : p.bound (s.left w) ≤ q) (hi : q < p.bound (s.left w + 1)) :
    Writers p payload { s with
      written := update s.written q true
      slots := update s.slots (q % p.ringSize) (payload q) } := by
  obtain ⟨beyond, near⟩ := writers.place sound inside lo hi
  have head_le := reader.headWord_le
  have read := reader.head_le
  constructor
  case entered => exact writers.entered
  case together => exact writers.together
  case published => exact writers.published
  case tail => exact writers.tail
  case room => exact writers.room
  case written =>
    intro r done
    rcases eq_or_ne r q with rfl | other
    · exact ⟨w, inside ▸ hi⟩
    · simp only [update_of_ne other] at done
      exact writers.written r done
  case filled =>
    intro v r mine below
    rcases eq_or_ne r q with rfl | other
    · exact update_self ..
    · simp only [update_of_ne other]
      exact writers.filled v r mine below
  case held =>
    intro r done recent
    rcases eq_or_ne r q with rfl | other
    · exact update_self ..
    · simp only [update_of_ne other] at done
      have elsewhere : r % p.ringSize ≠ q % p.ringSize := by
        intro same
        rcases lt_or_gt_of_ne other with before | after
        · -- `r` would no longer be among the last positions
          have far := add_le_of_mod_eq before same
          have := recent w
          rw [inside] at this
          omega
        · -- `r` would not have had room
          have far := add_le_of_mod_eq after same.symm
          obtain ⟨v, below⟩ := writers.written r done
          have := writers.room v
          omega
      dsimp only
      rw [update_of_ne elsewhere]
      exact writers.held r done recent

theorem Writers.leave (writers : Writers p payload s) (inside : s.entered w = s.left w + 1)
    (done : ∀ q ∈ p.share w (s.left w), s.written q = true) :
    Writers p payload { s with left := update s.left w (s.left w + 1) } := by
  have grows : ∀ v, s.left v ≤ update s.left w (s.left w + 1) v := le_update_succ s.left
  constructor
  case entered =>
    intro v
    rcases eq_or_ne v w with rfl | other
    · simp only [update_self]
      omega
    · simpa only [update_of_ne other] using writers.entered v
  case together => exact fun v u => (writers.together v u).trans (Nat.succ_le_succ (grows u))
  case published => exact fun v => (writers.published v).trans (grows v)
  case tail => exact writers.tail
  case room => exact writers.room
  case written => exact writers.written
  case filled =>
    intro v q mine below
    rcases eq_or_ne v w with rfl | other
    · simp only [update_self] at below
      rcases lt_or_ge q (p.bound (s.left v)) with earlier | here
      · exact writers.filled v q mine earlier
      · exact done q (p.mem_share.2 ⟨⟨here, below⟩, mine⟩)
    · simp only [update_of_ne other] at below
      exact writers.filled v q mine below
  case held => exact writers.held

end Writers

theorem Writers.publish (writers : Writers p payload s) (all : ∀ v, s.published < s.left v) :
    Writers p payload { s with
      published := s.published + 1
      tailWord := (p.stamp, p.bound (s.published + 1)) } where
  entered := writers.entered
  together := writers.together
  published := all
  tail := p.value_stamp _
  room := writers.room
  written := writers.written
  filled := writers.filled
  held := writers.held

/-- The reader leaves the writers alone. -/
theorem Writers.of_reader (writers : Writers p payload s) {head : ℕ} {headPending : Bool}
    {polled batch : Option ℕ} {unread : Finset ℕ} {image : ℕ → V}
    {batches : List (ℕ × (ℕ → V))} :
    Writers p payload { s with
      head := head
      headPending := headPending
      polled := polled
      batch := batch
      unread := unread
      image := image
      batches := batches } where
  entered := writers.entered
  together := writers.together
  published := writers.published
  tail := writers.tail
  room := writers.room
  written := writers.written
  filled := writers.filled
  held := writers.held

theorem Writers.publishHead (writers : Writers p payload s) (reader : Reader p payload s) :
    Writers p payload { s with headWord := (p.stamp, s.head), headPending := false } where
  entered := writers.entered
  together := writers.together
  published := writers.published
  tail := writers.tail
  room v := by
    have room := writers.room v
    have behind := reader.headWord_le
    simp only [p.value_stamp]
    omega
  written := writers.written
  filled := writers.filled
  held := writers.held

/-- **A slot of the batch holds its packet.** -/
theorem Inv.slot_eq (inv : Inv p payload s) (sound : p.Sound) {tail q : ℕ}
    (open' : s.batch = some tail) (lo : s.head ≤ q) (hi : q < tail) :
    s.written q = true ∧ s.slots (q % p.ringSize) = payload q := by
  obtain ⟨-, tail_le⟩ := inv.reader.batch tail open'
  obtain ⟨w, mine⟩ := sound.exists_mine q
  have below : q < p.bound (s.left w) :=
    (hi.trans_le tail_le).trans_le (sound.bound_mono (inv.writers.published w))
  have done := inv.writers.filled w q mine below
  refine ⟨done, inv.writers.held q done fun v => ?_⟩
  have room := inv.writers.room v
  have behind := inv.reader.headWord_le
  omega

/-- Writers leave the reader alone. -/
theorem Reader.of_writers (reader : Reader p payload s) {entered left : κ → ℕ}
    {written : ℕ → Bool} {slots : ℕ → V} :
    Reader p payload { s with
      entered := entered
      left := left
      written := written
      slots := slots } where
  headWord_le := reader.headWord_le
  headWord := reader.headWord
  head_le := reader.head_le
  polled := reader.polled
  alone := reader.alone
  batch := reader.batch
  image := reader.image
  unread := reader.unread
  batches := reader.batches

theorem Reader.publish (reader : Reader p payload s) (sound : p.Sound) :
    Reader p payload { s with
      published := s.published + 1
      tailWord := (p.stamp, p.bound (s.published + 1)) } where
  headWord_le := reader.headWord_le
  headWord := reader.headWord
  head_le := reader.head_le.trans (sound.bound_le_succ _)
  polled tail found :=
    ⟨(reader.polled tail found).1, (reader.polled tail found).2.trans (sound.bound_le_succ _)⟩
  alone := reader.alone
  batch tail taken :=
    ⟨(reader.batch tail taken).1, (reader.batch tail taken).2.trans (sound.bound_le_succ _)⟩
  image := reader.image
  unread := reader.unread
  batches := reader.batches

theorem Reader.poll (reader : Reader p payload s) (writers : Writers p payload s)
    (free : s.batch = none) (moved : s.head ≠ p.value s.tailWord) :
    Reader p payload { s with polled := some (p.value s.tailWord) } where
  headWord_le := reader.headWord_le
  headWord := reader.headWord
  head_le := reader.head_le
  polled tail found := by
    obtain rfl := Option.some.inj found
    rw [writers.tail] at moved ⊢
    exact ⟨lt_of_le_of_ne reader.head_le moved, le_rfl⟩
  alone tail taken := by simp [free] at taken
  batch := reader.batch
  image := reader.image
  unread := reader.unread
  batches := reader.batches

theorem Reader.begin (reader : Reader p payload s) {tail : ℕ} (found : s.polled = some tail) :
    Reader p payload { s with
      polled := none
      batch := some tail
      unread := Ico s.head tail } where
  headWord_le := reader.headWord_le
  headWord := reader.headWord
  head_le := reader.head_le
  polled _ none := by simp at none
  alone _ _ := rfl
  batch _ taken := by
    obtain rfl := Option.some.inj taken
    exact reader.polled tail found
  image _ taken q lo hi read := by
    obtain rfl := Option.some.inj taken
    exact absurd (mem_Ico.2 ⟨lo, hi⟩) read
  unread _ taken q hq := by
    obtain rfl := Option.some.inj taken
    exact mem_Ico.1 hq
  batches := reader.batches

theorem Reader.read (inv : Inv p payload s) (sound : p.Sound) {tail q : ℕ}
    (taken : s.batch = some tail) (lo : s.head ≤ q) (hi : q < tail) :
    Reader p payload { s with
      unread := s.unread.erase q
      image := update s.image (q % p.ringSize) (s.slots (q % p.ringSize)) } where
  headWord_le := inv.reader.headWord_le
  headWord := inv.reader.headWord
  head_le := inv.reader.head_le
  polled := inv.reader.polled
  alone := inv.reader.alone
  batch := inv.reader.batch
  image tail' taken' r lo' hi' done := by
    rcases eq_or_ne r q with rfl | other
    · dsimp only
      rw [update_self]
      exact (inv.slot_eq sound taken lo hi).2
    · rcases eq_or_ne (r % p.ringSize) (q % p.ringSize) with same | elsewhere
      · -- two positions of a batch do not share a slot: the batch is no larger than the ring
        exfalso
        obtain rfl : tail' = tail := Option.some.inj (taken'.symm.trans taken)
        obtain ⟨-, tail_le⟩ := inv.reader.batch tail' taken
        obtain ⟨w, -⟩ := sound.exists_mine 0
        have room := inv.writers.room w
        have done := sound.bound_mono
          ((inv.writers.published w).trans (inv.writers.entered w).1)
        have behind := inv.reader.headWord_le
        dsimp only at lo' hi'
        rcases lt_or_gt_of_ne other with before | after
        · have far := add_le_of_mod_eq before same
          omega
        · have far := add_le_of_mod_eq after same.symm
          omega
      · dsimp only
        rw [update_of_ne elsewhere]
        exact inv.reader.image tail' taken' r lo' hi' fun left => done (mem_erase.2 ⟨other, left⟩)
  unread tail' taken' r hr := inv.reader.unread tail' taken' r (mem_of_mem_erase hr)
  batches := inv.reader.batches

theorem Reader.finish (reader : Reader p payload s) {tail : ℕ} (taken : s.batch = some tail)
    (all : s.unread = ∅) :
    Reader p payload { s with
      batch := none
      head := tail
      headPending := true
      batches := s.batches ++ [(tail - s.head, s.image)] } := by
  obtain ⟨more, tail_le⟩ := reader.batch tail taken
  constructor
  case headWord_le => exact reader.headWord_le.trans more.le
  case headWord => exact fun published => absurd published (by simp)
  case head_le => exact tail_le
  case polled =>
    intro _ found
    rw [reader.alone tail taken] at found
    exact absurd found (by simp)
  case alone => exact fun _ none => absurd none (by simp)
  case batch => exact fun _ none => absurd none (by simp)
  case image => exact fun _ none => absurd none (by simp)
  case unread => exact fun _ none => absurd none (by simp)
  case batches =>
    have right : ∀ i < tail - s.head, s.image ((s.head + i) % p.ringSize) =
        payload (s.head + i) :=
      fun i hi => reader.image tail taken (s.head + i) (by omega) (by omega) (by simp [all])
    have next := reader.batches.snoc (by omega) right
    rwa [Nat.add_sub_cancel' more.le] at next

theorem Reader.publishHead (reader : Reader p payload s) :
    Reader p payload { s with headWord := (p.stamp, s.head), headPending := false } where
  headWord_le := (p.value_stamp _).le
  headWord _ := p.value_stamp _
  head_le := reader.head_le
  polled := reader.polled
  alone := reader.alone
  batch := reader.batch
  image := reader.image
  unread := reader.unread
  batches := reader.batches

theorem inv_start (sound : p.Sound) {tailWord headWord : σ × ℕ} (slots image : ℕ → V)
    (oldTail : tailWord.1 ≠ p.stamp) (oldHead : headWord.1 ≠ p.stamp) :
    Inv p payload (start tailWord headWord slots image : State κ σ V) where
  writers :=
    { entered := fun _ => ⟨le_rfl, Nat.zero_le _⟩
      together := fun _ _ => Nat.zero_le _
      published := fun _ => le_rfl
      tail := (if_neg oldTail).trans sound.bound_zero.symm
      room := fun _ => sound.bound_zero.trans_le (Nat.zero_le _)
      written := fun _ done => by simp [start] at done
      filled := fun _ _ _ below => by simp [start, sound.bound_zero] at below
      held := fun _ done => by simp [start] at done }
  reader :=
    { headWord_le := (if_neg oldHead).le
      headWord := fun _ => if_neg oldHead
      head_le := Nat.zero_le _
      polled := fun _ found => by simp [start] at found
      alone := fun _ taken => by simp [start] at taken
      batch := fun _ taken => by simp [start] at taken
      image := fun _ taken => by simp [start] at taken
      unread := fun _ taken => by simp [start] at taken
      batches := rfl }

section Runs

variable [DecidableEq κ] [Fintype κ] {s' : State κ σ V}

/-- **Every step keeps the invariant.** -/
theorem step_inv (sound : p.Sound) {e : Event κ} (inv : Inv p payload s)
    (fires : step p payload s e = some s') : Inv p payload s' := by
  obtain ⟨writers, reader⟩ := inv
  cases e with
  | enter w =>
      simp only [step, Option.ite_none_right_eq_some, Option.some.injEq] at fires
      obtain ⟨⟨idle, -, together, -, room⟩, rfl⟩ := fires
      exact ⟨writers.enter sound idle together room, reader.of_writers⟩
  | write w q =>
      simp only [step, Option.ite_none_right_eq_some, Option.some.injEq] at fires
      obtain ⟨⟨inside, own, -⟩, rfl⟩ := fires
      obtain ⟨⟨lo, hi⟩, -⟩ := p.mem_share.1 own
      exact ⟨writers.write reader sound inside lo hi, reader.of_writers⟩
  | leave w =>
      simp only [step, Option.ite_none_right_eq_some, Option.some.injEq] at fires
      obtain ⟨⟨inside, done⟩, rfl⟩ := fires
      exact ⟨writers.leave inside done, reader.of_writers⟩
  | publish =>
      simp only [step, Option.ite_none_right_eq_some, Option.some.injEq] at fires
      obtain ⟨all, rfl⟩ := fires
      exact ⟨writers.publish all, reader.publish sound⟩
  | poll =>
      simp only [step, Option.ite_none_right_eq_some, Option.some.injEq] at fires
      obtain ⟨⟨-, free, -, moved⟩, rfl⟩ := fires
      exact ⟨writers.of_reader, reader.poll writers free moved⟩
  | begin =>
      cases found : s.polled with
      | none => simp [step, found] at fires
      | some tail =>
          simp only [step, found, Option.ite_none_right_eq_some, Option.some.injEq] at fires
          obtain ⟨-, rfl⟩ := fires
          exact ⟨writers.of_reader, reader.begin found⟩
  | read q =>
      cases taken : s.batch with
      | none => simp [step, taken] at fires
      | some tail =>
          simp only [step, taken, Option.ite_none_right_eq_some, Option.some.injEq] at fires
          obtain ⟨⟨lo, hi⟩, rfl⟩ := fires
          have next := Reader.read ⟨writers, reader⟩ sound taken lo hi
          rw [taken] at next
          exact ⟨writers.of_reader, next⟩
  | finish =>
      cases taken : s.batch with
      | none => simp [step, taken] at fires
      | some tail =>
          simp only [step, taken, Option.ite_none_right_eq_some, Option.some.injEq] at fires
          obtain ⟨all, rfl⟩ := fires
          exact ⟨writers.of_reader, reader.finish taken all⟩
  | publishHead =>
      simp only [step, Option.ite_none_right_eq_some, Option.some.injEq] at fires
      obtain ⟨-, rfl⟩ := fires
      exact ⟨writers.publishHead reader, reader.publishHead⟩

theorem reachable_inv (sound : p.Sound) {tailWord headWord : σ × ℕ} {slots image : ℕ → V}
    (oldTail : tailWord.1 ≠ p.stamp) (oldHead : headWord.1 ≠ p.stamp)
    (reach : (system p payload tailWord headWord slots image).Reachable s) :
    Inv p payload s := by
  refine reach.invariant (inv_start sound slots image oldTail oldHead) fun s e s' inv fires => ?_
  exact step_inv sound inv fires

/-- **Nothing unread is overwritten.**  Whatever shares the slot of a position that is being
written has been read, and its batch is finished. -/
theorem write_safe (sound : p.Sound) (inv : Inv p payload s) {w : κ} {q : ℕ}
    (fires : step p payload s (.write w q) = some s') {r : ℕ} (earlier : r < q)
    (same : r % p.ringSize = q % p.ringSize) : r < s.head := by
  simp only [step, Option.ite_none_right_eq_some, Option.some.injEq] at fires
  obtain ⟨⟨inside, own, -⟩, -⟩ := fires
  obtain ⟨⟨lo, hi⟩, -⟩ := p.mem_share.1 own
  obtain ⟨-, near⟩ := inv.writers.place sound inside lo hi
  have far := add_le_of_mod_eq earlier same
  have behind := inv.reader.headWord_le
  omega

/-- **Nothing unwritten is read**, and what is read is the packet of the position. -/
theorem read_written (sound : p.Sound) (inv : Inv p payload s) {q : ℕ}
    (fires : step p payload s (.read q) = some s') :
    s.written q = true ∧ s.slots (q % p.ringSize) = payload q := by
  cases taken : s.batch with
  | none => simp [step, taken] at fires
  | some tail =>
      simp only [step, taken, Option.ite_none_right_eq_some] at fires
      obtain ⟨⟨lo, hi⟩, -⟩ := fires
      exact inv.slot_eq sound taken lo hi

/-- A writer that is in a round can write or leave it. -/
theorem exists_step_inside {w : κ} (inside : s.entered w = s.left w + 1) :
    ∃ e s', step p payload s e = some s' ∧ s' ≠ s := by
  rcases Classical.em (∀ q ∈ p.share w (s.left w), s.written q = true) with done | missing
  · refine ⟨.leave w, _, if_pos ⟨inside, done⟩, fun same => ?_⟩
    have := congrFun (congrArg State.left same) w
    simp at this
  · simp only [not_forall] at missing
    obtain ⟨q, own, unwritten⟩ := missing
    have unwritten := Bool.eq_false_of_not_eq_true unwritten
    refine ⟨.write w q, _, if_pos ⟨inside, own, unwritten⟩, fun same => ?_⟩
    have := congrFun (congrArg State.written same) q
    simp [unwritten] at this

/-- A reader that has found a tail, or has a batch, or has to publish, can go on. -/
theorem exists_step_reader (inv : Inv p payload s)
    (busy : s.headPending = true ∨ s.polled ≠ none ∨ s.batch ≠ none) :
    ∃ e s', step p payload s e = some s' ∧ s' ≠ s := by
  rcases Bool.eq_false_or_eq_true s.headPending with pending | published
  · refine ⟨.publishHead, _, if_pos pending, fun same => ?_⟩
    have := congrArg State.headPending same
    simp [pending] at this
  rcases busy with pending | found | taken
  · rw [published] at pending
    exact absurd pending (by decide)
  · obtain ⟨tail, found⟩ := Option.ne_none_iff_exists'.1 found
    refine ⟨.begin, { s with polled := none, batch := some tail, unread := Ico s.head tail },
      by simp only [step, found, if_pos published], fun same => ?_⟩
    have := congrArg State.polled same
    simp [found] at this
  · obtain ⟨tail, taken⟩ := Option.ne_none_iff_exists'.1 taken
    rcases s.unread.eq_empty_or_nonempty with all | ⟨q, hq⟩
    · refine ⟨.finish, { s with
          batch := none
          head := tail
          headPending := true
          batches := s.batches ++ [(tail - s.head, s.image)] },
        by simp only [step, taken, if_pos all], fun same => ?_⟩
      have := congrArg State.batch same
      simp [taken] at this
    · refine ⟨.read q, { s with
          unread := s.unread.erase q
          image := update s.image (q % p.ringSize) (s.slots (q % p.ringSize)) },
        by simp only [step, taken, if_pos (inv.reader.unread tail taken q hq)], fun same => ?_⟩
      have kept : s.unread.erase q = s.unread := congrArg State.unread same
      exact erase_eq_self.1 kept hq

/-- **As long as something is left, some step is possible.** -/
theorem exists_step (sound : p.Sound) (inv : Inv p payload s) (more : s.head < p.total) :
    ∃ e s', step p payload s e = some s' ∧ s' ≠ s := by
  rcases Classical.em (s.headPending = true ∨ s.polled ≠ none ∨ s.batch ≠ none) with busy | idle
  · exact exists_step_reader inv busy
  simp only [not_or, not_not, Bool.not_eq_true] at idle
  obtain ⟨published, unpolled, free⟩ := idle
  rcases ne_or_eq s.head (p.value s.tailWord) with moved | caught
  · refine ⟨.poll, _, if_pos ⟨unpolled, free, more, moved⟩, fun same => ?_⟩
    have := congrArg State.polled same
    simp [unpolled] at this
  rcases Classical.em (∀ v, s.published < s.left v) with all | missing
  · refine ⟨.publish, _, if_pos all, fun same => ?_⟩
    have := congrArg State.published same
    simp at this
  -- some writer is still at the round that is published next
  simp only [not_forall, not_lt] at missing
  obtain ⟨w, le⟩ := missing
  have here : s.left w = s.published := le_antisymm le (inv.writers.published w)
  rcases eq_or_ne (s.entered w) (s.left w) with idle | inside
  · have tail := inv.writers.tail
    have active : p.active (s.left w) = true := by
      by_contra stopped
      have ended := sound.ended _ (Bool.eq_false_of_not_eq_true stopped)
      rw [here] at ended
      omega
    have room : p.bound (s.left w) + p.required ≤ p.value s.headWord + p.ringSize := by
      have fits := sound.required_le
      rw [here, inv.reader.headWord published]
      omega
    refine ⟨.enter w, _, if_pos ⟨idle, active, fun v => here.trans_le (inv.writers.published v),
      fun _ => here.symm, room⟩, fun same => ?_⟩
    have := congrFun (congrArg State.entered same) w
    simp only [update_self] at this
    omega
  · exact exists_step_inside
      (le_antisymm (inv.writers.entered w).2 (lt_of_le_of_ne (inv.writers.entered w).1 inside.symm))

end Runs

end Invariant

end RoundRing
