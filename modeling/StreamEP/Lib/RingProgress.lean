import Mathlib.Data.Finset.Max
import StreamEP.Lib.ReplayRings

/-!
# Progress of replayed rings

A reader holds a ring's published head back until it is done with its token, so a
writer may have to wait for a reader that itself waits for the writer.  `Paced lag`
bounds how far a reader's head can lie behind the position of any token that is not
later than its own.  If a ring has room for a chunk and for that lag, the reader of
the earliest token can always be served, and some step is enabled until everything
is combined (`exists_step`).

**Who can go on.**  Take the reader of the earliest token (`exists_earliest`).  It can take its
token up, read or finish, or it lacks a packet of some ring.  If a chunk is claimed there, the
writer can write or publish.  If none is, the writer waits for room; then all heads of the ring
are within the lag of a position that lies beyond the tail, so a head can be published that
leaves room (`exists_step_short`).

**Steps.**  What a step does to heads, to tokens and to chunks is said once each
(`head_le_of_step`, `readers_of_step`, `writers_of_step`), for arguments about runs that get
stuck: tails advance by whole chunks (`Chunked`), and a published head stays below the heads of
the readers that have not retired (`published_le_head`).

Runs end in any case: every step uses up some of `fuel` (`step_fuel`), as long as heads are
bounded.
-/

namespace ReplayRings

open Finset Function

variable {ι κ V : Type*} {p : Plan ι κ} {payload : ι → ℕ → V} {s s' : State ι κ V}

/-- Heads stay within `lag` of the tokens, and a ring has room for the lag and for the next
chunk, wherever the tail may be between two chunks. -/
structure Plan.Paced (p : Plan ι κ) (lag : ℕ) : Prop where
  room : ∀ i, ∀ tail < p.total i, tail = 0 ∨ p.chunk ≤ tail →
    tail + p.required (min p.chunk (p.total i - tail)) ≤ tail - lag + p.ringSize
  after : ∀ w, ∀ m < p.count w, ∀ v, ∀ k < p.count v, p.token v k ≤ p.token w m →
    ∀ i, p.expected (p.token v k) i ≤ p.headAfter w i m + lag
  during : ∀ w, ∀ m < p.count w, ∀ v, ∀ k < p.count v, p.token v k ≤ p.token w m →
    ∀ i, p.expected (p.token v k) i ≤ p.headDuring w i m + lag

/-- Every reader is done with all its tokens. -/
def State.Completed (p : Plan ι κ) (s : State ι κ V) : Prop := ∀ w, s.done w = p.count w

section Progress

variable [DecidableEq ι] [DecidableEq κ] [Fintype ι] [Fintype κ] [AddCommMonoid V]

omit [DecidableEq ι] [DecidableEq κ] in
/-- The reader with the earliest token among those that have one left. -/
theorem exists_earliest (readers : Readers p payload s) (busy : ¬s.Completed p) :
    ∃ w, s.done w < p.count w ∧
      ∀ v, s.done v < p.count v → p.current s w ≤ p.current s v := by
  simp only [State.Completed, not_forall] at busy
  obtain ⟨v, left⟩ := busy
  have := readers.done_le v
  have nonempty : (univ.filter fun w => s.done w < p.count w).Nonempty :=
    ⟨v, mem_filter.2 ⟨mem_univ v, by omega⟩⟩
  obtain ⟨w, hw, least⟩ := Finset.exists_min_image _ (p.current s) nonempty
  exact ⟨w, (mem_filter.1 hw).2, fun v hv => least v (mem_filter.2 ⟨mem_univ v, hv⟩)⟩

variable (payload) in
/-- A reader that has taken its token up can finish or read, or it waits for a packet. -/
theorem reading_cases {w : κ} (busy : s.reading w = true) :
    (∃ s', step p payload s (.finish w) = some s') ∨
      (∃ i s', step p payload s (.read w i) = some s') ∨
        ∃ i, (s.cachedTail i : ℤ) ≤ p.expected (p.current s w) i := by
  by_cases all : ∀ i, 0 ≤ p.expected (p.current s w) i → (s.regs w i).isSome
  · exact Or.inl ⟨_, if_pos ⟨busy, all⟩⟩
  · simp only [not_forall] at all
    obtain ⟨i, has, missing⟩ := all
    by_cases there : p.expected (p.current s w) i < s.cachedTail i
    · exact Or.inr (Or.inl ⟨i, _, if_pos ⟨busy, has, there, by simpa using missing⟩⟩)
    · exact Or.inr (Or.inr ⟨i, not_lt.1 there⟩)

variable (payload) in
/-- A writer that has claimed a chunk can write or publish. -/
theorem claimed_cases {i : ι} (claimed : 0 < s.claimed i) :
    (∃ s', step p payload s (.publish i) = some s') ∨
      ∃ q ∈ s.unwritten i, ∃ s', step p payload s (.write i q) = some s' := by
  rcases (s.unwritten i).eq_empty_or_nonempty with all | ⟨q, hq⟩
  · exact Or.inl ⟨_, if_pos ⟨claimed, all⟩⟩
  · exact Or.inr ⟨q, hq, _, if_pos hq⟩

/-- When a ring is short of room, its head can be moved on: every reader is within the
lag of the earliest token, which lies beyond the tail. -/
theorem exists_step_short {lag : ℕ} (inv : Inv p payload s) (paced : p.Paced lag) {w : κ}
    {i : ι} (more : s.done w < p.count w)
    (least : ∀ v, s.done v < p.count v → p.current s w ≤ p.current s v)
    (idle : s.claimed i = 0) (left : s.tail i < p.total i)
    (waiting : (s.tail i : ℤ) ≤ p.expected (p.current s w) i)
    (short : s.publishedHead i + p.ringSize < s.tail i + p.required (p.round s i)) :
    ∃ e s', step p payload s e = some s' := by
  by_cases stop : ∃ v, s.done v = p.count v ∧ s.retired v = false
  · obtain ⟨v, hv⟩ := stop
    exact ⟨.retire v, _, if_pos hv⟩
  have first := inv.rings.first i
  have room := paced.room i (s.tail i) left (by omega)
  rw [← Plan.round] at room
  have close : ∀ v, s.done v < p.count v → s.publishedHead i + 1 ≤ s.head v i := by
    intro v hv
    have near : p.expected (p.current s w) i ≤ s.head v i + lag := by
      rw [inv.readers.head]
      cases s.reading v with
      | true => exact paced.during v _ hv w _ more (least v hv) i
      | false => exact paced.after v _ hv w _ more (least v hv) i
    omega
  refine ⟨.publishHead i (s.publishedHead i + 1), _,
    if_pos ⟨Nat.lt_succ_self _, ⟨w, close w more⟩, fun v active => close v ?_⟩⟩
  have := inv.readers.done_le v
  have : s.done v ≠ p.count v := fun all => stop ⟨v, all, active⟩
  omega

/-- **Nobody is stuck** before everything is combined. -/
theorem exists_step {lag : ℕ} (inv : Inv p payload s) (sound : p.Sound) (paced : p.Paced lag)
    (busy : ¬s.Completed p) : ∃ e s', step p payload s e = some s' := by
  obtain ⟨w, more, least⟩ := exists_earliest inv.readers busy
  cases reading : s.reading w with
  | false => exact ⟨.arrive w, _, if_pos ⟨reading, more⟩⟩
  | true =>
  rcases reading_cases payload reading with finishes | ⟨i, reads⟩ | ⟨i, missing⟩
  · exact ⟨_, finishes⟩
  · exact ⟨_, reads⟩
  by_cases stale : s.cachedTail i ≠ s.tail i
  · exact ⟨.readTail i, _, if_pos stale⟩
  rw [not_not.1 stale] at missing
  by_cases claimed : 0 < s.claimed i
  · rcases claimed_cases payload claimed with publishes | ⟨q, -, writes⟩
    · exact ⟨_, publishes⟩
    · exact ⟨_, writes⟩
  have last := sound.expected_lt w _ more i
  rw [← Plan.current] at last
  by_cases room : s.tail i + p.required (p.round s i) ≤ s.publishedHead i + p.ringSize
  · exact ⟨.claim i, _, if_pos ⟨by omega, by omega, room⟩⟩
  · exact exists_step_short inv paced more least (by omega) (by omega) missing
      (not_le.1 room)

end Progress

/-! ### What a step does to heads and chunks -/

section Steps

variable [DecidableEq ι] [DecidableEq κ] [Fintype ι] [Fintype κ] [AddCommMonoid V]
  {e : Event ι κ}

/-- A reader's head never falls when the plan's heads do not. -/
theorem head_le_of_step (readers : Readers p payload s) {i : ι}
    (grow : ∀ w, ∀ m < p.count w, p.headAfter w i m ≤ p.headDuring w i m ∧
      p.headDuring w i m ≤ p.headAfter w i (m + 1))
    (fires : step p payload s e = some s') (w : κ) : s.head w i ≤ s'.head w i := by
  cases e <;>
    simp only [step, Option.ite_none_right_eq_some, Option.some.injEq] at fires <;>
    obtain ⟨guard, rfl⟩ := fires
  case arrive v =>
    rcases eq_or_ne w v with rfl | other
    · have head := readers.head w i
      rw [guard.1] at head
      simp only [State.arrive, update_self, head]
      exact (grow w _ guard.2).1
    · simp only [State.arrive, update_of_ne other, le_refl]
  case finish v =>
    rcases eq_or_ne w v with rfl | other
    · have head := readers.head w i
      rw [guard.1] at head
      simp only [State.finish, update_self, head]
      exact (grow w _ (readers.arrived w guard.1)).2
    · simp only [State.finish, update_of_ne other, le_refl]
  all_goals exact le_rfl

/-- Who has not retired had not retired before. -/
theorem active_of_step (fires : step p payload s e = some s') {w : κ}
    (active : s'.retired w = false) : s.retired w = false := by
  cases e <;>
    simp only [step, Option.ite_none_right_eq_some, Option.some.injEq] at fires <;>
    obtain ⟨guard, rfl⟩ := fires
  case retire v =>
    rcases eq_or_ne w v with rfl | other
    · exact guard.2
    · simpa only [update_of_ne other] using active
  all_goals exact active

theorem retire_of_step (fires : step p payload s e = some s') {w : κ}
    (active : s.retired w = false) (retired : s'.retired w = true) : ∃ v, e = .retire v := by
  cases e <;>
    simp only [step, Option.ite_none_right_eq_some, Option.some.injEq] at fires <;>
    obtain ⟨guard, rfl⟩ := fires
  case retire v => exact ⟨v, rfl⟩
  all_goals exact absurd (active.symm.trans retired) Bool.false_ne_true

/-- A head is published as a lower bound of the active readers' heads. -/
theorem publishedHead_of_step (fires : step p payload s e = some s') (i : ι) :
    s'.publishedHead i = s.publishedHead i ∨ e = .publishHead i (s'.publishedHead i) ∧
      ∀ w, s.retired w = false → s'.publishedHead i ≤ s.head w i := by
  cases e <;>
    simp only [step, Option.ite_none_right_eq_some, Option.some.injEq] at fires <;>
    obtain ⟨guard, rfl⟩ := fires
  case publishHead j h =>
    rcases eq_or_ne i j with rfl | other
    · dsimp only
      rw [update_self]
      exact Or.inr ⟨rfl, guard.2.2⟩
    · exact Or.inl (update_of_ne other _ _)
  all_goals exact Or.inl rfl

/-- When heads only grow, a published head stays below the heads of all readers that have
not retired. -/
theorem published_le_head_of_step (readers : Readers p payload s) {i : ι}
    (grow : ∀ w, ∀ m < p.count w, p.headAfter w i m ≤ p.headDuring w i m ∧
      p.headDuring w i m ≤ p.headAfter w i (m + 1))
    (before : ∀ w, s.retired w = false → s.publishedHead i ≤ s.head w i)
    (fires : step p payload s e = some s') {w : κ} (active : s'.retired w = false) :
    s'.publishedHead i ≤ s'.head w i := by
  have active := active_of_step fires active
  have rises := head_le_of_step readers grow fires w
  rcases publishedHead_of_step fires i with same | ⟨-, lower⟩
  · rw [same]
    exact (before w active).trans rises
  · exact (lower w active).trans rises

theorem published_le_head (sound : p.Sound) {i : ι}
    (grow : ∀ w, ∀ m < p.count w, p.headAfter w i m ≤ p.headDuring w i m ∧
      p.headDuring w i m ≤ p.headAfter w i (m + 1))
    {slots : ι → ℕ → V} (reach : (system p payload slots).Reachable s) {w : κ}
    (active : s.retired w = false) : s.publishedHead i ≤ s.head w i := by
  induction reach generalizing w with
  | init => exact Nat.zero_le _
  | step e before fires ih =>
      have readers := (reachable_inv sound before).readers
      exact published_le_head_of_step readers grow (fun v active => ih active) fires active

variable (p) in
/-- Tails advance by whole chunks up to the end of the stream. -/
structure Chunked (s : State ι κ V) : Prop where
  tail : ∀ i, p.chunk ∣ s.tail i ∨ s.tail i = p.total i
  claimed : ∀ i, s.claimed i = 0 ∨ s.claimed i = p.round s i

omit [DecidableEq ι] [DecidableEq κ] [Fintype ι] [Fintype κ] [AddCommMonoid V] in
theorem chunked_start (slots : ι → ℕ → V) : Chunked p (start slots : State ι κ V) where
  tail _ := Or.inl (Nat.dvd_zero _)
  claimed _ := Or.inl rfl

omit [DecidableEq ι] [DecidableEq κ] [Fintype ι] [Fintype κ] [AddCommMonoid V] in
/-- Inside the stream a tail is a multiple of the chunk. -/
theorem Chunked.dvd_tail (chunked : Chunked p s) {i : ι} (left : s.tail i < p.total i) :
    p.chunk ∣ s.tail i := (chunked.tail i).resolve_right left.ne

theorem Chunked.step (chunked : Chunked p s) (rings : Rings p payload s)
    (fires : step p payload s e = some s') : Chunked p s' := by
  cases e <;>
    simp only [ReplayRings.step, Option.ite_none_right_eq_some, Option.some.injEq] at fires <;>
    obtain ⟨guard, rfl⟩ := fires
  case claim i =>
    refine ⟨chunked.tail, fun j => ?_⟩
    rcases eq_or_ne j i with rfl | other
    · simp only [State.claim, update_self]
      exact Or.inr rfl
    · simp only [State.claim, update_of_ne other]
      exact chunked.claimed j
  case publish i =>
    refine ⟨fun j => ?_, fun j => ?_⟩
    · rcases eq_or_ne j i with rfl | other
      · have claimed := (chunked.claimed j).resolve_left guard.1.ne'
        have bounded := rings.bounded j
        have left : s.tail j < p.total j := by omega
        simp only [State.publish, update_self]
        rcases le_total p.chunk (p.total j - s.tail j) with whole | rest
        · rw [claimed, Plan.round, min_eq_left whole]
          exact Or.inl (Nat.dvd_add (chunked.dvd_tail left) (Nat.dvd_refl _))
        · rw [claimed, Plan.round, min_eq_right rest]
          exact Or.inr (Nat.add_sub_cancel' left.le)
      · simpa only [State.publish, update_of_ne other] using chunked.tail j
    · rcases eq_or_ne j i with rfl | other
      · exact Or.inl (update_self _ _ _)
      · have before := chunked.claimed j
        unfold Plan.round at before ⊢
        simpa only [State.publish, update_of_ne other] using before
  all_goals exact ⟨chunked.tail, chunked.claimed⟩

/-- What a step does to the readers' tokens: they are taken up and finished. -/
theorem readers_of_step (fires : step p payload s e = some s') :
    (s'.done = s.done ∧ s'.reading = s.reading ∧ s'.out = s.out) ∨
      (∃ w, e = .arrive w ∧ s.reading w = false ∧ s.done w < p.count w ∧ s' = s.arrive p w) ∨
        ∃ w, e = .finish w ∧ s.reading w = true ∧ s' = s.finish p w := by
  cases e <;>
    simp only [step, Option.ite_none_right_eq_some, Option.some.injEq] at fires <;>
    obtain ⟨guard, rfl⟩ := fires
  case arrive w => exact Or.inr (Or.inl ⟨w, rfl, guard.1, guard.2, rfl⟩)
  case finish w => exact Or.inr (Or.inr ⟨w, rfl, guard.1, rfl⟩)
  all_goals exact Or.inl ⟨rfl, rfl, rfl⟩

/-- What a step does to the writers' chunks: they are claimed, written and published. -/
theorem writers_of_step (fires : step p payload s e = some s') :
    (s'.tail = s.tail ∧ s'.claimed = s.claimed ∧ s'.unwritten = s.unwritten) ∨
      (∃ i, e = .claim i ∧ s.claimed i = 0 ∧ s.tail i < p.total i ∧
        s.tail i + p.required (p.round s i) ≤ s.publishedHead i + p.ringSize ∧
          s' = s.claim p i) ∨
        (∃ i q, e = .write i q ∧ q ∈ s.unwritten i ∧ s' = s.write p i q (payload i q)) ∨
          ∃ i, e = .publish i ∧ s.unwritten i = ∅ ∧ s' = s.publish i := by
  cases e <;>
    simp only [step, Option.ite_none_right_eq_some, Option.some.injEq] at fires <;>
    obtain ⟨guard, rfl⟩ := fires
  case claim i => exact Or.inr (Or.inl ⟨i, rfl, guard.1, guard.2.1, guard.2.2, rfl⟩)
  case write i q => exact Or.inr (Or.inr (Or.inl ⟨i, q, rfl, guard, rfl⟩))
  case publish i => exact Or.inr (Or.inr (Or.inr ⟨i, rfl, guard.2, rfl⟩))
  all_goals exact Or.inl ⟨rfl, rfl, rfl⟩

end Steps

/-! ### Runs end -/

section Termination

variable [Fintype ι] [Fintype κ] (p) (bound : ι → ℕ)

/-- Heads stay below a bound. -/
structure Plan.Bounded : Prop where
  after : ∀ w i, ∀ m ≤ p.count w, p.headAfter w i m ≤ bound i
  during : ∀ w i, ∀ m < p.count w, p.headDuring w i m ≤ bound i

/-- What is left to do for a ring. -/
def ringFuel (s : State ι κ V) (i : ι) : ℕ :=
  3 * (p.total i - s.tail i - s.claimed i) + (s.unwritten i).card + s.claimed i +
    (p.total i - s.cachedTail i) + (bound i - s.publishedHead i)

/-- What is left to do for a reader. -/
def readerFuel (s : State ι κ V) (w : κ) : ℕ :=
  (p.count w - s.done w) * (Fintype.card ι + 2) +
    (bif s.reading w then (univ.filter fun i => (s.regs w i).isNone).card
      else Fintype.card ι + 1) +
    bif s.retired w then 0 else 1

/-- What is left to do. -/
def fuel (s : State ι κ V) : ℕ := ∑ i, ringFuel p bound s i + ∑ w, readerFuel p s w

variable {p bound}

/-- A step that only helps ring `i` on uses up fuel. -/
theorem fuel_lt_of_ring {i : ι} (same : ∀ w, readerFuel p s' w = readerFuel p s w)
    (others : ∀ j, j ≠ i → ringFuel p bound s' j = ringFuel p bound s j)
    (less : ringFuel p bound s' i < ringFuel p bound s i) :
    fuel p bound s' < fuel p bound s := by
  have le : ∀ j ∈ univ, ringFuel p bound s' j ≤ ringFuel p bound s j := by
    intro j _
    rcases eq_or_ne j i with rfl | other
    · exact less.le
    · exact (others j other).le
  have rings := sum_lt_sum le ⟨i, mem_univ i, less⟩
  have readers : ∑ w, readerFuel p s' w = ∑ w, readerFuel p s w :=
    sum_congr rfl fun w _ => same w
  unfold fuel
  omega

/-- A step that only helps reader `w` on uses up fuel. -/
theorem fuel_lt_of_reader {w : κ} (same : ∀ i, ringFuel p bound s' i = ringFuel p bound s i)
    (others : ∀ v, v ≠ w → readerFuel p s' v = readerFuel p s v)
    (less : readerFuel p s' w < readerFuel p s w) : fuel p bound s' < fuel p bound s := by
  have le : ∀ v ∈ univ, readerFuel p s' v ≤ readerFuel p s v := by
    intro v _
    rcases eq_or_ne v w with rfl | other
    · exact less.le
    · exact (others v other).le
  have readers := sum_lt_sum le ⟨w, mem_univ w, less⟩
  have rings : ∑ i, ringFuel p bound s' i = ∑ i, ringFuel p bound s i :=
    sum_congr rfl fun i _ => same i
  unfold fuel
  omega

variable [AddCommMonoid V]

omit [Fintype κ] in
/-- What a reader shows is bounded. -/
theorem Plan.Bounded.head_le (bounded : p.Bounded bound) (readers : Readers p payload s) (w : κ)
    (i : ι) : s.head w i ≤ bound i := by
  rw [readers.head]
  cases busy : s.reading w with
  | true => exact bounded.during w i _ (readers.arrived w busy)
  | false => exact bounded.after w i _ (readers.done_le w)

variable [DecidableEq ι] [DecidableEq κ]

/-- **Every step uses up fuel**, if heads are bounded. -/
theorem step_fuel (inv : Inv p payload s) (pos : 0 < p.chunk) (bounded : p.Bounded bound)
    {e : Event ι κ} (fires : step p payload s e = some s') :
    fuel p bound s' < fuel p bound s := by
  obtain ⟨rings, readers⟩ := inv
  cases e <;>
    simp only [step, Option.ite_none_right_eq_some, Option.some.injEq] at fires <;>
    obtain ⟨guard, rfl⟩ := fires
  case claim i =>
    obtain ⟨idle, more, -⟩ := guard
    -- nothing is left of the last chunk
    have none : s.unwritten i = ∅ := by
      refine eq_empty_of_forall_notMem fun q hq => ?_
      have := rings.unwritten i q hq
      omega
    refine fuel_lt_of_ring (i := i) (fun _ => rfl) (fun j other => ?_) ?_
    · simp only [ringFuel, State.claim, update_of_ne other]
    · have round : 0 < p.round s i ∧ p.round s i ≤ p.total i - s.tail i := by
        unfold Plan.round
        omega
      simp only [ringFuel, State.claim, update_self, Nat.card_Ico, none, card_empty, idle]
      omega
  case write i q =>
    refine fuel_lt_of_ring (i := i) (fun _ => rfl) (fun j other => ?_) ?_
    · simp only [ringFuel, State.write, update_of_ne other]
    · have := card_erase_lt_of_mem guard
      simp only [ringFuel, State.write, update_self]
      omega
  case publish i =>
    have := rings.bounded i
    refine fuel_lt_of_ring (i := i) (fun _ => rfl) (fun j other => ?_) ?_
    · simp only [ringFuel, State.publish, update_of_ne other]
    · simp only [ringFuel, State.publish, update_self]
      omega
  case readTail i =>
    have := rings.cached i
    have := rings.bounded i
    refine fuel_lt_of_ring (i := i) (fun _ => rfl) (fun j other => ?_) ?_
    · simp only [ringFuel, update_of_ne other]
    · simp only [ringFuel, update_self]
      omega
  case publishHead i h =>
    obtain ⟨up, ⟨w, below⟩, -⟩ := guard
    have head_le := bounded.head_le readers w i
    refine fuel_lt_of_ring (i := i) (fun _ => rfl) (fun j other => ?_) ?_
    · simp only [ringFuel, update_of_ne other]
    · simp only [ringFuel, update_self]
      omega
  case arrive w =>
    refine fuel_lt_of_reader (w := w) (fun _ => rfl) (fun v other => ?_) ?_
    · simp only [readerFuel, State.arrive, update_of_ne other]
    · have card := card_le_univ (univ.filter fun i : ι => (none : Option V).isNone)
      simp only [readerFuel, State.arrive, update_self, guard.1, cond_true, cond_false]
      omega
  case read w i =>
    refine fuel_lt_of_reader (w := w) (fun _ => rfl) (fun v other => ?_) ?_
    · simp only [readerFuel, State.read, update_of_ne other]
    · have fewer : (univ.filter fun j => ((s.read p w i).regs w j).isNone).card <
          (univ.filter fun j => (s.regs w j).isNone).card := by
        refine card_lt_card (ssubset_iff_of_subset (fun j hj => ?_) |>.2 ⟨i, ?_, ?_⟩)
        · simp only [State.read, update_self, mem_filter, mem_univ, true_and] at hj ⊢
          rcases eq_or_ne j i with rfl | other
          · simp at hj
          · simpa only [update_of_ne other] using hj
        · simpa using guard.2.2.2
        · simp [State.read]
      have busy : (s.read p w i).reading w = true := guard.1
      simp only [readerFuel, guard.1, busy, cond_true]
      show (p.count w - s.done w) * _ + _ + (bif s.retired w then 0 else 1) < _
      omega
  case finish w =>
    have more := readers.arrived w guard.1
    refine fuel_lt_of_reader (w := w) (fun _ => rfl) (fun v other => ?_) ?_
    · simp only [readerFuel, State.finish, update_of_ne other]
      rfl
    -- a token is worth more than the reads and the flags of its reader
    · have split : (p.count w - s.done w) * (Fintype.card ι + 2) =
          (p.count w - (s.done w + 1)) * (Fintype.card ι + 2) + (Fintype.card ι + 2) := by
        rw [← Nat.succ_mul]
        congr 1
        omega
      simp only [readerFuel, State.finish, update_self, guard.1, cond_true, cond_false, split]
      omega
  case retire w =>
    refine fuel_lt_of_reader (w := w) (fun _ => rfl) (fun v other => ?_) ?_
    · simp only [readerFuel, update_of_ne other]
    · simp only [readerFuel, update_self, guard.2, cond_true, cond_false]
      omega

/-- Every reachable state leads to one in which nothing can happen any more. -/
theorem exists_terminal (sound : p.Sound) (pos : 0 < p.chunk) (bounded : p.Bounded bound)
    {slots : ι → ℕ → V} (reach : (system p payload slots).Reachable s) :
    ∃ s', (system p payload slots).Reachable s' ∧ ∀ e, step p payload s' e = none := by
  refine reach.exists_terminal (fuel p bound) fun s e s' reach fires => ?_
  exact step_fuel (reachable_inv sound reach) pos bounded fires

end Termination

end ReplayRings
