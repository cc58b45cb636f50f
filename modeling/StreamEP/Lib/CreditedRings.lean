import StreamEP.Lib.RingProgress
import StreamEP.Lib.TwoLevelRings

/-!
# Two levels of rings with returned credit

The rings of `TwoLevelRings`, with what their coordinators and groups do in detail.

* The head of a ring of the second level is credit.  It is returned in amounts of at least
  `threshold`, and what has been returned arrives some time later.
* A coordinator takes the minimum over the readers that have not retired, so it passes
  nothing on when there is none.
* The readers of a group of the first level finish their packets together: none of them
  retires before all are done.

**What may go wrong.**  Everybody may wait: a writer of the first level for a head that a
reader holds back, who waits for the rest of its group, who wait for the writer.  `Roomy`
says that heads are never held back too far, and then some step is enabled until everything
has been combined (`exists_step`).  `tail_le_of_tight` is the converse for one ring.

**A refinement.**  Every event is one of the two levels or of the coordinator that returns
credit, and a step of a level is a step of its rings, so their invariants hold here too.  What
is new in the invariant is the link between a group and the ring that it fills (`Group`): the
chunk that has been claimed there, what of it has been written, and that the numbers of a chunk
are combined before the next chunk is claimed.  `Group.step` has it for a step of the first
level, for any ring.

**Progress.**  Take the earliest number that some reader of the second level waits for.  The
ring that lacks its packet has a chunk to claim, a packet to write or a tail to publish
(`exists_step_ring`); if a packet is to be written, its group has a number left, and the
earliest reader of the group can read, or a writer of the first level can go on, unless it has
no room (`exists_step_group`).  There `Roomy` says that a head can be published that leaves room
(`fits_head`).

**Runs end.**  Heads that do not fall are bounded by their last values (`Rises.bounded`), and then
every step uses up some fuel (`step_fuel`).
-/

namespace CreditedRings

open ReplayRings Finset Function

variable {J ι κ μ V : Type*}

structure State (J ι κ μ V : Type*) where
  rings : TwoLevelRings.State J ι κ μ V
  /-- Credit that has been returned for the rings of the second level. -/
  returned : J → ℕ

inductive Event (J ι κ μ : Type*) where
  /-- A step of the rings; the head of a ring of the second level moves when credit arrives. -/
  | ring (e : TwoLevelRings.Event J ι κ μ)
  /-- The coordinator of the second level returns credit up to position `h`. -/
  | credit (j : J) (h : ℕ)

/-- Nothing sent and no credit returned. -/
def start (firstSlots : J → ι → ℕ → V) (secondSlots : J → ℕ → V) : State J ι κ μ V where
  rings := TwoLevelRings.start firstSlots secondSlots
  returned _ := 0

section Step

variable (p : J → Plan ι κ) (q : Plan J μ) (threshold : ℕ)

/-- What the coordinators and the groups add to the guards. -/
def State.Allows (s : State J ι κ μ V) : TwoLevelRings.Event J ι κ μ → Prop
  | .first j (.publishHead _ _) => ∃ w, (s.rings.first j).retired w = false
  | .first j (.retire _) => ∀ w, (s.rings.first j).done w = (p j).count w
  | .second (.publishHead j h) => h ≤ s.returned j
  | _ => True

instance [Fintype κ] (s : State J ι κ μ V) :
    (e : TwoLevelRings.Event J ι κ μ) → Decidable (s.Allows p e)
  | .first _ (.publishHead _ _) => Fintype.decidableExistsFintype
  | .first _ (.retire _) => Fintype.decidableForallFintype
  | .second (.publishHead _ _) => Nat.decLe _ _
  | .first _ (.claim _) | .first _ (.write _ _) | .first _ (.publish _)
  | .first _ (.readTail _) | .first _ (.arrive _) | .first _ (.read _ _)
  | .first _ (.finish _) | .second (.claim _) | .second (.write _ _) | .second (.publish _)
  | .second (.readTail _) | .second (.arrive _) | .second (.read _ _) | .second (.finish _)
  | .second (.retire _) => .isTrue trivial

variable [DecidableEq J] [DecidableEq ι] [DecidableEq κ] [DecidableEq μ] [Fintype J] [Fintype ι]
  [Fintype κ] [Fintype μ] [AddCommMonoid V] (payload : J → ι → ℕ → V)

/-- One step of the rings or of the coordinator that returns credit. -/
def step (s : State J ι κ μ V) : Event J ι κ μ → Option (State J ι κ μ V)
  | .ring e =>
      if s.Allows p e then
        (TwoLevelRings.step p q payload s.rings e).map fun next => { s with rings := next }
      else none
  | .credit j h =>
      if s.returned j + threshold ≤ h ∧ (∃ v, s.rings.second.retired v = false) ∧
          ∀ v, s.rings.second.retired v = false → h ≤ s.rings.second.head v j then
        some { s with returned := update s.returned j h }
      else none

/-- The rings and their coordinators at work. -/
def system (firstSlots : J → ι → ℕ → V) (secondSlots : J → ℕ → V) :
    TransitionSystem (State J ι κ μ V) (Event J ι κ μ) where
  init := start firstSlots secondSlots
  step := step p q threshold payload

end Step

section Steps

variable [DecidableEq J] [DecidableEq ι] [DecidableEq κ] [DecidableEq μ] [Fintype J] [Fintype ι]
  [Fintype κ] [Fintype μ] [AddCommMonoid V] {p : J → Plan ι κ} {q : Plan J μ} {threshold : ℕ}
  {payload : J → ι → ℕ → V} {s s' : State J ι κ μ V}

/-- A step of the second level is one of its rings. -/
theorem second_of_step {e : ReplayRings.Event J μ}
    (fires : step p q threshold payload s (.ring (.second e)) = some s') :
    ReplayRings.step q (fun j t => ((s.rings.first j).out t).getD 0) s.rings.second e =
      some s'.rings.second := by
  obtain ⟨-, fires⟩ := Option.ite_none_right_eq_some.1 fires
  obtain ⟨next, moves, rfl⟩ := Option.map_eq_some_iff.1 fires
  obtain ⟨-, moves⟩ := Option.ite_none_right_eq_some.1 moves
  obtain ⟨next, inner, rfl⟩ := Option.map_eq_some_iff.1 moves
  exact inner

/-- Other steps leave it as it is. -/
theorem second_eq_of_step {e : Event J ι κ μ} (other : ∀ e', e ≠ .ring (.second e'))
    (fires : step p q threshold payload s e = some s') : s'.rings.second = s.rings.second := by
  cases e with
  | credit j h =>
    simp only [step, Option.ite_none_right_eq_some, Option.some.injEq] at fires
    obtain ⟨-, rfl⟩ := fires
    rfl
  | ring e =>
    cases e with
    | second e => exact absurd rfl (other e)
    | first j e =>
      obtain ⟨-, fires⟩ := Option.ite_none_right_eq_some.1 fires
      obtain ⟨next, moves, rfl⟩ := Option.map_eq_some_iff.1 fires
      obtain ⟨-, moves⟩ := Option.ite_none_right_eq_some.1 moves
      obtain ⟨next, -, rfl⟩ := Option.map_eq_some_iff.1 moves
      rfl

end Steps

/-! ### What holds in every reachable state -/

/-- A plan whose heads do not fall. -/
def Rises (p : Plan ι κ) : Prop :=
  ∀ i w, ∀ m < p.count w, p.headAfter w i m ≤ p.headDuring w i m ∧
    p.headDuring w i m ≤ p.headAfter w i (m + 1)

/-- Then they are bounded by the last ones. -/
theorem Rises.bounded [Fintype κ] {p : Plan ι κ} (rises : Rises p) :
    p.Bounded fun i => ∑ w, p.headAfter w i (p.count w) := by
  have upTo : ∀ w i, ∀ m ≤ p.count w, p.headAfter w i m ≤ p.headAfter w i (p.count w) := by
    intro w i m hm
    induction hm using Nat.decreasingInduction with
    | self => exact le_rfl
    | of_succ m hm ih => exact (rises i w m hm).1.trans ((rises i w m hm).2.trans ih)
  have last : ∀ w i, p.headAfter w i (p.count w) ≤ ∑ w, p.headAfter w i (p.count w) :=
    fun w i => single_le_sum (f := fun w => p.headAfter w i (p.count w))
      (fun _ _ => Nat.zero_le _) (mem_univ w)
  refine ⟨fun w i m hm => (upTo w i m hm).trans (last w i), fun w i m hm => ?_⟩
  exact ((rises i w m hm).2.trans (upTo w i _ hm)).trans (last w i)

/-- The plans of both levels are sound, heads rise, and a group's readers share its numbers
out. -/
structure Sound (p : J → Plan ι κ) (q : Plan J μ) : Prop where
  first : ∀ j, (p j).Sound
  second : q.Sound
  firstRises : ∀ j, Rises (p j)
  secondRises : Rises q
  apart : ∀ j w v, ∀ m < (p j).count w, ∀ k < (p j).count v,
    (p j).token w m = (p j).token v k → w = v ∧ m = k

/-- A group and the ring that it fills: `sent` is the end of the chunk that has been claimed
there, and `chunk` what of it has not been written. -/
structure Group (p : Plan ι κ) (a : ReplayRings.State ι κ V) (sent : ℕ) (chunk : Finset ℕ) :
    Prop where
  below : ∀ t ∈ chunk, t < sent
  together : ∀ w, a.retired w = true → ∀ v, a.done v = p.count v
  within : ∀ w, ∀ m < a.done w, p.token w m < sent
  taken : ∀ w, a.reading w = true → p.current a w ∈ chunk
  fresh : ∀ w, ∀ m < p.count w, a.done w ≤ m → a.out (p.token w m) = none
  staged : ∀ t < sent, t ∉ chunk → (a.out t).isSome

namespace Group

variable {p : Plan ι κ} {a a' : ReplayRings.State ι κ V} {sent : ℕ} {chunk : Finset ℕ}

theorem init (slots : ι → ℕ → V) : Group p (ReplayRings.start slots) 0 ∅ where
  below _ none := absurd none (notMem_empty _)
  together _ retired := Bool.noConfusion retired
  within _ _ none := absurd none (Nat.not_lt_zero _)
  taken _ reading := Bool.noConfusion reading
  fresh _ _ _ _ := rfl
  staged _ none := absurd none (Nat.not_lt_zero _)

/-- The next chunk is claimed when the last one has been written. -/
theorem claim (group : Group p a sent ∅) {size : ℕ} :
    Group p a (sent + size) (Ico sent (sent + size)) where
  below _ mem := (mem_Ico.1 mem).2
  together := group.together
  within w m done := (group.within w m done).trans_le (Nat.le_add_right _ _)
  taken w reading := absurd (group.taken w reading) (notMem_empty _)
  fresh := group.fresh
  staged t ht absent := by
    refine group.staged t ?_ (notMem_empty t)
    by_contra new
    exact absent (mem_Ico.2 ⟨not_lt.1 new, ht⟩)

/-- What has been combined is written. -/
theorem write (group : Group p a sent chunk) {t : ℕ} (out : (a.out t).isSome)
    (more : ∀ w, a.reading w = true → a.done w < p.count w) :
    Group p a sent (chunk.erase t) where
  below t' mem := group.below t' (mem_of_mem_erase mem)
  together := group.together
  within := group.within
  taken w reading := by
    refine mem_erase.2 ⟨fun same => ?_, group.taken w reading⟩
    have none := group.fresh w _ (more w reading) le_rfl
    rw [← Plan.current, same] at none
    rw [none] at out
    exact Bool.noConfusion out
  fresh := group.fresh
  staged t' ht' absent := by
    rcases eq_or_ne t' t with rfl | other
    · exact out
    · exact group.staged t' ht' fun mem => absent (mem_erase.2 ⟨other, mem⟩)

section Step

variable [DecidableEq ι] [DecidableEq κ] [Fintype ι] [Fintype κ] [AddCommMonoid V]
  {payload : ι → ℕ → V} {e : ReplayRings.Event ι κ}

/-- **Every step of the first level keeps a group together** with its ring. -/
theorem step (group : Group p a sent chunk) (readers : Readers p payload a)
    (apart : ∀ w v, ∀ m < p.count w, ∀ k < p.count v,
      p.token w m = p.token v k → w = v ∧ m = k)
    (inChunk : ∀ w, e = .arrive w → p.current a w ∈ chunk)
    (allDone : ∀ w, e = .retire w → ∀ v, a.done v = p.count v)
    (fires : ReplayRings.step p payload a e = some a') : Group p a' sent chunk := by
  rcases readers_of_step fires with ⟨done, reading, out⟩ | ⟨w, rfl, -, -, rfl⟩ | ⟨w, rfl, busy, rfl⟩
  -- no number is taken or finished
  · refine ⟨group.below, fun w retired => ?_, ?_, ?_, ?_, ?_⟩
    · rw [done]
      by_cases before : a.retired w = true
      · exact group.together w before
      · obtain ⟨v, rfl⟩ := retire_of_step fires (by simpa using before) retired
        exact allDone _ rfl
    · rw [done]
      exact group.within
    · rw [reading]
      unfold Plan.current
      rw [done]
      exact group.taken
    · rw [done, out]
      exact group.fresh
    · rw [out]
      exact group.staged
  · refine ⟨group.below, group.together, group.within, fun v reading => ?_, group.fresh,
      group.staged⟩
    rcases eq_or_ne v w with rfl | other
    · exact inChunk v rfl
    · simp only [ReplayRings.State.arrive, update_of_ne other] at reading
      exact group.taken v reading
  · have more := readers.arrived w busy
    refine ⟨group.below, fun v retired => ?_, fun v m done => ?_, fun v reading => ?_,
      fun v m hm later => ?_, fun t ht absent => ?_⟩
    · exact absurd (group.together v retired w) more.ne
    · rcases eq_or_ne v w with rfl | other
      · simp only [ReplayRings.State.finish, update_self] at done
        rcases Nat.lt_succ_iff_lt_or_eq.1 done with before | rfl
        · exact group.within v m before
        · exact group.below _ (group.taken v busy)
      · simp only [ReplayRings.State.finish, update_of_ne other] at done
        exact group.within v m done
    · rcases eq_or_ne v w with rfl | other
      · simp only [ReplayRings.State.finish, update_self, Bool.false_eq_true] at reading
      · simp only [ReplayRings.State.finish, update_of_ne other, Plan.current] at reading ⊢
        exact group.taken v reading
    -- no other position of a plan has the number that is being finished
    · have old : a.done v ≤ m ∧ p.token v m ≠ p.current a w := by
        rcases eq_or_ne v w with rfl | other
        · simp only [ReplayRings.State.finish, update_self] at later
          exact ⟨(Nat.le_succ _).trans later, fun same =>
            (Nat.lt_of_succ_le later).ne' (apart v v m hm _ more same).2⟩
        · simp only [ReplayRings.State.finish, update_of_ne other] at later
          exact ⟨later, fun same => other (apart v w m hm _ more same).1⟩
      simp only [ReplayRings.State.finish, update_of_ne old.2]
      exact group.fresh v m hm old.1
    · simp only [ReplayRings.State.finish]
      rcases eq_or_ne t (p.current a w) with rfl | other
      · rw [update_self]
        rfl
      · rw [update_of_ne other]
        exact group.staged t ht absent

end Step

end Group

section Invariant

variable [Fintype J] [Fintype ι] [AddCommMonoid V] {p : J → Plan ι κ} {q : Plan J μ}
  {threshold : ℕ} {payload : J → ι → ℕ → V} {s s' : State J ι κ μ V}

/-- The invariant of the two levels, of every group and ring between them, and of the heads
and the credit. -/
structure Inv (p : J → Plan ι κ) (q : Plan J μ) (payload : J → ι → ℕ → V)
    (s : State J ι κ μ V) : Prop where
  rings : TwoLevelRings.Inv p q payload s.rings
  firstChunks : ∀ j, Chunked (p j) (s.rings.first j)
  secondChunks : Chunked q s.rings.second
  group : ∀ j, Group (p j) (s.rings.first j)
    (s.rings.second.tail j + s.rings.second.claimed j) (s.rings.second.unwritten j)
  firstHead : ∀ j i w, (s.rings.first j).retired w = false →
    (s.rings.first j).publishedHead i ≤ (s.rings.first j).head w i
  arrived : ∀ j, s.rings.second.publishedHead j ≤ s.returned j
  returned : ∀ j v, s.rings.second.retired v = false →
    s.returned j ≤ s.rings.second.head v j
  shown : ∀ j, s.returned j = 0 ∨ ∃ v, s.returned j ≤ s.rings.second.head v j

theorem inv_start (firstSlots : J → ι → ℕ → V) (secondSlots : J → ℕ → V) :
    Inv p q payload (start firstSlots secondSlots : State J ι κ μ V) where
  rings := ⟨fun j => ReplayRings.inv_start (firstSlots j), ReplayRings.inv_start secondSlots⟩
  firstChunks j := chunked_start (firstSlots j)
  secondChunks := chunked_start secondSlots
  group j := .init (firstSlots j)
  firstHead _ _ _ _ := Nat.zero_le _
  arrived _ := le_rfl
  returned _ _ _ := Nat.zero_le _
  shown _ := Or.inl rfl

variable [DecidableEq J] [DecidableEq ι] [DecidableEq κ] [DecidableEq μ] [Fintype κ] [Fintype μ]

omit [DecidableEq μ] [Fintype μ] in
/-- A step of the first level. -/
theorem Inv.first (inv : Inv p q payload s) (sound : Sound p q) {j : J}
    {e : ReplayRings.Event ι κ} {next : ReplayRings.State ι κ V}
    (allowed : s.Allows p (.first j e)) (between : s.rings.Allows p (.first j e))
    (fires : ReplayRings.step (p j) (payload j) (s.rings.first j) e = some next)
    (rings : TwoLevelRings.Inv p q payload { s.rings with first := update s.rings.first j next }) :
    Inv p q payload
      { s with rings := { s.rings with first := update s.rings.first j next } } := by
  have readers := (inv.rings.first j).readers
  constructor
  case rings => exact rings
  case firstChunks =>
    intro j'
    rcases eq_or_ne j' j with rfl | other
    · simp only [update_self]
      exact (inv.firstChunks j').step (inv.rings.first j').rings fires
    · simp only [update_of_ne other]
      exact inv.firstChunks j'
  case secondChunks => exact inv.secondChunks
  case group =>
    intro j'
    rcases eq_or_ne j' j with rfl | other
    · simp only [update_self]
      refine (inv.group j').step readers (sound.apart j') (fun w arrives => ?_)
        (fun w retires => ?_) fires
      · subst arrives
        exact between
      · subst retires
        exact allowed
    · simp only [update_of_ne other]
      exact inv.group j'
  case firstHead =>
    intro j' i w active
    rcases eq_or_ne j' j with rfl | other
    · simp only [update_self] at active ⊢
      exact published_le_head_of_step readers (sound.firstRises j' i) (inv.firstHead j' i) fires
        active
    · simp only [update_of_ne other] at active ⊢
      exact inv.firstHead j' i w active
  case arrived => exact inv.arrived
  case returned => exact inv.returned
  case shown => exact inv.shown

omit [DecidableEq ι] [DecidableEq κ] [Fintype κ] in
/-- What a step of the second level does to the chunk of a group. -/
theorem Inv.group_second (inv : Inv p q payload s) {packet : J → ℕ → V}
    {e : ReplayRings.Event J μ} {next : ReplayRings.State J μ V}
    (between : s.rings.Allows p (.second e))
    (moves : ReplayRings.step q packet s.rings.second e = some next) (j : J) :
    Group (p j) (s.rings.first j) (next.tail j + next.claimed j) (next.unwritten j) := by
  have group := inv.group j
  rcases writers_of_step moves with ⟨tail, claimed, unwritten⟩ | ⟨i, rfl, idle, -, -, rfl⟩ |
    ⟨i, t, rfl, -, rfl⟩ | ⟨i, rfl, -, rfl⟩
  · rw [tail, claimed, unwritten]
    exact group
  · rcases eq_or_ne j i with rfl | other
    · have none : s.rings.second.unwritten j = ∅ := by
        refine eq_empty_of_forall_notMem fun t mem => ?_
        have inside := inv.rings.second.rings.unwritten j t mem
        omega
      rw [none, idle, Nat.add_zero] at group
      simp only [ReplayRings.State.claim, update_self]
      exact group.claim
    · simp only [ReplayRings.State.claim, update_of_ne other]
      exact group
  · rcases eq_or_ne j i with rfl | other
    · simp only [ReplayRings.State.write, update_self]
      exact group.write between (inv.rings.first j).readers.arrived
    · simp only [ReplayRings.State.write, update_of_ne other]
      exact group
  · rcases eq_or_ne j i with rfl | other
    · simp only [ReplayRings.State.publish, update_self, Nat.add_zero]
      exact group
    · simp only [ReplayRings.State.publish, update_of_ne other]
      exact group

omit [DecidableEq ι] [DecidableEq κ] [Fintype κ] in
/-- A step of the second level. -/
theorem Inv.second (inv : Inv p q payload s) (sound : Sound p q) {e : ReplayRings.Event J μ}
    {next : ReplayRings.State J μ V} (allowed : s.Allows p (.second e))
    (between : s.rings.Allows p (.second e))
    (moves : ReplayRings.step q (fun j => combined (p j) (payload j)) s.rings.second e =
      some next)
    (rings : TwoLevelRings.Inv p q payload { s.rings with second := next }) :
    Inv p q payload { s with rings := { s.rings with second := next } } := by
  have rises := fun j => head_le_of_step inv.rings.second.readers (sound.secondRises j) moves
  constructor
  case rings => exact rings
  case firstChunks => exact inv.firstChunks
  case secondChunks => exact inv.secondChunks.step inv.rings.second.rings moves
  case group => exact inv.group_second between moves
  case firstHead => exact inv.firstHead
  case arrived =>
    intro j
    rcases publishedHead_of_step moves j with same | ⟨rfl, -⟩
    · exact same.trans_le (inv.arrived j)
    · exact allowed
  case returned =>
    intro j v active
    exact (inv.returned j v (active_of_step moves active)).trans (rises j v)
  case shown =>
    exact fun j => (inv.shown j).imp_right fun ⟨v, below⟩ => ⟨v, below.trans (rises j v)⟩

/-- **Every step keeps the invariant.** -/
theorem step_inv (sound : Sound p q) {e : Event J ι κ μ} (inv : Inv p q payload s)
    (fires : step p q threshold payload s e = some s') : Inv p q payload s' := by
  cases e with
  | ring e =>
    obtain ⟨allowed, fires⟩ := Option.ite_none_right_eq_some.1 fires
    obtain ⟨next, moves, rfl⟩ := Option.map_eq_some_iff.1 fires
    have rings := TwoLevelRings.step_inv sound.first sound.second inv.rings moves
    cases e with
    | first j e =>
      obtain ⟨between, moves⟩ := Option.ite_none_right_eq_some.1 moves
      obtain ⟨next, inner, rfl⟩ := Option.map_eq_some_iff.1 moves
      exact inv.first sound allowed between inner rings
    | second e =>
      obtain ⟨between, moves⟩ := Option.ite_none_right_eq_some.1 moves
      obtain ⟨next, inner, rfl⟩ := Option.map_eq_some_iff.1 moves
      exact inv.second sound allowed between (inv.rings.second_moves between inner) rings
  | credit j h =>
    simp only [step, Option.ite_none_right_eq_some, Option.some.injEq] at fires
    obtain ⟨⟨up, ⟨v, active⟩, lower⟩, rfl⟩ := fires
    refine ⟨inv.rings, inv.firstChunks, inv.secondChunks, inv.group, inv.firstHead,
      fun j' => ?_, fun j' v' active' => ?_, fun j' => ?_⟩
    · rcases eq_or_ne j' j with rfl | other
      · simp only [update_self]
        exact (inv.arrived j').trans ((Nat.le_add_right _ _).trans up)
      · simp only [update_of_ne other]
        exact inv.arrived j'
    · rcases eq_or_ne j' j with rfl | other
      · simp only [update_self]
        exact lower v' active'
      · simp only [update_of_ne other]
        exact inv.returned j' v' active'
    · rcases eq_or_ne j' j with rfl | other
      · simp only [update_self]
        exact Or.inr ⟨v, lower v active⟩
      · simp only [update_of_ne other]
        exact inv.shown j'

theorem reachable_inv (sound : Sound p q) {firstSlots : J → ι → ℕ → V}
    {secondSlots : J → ℕ → V}
    (reach : (system p q threshold payload firstSlots secondSlots).Reachable s) :
    Inv p q payload s := by
  have begins : Inv p q payload (start firstSlots secondSlots : State J ι κ μ V) :=
    inv_start firstSlots secondSlots
  have kept : ∀ (s : State J ι κ μ V) e s', Inv p q payload s →
      (system p q threshold payload firstSlots secondSlots).step s e = some s' →
        Inv p q payload s' := fun _ _ _ inv fires => step_inv sound inv fires
  exact reach.invariant begins kept

end Invariant

/-- When everything has been sent on, the groups are through. -/
theorem Inv.completed_first [Fintype J] [Fintype ι] [AddCommMonoid V] {p : J → Plan ι κ}
    {q : Plan J μ} {payload : J → ι → ℕ → V} {s : State J ι κ μ V} (inv : Inv p q payload s)
    {j : J} (sent : s.rings.second.tail j = q.total j)
    (inside : ∀ w, ∀ m < (p j).count w, (p j).token w m < q.total j) :
    (s.rings.first j).Completed (p j) := by
  intro w
  by_contra more
  have undone : (s.rings.first j).done w < (p j).count w :=
    lt_of_le_of_ne ((inv.rings.first j).readers.done_le w) more
  have group := inv.group j
  have bounded := inv.rings.second.rings.bounded j
  have token := inside w _ undone
  have written : (p j).token w ((s.rings.first j).done w) ∉ s.rings.second.unwritten j := by
    intro mem
    have place := inv.rings.second.rings.unwritten j _ mem
    omega
  have out := group.staged _ (by omega) written
  rw [group.fresh w _ undone le_rfl] at out
  exact Bool.noConfusion out

/-! ### Progress -/

/-- A ring of the first level has room for its next chunk when its head is published. -/
def Fits (p : Plan ι κ) (i : ι) (tail head : ℕ) : Prop :=
  tail + p.required (min p.chunk (p.total i - tail)) ≤ head + p.ringSize

/-- **Heads are not held back too far.**  On the first level, consider the earliest number of a
group that has not been combined and a chunk of packets that begins no later.  There must be
room for that chunk whatever a reader of the group shows: one that works on a later number
(`during`), or one that is through with the numbers up to the end of the chunk which the
group fills (`after`).  On the second level a reader shows no less than what the earliest one
waits for (`second`), and a ring has room for a chunk beside the credit that is kept back. -/
structure Roomy (p : J → Plan ι κ) (q : Plan J μ) (threshold : ℕ) : Prop where
  covers : ∀ j, ∀ t < q.total j, ∃ w, ∃ m < (p j).count w, (p j).token w m = t
  sorted : ∀ j w, ∀ m < (p j).count w, ∀ k ≤ m, (p j).token w k ≤ (p j).token w m
  during : ∀ j w, ∀ m < (p j).count w, ∀ i tail, (p j).chunk ∣ tail →
    (tail : ℤ) ≤ (p j).expected ((p j).token w m) i → ∀ v, ∀ k < (p j).count v,
      (p j).token w m ≤ (p j).token v k → Fits (p j) i tail ((p j).headDuring v i k)
  after : ∀ j first, q.chunk ∣ first → ∀ w, ∀ m < (p j).count w, first ≤ (p j).token w m →
    (p j).token w m < min (first + q.chunk) (q.total j) → ∀ i tail, (p j).chunk ∣ tail →
      (tail : ℤ) ≤ (p j).expected ((p j).token w m) i → ∀ v, ∀ k ≤ (p j).count v,
        (∀ k' < k, (p j).token v k' < min (first + q.chunk) (q.total j)) →
        (k < (p j).count v → min (first + q.chunk) (q.total j) ≤ (p j).token v k) →
          Fits (p j) i tail ((p j).headAfter v i k)
  second : ∀ w, ∀ m < q.count w, ∀ v, ∀ k < q.count v, q.token w m ≤ q.token v k →
    ∀ j, q.expected (q.token w m) j ≤ q.headDuring v j k
  credit : ∀ j, ∀ tail < q.total j,
    q.required (min q.chunk (q.total j - tail)) + threshold ≤ q.ringSize + 1

section Progress

variable [DecidableEq J] [DecidableEq ι] [DecidableEq κ] [DecidableEq μ] [Fintype J] [Fintype ι]
  [Fintype κ] [Fintype μ] [AddCommMonoid V] {p : J → Plan ι κ} {q : Plan J μ} {threshold : ℕ}
  {payload : J → ι → ℕ → V} {s s' : State J ι κ μ V}

theorem enabled_first {j : J} {e : ReplayRings.Event ι κ} {next : ReplayRings.State ι κ V}
    (allowed : s.Allows p (.first j e)) (between : s.rings.Allows p (.first j e))
    (fires : ReplayRings.step (p j) (payload j) (s.rings.first j) e = some next) :
    ∃ e s', step p q threshold payload s e = some s' := by
  refine ⟨.ring (.first j e),
    { s with rings := { s.rings with first := update s.rings.first j next } }, ?_⟩
  rw [step, if_pos allowed, TwoLevelRings.step, if_pos between, fires]
  rfl

theorem enabled_second {e : ReplayRings.Event J μ} {next : ReplayRings.State J μ V}
    (allowed : s.Allows p (.second e)) (between : s.rings.Allows p (.second e))
    (fires : ReplayRings.step q (fun j t => ((s.rings.first j).out t).getD 0) s.rings.second e =
      some next) : ∃ e s', step p q threshold payload s e = some s' := by
  refine ⟨.ring (.second e), { s with rings := { s.rings with second := next } }, ?_⟩
  rw [step, if_pos allowed, TwoLevelRings.step, if_pos between, fires]
  rfl

/-- What a reader of the group shows leaves room, or there is something to do. -/
theorem fits_head (inv : Inv p q payload s) (roomy : Roomy p q threshold) {j : J} {w : κ} {i : ι}
    (more : (s.rings.first j).done w < (p j).count w)
    (least : ∀ v, (s.rings.first j).done v < (p j).count v →
      (p j).current (s.rings.first j) w ≤ (p j).current (s.rings.first j) v)
    (inChunk : (p j).current (s.rings.first j) w ∈ s.rings.second.unwritten j)
    (multiple : (p j).chunk ∣ (s.rings.first j).tail i)
    (waiting : ((s.rings.first j).tail i : ℤ) ≤
      (p j).expected ((p j).current (s.rings.first j) w) i) (v : κ) :
    (∃ e s', step p q threshold payload s e = some s') ∨
      Fits (p j) i ((s.rings.first j).tail i) ((s.rings.first j).head v i) := by
  have group := inv.group j
  have readers := (inv.rings.first j).readers
  have head := readers.head v i
  -- the chunk that the group fills
  have rings := inv.rings.second.rings
  have inside := rings.unwritten j _ inChunk
  have bounded := rings.bounded j
  have left : s.rings.second.tail j < q.total j := by omega
  have claimed := (inv.secondChunks.claimed j).resolve_left (by omega)
  have stop : s.rings.second.tail j + s.rings.second.claimed j =
      min (s.rings.second.tail j + q.chunk) (q.total j) := by
    rw [claimed, Plan.round]
    omega
  have outside : (p j).current (s.rings.first j) v ∉ s.rings.second.unwritten j →
      (s.rings.first j).done v < (p j).count v →
        min (s.rings.second.tail j + q.chunk) (q.total j) ≤
          (p j).current (s.rings.first j) v := by
    intro absent later
    by_contra early
    rw [← stop] at early
    have out := group.staged _ (not_le.1 early) absent
    rw [Plan.current, group.fresh v _ later le_rfl] at out
    exact Bool.noConfusion out
  have through : (s.rings.first j).reading v = false →
      ((s.rings.first j).done v < (p j).count v →
        min (s.rings.second.tail j + q.chunk) (q.total j) ≤
          (p j).current (s.rings.first j) v) →
      Fits (p j) i ((s.rings.first j).tail i) ((s.rings.first j).head v i) := by
    intro idle beyond
    rw [idle] at head
    rw [head]
    refine roomy.after j _ (inv.secondChunks.dvd_tail left) w _ more inside.1
      (inside.2.trans_eq stop) i _ multiple waiting v _ (readers.done_le v) (fun k' done => ?_)
      beyond
    exact (group.within v k' done).trans_eq stop
  cases reading : (s.rings.first j).reading v with
  | true =>
    right
    have later := readers.arrived v reading
    rw [reading] at head
    rw [head]
    exact roomy.during j w _ more i _ multiple waiting v _ later (least v later)
  | false =>
    by_cases later : (s.rings.first j).done v < (p j).count v
    · by_cases there : (p j).current (s.rings.first j) v ∈ s.rings.second.unwritten j
      · exact Or.inl (enabled_first (e := .arrive v) trivial there (if_pos ⟨reading, later⟩))
      · exact Or.inr (through reading (outside there))
    · exact Or.inr (through reading fun later' => absurd later' later)

/-- A group with a number left in its chunk that has not been combined can go on. -/
theorem exists_step_group (inv : Inv p q payload s) (sound : Sound p q)
    (roomy : Roomy p q threshold) {j : J} {t : ℕ} (pending : t ∈ s.rings.second.unwritten j)
    (missing : (s.rings.first j).out t = none) :
    ∃ e s', step p q threshold payload s e = some s' := by
  have group := inv.group j
  have rings := (inv.rings.first j).rings
  have readers := (inv.rings.first j).readers
  have below := group.below t pending
  have bounded := inv.rings.second.rings.bounded j
  -- the reader of the number is not through with it
  obtain ⟨v, m, hm, token⟩ := roomy.covers j t (below.trans_le bounded)
  have undone : (s.rings.first j).done v ≤ m := by
    by_contra past
    have out := (readers.finished v m (not_le.1 past)).1
    rw [token, missing] at out
    cases out
  have busy : ¬(s.rings.first j).Completed (p j) := fun completed =>
    absurd ((completed v).symm.trans_le undone) (not_le.2 hm)
  obtain ⟨w, more, least⟩ := exists_earliest readers busy
  have earliest : (p j).current (s.rings.first j) w ≤ t :=
    calc (p j).current (s.rings.first j) w ≤ (p j).current (s.rings.first j) v :=
          least v (undone.trans_lt hm)
      _ ≤ (p j).token v m := roomy.sorted j v m hm _ undone
      _ = t := token
  have inChunk : (p j).current (s.rings.first j) w ∈ s.rings.second.unwritten j := by
    by_contra absent
    have out := group.staged _ (earliest.trans_lt below) absent
    rw [Plan.current, group.fresh w _ more le_rfl] at out
    exact Bool.noConfusion out
  cases reading : (s.rings.first j).reading w with
  | false => exact enabled_first (e := .arrive w) trivial inChunk (if_pos ⟨reading, more⟩)
  | true =>
  rcases reading_cases (p := p j) (payload j) reading with ⟨_, finishes⟩ |
    ⟨i, _, reads⟩ | ⟨i, absent⟩
  · exact enabled_first (e := .finish w) trivial trivial finishes
  · exact enabled_first (e := .read w i) trivial trivial reads
  by_cases stale : (s.rings.first j).cachedTail i ≠ (s.rings.first j).tail i
  · exact enabled_first (e := .readTail i) trivial trivial (if_pos stale)
  rw [not_not.1 stale] at absent
  by_cases claimed : 0 < (s.rings.first j).claimed i
  · rcases claimed_cases (p := p j) (payload j) claimed with ⟨_, publishes⟩ |
      ⟨r, -, _, writes⟩
    · exact enabled_first (e := .publish i) trivial trivial publishes
    · exact enabled_first (e := .write i r) trivial trivial writes
  have last := (sound.first j).expected_lt w _ more i
  rw [← Plan.current] at last
  have left : (s.rings.first j).tail i < (p j).total i := by omega
  by_cases room : Fits (p j) i ((s.rings.first j).tail i) ((s.rings.first j).publishedHead i)
  · exact enabled_first (e := .claim i) trivial trivial (if_pos ⟨by omega, left, room⟩)
  -- the head can be moved on, unless a reader can
  by_cases fits : ∀ v, Fits (p j) i ((s.rings.first j).tail i) ((s.rings.first j).head v i)
  · have active : (s.rings.first j).retired w = false := by
      by_contra retired
      exact more.ne (readers.retired w (by simpa using retired))
    have above : ∀ v, (s.rings.first j).publishedHead i + 1 ≤ (s.rings.first j).head v i := by
      intro v
      have fit := fits v
      unfold Fits at fit room
      omega
    exact enabled_first (e := .publishHead i ((s.rings.first j).publishedHead i + 1))
      ⟨w, active⟩ trivial (if_pos ⟨Nat.lt_succ_self _, ⟨w, above w⟩, fun v _ => above v⟩)
  · obtain ⟨v, tight⟩ := not_forall.1 fits
    exact (fits_head inv roomy more least inChunk ((inv.firstChunks j).dvd_tail left) absent
      v).resolve_right tight

/-- A ring of the second level that its earliest reader waits for can go on. -/
theorem exists_step_ring (inv : Inv p q payload s) (sound : Sound p q)
    (roomy : Roomy p q threshold) {w : μ} {j : J}
    (more : s.rings.second.done w < q.count w)
    (least : ∀ v, s.rings.second.done v < q.count v →
      q.current s.rings.second w ≤ q.current s.rings.second v)
    (absent : (s.rings.second.tail j : ℤ) ≤ q.expected (q.current s.rings.second w) j) :
    ∃ e s', step p q threshold payload s e = some s' := by
  have readers := inv.rings.second.readers
  have last := sound.second.expected_lt w _ more j
  rw [← Plan.current] at last
  have left : s.rings.second.tail j < q.total j := by omega
  by_cases claimed : 0 < s.rings.second.claimed j
  · -- the chunk is published, or written further, or combined
    rcases (s.rings.second.unwritten j).eq_empty_or_nonempty with all | ⟨t, pending⟩
    · exact enabled_second (e := .publish j) trivial trivial (if_pos ⟨claimed, all⟩)
    · cases out : (s.rings.first j).out t with
      | none => exact exists_step_group inv sound roomy pending out
      | some x =>
        have ready : s.rings.Allows p (.second (.write j t)) := Option.isSome_of_eq_some out
        exact enabled_second (e := .write j t) trivial ready (if_pos pending)
  by_cases room : s.rings.second.tail j + q.required (q.round s.rings.second j) ≤
      s.rings.second.publishedHead j + q.ringSize
  · exact enabled_second (e := .claim j) trivial trivial (if_pos ⟨by omega, left, room⟩)
  have active : s.rings.second.retired w = false := by
    by_contra retired
    exact more.ne (readers.retired w (by simpa using retired))
  rcases (inv.arrived j).lt_or_eq with underway | arrived
  · -- credit is under way
    obtain ⟨v, shown⟩ := (inv.shown j).resolve_left (by omega)
    exact enabled_second (e := .publishHead j (s.returned j)) le_rfl trivial
      (if_pos ⟨underway, ⟨v, shown⟩, inv.returned j⟩)
  by_cases stop : ∃ v, s.rings.second.done v = q.count v ∧ s.rings.second.retired v = false
  · obtain ⟨v, hv⟩ := stop
    exact enabled_second (e := .retire v) trivial trivial (if_pos hv)
  by_cases idle : ∃ v, s.rings.second.reading v = false ∧ s.rings.second.done v < q.count v
  · obtain ⟨v, hv⟩ := idle
    exact enabled_second (e := .arrive v) trivial trivial (if_pos hv)
  -- all readers show at least what the earliest one waits for
  have above : ∀ v, s.rings.second.retired v = false →
      s.rings.second.tail j ≤ s.rings.second.head v j := by
    intro v running
    have le := readers.done_le v
    have later : s.rings.second.done v < q.count v :=
      lt_of_le_of_ne le fun all => stop ⟨v, all, running⟩
    have reading : s.rings.second.reading v = true := by
      by_contra waits
      exact idle ⟨v, by simpa using waits, later⟩
    have head := readers.head v j
    rw [reading] at head
    rw [head]
    have shows := roomy.second w _ more v _ later (least v later) j
    exact_mod_cast absent.trans shows
  have credit := roomy.credit j _ left
  rw [← Plan.round] at credit
  have enough : s.returned j + threshold ≤ s.rings.second.tail j := by omega
  exact ⟨.credit j (s.rings.second.tail j), _, if_pos ⟨enough, ⟨w, active⟩, above⟩⟩

/-- **Nobody is stuck** before everything has been combined. -/
theorem exists_step (inv : Inv p q payload s) (sound : Sound p q) (roomy : Roomy p q threshold)
    (busy : ¬s.rings.second.Completed q) :
    ∃ e s', step p q threshold payload s e = some s' := by
  obtain ⟨w, more, least⟩ := exists_earliest inv.rings.second.readers busy
  cases reading : s.rings.second.reading w with
  | false => exact enabled_second (e := .arrive w) trivial trivial (if_pos ⟨reading, more⟩)
  | true =>
  rcases reading_cases (p := q) (fun j t => ((s.rings.first j).out t).getD 0) reading with
    ⟨_, finishes⟩ | ⟨j, _, reads⟩ | ⟨j, absent⟩
  · exact enabled_second (e := .finish w) trivial trivial finishes
  · exact enabled_second (e := .read w j) trivial trivial reads
  by_cases stale : s.rings.second.cachedTail j ≠ s.rings.second.tail j
  · exact enabled_second (e := .readTail j) trivial trivial (if_pos stale)
  rw [not_not.1 stale] at absent
  exact exists_step_ring inv sound roomy more least absent

end Progress

/-! ### Runs end -/

section Termination

variable [Fintype J] [Fintype ι] [Fintype κ] [Fintype μ]

/-- What is left to do. -/
def fuel (p : J → Plan ι κ) (q : Plan J μ) (bound : J → ι → ℕ) (limit : J → ℕ)
    (s : State J ι κ μ V) : ℕ :=
  ∑ j, ReplayRings.fuel (p j) (bound j) (s.rings.first j) +
    ReplayRings.fuel q limit s.rings.second + ∑ j, (limit j - s.returned j)

variable [DecidableEq J] [DecidableEq ι] [DecidableEq κ] [DecidableEq μ] [AddCommMonoid V]
  {p : J → Plan ι κ} {q : Plan J μ} {threshold : ℕ} {payload : J → ι → ℕ → V}
  {s s' : State J ι κ μ V} {bound : J → ι → ℕ} {limit : J → ℕ}

/-- **Every step uses up fuel**, if heads are bounded. -/
theorem step_fuel (inv : Inv p q payload s) (firstPos : ∀ j, 0 < (p j).chunk)
    (secondPos : 0 < q.chunk) (thresholdPos : 0 < threshold)
    (firstBounded : ∀ j, (p j).Bounded (bound j)) (secondBounded : q.Bounded limit)
    {e : Event J ι κ μ} (fires : step p q threshold payload s e = some s') :
    fuel p q bound limit s' < fuel p q bound limit s := by
  cases e with
  | ring e =>
    obtain ⟨-, fires⟩ := Option.ite_none_right_eq_some.1 fires
    obtain ⟨next, moves, rfl⟩ := Option.map_eq_some_iff.1 fires
    cases e with
    | first j e =>
      obtain ⟨-, moves⟩ := Option.ite_none_right_eq_some.1 moves
      obtain ⟨next, inner, rfl⟩ := Option.map_eq_some_iff.1 moves
      have less := ReplayRings.step_fuel (inv.rings.first j) (firstPos j) (firstBounded j) inner
      have sum : ∑ j', ReplayRings.fuel (p j') (bound j') (update s.rings.first j next j') <
          ∑ j', ReplayRings.fuel (p j') (bound j') (s.rings.first j') := by
        refine sum_lt_sum (fun j' _ => ?_) ⟨j, mem_univ j, by rwa [update_self]⟩
        rcases eq_or_ne j' j with rfl | other
        · rw [update_self]
          exact less.le
        · rw [update_of_ne other]
      exact Nat.add_lt_add_right (Nat.add_lt_add_right sum _) _
    | second e =>
      obtain ⟨between, moves⟩ := Option.ite_none_right_eq_some.1 moves
      obtain ⟨next, inner, rfl⟩ := Option.map_eq_some_iff.1 moves
      have less := ReplayRings.step_fuel inv.rings.second secondPos secondBounded
        (inv.rings.second_moves between inner)
      exact Nat.add_lt_add_right (Nat.add_lt_add_left less _) _
  | credit j h =>
    simp only [step, Option.ite_none_right_eq_some, Option.some.injEq] at fires
    obtain ⟨⟨up, ⟨v, active⟩, lower⟩, rfl⟩ := fires
    -- heads are bounded, so credit cannot be returned for ever
    have below := (lower v active).trans (secondBounded.head_le inv.rings.second.readers v j)
    have sum : ∑ j', (limit j' - update s.returned j h j') < ∑ j', (limit j' - s.returned j') := by
      refine sum_lt_sum (fun j' _ => ?_) ⟨j, mem_univ j, by rw [update_self]; omega⟩
      rcases eq_or_ne j' j with rfl | other
      · rw [update_self]
        omega
      · rw [update_of_ne other]
    exact Nat.add_lt_add_left sum _

/-- Every reachable state leads to one in which nothing can happen any more. -/
theorem exists_terminal (sound : Sound p q) (firstPos : ∀ j, 0 < (p j).chunk)
    (secondPos : 0 < q.chunk) (thresholdPos : 0 < threshold)
    (firstBounded : ∀ j, (p j).Bounded (bound j)) (secondBounded : q.Bounded limit)
    {firstSlots : J → ι → ℕ → V} {secondSlots : J → ℕ → V}
    (reach : (system p q threshold payload firstSlots secondSlots).Reachable s) :
    ∃ s', (system p q threshold payload firstSlots secondSlots).Reachable s' ∧
      ∀ e, step p q threshold payload s' e = none := by
  refine reach.exists_terminal (fuel p q bound limit) fun s e s' reach fires => ?_
  exact step_fuel (reachable_inv sound reach) firstPos secondPos thresholdPos firstBounded
    secondBounded fires

end Termination

/-! ### Too little room -/

section Tight

variable [DecidableEq J] [DecidableEq ι] [DecidableEq κ] [DecidableEq μ] [Fintype J] [Fintype ι]
  [Fintype κ] [Fintype μ] [AddCommMonoid V] {p : J → Plan ι κ} {q : Plan J μ} {threshold : ℕ}
  {payload : J → ι → ℕ → V} {s : State J ι κ μ V}

/-- **A writer stops at a chunk that does not fit** beside what some reader of the group shows
to its end, if a number of the group needs the first packet of that chunk: the reader does not
retire before that number is combined. -/
theorem tail_le_of_tight (sound : Sound p q) {j : J} {i : ι} {w v : κ} {m position head : ℕ}
    (hm : m < (p j).count w) (expects : (p j).expected ((p j).token w m) i = position)
    (multiple : (p j).chunk ∣ position)
    (after : ∀ k ≤ (p j).count v, (p j).headAfter v i k ≤ head)
    (during : ∀ k < (p j).count v, (p j).headDuring v i k ≤ head)
    (tight : ¬Fits (p j) i position head) {firstSlots : J → ι → ℕ → V}
    {secondSlots : J → ℕ → V}
    (reach : (system p q threshold payload firstSlots secondSlots).Reachable s) :
    (s.rings.first j).tail i + (s.rings.first j).claimed i ≤ position := by
  induction reach with
  | init => exact Nat.zero_le _
  | @step s s' e before fires ih =>
    have inv := reachable_inv sound before
    cases e with
    | credit =>
      simp only [system, step, Option.ite_none_right_eq_some, Option.some.injEq] at fires
      obtain ⟨-, rfl⟩ := fires
      exact ih
    | ring e =>
      obtain ⟨-, fires⟩ := Option.ite_none_right_eq_some.1 fires
      obtain ⟨next, moves, rfl⟩ := Option.map_eq_some_iff.1 fires
      cases e with
      | second e =>
        obtain ⟨-, moves⟩ := Option.ite_none_right_eq_some.1 moves
        obtain ⟨next, -, rfl⟩ := Option.map_eq_some_iff.1 moves
        exact ih
      | first j' e =>
        obtain ⟨-, moves⟩ := Option.ite_none_right_eq_some.1 moves
        obtain ⟨next, inner, rfl⟩ := Option.map_eq_some_iff.1 moves
        rcases eq_or_ne j j' with rfl | other
        · simp only [update_self]
          rcases writers_of_step inner with ⟨tail, claimed, -⟩ | ⟨i', rfl, idle, left, room, rfl⟩ |
            ⟨i', r, rfl, -, rfl⟩ | ⟨i', rfl, -, rfl⟩
          · rw [tail, claimed]
            exact ih
          · rcases eq_or_ne i i' with rfl | elsewhere
            · simp only [ReplayRings.State.claim, update_self]
              rw [idle, Nat.add_zero] at ih
              rcases ih.eq_or_lt with here | before'
              · -- the chunk at the position: its number keeps the group, so the reader holds on
                have active : (s.rings.first j).retired v = false := by
                  by_contra retired
                  have all := (inv.group j).together v (by simpa using retired) w
                  have sent := ((inv.rings.first j).readers.finished w m (hm.trans_eq all.symm)).2 i
                  rw [expects, here] at sent
                  exact lt_irrefl _ sent
                have published := inv.firstHead j i v active
                have shown : (s.rings.first j).head v i ≤ head := by
                  have readers := (inv.rings.first j).readers
                  rw [readers.head]
                  cases busy : (s.rings.first j).reading v with
                  | true => exact during _ (readers.arrived v busy)
                  | false => exact after _ (readers.done_le v)
                refine absurd ?_ tight
                unfold Fits
                rw [Plan.round, here] at room
                omega
              · -- an earlier chunk ends at the position at the latest
                obtain ⟨a, tail⟩ := (inv.firstChunks j).dvd_tail left
                obtain ⟨b, target⟩ := multiple
                rw [tail, target] at before'
                have next := Nat.mul_le_mul_left (p j).chunk
                  (Nat.succ_le_of_lt (Nat.lt_of_mul_lt_mul_left before'))
                have round : (p j).round (s.rings.first j) i ≤ (p j).chunk := min_le_left _ _
                rw [Nat.mul_succ, ← tail, ← target] at next
                omega
            · simp only [ReplayRings.State.claim, update_of_ne elsewhere]
              exact ih
          · exact ih
          · rcases eq_or_ne i i' with rfl | elsewhere
            · simp only [ReplayRings.State.publish, update_self, Nat.add_zero]
              exact ih
            · simp only [ReplayRings.State.publish, update_of_ne elsewhere]
              exact ih
        · simp only [update_of_ne other]
          exact ih

end Tight

end CreditedRings
