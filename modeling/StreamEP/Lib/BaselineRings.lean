import Mathlib.Data.Fintype.Prod
import StreamEP.Lib.CreditedRings

/-!
# Readers that count from a baseline

The rings of `CreditedRings` in a round that is not the first one.  Tails are cumulative: they go
on from where the round before has left them, and are persisted for the round to come.

* When it sets out, a reader of the second level reads what is persisted of every ring, its
  **baseline**.  It waits for tails that are counted from there.
* When it has retired, it **writes back** the tails as they are then.

All numbers are counted from what is persisted at the start, so a baseline that is read in time
is zero.

**What may go wrong.**  A reader that retires early writes back a tail on which others still
count.  One that reads its baseline only after that takes packets that it waits for to be those
of an earlier round.  What it reads is right all the same, because every run is one of the rings
without baselines (`credited_reachable`).  But it waits for ever for a packet with too few behind
it (`done_le_of_late`).  If baselines are read in time (`InTime`), somebody can go on exactly
when somebody can without baselines (`exists_step`, `exists_stuck`).

**A simulation.**  A state has a state of the rings without baselines in it (`credited`), and
every event is one of theirs or leaves it alone.  `Allows` is all that baselines add to the
guards, and with baselines of zero it adds nothing (`allows_of_zero`).  So results about the
value of what is read, or about its slots, carry over by `credited_reachable` alone; only what
depends on guards, who can go on, needs an argument.  `exists_of_credited` is the other
direction: every run of the rings is one with baselines, in which these are read first of all.

**Late baselines.**  `Counted` bounds what a reader has read, ring by ring, by what there is
less its baseline.  A ring's stream is finite, so a reader whose baseline is more than what lies
behind a packet never gets to it, and the round is not completed (`not_completed_of_late`).
-/

namespace BaselineRings

open ReplayRings Finset Function

variable {J ι κ μ V : Type*}

structure State (J ι κ μ V : Type*) where
  credited : CreditedRings.State J ι κ μ V
  /-- What is persisted of the tails. -/
  prevTail : J → ℕ
  /-- What a reader found there. -/
  baseline : μ → J → Option ℕ
  wroteBack : μ → J → Bool

inductive Event (J ι κ μ : Type*) where
  | credited (e : CreditedRings.Event J ι κ μ)
  | readBaseline (v : μ) (j : J)
  | writeBack (v : μ) (j : J)

/-- Nothing sent, and no baseline read. -/
def start (firstSlots : J → ι → ℕ → V) (secondSlots : J → ℕ → V) : State J ι κ μ V where
  credited := CreditedRings.start firstSlots secondSlots
  prevTail _ := 0
  baseline _ _ := none
  wroteBack _ _ := false

/-- The rings of the second level. -/
abbrev State.second (s : State J ι κ μ V) : ReplayRings.State J μ V := s.credited.rings.second

section Step

variable (p : J → Plan ι κ) (q : Plan J μ) (threshold : ℕ)

/-- What baselines add to the guards: a reader reads them first of all, and counts from them. -/
def State.Allows (s : State J ι κ μ V) : CreditedRings.Event J ι κ μ → Prop
  | .ring (.second (.arrive v)) | .ring (.second (.retire v)) => ∀ j, (s.baseline v j).isSome
  | .ring (.second (.read v j)) => ∃ b ∈ s.baseline v j,
      q.expected (q.current s.second v) j + (b : ℤ) < s.second.cachedTail j
  | _ => True

instance [Fintype J] (s : State J ι κ μ V) :
    (e : CreditedRings.Event J ι κ μ) → Decidable (s.Allows q e)
  | .ring (.second (.arrive _)) | .ring (.second (.retire _)) => Fintype.decidableForallFintype
  | .ring (.second (.read v j)) =>
      inferInstanceAs (Decidable (∃ b ∈ s.baseline v j,
        q.expected (q.current s.second v) j + (b : ℤ) < s.second.cachedTail j))
  | .ring (.first _ _) | .credit _ _ | .ring (.second (.claim _))
  | .ring (.second (.write _ _)) | .ring (.second (.publish _)) | .ring (.second (.readTail _))
  | .ring (.second (.publishHead _ _)) | .ring (.second (.finish _)) => .isTrue trivial

variable [DecidableEq J] [DecidableEq μ]

/-- Read the baseline of a ring. -/
def State.readBaseline (s : State J ι κ μ V) (v : μ) (j : J) : State J ι κ μ V :=
  { s with baseline := update s.baseline v (update (s.baseline v) j (some (s.prevTail j))) }

/-- Persist the tail of a ring, unless a later one is. -/
def State.writeBack (s : State J ι κ μ V) (v : μ) (j : J) : State J ι κ μ V :=
  { s with
    prevTail := update s.prevTail j (max (s.prevTail j) (s.second.tail j))
    wroteBack := update s.wroteBack v (update (s.wroteBack v) j true) }

variable [DecidableEq ι] [DecidableEq κ] [Fintype J] [Fintype ι] [Fintype κ] [Fintype μ]
  [AddCommMonoid V] (payload : J → ι → ℕ → V)

/-- One step of the rings, or of a reader with what is persisted. -/
def step (s : State J ι κ μ V) : Event J ι κ μ → Option (State J ι κ μ V)
  | .credited e =>
      if s.Allows q e then
        (CreditedRings.step p q threshold payload s.credited e).map fun next =>
          { s with credited := next }
      else none
  | .readBaseline v j => if (s.baseline v j).isNone then some (s.readBaseline v j) else none
  | .writeBack v j =>
      if s.second.retired v = true ∧ s.wroteBack v j = false then some (s.writeBack v j)
      else none

/-- The rings and their baselines at work. -/
def system (firstSlots : J → ι → ℕ → V) (secondSlots : J → ℕ → V) :
    TransitionSystem (State J ι κ μ V) (Event J ι κ μ) where
  init := start firstSlots secondSlots
  step := step p q threshold payload

end Step

/-- A tail is written back when all readers have read their baseline for the ring. -/
def InTime (s : State J ι κ μ V) : Event J ι κ μ → Prop
  | .writeBack _ j => ∀ v, (s.baseline v j).isSome
  | _ => True

instance [Fintype μ] (s : State J ι κ μ V) : (e : Event J ι κ μ) → Decidable (InTime s e)
  | .writeBack _ _ => Fintype.decidableForallFintype
  | .credited _ | .readBaseline _ _ => .isTrue trivial

/-- Baselines that have been read in time are zero, and what is persisted is zero until all have
been read. -/
structure Timely (s : State J ι κ μ V) : Prop where
  baseline : ∀ v j, ∀ b ∈ s.baseline v j, b = 0
  prevTail : ∀ j, s.prevTail j = 0 ∨ ∀ v, (s.baseline v j).isSome

theorem timely_start (firstSlots : J → ι → ℕ → V) (secondSlots : J → ℕ → V) :
    Timely (start firstSlots secondSlots : State J ι κ μ V) where
  baseline _ _ _ none := nomatch none
  prevTail _ := Or.inl rfl

/-- When all have been read, they are zero. -/
theorem Timely.zero {s : State J ι κ μ V} (timely : Timely s)
    (all : ∀ v j, (s.baseline v j).isSome) (v : μ) (j : J) : s.baseline v j = some 0 := by
  obtain ⟨b, read⟩ := Option.isSome_iff_exists.1 (all v j)
  rw [read, timely.baseline v j b read]

section Steps

variable [DecidableEq J] [DecidableEq ι] [DecidableEq κ] [DecidableEq μ] [Fintype J] [Fintype ι]
  [Fintype κ] [Fintype μ] [AddCommMonoid V] {p : J → Plan ι κ} {q : Plan J μ} {threshold : ℕ}
  {payload : J → ι → ℕ → V} {s s' : State J ι κ μ V} {e : Event J ι κ μ}

/-- What one step does, guards included. -/
theorem step_cases (fires : step p q threshold payload s e = some s') :
    (∃ e' next, e = .credited e' ∧ s.Allows q e' ∧
      CreditedRings.step p q threshold payload s.credited e' = some next ∧
        s' = { s with credited := next }) ∨
      (∃ v j, e = .readBaseline v j ∧ s.baseline v j = none ∧ s' = s.readBaseline v j) ∨
        ∃ v j, e = .writeBack v j ∧ s.second.retired v = true ∧ s.wroteBack v j = false ∧
          s' = s.writeBack v j := by
  cases e with
  | credited e =>
    obtain ⟨allowed, fires⟩ := Option.ite_none_right_eq_some.1 fires
    obtain ⟨next, moves, rfl⟩ := Option.map_eq_some_iff.1 fires
    exact Or.inl ⟨e, next, rfl, allowed, moves, rfl⟩
  | readBaseline v j =>
    simp only [step, Option.ite_none_right_eq_some, Option.some.injEq] at fires
    obtain ⟨unread, rfl⟩ := fires
    exact Or.inr (Or.inl ⟨v, j, rfl, Option.isNone_iff_eq_none.1 unread, rfl⟩)
  | writeBack v j =>
    simp only [step, Option.ite_none_right_eq_some, Option.some.injEq] at fires
    obtain ⟨⟨retired, pending⟩, rfl⟩ := fires
    exact Or.inr (Or.inr ⟨v, j, rfl, retired, pending, rfl⟩)

variable {firstSlots : J → ι → ℕ → V} {secondSlots : J → ℕ → V}

/-- **Every run is one of the rings without baselines**, whenever these are read. -/
theorem credited_reachable
    (reach : (system p q threshold payload firstSlots secondSlots).Reachable s) :
    (CreditedRings.system p q threshold payload firstSlots secondSlots).Reachable s.credited := by
  induction reach with
  | init => exact .init
  | step e before fires ih =>
    rcases step_cases fires with ⟨e', next, -, -, moves, rfl⟩ | ⟨v, j, -, -, rfl⟩ |
      ⟨v, j, -, -, -, rfl⟩
    · exact .step e' ih moves
    · exact ih
    · exact ih

/-- A baseline that has been read stays. -/
theorem baseline_of_step (fires : step p q threshold payload s e = some s') {v : μ} {j : J}
    {b : ℕ} (read : s.baseline v j = some b) : s'.baseline v j = some b := by
  rcases step_cases fires with ⟨e', next, -, -, -, rfl⟩ | ⟨v', j', -, unread, rfl⟩ |
    ⟨v', j', -, -, -, rfl⟩
  · exact read
  · rcases eq_or_ne v v' with rfl | other
    · rcases eq_or_ne j j' with rfl | elsewhere
      · exact absurd (read.symm.trans unread) (Option.some_ne_none b)
      · simp only [State.readBaseline, update_self, update_of_ne elsewhere]
        exact read
    · simp only [State.readBaseline, update_of_ne other]
      exact read
  · exact read

/-! ### Baselines that are read in time -/

/-- **Steps in time keep it so.** -/
theorem Timely.step (timely : Timely s) (inTime : InTime s e)
    (fires : step p q threshold payload s e = some s') : Timely s' := by
  have stays := fun v j b => baseline_of_step fires (v := v) (j := j) (b := b)
  have read : ∀ v j, (s.baseline v j).isSome → (s'.baseline v j).isSome := by
    intro v j some
    obtain ⟨b, found⟩ := Option.isSome_iff_exists.1 some
    exact Option.isSome_of_eq_some (stays v j b found)
  rcases step_cases fires with ⟨e', next, -, -, -, rfl⟩ | ⟨v', j', -, unread, rfl⟩ |
    ⟨v', j', rfl, -, -, rfl⟩
  · exact ⟨timely.baseline, timely.prevTail⟩
  · refine ⟨fun v j b mem => ?_, fun j => (timely.prevTail j).imp_right fun all v => ?_⟩
    · rcases eq_or_ne v v' with rfl | other
      · rcases eq_or_ne j j' with rfl | elsewhere
        · -- a baseline was missing, so nothing had been written back
          simp only [State.readBaseline, update_self] at mem
          rw [← Option.some.inj mem]
          refine (timely.prevTail j).resolve_right fun all => ?_
          have some := all v
          rw [unread] at some
          exact Bool.noConfusion some
        · simp only [State.readBaseline, update_self, update_of_ne elsewhere] at mem
          exact timely.baseline v j b mem
      · simp only [State.readBaseline, update_of_ne other] at mem
        exact timely.baseline v j b mem
    · exact read v j (all v)
  · refine ⟨timely.baseline, fun j => ?_⟩
    rcases eq_or_ne j j' with rfl | other
    · exact Or.inr inTime
    · simp only [State.writeBack, update_of_ne other]
      exact timely.prevTail j

theorem timely_of_reachable
    (reach : (system p q threshold payload firstSlots secondSlots).ReachableUnder InTime s) :
    Timely s := by
  have begins : Timely (start firstSlots secondSlots : State J ι κ μ V) :=
    timely_start firstSlots secondSlots
  have kept : ∀ (s : State J ι κ μ V) e s', Timely s → InTime s e →
      (system p q threshold payload firstSlots secondSlots).step s e = some s' → Timely s' :=
    fun _ _ _ timely inTime fires => timely.step inTime fires
  exact reach.invariant begins kept

/-- With baselines of zero every step of the rings is allowed. -/
theorem allows_of_zero (zero : ∀ v j, s.baseline v j = some 0) {e : CreditedRings.Event J ι κ μ}
    {next : CreditedRings.State J ι κ μ V}
    (moves : CreditedRings.step p q threshold payload s.credited e = some next) :
    s.Allows q e := by
  match e with
  | .ring (.second (.arrive v)) | .ring (.second (.retire v)) =>
    exact fun j => Option.isSome_of_eq_some (zero v j)
  | .ring (.second (.read v j)) =>
    have reads := CreditedRings.second_of_step moves
    obtain ⟨⟨-, -, behind, -⟩, -⟩ := Option.ite_none_right_eq_some.1 reads
    exact ⟨0, zero v j, (Int.add_zero _).trans_lt behind⟩
  | .ring (.first _ _) | .credit _ _ | .ring (.second (.claim _))
  | .ring (.second (.write _ _)) | .ring (.second (.publish _)) | .ring (.second (.readTail _))
  | .ring (.second (.publishHead _ _)) | .ring (.second (.finish _)) => exact trivial

omit [DecidableEq J] [DecidableEq μ] in
/-- Flags that are still off get fewer when one is set. -/
theorem card_pending_lt (done done' : μ → J → Bool) {v : μ} {j : J}
    (stays : ∀ v' j', done v' j' = true → done' v' j' = true) (before : done v j = false)
    (after : done' v j = true) :
    (univ.filter fun x : μ × J => done' x.1 x.2 = false).card <
      (univ.filter fun x : μ × J => done x.1 x.2 = false).card := by
  refine card_lt_card ⟨fun x mem => ?_, fun sub => ?_⟩
  · refine mem_filter.2 ⟨mem_univ x, ?_⟩
    by_contra set
    have kept := stays x.1 x.2 (by simpa using set)
    exact Bool.noConfusion (kept.symm.trans (mem_filter.1 mem).2)
  · have still := (mem_filter.1 (sub (mem_filter.2 ⟨mem_univ (v, j), before⟩))).2
    exact Bool.noConfusion (after.symm.trans still)

/-- Some run has read all baselines in time, and done nothing else. -/
theorem exists_ready (firstSlots : J → ι → ℕ → V) (secondSlots : J → ℕ → V) : ∃ s,
    (system p q threshold payload firstSlots secondSlots).ReachableUnder InTime s ∧
      s.credited = CreditedRings.start firstSlots secondSlots ∧
        ∀ v j, (s.baseline v j).isSome := by
  have progress : ∀ s : State J ι κ μ V,
      ((system p q threshold payload firstSlots secondSlots).ReachableUnder InTime s ∧
        s.credited = CreditedRings.start firstSlots secondSlots) →
      ¬(∀ v j, (s.baseline v j).isSome) →
      ∃ e s', (system p q threshold payload firstSlots secondSlots).step s e = some s' ∧
        ((system p q threshold payload firstSlots secondSlots).ReachableUnder InTime s' ∧
          s'.credited = CreditedRings.start firstSlots secondSlots) ∧
        (univ.filter fun x : μ × J => (s'.baseline x.1 x.2).isSome = false).card <
          (univ.filter fun x : μ × J => (s.baseline x.1 x.2).isSome = false).card := by
    rintro s ⟨reach, fresh⟩ missing
    obtain ⟨v, missing⟩ := not_forall.1 missing
    obtain ⟨j, missing⟩ := not_forall.1 missing
    have none : s.baseline v j = Option.none := by simpa using missing
    have fires : step p q threshold payload s (.readBaseline v j) =
        some (s.readBaseline v j) := if_pos (by rw [none]; rfl)
    refine ⟨.readBaseline v j, _, fires, ⟨.step (.readBaseline v j) reach trivial fires, fresh⟩,
      card_pending_lt (fun v j => (s.baseline v j).isSome)
        (fun v' j' => ((s.readBaseline v j).baseline v' j').isSome) (v := v) (j := j)
        (fun v' j' some => ?_) ?_ ?_⟩
    · obtain ⟨b, read⟩ := Option.isSome_iff_exists.1 some
      exact Option.isSome_of_eq_some (baseline_of_step fires read)
    · rw [none]
      rfl
    · simp only [State.readBaseline, update_self]
      rfl
  obtain ⟨s, -, ⟨reach, fresh⟩, all⟩ := TransitionSystem.exists_leads _ progress ⟨.init, rfl⟩
  exact ⟨s, reach, fresh, all⟩

/-- **Every run of the rings is one with baselines** that have been read in time. -/
theorem exists_of_credited {r : CreditedRings.State J ι κ μ V}
    (reach : (CreditedRings.system p q threshold payload firstSlots secondSlots).Reachable r) :
    ∃ s, (system p q threshold payload firstSlots secondSlots).ReachableUnder InTime s ∧
      s.credited = r ∧ ∀ v j, (s.baseline v j).isSome := by
  induction reach with
  | init => exact exists_ready firstSlots secondSlots
  | @step r r' e before fires ih =>
    obtain ⟨s, reach, rfl, all⟩ := ih
    have fires : CreditedRings.step p q threshold payload s.credited e = some r' := fires
    have allowed : s.Allows q e := allows_of_zero ((timely_of_reachable reach).zero all) fires
    have moves : (system p q threshold payload firstSlots secondSlots).step s (.credited e) =
        some { s with credited := r' } := by
      show step p q threshold payload s (.credited e) = _
      rw [step, if_pos allowed, fires]
      rfl
    exact ⟨_, .step (.credited e) reach trivial moves, rfl, all⟩

/-- **When the rings can go on, somebody can**, and in time. -/
theorem exists_step
    (reach : (system p q threshold payload firstSlots secondSlots).ReachableUnder InTime s)
    (progress : ∃ e next, CreditedRings.step p q threshold payload s.credited e = some next) :
    ∃ e s', InTime s e ∧ step p q threshold payload s e = some s' := by
  by_cases all : ∀ v j, (s.baseline v j).isSome
  · obtain ⟨e, next, fires⟩ := progress
    have allowed : s.Allows q e := allows_of_zero ((timely_of_reachable reach).zero all) fires
    refine ⟨.credited e, { s with credited := next }, trivial, ?_⟩
    rw [step, if_pos allowed, fires]
    rfl
  · obtain ⟨v, missing⟩ := not_forall.1 all
    obtain ⟨j, missing⟩ := not_forall.1 missing
    exact ⟨.readBaseline v j, _, trivial, if_pos (by simpa using missing)⟩

/-- **When the rings are stuck, so are they with baselines**, once all that retired have written
back. -/
theorem exists_stuck {r : CreditedRings.State J ι κ μ V}
    (reach : (CreditedRings.system p q threshold payload firstSlots secondSlots).Reachable r)
    (stuck : ∀ e, CreditedRings.step p q threshold payload r e = none) :
    ∃ s, (system p q threshold payload firstSlots secondSlots).ReachableUnder InTime s ∧
      s.credited = r ∧ ∀ e, step p q threshold payload s e = none := by
  -- the write-backs that are missing can be made one by one, and change nothing else
  have progress : ∀ s : State J ι κ μ V,
      ((system p q threshold payload firstSlots secondSlots).ReachableUnder InTime s ∧
        s.credited = r ∧ ∀ v j, (s.baseline v j).isSome) →
      ¬(∀ v, s.second.retired v = true → ∀ j, s.wroteBack v j = true) →
      ∃ e s', (system p q threshold payload firstSlots secondSlots).step s e = some s' ∧
        ((system p q threshold payload firstSlots secondSlots).ReachableUnder InTime s' ∧
          s'.credited = r ∧ ∀ v j, (s'.baseline v j).isSome) ∧
        (univ.filter fun x : μ × J => s'.wroteBack x.1 x.2 = false).card <
          (univ.filter fun x : μ × J => s.wroteBack x.1 x.2 = false).card := by
    rintro s ⟨reach, same, all⟩ missing
    obtain ⟨v, missing⟩ := not_forall.1 missing
    obtain ⟨retired, missing⟩ := Classical.not_imp.1 missing
    obtain ⟨j, missing⟩ := not_forall.1 missing
    have pending : s.wroteBack v j = false := by simpa using missing
    have fires : (system p q threshold payload firstSlots secondSlots).step s (.writeBack v j) =
        some (s.writeBack v j) := if_pos ⟨retired, pending⟩
    have inTime : InTime s (.writeBack v j) := fun v' => all v' j
    refine ⟨_, _, fires, ⟨.step _ reach inTime fires, same, all⟩,
      card_pending_lt _ _ (v := v) (j := j) (fun v' j' set => ?_) pending ?_⟩
    · rcases eq_or_ne v' v with rfl | other
      · rcases eq_or_ne j' j with rfl | elsewhere
        · simp only [State.writeBack, update_self]
        · simp only [State.writeBack, update_self, update_of_ne elsewhere]
          exact set
      · simp only [State.writeBack, update_of_ne other]
        exact set
    · simp only [State.writeBack, update_self]
  obtain ⟨s₀, begins⟩ := exists_of_credited reach
  obtain ⟨s, -, ⟨reach, same, all⟩, wrote⟩ := TransitionSystem.exists_leads _ progress begins
  refine ⟨s, reach, same, fun e => ?_⟩
  by_contra enabled
  obtain ⟨s', fires⟩ := Option.ne_none_iff_exists'.1 enabled
  rcases step_cases fires with ⟨e', next, -, -, moves, -⟩ | ⟨v, j, -, unread, -⟩ |
    ⟨v, j, -, retired, pending, -⟩
  · rw [same, stuck e'] at moves
    exact Option.some_ne_none next moves.symm
  · have some := all v j
    rw [unread] at some
    exact Bool.noConfusion some
  · exact Bool.noConfusion (pending.symm.trans (wrote v retired j))

/-! ### A baseline that was read too late -/

/-- What a reader has read, or combined, was counted from its baseline. -/
structure Counted (q : Plan J μ) (s : State J ι κ μ V) : Prop where
  done : ∀ v, ∀ m < s.second.done v, ∀ j, 0 ≤ q.expected (q.token v m) j →
    ∃ b ∈ s.baseline v j, q.expected (q.token v m) j + (b : ℤ) < q.total j
  regs : ∀ v, s.second.reading v = true → ∀ j, (s.second.regs v j).isSome →
    ∃ b ∈ s.baseline v j, q.expected (q.current s.second v) j + (b : ℤ) < q.total j

/-- A step of the second level keeps it. -/
theorem Counted.second (counted : Counted q s) (sound : CreditedRings.Sound p q)
    (reach : (CreditedRings.system p q threshold payload firstSlots secondSlots).Reachable
      s.credited) {e : ReplayRings.Event J μ} {next : CreditedRings.State J ι κ μ V}
    (allowed : s.Allows q (.ring (.second e)))
    (fires : CreditedRings.step p q threshold payload s.credited (.ring (.second e)) =
      some next) : Counted q { s with credited := next } := by
  have moves := CreditedRings.second_of_step fires
  have rings := (CreditedRings.reachable_inv sound reach).rings.second.rings
  cases e
  case arrive v =>
    obtain ⟨-, moves⟩ := Option.ite_none_right_eq_some.1 moves
    have same := (Option.some.inj moves).symm
    refine ⟨fun w m hm => ?_, fun w reading j some => ?_⟩
    · simp only [State.second, same] at hm
      exact counted.done w m hm
    · simp only [State.second, same, ReplayRings.State.arrive] at reading some
      rcases eq_or_ne w v with rfl | other
      · rw [update_self] at some
        exact Bool.noConfusion some
      · rw [update_of_ne other] at reading some
        simp only [State.second, same, Plan.current, ReplayRings.State.arrive]
        exact counted.regs w reading j some
  case read v i =>
    obtain ⟨-, moves⟩ := Option.ite_none_right_eq_some.1 moves
    have same := (Option.some.inj moves).symm
    refine ⟨fun w m hm => ?_, fun w reading j some => ?_⟩
    · simp only [State.second, same] at hm
      exact counted.done w m hm
    · simp only [State.second, same, ReplayRings.State.read] at reading some
      simp only [State.second, same, Plan.current, ReplayRings.State.read]
      rcases eq_or_ne w v with rfl | other
      · rcases eq_or_ne j i with rfl | elsewhere
        · -- the reader has just waited for the tail
          obtain ⟨b, mem, behind⟩ := allowed
          have tail := (rings.cached j).trans ((Nat.le_add_right _ _).trans (rings.bounded j))
          exact ⟨b, mem, behind.trans_le (Int.ofNat_le.2 tail)⟩
        · rw [update_self, update_of_ne elsewhere] at some
          exact counted.regs w reading j some
      · rw [update_of_ne other] at some
        exact counted.regs w reading j some
  case finish v =>
    obtain ⟨⟨busy, all⟩, moves⟩ := Option.ite_none_right_eq_some.1 moves
    have same := (Option.some.inj moves).symm
    refine ⟨fun w m hm j goes => ?_, fun w reading j some => ?_⟩
    · simp only [State.second, same, ReplayRings.State.finish] at hm
      rcases eq_or_ne w v with rfl | other
      · rw [update_self] at hm
        rcases Nat.lt_succ_iff_lt_or_eq.1 hm with before | rfl
        · exact counted.done w m before j goes
        · exact counted.regs w busy j (all j goes)
      · rw [update_of_ne other] at hm
        exact counted.done w m hm j goes
    · simp only [State.second, same, ReplayRings.State.finish] at reading some
      rcases eq_or_ne w v with rfl | other
      · rw [update_self] at reading
        exact Bool.noConfusion reading
      · rw [update_of_ne other] at reading
        simp only [State.second, same, Plan.current, ReplayRings.State.finish,
          update_of_ne other]
        exact counted.regs w reading j some
  all_goals
    obtain ⟨-, moves⟩ := Option.ite_none_right_eq_some.1 moves
    have same := (Option.some.inj moves).symm
    refine ⟨fun w m hm => ?_, fun w reading j some => ?_⟩
    · simp only [State.second, same] at hm
      exact counted.done w m hm
    · simp only [State.second, same] at reading some
      simp only [State.second, same]
      exact counted.regs w reading j some

theorem counted_of_reachable (sound : CreditedRings.Sound p q)
    (reach : (system p q threshold payload firstSlots secondSlots).Reachable s) :
    Counted q s := by
  induction reach with
  | init => exact ⟨fun _ _ none => absurd none (Nat.not_lt_zero _), fun _ => nofun⟩
  | @step s s' e before fires ih =>
    have fires : step p q threshold payload s e = some s' := fires
    have stays := fun v j b => baseline_of_step fires (v := v) (j := j) (b := b)
    rcases step_cases fires with ⟨e', next, -, allowed, moves, rfl⟩ | ⟨v, j, -, -, rfl⟩ |
      ⟨v, j, -, -, -, rfl⟩
    · have credited := credited_reachable before
      by_cases level : ∃ e, e' = .ring (.second e)
      · obtain ⟨e, rfl⟩ := level
        exact ih.second sound credited allowed moves
      · have same : next.rings.second = s.second :=
          CreditedRings.second_eq_of_step (fun e same => level ⟨e, same⟩) moves
        refine ⟨fun w m hm => ?_, fun w reading j some => ?_⟩
        · simp only [State.second, same] at hm
          exact ih.done w m hm
        · simp only [State.second, same] at reading some
          simp only [State.second, same]
          exact ih.regs w reading j some
    · -- a baseline that counts has been read before, and it stays
      refine ⟨fun w m hm j' goes => ?_, fun w reading j' some => ?_⟩
      · obtain ⟨b, mem, behind⟩ := ih.done w m hm j' goes
        exact ⟨b, stays w j' b mem, behind⟩
      · obtain ⟨b, mem, behind⟩ := ih.regs w reading j' some
        exact ⟨b, stays w j' b mem, behind⟩
    · exact ⟨ih.done, ih.regs⟩

/-- **A reader with a late baseline stops** at a token with too few packets behind it, -/
theorem done_le_of_late (sound : CreditedRings.Sound p q)
    (reach : (system p q threshold payload firstSlots secondSlots).Reachable s) {v : μ} {j : J}
    {b m : ℕ} (late : s.baseline v j = some b) (goes : 0 ≤ q.expected (q.token v m) j)
    (few : (q.total j : ℤ) ≤ q.expected (q.token v m) j + b) : s.second.done v ≤ m := by
  by_contra more
  obtain ⟨b', mem, behind⟩ :=
    (counted_of_reachable sound reach).done v m (not_le.1 more) j goes
  rw [late, Option.mem_some_iff] at mem
  subst mem
  exact absurd few (not_le.2 behind)

/-- and it waits there for ever. -/
theorem not_completed_of_late (sound : CreditedRings.Sound p q)
    (reach : (system p q threshold payload firstSlots secondSlots).Reachable s) {v : μ} {j : J}
    {b m : ℕ} (late : s.baseline v j = some b) (goes : 0 ≤ q.expected (q.token v m) j)
    (few : (q.total j : ℤ) ≤ q.expected (q.token v m) j + b) (hm : m < q.count v)
    (leads : (system p q threshold payload firstSlots secondSlots).Leads s s') :
    ¬s'.second.Completed q := by
  have kept : ∀ (s : State J ι κ μ V) e s',
      ((system p q threshold payload firstSlots secondSlots).Reachable s ∧
        s.baseline v j = some b) →
      (system p q threshold payload firstSlots secondSlots).step s e = some s' →
        (system p q threshold payload firstSlots secondSlots).Reachable s' ∧
          s'.baseline v j = some b :=
    fun _ e _ ⟨reach, late⟩ fires => ⟨.step e reach fires, baseline_of_step fires late⟩
  obtain ⟨reach', late'⟩ := leads.invariant kept ⟨reach, late⟩
  intro completed
  have stops := done_le_of_late sound reach' late' goes few
  rw [completed v] at stops
  exact absurd hm (not_lt.2 stops)

end Steps

end BaselineRings
