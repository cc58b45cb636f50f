import StreamEP.Lib.ReplayRings

/-!
# Two levels of rings

What the readers of a first level combine are the packets of a second one: group `j` of the
first level is the writer of ring `j`, and the packet at position `t` of that ring is what the
group has combined for number `t`.  So the levels wait for each other.  A reader of the first
level takes a number up when room has been claimed for its packet, and a packet is written
when it has been combined.

Each level keeps the invariant of `ReplayRings`, the second one for packets that are sums of
the first (`reachable_inv`); what a reader of the second level returns is the sum of these
sums.

A step of the second level writes what the first level has combined, and not a given packet.
Since what has been combined is the sum, it is also a step of the rings with the sums as packets
(`Inv.second_moves`), and their invariant applies.
-/

namespace TwoLevelRings

open ReplayRings Function

variable {J ι κ μ V : Type*}

structure State (J ι κ μ V : Type*) where
  first : J → ReplayRings.State ι κ V
  second : ReplayRings.State J μ V

inductive Event (J ι κ μ : Type*) where
  | first (j : J) (e : ReplayRings.Event ι κ)
  | second (e : ReplayRings.Event J μ)

/-- Nothing sent on either level. -/
def start (firstSlots : J → ι → ℕ → V) (secondSlots : J → ℕ → V) : State J ι κ μ V where
  first j := ReplayRings.start (firstSlots j)
  second := ReplayRings.start secondSlots

section Step

variable (p : J → Plan ι κ) (q : Plan J μ)

/-- What the other level says to an event. -/
def State.Allows (s : State J ι κ μ V) : Event J ι κ μ → Prop
  | .first j (.arrive w) => (p j).current (s.first j) w ∈ s.second.unwritten j
  | .second (.write j t) => ((s.first j).out t).isSome
  | _ => True

instance (s : State J ι κ μ V) (e : Event J ι κ μ) : Decidable (s.Allows p e) := by
  unfold State.Allows
  split <;> infer_instance

variable [DecidableEq J] [DecidableEq ι] [DecidableEq κ] [DecidableEq μ] [Fintype J] [Fintype ι]
  [Fintype κ] [Fintype μ] [AddCommMonoid V] (payload : J → ι → ℕ → V)

/-- One step on one of the levels. -/
def step (s : State J ι κ μ V) : Event J ι κ μ → Option (State J ι κ μ V)
  | .first j e =>
      if s.Allows p (.first j e) then
        (ReplayRings.step (p j) (payload j) (s.first j) e).map fun next =>
          { s with first := update s.first j next }
      else none
  | .second e =>
      if s.Allows p (.second e) then
        (ReplayRings.step q (fun j t => ((s.first j).out t).getD 0) s.second e).map fun next =>
          { s with second := next }
      else none

/-- Both levels at work on rings that hold anything. -/
def system (firstSlots : J → ι → ℕ → V) (secondSlots : J → ℕ → V) :
    TransitionSystem (State J ι κ μ V) (Event J ι κ μ) where
  init := start firstSlots secondSlots
  step := step p q payload

end Step

/-! ### Both invariants -/

section Invariant

variable [Fintype J] [Fintype ι] [AddCommMonoid V] {p : J → Plan ι κ} {q : Plan J μ}
  {payload : J → ι → ℕ → V} {s s' : State J ι κ μ V}

/-- Each level keeps its invariant, the second one with the sums of the first. -/
structure Inv (p : J → Plan ι κ) (q : Plan J μ) (payload : J → ι → ℕ → V)
    (s : State J ι κ μ V) : Prop where
  first : ∀ j, ReplayRings.Inv (p j) (payload j) (s.first j)
  second : ReplayRings.Inv q (fun j => combined (p j) (payload j)) s.second

variable [DecidableEq ι] [DecidableEq κ] [Fintype κ]

/-- A step depends on the packets only where it writes one. -/
theorem step_congr {plan : Plan ι κ} {packet packet' : ι → ℕ → V} {st : ReplayRings.State ι κ V}
    {e : ReplayRings.Event ι κ} (same : ∀ i t, e = .write i t → packet i t = packet' i t) :
    ReplayRings.step plan packet st e = ReplayRings.step plan packet' st e := by
  cases e with
  | write i t => simp only [ReplayRings.step, same i t rfl]
  | _ => rfl

variable [DecidableEq J] [DecidableEq μ] [Fintype μ]

omit [DecidableEq κ] [Fintype κ] [DecidableEq ι] in
/-- What the second level writes has been combined, so it is the sum. -/
theorem Inv.second_moves (inv : Inv p q payload s) {e : ReplayRings.Event J μ}
    {next : ReplayRings.State J μ V} (allowed : s.Allows p (.second e))
    (fires : ReplayRings.step q (fun j t => ((s.first j).out t).getD 0) s.second e = some next) :
    ReplayRings.step q (fun j => combined (p j) (payload j)) s.second e = some next := by
  have same : ∀ j t, e = .write j t →
      ((s.first j).out t).getD 0 = combined (p j) (payload j) t := by
    rintro j t rfl
    obtain ⟨v, out⟩ := Option.isSome_iff_exists.1 allowed
    rw [out, (inv.first j).readers.out t v out]
    rfl
  rwa [step_congr same] at fires

/-- **Every step of either level keeps both invariants.** -/
theorem step_inv (soundFirst : ∀ j, (p j).Sound) (soundSecond : q.Sound) {e : Event J ι κ μ}
    (inv : Inv p q payload s) (fires : step p q payload s e = some s') : Inv p q payload s' := by
  cases e with
  | first j e =>
    obtain ⟨-, fires⟩ := Option.ite_none_right_eq_some.1 fires
    obtain ⟨next, moves, rfl⟩ := Option.map_eq_some_iff.1 fires
    refine ⟨fun i => ?_, inv.second⟩
    rcases eq_or_ne i j with rfl | other
    · simp only [update_self]
      exact ReplayRings.step_inv (soundFirst i) (inv.first i) moves
    · simp only [update_of_ne other]
      exact inv.first i
  | second e =>
    obtain ⟨allowed, fires⟩ := Option.ite_none_right_eq_some.1 fires
    obtain ⟨next, moves, rfl⟩ := Option.map_eq_some_iff.1 fires
    exact ⟨inv.first, ReplayRings.step_inv soundSecond inv.second (inv.second_moves allowed moves)⟩

theorem reachable_inv (soundFirst : ∀ j, (p j).Sound) (soundSecond : q.Sound)
    {firstSlots : J → ι → ℕ → V} {secondSlots : J → ℕ → V}
    (reach : (system p q payload firstSlots secondSlots).Reachable s) : Inv p q payload s := by
  have begins : Inv p q payload (start firstSlots secondSlots : State J ι κ μ V) :=
    ⟨fun j => inv_start (firstSlots j), inv_start secondSlots⟩
  have kept : ∀ (s : State J ι κ μ V) e s', Inv p q payload s →
      (system p q payload firstSlots secondSlots).step s e = some s' → Inv p q payload s' :=
    fun _ _ _ inv fires => step_inv soundFirst soundSecond inv fires
  exact reach.invariant begins kept

end Invariant

end TwoLevelRings
