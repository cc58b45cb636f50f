import Mathlib.Data.Nat.Init
import Mathlib.Order.Basic

/-!
# Transition systems

A concurrent component is a state and a guarded step function: `step s e` is the
state after event `e`, or `none` when the guard of `e` fails in `s`.  A run is any
sequence of enabled events, so a statement about all reachable states is a
statement about every interleaving.

**Reachable states.**  `Reachable.invariant` is the induction every safety proof uses.
`ReachableUnder` has the runs whose steps all meet a condition on the state and the event; its
invariant rule may use the condition, and a run under a condition is a run.

**Replays.**  `run` replays a concrete sequence of events, so that an example is a computation:
where it ends is reachable (`Reachable.run`).  `Leads` says that some run goes from one state to
another.

**Ends and goals.**  If every step uses up fuel, every reachable state can be run to one where
nothing is possible any more (`Reachable.exists_terminal`).  If as long as a goal is not met
*some* step uses up fuel, the goal can be met (`exists_leads`).
-/

/-- States, events and the guarded step between states. -/
structure TransitionSystem (State Event : Type*) where
  init : State
  step : State → Event → Option State

namespace TransitionSystem

variable {State Event : Type*} (sys : TransitionSystem State Event)

/-- The states some run ends in. -/
inductive Reachable : State → Prop
  | init : Reachable sys.init
  | step {s s' : State} (e : Event) (before : Reachable s) (fires : sys.step s e = some s') :
      Reachable s'

/-- The states that runs end in whose steps all meet a condition. -/
inductive ReachableUnder (cond : State → Event → Prop) : State → Prop
  | init : ReachableUnder cond sys.init
  | step {s s' : State} (e : Event) (before : ReachableUnder cond s) (meets : cond s e)
      (fires : sys.step s e = some s') : ReachableUnder cond s'

/-- Replay a sequence of events; `none` if one of them is not enabled. -/
def run (s : State) : List Event → Option State
  | [] => some s
  | e :: es =>
      match sys.step s e with
      | none => none
      | some s' => run s' es

/-- Replay a sequence of events, and check a condition on the way. -/
def runUnder (cond : State → Event → Prop) [∀ s e, Decidable (cond s e)] (s : State) :
    List Event → Option State
  | [] => some s
  | e :: es =>
      if cond s e then
        match sys.step s e with
        | none => none
        | some s' => runUnder cond s' es
      else none

variable {sys}

/-- **Invariant rule.**  What holds initially and is kept by every step holds in
every reachable state. -/
theorem Reachable.invariant {Inv : State → Prop} (init : Inv sys.init)
    (step : ∀ s e s', Inv s → sys.step s e = some s' → Inv s') {s : State}
    (reach : sys.Reachable s) : Inv s := by
  induction reach with
  | init => exact init
  | step e _ fires ih => exact step _ e _ ih fires

/-- The invariant rule for runs under a condition. -/
theorem ReachableUnder.invariant {cond : State → Event → Prop} {Inv : State → Prop}
    (init : Inv sys.init)
    (step : ∀ s e s', Inv s → cond s e → sys.step s e = some s' → Inv s') {s : State}
    (reach : sys.ReachableUnder cond s) : Inv s := by
  induction reach with
  | init => exact init
  | step e _ meets fires ih => exact step _ e _ ih meets fires

/-- A run under a condition is a run. -/
theorem ReachableUnder.reachable {cond : State → Event → Prop} {s : State}
    (reach : sys.ReachableUnder cond s) : sys.Reachable s := by
  induction reach with
  | init => exact .init
  | step e _ _ fires ih => exact .step e ih fires

/-- A replay stays among the reachable states. -/
theorem Reachable.run {s s' : State} (reach : sys.Reachable s) {es : List Event}
    (replay : sys.run s es = some s') : sys.Reachable s' := by
  induction es generalizing s with
  | nil =>
      cases replay
      exact reach
  | cons e es ih =>
      cases fires : sys.step s e with
      | none => simp [TransitionSystem.run, fires] at replay
      | some next =>
          simp only [TransitionSystem.run, fires] at replay
          exact ih (.step e reach fires) replay

theorem ReachableUnder.run {cond : State → Event → Prop} [∀ s e, Decidable (cond s e)]
    {s s' : State} (reach : sys.ReachableUnder cond s) {es : List Event}
    (replay : sys.runUnder cond s es = some s') : sys.ReachableUnder cond s' := by
  induction es generalizing s with
  | nil =>
      cases replay
      exact reach
  | cons e es ih =>
      rw [runUnder] at replay
      split_ifs at replay with meets
      cases fires : sys.step s e with
      | none => simp [fires] at replay
      | some next =>
          simp only [fires] at replay
          exact ih (.step e reach meets fires) replay

/-- **Termination rule.**  If every step from a reachable state uses up some fuel, every
reachable state can be run to one where no step is enabled. -/
theorem Reachable.exists_terminal (fuel : State → ℕ)
    (decreases : ∀ s e s', sys.Reachable s → sys.step s e = some s' → fuel s' < fuel s)
    {s : State} (reach : sys.Reachable s) :
    ∃ s', sys.Reachable s' ∧ ∀ e, sys.step s' e = none := by
  induction left : fuel s using Nat.strong_induction_on generalizing s with
  | _ n ih =>
      by_cases ended : ∀ e, sys.step s e = none
      · exact ⟨s, reach, ended⟩
      · obtain ⟨e, enabled⟩ := not_forall.1 ended
        obtain ⟨s', fires⟩ := Option.ne_none_iff_exists'.1 enabled
        exact ih _ (left ▸ decreases s e s' reach fires) (.step e reach fires) rfl

theorem run_append (s : State) (es es' : List Event) :
    sys.run s (es ++ es') = (sys.run s es).bind fun s' => sys.run s' es' := by
  induction es generalizing s with
  | nil => rfl
  | cons e es ih =>
      rw [List.cons_append, TransitionSystem.run, TransitionSystem.run]
      cases sys.step s e with
      | none => rfl
      | some s' => exact ih s'

/-! ### What a state leads to -/

variable (sys) in
/-- Some run goes from the one state to the other. -/
def Leads (s s' : State) : Prop := ∃ es, sys.run s es = some s'

theorem Leads.refl (s : State) : sys.Leads s s := ⟨[], rfl⟩

theorem Leads.single {s s' : State} {e : Event} (fires : sys.step s e = some s') :
    sys.Leads s s' := by
  refine ⟨[e], ?_⟩
  rw [TransitionSystem.run, fires]
  rfl

theorem Leads.trans {s s' s'' : State} (first : sys.Leads s s') (second : sys.Leads s' s'') :
    sys.Leads s s'' := by
  obtain ⟨es, first⟩ := first
  obtain ⟨es', second⟩ := second
  refine ⟨es ++ es', ?_⟩
  rw [run_append, first]
  exact second

/-- What every step keeps is kept on the way. -/
theorem Leads.invariant {Inv : State → Prop}
    (step : ∀ s e s', Inv s → sys.step s e = some s' → Inv s') {s s' : State}
    (leads : sys.Leads s s') (inv : Inv s) : Inv s' := by
  obtain ⟨es, replay⟩ := leads
  induction es generalizing s with
  | nil =>
      cases replay
      exact inv
  | cons e es ih =>
      cases fires : sys.step s e with
      | none => simp [TransitionSystem.run, fires] at replay
      | some next =>
          simp only [TransitionSystem.run, fires] at replay
          exact ih (step s e next inv fires) replay

/-- **Progress rule.**  If as long as the goal is not met some step uses up fuel and keeps `P`,
the goal can be met. -/
theorem exists_leads {P goal : State → Prop} (fuel : State → ℕ)
    (progress : ∀ s, P s → ¬ goal s → ∃ e s', sys.step s e = some s' ∧ P s' ∧ fuel s' < fuel s)
    {s : State} (start : P s) : ∃ s', sys.Leads s s' ∧ P s' ∧ goal s' := by
  induction left : fuel s using Nat.strong_induction_on generalizing s with
  | _ n ih =>
      by_cases met : goal s
      · exact ⟨s, .refl s, start, met⟩
      · obtain ⟨e, next, fires, kept, less⟩ := progress s start met
        obtain ⟨s', leads, done⟩ := ih _ (left ▸ less) kept rfl
        exact ⟨s', (Leads.single fires).trans leads, done⟩

end TransitionSystem
