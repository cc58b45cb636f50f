import Mathlib.Algebra.BigOperators.Group.Finset.Basic
import Mathlib.Data.Fintype.Card
import StreamEP.Lib.TransitionSystem

/-!
# Transfers between ranks

Ranks store values into memory from which other ranks fetch them.  A transfer is one such value:
it has an address, a time at which its writer stores it, and a time at which its reader fetches
it, each on the clock of that rank.  An address serves any number of transfers.  A store is under
way until it becomes visible, which may be in any order, and the writer's clock does not go on
before.  A rank may have to wait at a time for another to have got to some time of its own;
nothing else keeps the clocks together.

**When that is safe.**  What a rank that has got to some time knows of the others is
`Protocol.Knows`.  `Sound` asks for two things, both about the plan and not about its runs.  The
reader of a transfer knows that its writer is done with it (`fresh`); and of two transfers
through one address the writer of one knows that the reader of the other is done (`free`).  Then
what a rank fetches is what was stored for it (`Inv.current`), and neither what was there before
nor what a faster rank stores next.

**The invariant.**  All of it follows from what a wait is worth later on (`Inv.met`,
`Inv.past`).  A transfer is the latest of its address when all others that have been stored
precede it, and then memory holds its value as soon as it is visible (`Inv.latest`).

**Values.**  What is stored may depend on what has been fetched.  If a table has everywhere the
value that comes of its own entries, it is what the ranks store and fetch (`Tabulated`,
`written_eq`).

**Progress.**  When nobody waits for a time beyond its own, the rank that is furthest behind can
always go on, and all ranks can be brought to any time (`exists_reachable`).
-/

namespace Transfers

open Finset Function

/-- Who stores and fetches what, where and when. -/
structure Protocol (ρ κ α V : Type*) where
  addr : κ → α
  writer : κ → ρ
  reader : κ → ρ
  /-- When the writer stores, on its clock, -/
  writeAt : κ → ℕ
  /-- and when the reader fetches. -/
  readAt : κ → ℕ
  /-- The time that the second rank must have got to before the first one leaves a time. -/
  waits : ℕ → ρ → ρ → Option ℕ
  /-- What is stored, from what has been fetched. -/
  value : κ → (κ → Option V) → Option V
  /-- The transfers that are stored or fetched at a time. -/
  due : ℕ → Finset κ
  due_write : ∀ x, x ∈ due (writeAt x)
  due_read : ∀ x, x ∈ due (readAt x)

variable {ρ κ α V : Type*}

namespace Protocol

variable (p : Protocol ρ κ α V)

/-- When `r` has got to `n`, it knows that `r'` is past `m`. -/
def Knows (r : ρ) (n : ℕ) (r' : ρ) (m : ℕ) : Prop :=
  r = r' ∧ m < n ∨ ∃ k < n, ∃ k' ∈ p.waits k r r', m < k'

/-- The second transfer is stored when the first one has been fetched. -/
def Precedes (x y : κ) : Prop := p.Knows (p.writer y) (p.writeAt y) (p.reader x) (p.readAt x)

end Protocol

/-- What the ranks have done so far. -/
structure State (ρ κ α V : Type*) where
  clock : ρ → ℕ
  memory : α → V
  /-- Stores that are not visible yet. -/
  pending : κ → Option V
  /-- What was stored for a transfer, -/
  written : κ → Option V
  /-- and what was fetched. -/
  read : κ → Option V

inductive Event (ρ κ : Type*) where
  | read (x : κ)
  | store (x : κ)
  | land (x : κ)
  | leave (r : ρ)

namespace State

variable (p : Protocol ρ κ α V) (s : State ρ κ α V)

/-- A rank has done all that belongs to its time, and those it waits for are there. -/
structure MayLeave (r : ρ) : Prop where
  stored : ∀ x, p.writer x = r → p.writeAt x = s.clock r → (s.written x).isSome
  seen : ∀ x, p.reader x = r → p.readAt x = s.clock r → (s.read x).isSome
  visible : ∀ x, p.writer x = r → p.writeAt x = s.clock r → (s.pending x).isNone
  met : ∀ r', ∀ k ∈ p.waits (s.clock r) r r', k ≤ s.clock r'

instance [Fintype ρ] [DecidableEq ρ] (r : ρ) : Decidable (s.MayLeave p r) :=
  decidable_of_iff
    ((∀ x ∈ p.due (s.clock r), p.writer x = r ∧ p.writeAt x = s.clock r →
        (s.written x).isSome ∧ (s.pending x).isNone) ∧
      (∀ x ∈ p.due (s.clock r), p.reader x = r ∧ p.readAt x = s.clock r → (s.read x).isSome) ∧
      ∀ r', ∀ k ∈ p.waits (s.clock r) r r', k ≤ s.clock r')
    ⟨fun h => ⟨fun x own now => (h.1 x (now ▸ p.due_write x) ⟨own, now⟩).1,
        fun x own now => h.2.1 x (now ▸ p.due_read x) ⟨own, now⟩,
        fun x own now => (h.1 x (now ▸ p.due_write x) ⟨own, now⟩).2, h.2.2⟩,
      fun h => ⟨fun x _ now => ⟨h.stored x now.1 now.2, h.visible x now.1 now.2⟩,
        fun x _ now => h.seen x now.1 now.2, h.met⟩⟩

end State

section System

variable [Fintype ρ] [DecidableEq ρ] [DecidableEq κ] [DecidableEq α]

/-- One event. -/
def step (p : Protocol ρ κ α V) (s : State ρ κ α V) : Event ρ κ → Option (State ρ κ α V)
  | .read x =>
    if s.clock (p.reader x) = p.readAt x then
      some { s with read := update s.read x (some (s.memory (p.addr x))) }
    else none
  | .store x =>
    if s.clock (p.writer x) = p.writeAt x ∧ (s.written x).isNone then
      (p.value x s.read).map fun v =>
        { s with
          pending := update s.pending x (some v)
          written := update s.written x (some v) }
    else none
  | .land x =>
    (s.pending x).map fun v =>
      { s with
        memory := update s.memory (p.addr x) v
        pending := update s.pending x none }
  | .leave r =>
    if s.MayLeave p r then some { s with clock := update s.clock r (s.clock r + 1) } else none

/-- Before everything, over what the memory holds. -/
def start (before : α → V) : State ρ κ α V where
  clock _ := 0
  memory := before
  pending _ := none
  written _ := none
  read _ := none

def system (p : Protocol ρ κ α V) (before : α → V) :
    TransitionSystem (State ρ κ α V) (Event ρ κ) where
  init := start before
  step := step p

end System

/-- What the ranks know is enough. -/
structure Sound (p : Protocol ρ κ α V) : Prop where
  /-- The reader knows that its writer is done, -/
  fresh : ∀ x, p.Knows (p.reader x) (p.readAt x) (p.writer x) (p.writeAt x)
  /-- and an address is not used for two transfers at a time. -/
  free : ∀ x y, p.addr x = p.addr y → x ≠ y → p.Precedes x y ∨ p.Precedes y x

variable {p : Protocol ρ κ α V} {s s' : State ρ κ α V}

/-- The invariant. -/
structure Inv (p : Protocol ρ κ α V) (s : State ρ κ α V) : Prop where
  /-- Who is past a time has met the ones it waited for. -/
  met : ∀ k r r', ∀ k' ∈ p.waits k r r', k < s.clock r → k' ≤ s.clock r'
  begun : ∀ x, (s.written x).isSome → p.writeAt x ≤ s.clock (p.writer x)
  complete : ∀ x, p.writeAt x < s.clock (p.writer x) → (s.written x).isSome
  seen : ∀ x, p.readAt x < s.clock (p.reader x) → (s.read x).isSome
  underWay : ∀ x v, s.pending x = some v →
    s.written x = some v ∧ s.clock (p.writer x) ≤ p.writeAt x
  latest : ∀ x v, s.written x = some v → s.pending x = none →
    (∀ y, p.addr y = p.addr x → (s.written y).isSome → y ≠ x → p.Precedes y x) →
      s.memory (p.addr x) = v
  read : ∀ x v, s.read x = some v → s.written x = some v

/-! ### What a reader finds -/

namespace Inv

variable (inv : Inv p s)

include inv

/-- What a rank knows is so. -/
theorem past {r r' : ρ} {n m : ℕ} (knows : p.Knows r n r' m) (here : n ≤ s.clock r) :
    m < s.clock r' := by
  rcases knows with ⟨rfl, before⟩ | ⟨k, before, k', waits, behind⟩
  · exact before.trans_le here
  · exact behind.trans_le (inv.met k r r' k' waits (before.trans_le here))

/-- At the time of a fetch the writer is done. -/
theorem stored (sound : Sound p) {x : κ} (here : p.readAt x ≤ s.clock (p.reader x)) :
    p.writeAt x < s.clock (p.writer x) :=
  inv.past (sound.fresh x) here

/-- Once a transfer has been stored, those that precede it have been fetched. -/
theorem fetched {x y : κ} (precedes : p.Precedes x y) (stored : (s.written y).isSome) :
    p.readAt x < s.clock (p.reader x) :=
  inv.past precedes (inv.begun y stored)

/-- A transfer that has not been fetched is preceded by the others of its address. -/
theorem precedes (sound : Sound p) {x y : κ} (here : s.clock (p.reader x) ≤ p.readAt x)
    (same : p.addr y = p.addr x) (stored : (s.written y).isSome) (other : y ≠ x) :
    p.Precedes y x :=
  (sound.free y x same other).resolve_right fun after => (inv.fetched after stored).not_ge here

/-- **A reader finds what was stored for it.** -/
theorem current (sound : Sound p) {x : κ} (here : s.clock (p.reader x) = p.readAt x) :
    s.written x = some (s.memory (p.addr x)) := by
  have done := inv.stored sound here.ge
  obtain ⟨v, written⟩ := Option.isSome_iff_exists.1 (inv.complete x done)
  have visible : s.pending x = none := by
    by_contra pending
    obtain ⟨w, pending⟩ := Option.ne_none_iff_exists'.1 pending
    exact (inv.underWay x w pending).2.not_gt done
  rw [inv.latest x v written visible fun y same stored other =>
    inv.precedes sound here.le same stored other]
  exact written

end Inv

/-! ### One step -/

/-- Nobody's clock goes back. -/
theorem clock_le_leave [DecidableEq ρ] (clock : ρ → ℕ) (r r' : ρ) :
    clock r' ≤ update clock r (clock r + 1) r' := by
  rw [update_apply]
  split_ifs with same
  · exact same ▸ Nat.le_succ _
  · exact le_rfl

/-- Who has just passed a time was past it before, or is the one whose clock has gone on. -/
theorem lt_clock_leave [DecidableEq ρ] {clock : ρ → ℕ} {r r' : ρ} {m : ℕ}
    (passed : m < update clock r (clock r + 1) r') : m < clock r' ∨ r' = r ∧ m = clock r' := by
  rw [update_apply] at passed
  split_ifs at passed with same
  · subst same
    exact (Nat.lt_succ_iff.1 passed).lt_or_eq.imp_right fun here => ⟨rfl, here⟩
  · exact Or.inl passed

theorem isSome_update [DecidableEq κ] {f : κ → Option V} {x y : κ} {v : V}
    (old : (f y).isSome) : (update f x (some v) y).isSome := by
  rw [update_apply]
  split_ifs
  · rfl
  · exact old

theorem start_inv (p : Protocol ρ κ α V) (before : α → V) :
    Inv p (start before : State ρ κ α V) where
  met _ _ _ _ _ passed := absurd passed (Nat.not_lt_zero _)
  begun _ none := Bool.noConfusion none
  complete _ passed := absurd passed (Nat.not_lt_zero _)
  seen _ passed := absurd passed (Nat.not_lt_zero _)
  underWay _ _ none := nomatch none
  latest _ _ none := nomatch none
  read _ _ none := nomatch none

theorem store_inv [DecidableEq κ] (sound : Sound p) (inv : Inv p s) {x : κ} (v : V)
    (here : s.clock (p.writer x) = p.writeAt x) (new : s.written x = none) :
    Inv p { s with
      pending := update s.pending x (some v)
      written := update s.written x (some v) } := by
  refine { inv with
    begun := fun y stored => ?_
    complete := fun y passed => isSome_update (inv.complete y passed)
    underWay := fun y w pending => ?_
    latest := fun y w stored visible alone => ?_
    read := fun y w got => ?_ }
  · dsimp only at stored
    rw [update_apply] at stored
    split_ifs at stored with same
    · exact same ▸ here.ge
    · exact inv.begun y stored
  · dsimp only at pending ⊢
    rcases eq_or_ne y x with rfl | other
    · rw [update_self] at pending ⊢
      exact ⟨pending, here.le⟩
    · rw [update_of_ne other] at pending ⊢
      exact inv.underWay y w pending
  · dsimp only at stored visible alone ⊢
    rcases eq_or_ne y x with rfl | other
    · rw [update_self] at visible
      exact absurd visible (Option.some_ne_none v)
    · rw [update_of_ne other] at stored visible
      by_cases same : p.addr x = p.addr y
      · -- the new store would come before one that has been made
        have precedes := alone x same (by rw [update_self]; rfl) other.symm
        have fetched := inv.fetched precedes (stored ▸ rfl)
        have done := inv.stored sound fetched.le
        exact absurd here done.ne'
      · exact inv.latest y w stored visible fun z at_ old => alone z at_ (isSome_update old)
  · dsimp only
    have old := inv.read y w got
    have other : y ≠ x := by
      rintro rfl
      exact Option.some_ne_none w (old.symm.trans new)
    rw [update_of_ne other]
    exact old

theorem land_inv [DecidableEq κ] [DecidableEq α] (sound : Sound p) (inv : Inv p s) {x : κ} {v : V}
    (found : s.pending x = some v) :
    Inv p { s with
      memory := update s.memory (p.addr x) v
      pending := update s.pending x none } := by
  obtain ⟨written, early⟩ := inv.underWay x v found
  refine { inv with
    underWay := fun y w pending => ?_
    latest := fun y w stored visible alone => ?_ }
  · dsimp only at pending
    rcases eq_or_ne y x with rfl | other
    · rw [update_self] at pending
      exact absurd pending.symm (Option.some_ne_none w)
    · rw [update_of_ne other] at pending
      exact inv.underWay y w pending
  · dsimp only at stored visible alone ⊢
    rcases eq_or_ne y x with rfl | other
    · rw [update_self]
      exact Option.some.inj (written.symm.trans stored)
    · rw [update_of_ne other] at visible
      by_cases same : p.addr x = p.addr y
      · -- a store that is under way precedes none that has been made
        have precedes := alone x same (written ▸ rfl) other.symm
        have fetched := inv.fetched precedes (stored ▸ rfl)
        exact absurd (inv.stored sound fetched.le) early.not_gt
      · rw [update_of_ne fun at_ => same at_.symm]
        exact inv.latest y w stored visible alone

theorem leave_inv [DecidableEq ρ] (inv : Inv p s) {r : ρ} (may : s.MayLeave p r) :
    Inv p { s with clock := update s.clock r (s.clock r + 1) } := by
  refine { inv with
    met := fun k r₁ r₂ k' waits passed => ?_
    begun := fun x stored => (inv.begun x stored).trans (clock_le_leave _ _ _)
    complete := fun x passed => ?_
    seen := fun x passed => ?_
    underWay := fun x v pending => ?_ }
  · refine le_trans ?_ (clock_le_leave _ _ _)
    rcases lt_clock_leave passed with before | ⟨rfl, rfl⟩
    · exact inv.met k r₁ r₂ k' waits before
    · exact may.met r₂ k' waits
  · rcases lt_clock_leave passed with before | ⟨same, now⟩
    · exact inv.complete x before
    · exact may.stored x same (same ▸ now)
  · rcases lt_clock_leave passed with before | ⟨same, now⟩
    · exact inv.seen x before
    · exact may.seen x same (same ▸ now)
  · obtain ⟨written, early⟩ := inv.underWay x v pending
    refine ⟨written, ?_⟩
    dsimp only
    rw [update_apply]
    split_ifs with same
    · -- with its store under way the writer does not go on
      subst same
      refine Nat.succ_le_of_lt (lt_of_le_of_ne early fun now => ?_)
      have none := may.visible x rfl now.symm
      rw [pending] at none
      exact Bool.noConfusion none
    · exact early

section Steps

variable [Fintype ρ] [DecidableEq ρ] [DecidableEq κ] [DecidableEq α] {before : α → V}

theorem step_inv (sound : Sound p) (inv : Inv p s) {e : Event ρ κ}
    (fires : step p s e = some s') : Inv p s' := by
  cases e with
  | read x =>
    simp only [step, Option.ite_none_right_eq_some, Option.some.injEq] at fires
    obtain ⟨here, rfl⟩ := fires
    refine { inv with
      seen := fun y passed => isSome_update (inv.seen y passed)
      read := fun y v got => ?_ }
    dsimp only at got
    rw [update_apply] at got
    split_ifs at got with same
    · exact same ▸ (inv.current sound here).trans got
    · exact inv.read y v got
  | store x =>
    simp only [step, Option.ite_none_right_eq_some, Option.map_eq_some_iff] at fires
    obtain ⟨⟨here, new⟩, v, -, rfl⟩ := fires
    exact store_inv sound inv v here (Option.isNone_iff_eq_none.1 new)
  | land x =>
    simp only [step, Option.map_eq_some_iff] at fires
    obtain ⟨v, found, rfl⟩ := fires
    exact land_inv sound inv found
  | leave r =>
    simp only [step, Option.ite_none_right_eq_some, Option.some.injEq] at fires
    obtain ⟨may, rfl⟩ := fires
    exact leave_inv inv may

theorem reachable_inv (sound : Sound p) (reach : (system p before).Reachable s) : Inv p s :=
  reach.invariant (start_inv p before) fun s e s' inv (fires : step p s e = some s') =>
    step_inv sound inv fires

/-! ### Values from a table -/

/-- The table has everywhere the value that comes of its own entries. -/
def Tabulated (p : Protocol ρ κ α V) (table : κ → V) : Prop :=
  ∀ x (got : κ → Option V), (∀ y v, got y = some v → v = table y) →
    ∀ v, p.value x got = some v → v = table x

/-- **What is stored is what the table says.** -/
theorem written_eq (sound : Sound p) {table : κ → V} (tabulated : Tabulated p table)
    (reach : (system p before).Reachable s) : ∀ x v, s.written x = some v → v = table x := by
  induction reach with
  | init => exact fun x v none => nomatch none
  | @step s s' e reach fires ih =>
    have inv := reachable_inv sound reach
    cases e with
    | read x =>
      simp only [system, step, Option.ite_none_right_eq_some, Option.some.injEq] at fires
      obtain ⟨-, rfl⟩ := fires
      exact ih
    | land x =>
      simp only [system, step, Option.map_eq_some_iff] at fires
      obtain ⟨w, -, rfl⟩ := fires
      exact ih
    | leave r =>
      simp only [system, step, Option.ite_none_right_eq_some, Option.some.injEq] at fires
      obtain ⟨-, rfl⟩ := fires
      exact ih
    | store x =>
      intro y v stored
      simp only [system, step, Option.ite_none_right_eq_some, Option.map_eq_some_iff] at fires
      obtain ⟨-, w, value, rfl⟩ := fires
      dsimp only at stored
      rw [update_apply] at stored
      split_ifs at stored with same
      · obtain rfl := Option.some.inj stored
        rw [same]
        exact tabulated x _ (fun z u got => ih z u (inv.read z u got)) _ value
      · exact ih y v stored

/-- What is fetched was stored for this transfer. -/
structure Current (p : Protocol ρ κ α V) (table : κ → V) (s : State ρ κ α V) : Prop where
  /-- A rank that is about to fetch finds in memory what was stored, -/
  now : ∀ x, s.clock (p.reader x) = p.readAt x → s.written x = some (s.memory (p.addr x))
  /-- so this is what has been fetched, -/
  read : ∀ x v, s.read x = some v → s.written x = some v
  /-- by everybody whose clock has gone on, -/
  seen : ∀ x, p.readAt x < s.clock (p.reader x) → (s.read x).isSome
  /-- and it is what the table says. -/
  table : ∀ x v, s.written x = some v → v = table x

theorem current_of_reachable (sound : Sound p) {table : κ → V} (tabulated : Tabulated p table)
    (reach : (system p before).Reachable s) : Current p table s where
  now _ here := (reachable_inv sound reach).current sound here
  read := (reachable_inv sound reach).read
  seen := (reachable_inv sound reach).seen
  table := written_eq sound tabulated reach

end Steps

/-! ### Progress -/

/-- Nobody waits for a time beyond its own, and what is stored needs no more than the writer has
fetched by then. -/
structure Live (p : Protocol ρ κ α V) : Prop where
  waits_le : ∀ k r r', ∀ k' ∈ p.waits k r r', k' ≤ k
  defined : ∀ x (got : κ → Option V), (∀ y, p.reader y = p.writer x →
    p.readAt y ≤ p.writeAt x → (got y).isSome) → (p.value x got).isSome

section Progress

variable [Fintype ρ] [DecidableEq ρ] [DecidableEq κ] [DecidableEq α] {before : α → V}

/-- What may still happen at time `n` while no clock goes on. -/
def fuel (p : Protocol ρ κ α V) (n : ℕ) (s : State ρ κ α V) : ℕ :=
  #{x ∈ p.due n | (s.read x).isNone} + 2 * #{x ∈ p.due n | (s.written x).isNone} +
    #{x ∈ p.due n | (s.pending x).isSome}

omit [Fintype ρ] [DecidableEq ρ] [DecidableEq α] in
theorem card_isNone_update_lt (A : Finset κ) {f : κ → Option V} {x : κ} (v : V) (mem : x ∈ A)
    (none : f x = none) :
    #{y ∈ A | (update f x (some v) y).isNone} < #{y ∈ A | (f y).isNone} := by
  refine card_lt_card (ssubset_iff_of_subset (fun y hy => ?_) |>.2 ⟨x, ?_, ?_⟩)
  · rw [mem_filter] at hy ⊢
    rcases eq_or_ne y x with rfl | other
    · exact ⟨mem, none ▸ rfl⟩
    · rwa [update_of_ne other] at hy
  · exact mem_filter.2 ⟨mem, none ▸ rfl⟩
  · simp

/-- A step that leaves all clocks alone and of which there are only so many. -/
def Spends (p : Protocol ρ κ α V) (n : ℕ) (s : State ρ κ α V) (e : Event ρ κ) : Prop :=
  ∃ s', step p s e = some s' ∧ s'.clock = s.clock ∧ fuel p n s' < fuel p n s

theorem spends_read {x : κ} (now : p.readAt x = s.clock (p.reader x)) (unread : s.read x = none) :
    Spends p (p.readAt x) s (.read x) := by
  refine ⟨_, if_pos now.symm, rfl, ?_⟩
  have fewer := card_isNone_update_lt (p.due (p.readAt x)) (s.memory (p.addr x)) (p.due_read x)
    unread
  simp only [fuel]
  omega

theorem spends_store {x : κ} {v : V} (now : p.writeAt x = s.clock (p.writer x))
    (unwritten : s.written x = none) (value : p.value x s.read = some v) :
    Spends p (p.writeAt x) s (.store x) := by
  have fires : step p s (.store x) = some { s with
      pending := update s.pending x (some v)
      written := update s.written x (some v) } := by
    rw [step, if_pos ⟨now.symm, unwritten ▸ rfl⟩, value]
    rfl
  refine ⟨_, fires, rfl, ?_⟩
  have fewer := card_isNone_update_lt (p.due (p.writeAt x)) v (p.due_write x) unwritten
  have one : #{y ∈ p.due (p.writeAt x) | (update s.pending x (some v) y).isSome} ≤
      #{y ∈ p.due (p.writeAt x) | (s.pending y).isSome} + 1 := by
    refine (card_le_card fun y hy => ?_).trans (card_insert_le x _)
    rcases eq_or_ne y x with rfl | other
    · exact mem_insert_self _ _
    · rw [mem_filter, update_of_ne other] at hy
      exact mem_insert_of_mem (mem_filter.2 hy)
  simp only [fuel]
  omega

theorem spends_land {x : κ} {v : V} (found : s.pending x = some v) :
    Spends p (p.writeAt x) s (.land x) := by
  have fires : step p s (.land x) = some { s with
      memory := update s.memory (p.addr x) v
      pending := update s.pending x none } := by
    rw [step, found]
    rfl
  refine ⟨_, fires, rfl, ?_⟩
  have fewer : #{y ∈ p.due (p.writeAt x) | (update s.pending x none y).isSome} <
      #{y ∈ p.due (p.writeAt x) | (s.pending y).isSome} := by
    refine card_lt_card (ssubset_iff_of_subset (fun y hy => ?_) |>.2 ⟨x, ?_, ?_⟩)
    · rw [mem_filter] at hy ⊢
      rcases eq_or_ne y x with rfl | other
      · simp at hy
      · rwa [update_of_ne other] at hy
    · exact mem_filter.2 ⟨p.due_write x, found ▸ rfl⟩
    · simp
  simp only [fuel]
  omega

/-- As long as the rank that is furthest behind may not go on, it can do something. -/
theorem exists_spends (live : Live p) (inv : Inv p s) {r : ρ}
    (last : ∀ r', s.clock r ≤ s.clock r') (stays : ¬s.MayLeave p r) :
    ∃ e, Spends p (s.clock r) s e := by
  by_cases seen : ∀ x, p.reader x = r → p.readAt x = s.clock r → (s.read x).isSome
  case neg =>
    push Not at seen
    obtain ⟨x, rfl, now, unread⟩ := seen
    exact ⟨_, now ▸ spends_read now (Option.not_isSome_iff_eq_none.1 unread)⟩
  by_cases stored : ∀ x, p.writer x = r → p.writeAt x = s.clock r → (s.written x).isSome
  case neg =>
    push Not at stored
    obtain ⟨x, rfl, now, unwritten⟩ := stored
    have fetched : ∀ y, p.reader y = p.writer x → p.readAt y ≤ p.writeAt x →
        (s.read y).isSome := by
      intro y own le
      rcases le.lt_or_eq with earlier | together
      · exact inv.seen y (own ▸ now ▸ earlier)
      · exact seen y own (together.trans now)
    obtain ⟨v, value⟩ := Option.isSome_iff_exists.1 (live.defined x s.read fetched)
    exact ⟨_, now ▸ spends_store now (Option.not_isSome_iff_eq_none.1 unwritten) value⟩
  by_cases visible : ∀ x, p.writer x = r → p.writeAt x = s.clock r → (s.pending x).isNone
  case neg =>
    push Not at visible
    obtain ⟨x, rfl, now, underWay⟩ := visible
    obtain ⟨v, found⟩ := Option.ne_none_iff_exists'.1 fun none =>
      underWay (Option.isNone_iff_eq_none.2 none)
    exact ⟨_, now ▸ spends_land found⟩
  -- nobody is behind the rank, so all it waits for are there
  exact absurd ⟨stored, seen, visible, fun r' k' waits =>
    (live.waits_le _ _ _ k' waits).trans (last r')⟩ stays

/-- **The rank that is furthest behind gets on.** -/
theorem exists_leave (sound : Sound p) (live : Live p) (reach : (system p before).Reachable s)
    {r : ρ} (last : ∀ r', s.clock r ≤ s.clock r') :
    ∃ s', (system p before).Reachable s' ∧ s'.clock = update s.clock r (s.clock r + 1) := by
  have progress : ∀ t : State ρ κ α V, ((system p before).Reachable t ∧ t.clock = s.clock) →
      ¬t.MayLeave p r → ∃ e t', (system p before).step t e = some t' ∧
        ((system p before).Reachable t' ∧ t'.clock = s.clock) ∧
          fuel p (s.clock r) t' < fuel p (s.clock r) t := by
    rintro t ⟨reach, same⟩ stays
    obtain ⟨e, t', fires, clock, less⟩ := exists_spends live (reachable_inv sound reach)
      (fun r' => by rw [same]; exact last r') stays
    exact ⟨e, t', fires, ⟨.step _ reach fires, clock.trans same⟩, same ▸ less⟩
  obtain ⟨t, leads, ⟨reach', same⟩, may⟩ :=
    TransitionSystem.exists_leads (fuel p (s.clock r)) progress ⟨reach, rfl⟩
  have fires : (system p before).step t (.leave r) =
      some { t with clock := update t.clock r (t.clock r + 1) } := if_pos may
  exact ⟨_, .step _ reach' fires, by rw [← same]⟩

/-- **All ranks get to every time.** -/
theorem exists_reachable (sound : Sound p) (live : Live p) (before : α → V) (n : ℕ) :
    ∃ s, (system p before).Reachable s ∧ ∀ r, s.clock r = n := by
  induction n with
  | zero => exact ⟨_, .init, fun _ => rfl⟩
  | succ n ih =>
    obtain ⟨s, reach, clock⟩ := ih
    have some : ∀ A : Finset ρ, ∃ s, (system p before).Reachable s ∧
        ∀ r, s.clock r = if r ∈ A then n + 1 else n := by
      intro A
      induction A using Finset.induction with
      | empty => exact ⟨s, reach, fun r => (clock r).trans (if_neg (notMem_empty r)).symm⟩
      | insert r A new ih =>
        obtain ⟨t, reach, clock⟩ := ih
        have here : t.clock r = n := (clock r).trans (if_neg new)
        obtain ⟨t', reach', left⟩ := exists_leave sound live reach (r := r) fun r' => by
          rw [here, clock r']
          split_ifs <;> omega
        refine ⟨t', reach', fun r' => ?_⟩
        rw [left, update_apply, here, clock r']
        by_cases same : r' = r
        · rw [if_pos same, if_pos (mem_insert.2 (Or.inl same))]
        · rw [if_neg same]
          exact if_congr ⟨mem_insert_of_mem, fun mem => (mem_insert.1 mem).resolve_left same⟩
            rfl rfl
    obtain ⟨t, reach, clock⟩ := some univ
    exact ⟨t, reach, fun r => (clock r).trans (if_pos (mem_univ r))⟩

end Progress

end Transfers
