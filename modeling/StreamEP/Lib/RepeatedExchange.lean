import Mathlib.Data.Fintype.Sigma
import StreamEP.Lib.Transfers

/-!
# Exchanges that are repeated

Ranks go through the same stages again and again, and in every iteration they store values into
each other's memory.  An iteration has cells of its own, each of which one rank stores and one
fetches; they lie at addresses that the cells of other iterations use as well, in the same or in
another arrangement.  A rank waits at the end of a stage for others to have got to some stage of
the same iteration, for all of them at a barrier and for some at a message.  Nothing else keeps
the ranks together, so one may be an iteration ahead of another.

**One protocol.**  `Stages.protocol` lays the iterations one behind another: it is a protocol of
`Transfers`, in which a time is a stage of an iteration and a transfer a cell of one.  What has to
be shown is about stages alone.

**When that is safe.**  `Sound` has a condition for one iteration, that a reader has waited for its
writer and that no two cells share an address, and a condition for two.  Before a rank stores
where another one has fetched in an earlier iteration it has waited for that rank, either at the
end of its own last iteration or earlier in this one.  Then everything is fetched in the iteration
in which it was stored (`current_of_reachable`).
-/

namespace RepeatedExchange

open Finset

/-- What the iterations consist of. -/
structure Stages (ρ α V : Type*) (Cell : ℕ → Type*) where
  numStages : ℕ
  addr : ∀ i, Cell i → α
  writer : ∀ i, Cell i → ρ
  reader : ∀ i, Cell i → ρ
  writeStage : ∀ i, Cell i → ℕ
  readStage : ∀ i, Cell i → ℕ
  write_lt : ∀ i x, writeStage i x < numStages
  read_lt : ∀ i x, readStage i x < numStages
  /-- The stage that the second rank must have got to before the first one leaves a stage. -/
  waits : ℕ → ρ → ρ → Option ℕ
  /-- What is stored, from what has been fetched in the same iteration. -/
  value : ∀ i, Cell i → (Cell i → Option V) → Option V

variable {ρ α V : Type*} {Cell : ℕ → Type*}

/-- The time of a stage of an iteration. -/
theorem time_div_mod {i k n : ℕ} (hk : k < n) : (i * n + k) / n = i ∧ (i * n + k) % n = k := by
  rw [Nat.mul_comm]
  exact ⟨by rw [Nat.mul_add_div (Nat.zero_lt_of_lt hk), Nat.div_eq_of_lt hk, Nat.add_zero],
    by rw [Nat.mul_add_mod, Nat.mod_eq_of_lt hk]⟩

namespace Stages

variable (e : Stages ρ α V Cell)

/-- A rank in stage `n` knows that `r'` is past stage `m` of the iteration. -/
def Knows (r : ρ) (n : ℕ) (r' : ρ) (m : ℕ) : Prop :=
  r = r' ∧ m < n ∨ ∃ k < n, ∃ k' ∈ e.waits k r r', m < k'

section Protocol

variable [∀ i, Fintype (Cell i)]

/-- All iterations, one behind another. -/
def protocol : Transfers.Protocol ρ (Σ i, Cell i) α V where
  addr x := e.addr x.1 x.2
  writer x := e.writer x.1 x.2
  reader x := e.reader x.1 x.2
  writeAt x := x.1 * e.numStages + e.writeStage x.1 x.2
  readAt x := x.1 * e.numStages + e.readStage x.1 x.2
  waits n r r' := (e.waits (n % e.numStages) r r').map (n / e.numStages * e.numStages + ·)
  value x got := e.value x.1 x.2 fun y => got ⟨x.1, y⟩
  due n := univ.map ⟨Sigma.mk (n / e.numStages), sigma_mk_injective⟩
  due_write x := by
    rw [(time_div_mod (e.write_lt x.1 x.2)).1]
    exact mem_map.2 ⟨x.2, mem_univ _, rfl⟩
  due_read x := by
    rw [(time_div_mod (e.read_lt x.1 x.2)).1]
    exact mem_map.2 ⟨x.2, mem_univ _, rfl⟩

/-- A wait in an iteration. -/
theorem mem_waits {i k k' : ℕ} {r r' : ρ} (hk : k < e.numStages) (waits : k' ∈ e.waits k r r') :
    i * e.numStages + k' ∈ e.protocol.waits (i * e.numStages + k) r r' := by
  obtain ⟨div, mod⟩ := time_div_mod (i := i) hk
  show Option.map _ _ = _
  rw [div, mod, Option.mem_def.1 waits]
  rfl

/-- What is known in an iteration. -/
theorem Knows.protocol {r r' : ρ} {n m : ℕ} (knows : e.Knows r n r' m) (hn : n < e.numStages)
    (i : ℕ) : e.protocol.Knows r (i * e.numStages + n) r' (i * e.numStages + m) := by
  rcases knows with ⟨same, before⟩ | ⟨k, before, k', waits, behind⟩
  · exact Or.inl ⟨same, Nat.add_lt_add_left before _⟩
  · exact Or.inr ⟨_, Nat.add_lt_add_left before _, _, e.mem_waits (before.trans hn) waits,
      Nat.add_lt_add_left behind _⟩

end Protocol

end Stages

/-- Where the waits stand. -/
structure Sound (e : Stages ρ α V Cell) : Prop where
  /-- A reader has waited for its writer, -/
  fresh : ∀ i x, e.Knows (e.reader i x) (e.readStage i x) (e.writer i x) (e.writeStage i x)
  /-- no address is used twice in an iteration, -/
  alone : ∀ i, Function.Injective (e.addr i)
  /-- and who stores where another rank has fetched has waited for it. -/
  free : ∀ i j x y, i < j → e.addr i x = e.addr j y →
    (∃ k < e.numStages, ∃ k' ∈ e.waits k (e.writer j y) (e.reader i x), e.readStage i x < k') ∨
      ∃ k < e.writeStage j y, (e.waits k (e.writer j y) (e.reader i x)).isSome

variable {e : Stages ρ α V Cell}

section Runs

variable [∀ i, Fintype (Cell i)]

/-- A later iteration stores when the earlier one has fetched. -/
theorem Sound.precedes (sound : Sound e) {i j : ℕ} {x : Cell i} {y : Cell j} (later : i < j)
    (same : e.addr i x = e.addr j y) : e.protocol.Precedes ⟨i, x⟩ ⟨j, y⟩ := by
  have whole : i * e.numStages + e.numStages ≤ j * e.numStages := by
    rw [← Nat.succ_mul]
    exact Nat.mul_le_mul_right _ later
  have inside := e.read_lt i x
  rcases sound.free i j x y later same with ⟨k, hk, k', waits, behind⟩ | ⟨k, hk, waits⟩
  · refine Or.inr ⟨i * e.numStages + k, ?_, _, e.mem_waits hk waits, Nat.add_lt_add_left behind _⟩
    show _ < j * e.numStages + _
    omega
  · obtain ⟨k', waits⟩ := Option.isSome_iff_exists.1 waits
    refine Or.inr ⟨j * e.numStages + k, Nat.add_lt_add_left hk _, _,
      e.mem_waits (hk.trans (e.write_lt j y)) waits, ?_⟩
    show i * e.numStages + e.readStage i x < j * e.numStages + k'
    omega

theorem Sound.protocol (sound : Sound e) : Transfers.Sound e.protocol where
  fresh := fun ⟨i, x⟩ => (sound.fresh i x).protocol e (e.read_lt i x) i
  free := by
    rintro ⟨i, x⟩ ⟨j, y⟩ same other
    rcases lt_trichotomy i j with before | rfl | after
    · exact Or.inl (sound.precedes before same)
    · exact absurd (congrArg (Sigma.mk i) (sound.alone i same)) other
    · exact Or.inr (sound.precedes after same.symm)

/-- The tables of the iterations have everywhere the value that comes of their own entries. -/
def Tabulated (e : Stages ρ α V Cell) (table : ∀ i, Cell i → V) : Prop :=
  ∀ i x (got : Cell i → Option V), (∀ y v, got y = some v → v = table i y) →
    ∀ v, e.value i x got = some v → v = table i x

/-- Nobody waits for a stage beyond its own, and what is stored needs no more than the writer has
fetched by then. -/
structure Live (e : Stages ρ α V Cell) : Prop where
  waits_le : ∀ k r r', ∀ k' ∈ e.waits k r r', k' ≤ k
  defined : ∀ i x (got : Cell i → Option V), (∀ y, e.reader i y = e.writer i x →
    e.readStage i y ≤ e.writeStage i x → (got y).isSome) → (e.value i x got).isSome

theorem Live.protocol (live : Live e) : Transfers.Live e.protocol where
  waits_le n r r' k' met := by
    obtain ⟨k, waits, rfl⟩ := Option.map_eq_some_iff.1 (Option.mem_def.1 met)
    have le := live.waits_le _ r r' k waits
    have split := Nat.div_add_mod' n e.numStages
    omega
  defined := fun ⟨i, x⟩ got before =>
    live.defined i x _ fun y own le => before ⟨i, y⟩ own (Nat.add_le_add_left le _)

variable [Fintype ρ] [DecidableEq ρ] [∀ i, DecidableEq (Cell i)] [DecidableEq α]

/-- **Everything is fetched in the iteration in which it was stored.** -/
theorem current_of_reachable (sound : Sound e) {table : ∀ i, Cell i → V}
    (tabulated : Tabulated e table) {before : α → V}
    {s : Transfers.State ρ (Σ i, Cell i) α V}
    (reach : (Transfers.system e.protocol before).Reachable s) :
    Transfers.Current e.protocol (fun x => table x.1 x.2) s :=
  Transfers.current_of_reachable sound.protocol
    (fun ⟨i, x⟩ _ agrees => tabulated i x _ fun y => agrees ⟨i, y⟩) reach

end Runs

end RepeatedExchange
