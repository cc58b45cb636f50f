import Mathlib.Algebra.Order.BigOperators.Group.Finset
import Mathlib.Data.Fintype.Basic
import StreamEP.Lib.LookAhead
import StreamEP.Lib.Store
import StreamEP.Lib.TransitionSystem

/-!
# A coordinator that scans heads

Readers share a stream.  Each goes through entries that look ahead, and shows in its head the
place it may need next; one that has no entries left retires.  A coordinator reads, reader by
reader, whether it has retired, and if not, its head, and passes on the minimum when it has
moved far enough since the last time.

* Whatever minimum a scan finds, no reader still needs a place before it (`Inv`), although
  the readers go on while the coordinator scans.
* The minima of successive scans do not decrease when the heads do not (`Ascending`).
* What has been passed on is no more than what has been read, as long as the minimum is not
  the sentinel of the entries (`Counted`).

**A scan under way.**  The coordinator has looked at some readers and not at others.  For those
it has looked at, the minimum so far is a lower bound of the places they need, now as then,
because what a reader needs only gets less (`needed_mono`); for the others it will look.  So
`Inv` has the readers below the scan's position apart, and holds at the end for all of them.

**The sentinel.**  A reader that has no place ahead shows the sentinel.  When all that have not
retired do, the minimum is the sentinel, which is not a place, and passing it on as one is what
`MeaningfulFrontier` excludes.

`Plan.replay` is the plan of readers that share the numbers of a range, each in ascending
order; it has all these properties when the entries are those of `LookAhead`
(`Shares.freesRead`).
-/

namespace HeadScan

open Finset Function LookAhead

variable {n : ℕ}

/-- What the readers take, and how the coordinator decides. -/
structure Plan (n : ℕ) where
  /-- How many entries a reader takes, -/
  count : Fin n → ℕ
  /-- and which. -/
  entry : Fin n → ℕ → ℤ
  /-- A reader's head when it is done with an entry. -/
  headAtEnd : ℤ → ℕ
  /-- The least advance that is passed on. -/
  threshold : ℕ
  /-- What a scan starts from, larger than any head. -/
  top : ℕ

structure State (n : ℕ) where
  /-- The places before it have arrived, as far as a reader has seen. -/
  seen : Fin n → ℤ
  /-- Entries a reader is done with. -/
  done : Fin n → ℕ
  reading : Fin n → Bool
  head : Fin n → ℕ
  retired : Fin n → Bool
  /-- Readers that the scan has passed. -/
  scanned : ℕ
  /-- The next one has been found not to have retired. -/
  flagged : Bool
  minHead : ℕ
  lastHead : ℕ
  /-- What the scans have found, latest first, -/
  minima : List ℕ
  /-- what of it has been passed on, -/
  published : List ℕ
  /-- and by how much in all. -/
  returned : ℕ

inductive Event (n : ℕ) where
  | see (w : Fin n) (arrived : ℤ)
  | take (w : Fin n)
  | finish (w : Fin n)
  | retire (w : Fin n)
  | flag
  | look
  | close

section Step

variable (p : Plan n)

def start : State n where
  seen _ := 0
  done _ := 0
  reading _ := false
  head _ := 0
  retired _ := false
  scanned := 0
  flagged := false
  minHead := p.top
  lastHead := 0
  minima := []
  published := []
  returned := 0

/-- The coordinator acts on the scan. -/
def PassesOn (s : State n) : Prop := s.minHead ≠ p.top ∧ s.lastHead + p.threshold ≤ s.minHead

instance (s : State n) : Decidable (PassesOn p s) := by
  unfold PassesOn
  infer_instance

/-- The end of a scan. -/
def State.close (s : State n) : State n :=
  { s with
    scanned := 0
    minHead := p.top
    minima := s.minHead :: s.minima
    lastHead := if PassesOn p s then s.minHead else s.lastHead
    published := if PassesOn p s then s.minHead :: s.published else s.published
    returned := s.returned + if PassesOn p s then s.minHead - s.lastHead else 0 }

def step (s : State n) : Event n → Option (State n)
  | .see w arrived => some { s with seen := update s.seen w arrived }
  | .take w =>
      if s.reading w = false ∧ s.done w < p.count w then
        some
          { s with
            reading := update s.reading w true
            head := update s.head w (decode (p.entry w (s.done w))) }
      else none
  | .finish w =>
      if s.reading w = true ∧ p.entry w (s.done w) < s.seen w then
        some
          { s with
            reading := update s.reading w false
            done := update s.done w (s.done w + 1)
            head := update s.head w (p.headAtEnd (p.entry w (s.done w))) }
      else none
  | .retire w =>
      if s.reading w = false ∧ s.done w = p.count w then
        some { s with retired := update s.retired w true }
      else none
  | .flag =>
      if h : s.scanned < n then
        if s.flagged = true then none
        else if s.retired ⟨s.scanned, h⟩ = true then some { s with scanned := s.scanned + 1 }
        else some { s with flagged := true }
      else none
  | .look =>
      if h : s.scanned < n then
        if s.flagged = true then
          some
            { s with
              scanned := s.scanned + 1
              flagged := false
              minHead := min s.minHead (s.head ⟨s.scanned, h⟩) }
        else none
      else none
  | .close => if s.scanned = n then some (s.close p) else none

def system : TransitionSystem (State n) (Event n) where
  init := start p
  step := step p

/-- An entry with a place that the reader has not read yet. -/
def Needed (s : State n) (w : Fin n) (m : ℕ) : Prop :=
  s.done w ≤ m ∧ m < p.count w ∧ 0 ≤ p.entry w m

/-- A reader's head is never ahead of a place that it reads later. -/
structure Plan.Sound : Prop where
  take_le : ∀ w m m', m ≤ m' → m' < p.count w → 0 ≤ p.entry w m' →
    (decode (p.entry w m) : ℤ) ≤ p.entry w m'
  finish_le : ∀ w m m', m < m' → m' < p.count w → 0 ≤ p.entry w m' →
    (p.headAtEnd (p.entry w m) : ℤ) ≤ p.entry w m'

/-- **What no interleaving breaks.** -/
structure Inv (s : State n) : Prop where
  head : ∀ w m, Needed p s w m → (s.head w : ℤ) ≤ p.entry w m
  reading : ∀ w, s.reading w = true → s.done w < p.count w
  retired : ∀ w, s.retired w = true → s.done w = p.count w
  scan : ∀ w m, w.val < s.scanned → Needed p s w m → (s.minHead : ℤ) ≤ p.entry w m
  lastHead : ∀ w m, Needed p s w m → (s.lastHead : ℤ) ≤ p.entry w m
  published : ∀ b ∈ s.published, b ≤ s.lastHead
  rises : s.published.Pairwise (· ≥ ·)
  returned : s.returned = s.lastHead

end Step

variable {p : Plan n} {s s' : State n}

theorem PassesOn.le (passes : PassesOn p s) : s.lastHead ≤ s.minHead :=
  (Nat.le_add_right _ _).trans passes.2

theorem needed_mono {done : Fin n → ℕ} (grows : ∀ w, s.done w ≤ done w) {w m}
    (needed : Needed p { s with done := done } w m) : Needed p s w m :=
  ⟨(grows w).trans needed.1, needed.2⟩

theorem le_update_succ (f : Fin n → ℕ) (w w' : Fin n) :
    f w' ≤ update f w (f w + 1) w' := by
  rw [update_apply]
  split_ifs with here
  · exact here ▸ Nat.le_succ _
  · exact le_rfl

/-- **Every step keeps the invariant.** -/
theorem Inv.step (inv : Inv p s) (sound : p.Sound) {e : Event n}
    (fires : HeadScan.step p s e = some s') : Inv p s' := by
  cases e with
  | see w arrived =>
      obtain rfl := Option.some.inj fires
      exact { inv with }
  | take w =>
      simp only [HeadScan.step, Option.ite_none_right_eq_some, Option.some.injEq] at fires
      obtain ⟨⟨-, lt⟩, rfl⟩ := fires
      refine { inv with head := fun w' m needed => ?_, reading := fun w' reads => ?_ }
      · dsimp only
        rw [update_apply]
        split_ifs with here
        · subst here
          exact sound.take_le w' _ m needed.1 needed.2.1 needed.2.2
        · exact inv.head w' m needed
      · rcases Store.update_cases reads with ⟨rfl, -⟩ | ⟨-, reads⟩
        · exact lt
        · exact inv.reading w' reads
  | finish w =>
      simp only [HeadScan.step, Option.ite_none_right_eq_some, Option.some.injEq] at fires
      obtain ⟨⟨reads, -⟩, rfl⟩ := fires
      have grows := le_update_succ s.done w
      have lt := inv.reading w reads
      -- fewer entries are needed than before, so the bounds of the other readers stay
      refine ⟨fun w' m needed => ?_, fun w' reads' => ?_, fun w' retired => ?_,
        fun w' m passed needed => inv.scan w' m passed (needed_mono grows needed),
        fun w' m needed => inv.lastHead w' m (needed_mono grows needed), inv.published,
        inv.rises, inv.returned⟩
      · dsimp only
        rw [update_apply]
        split_ifs with here
        · subst here
          have after := needed.1
          dsimp only at after
          rw [update_self] at after
          exact sound.finish_le w' _ m after needed.2.1 needed.2.2
        · exact inv.head w' m (needed_mono grows needed)
      · rcases Store.update_cases reads' with ⟨-, no⟩ | ⟨other, reads'⟩
        · exact Bool.noConfusion no
        · dsimp only
          rw [update_of_ne other]
          exact inv.reading w' reads'
      · rcases eq_or_ne w' w with rfl | other
        · exact absurd (inv.retired w' retired) lt.ne
        · dsimp only
          rw [update_of_ne other]
          exact inv.retired w' retired
  | retire w =>
      simp only [HeadScan.step, Option.ite_none_right_eq_some, Option.some.injEq] at fires
      obtain ⟨⟨-, all⟩, rfl⟩ := fires
      refine { inv with retired := fun w' retired => ?_ }
      rcases Store.update_cases retired with ⟨rfl, -⟩ | ⟨-, retired⟩
      · exact all
      · exact inv.retired w' retired
  | flag =>
      simp only [HeadScan.step] at fires
      split_ifs at fires with inside running retired
      · obtain rfl := Option.some.inj fires
        refine { inv with scan := fun w' m passed needed => ?_ }
        rcases Nat.lt_succ_iff_lt_or_eq.1 passed with before | here
        · exact inv.scan w' m before needed
        · -- a reader that has retired needs nothing
          obtain rfl : w' = ⟨s.scanned, inside⟩ := Fin.ext here
          have all := inv.retired _ retired
          exact absurd (needed.1.trans_lt needed.2.1) (all ▸ lt_irrefl _)
      · obtain rfl := Option.some.inj fires
        exact { inv with }
  | look =>
      simp only [HeadScan.step] at fires
      split_ifs at fires with inside flagged
      obtain rfl := Option.some.inj fires
      refine { inv with scan := fun w' m passed needed => ?_ }
      -- the minimum takes in the head that has just been looked at
      rcases Nat.lt_succ_iff_lt_or_eq.1 passed with before | here
      · exact (Int.ofNat_le.2 (min_le_left _ _)).trans (inv.scan w' m before needed)
      · obtain rfl : w' = ⟨s.scanned, inside⟩ := Fin.ext here
        exact (Int.ofNat_le.2 (min_le_right _ _)).trans (inv.head _ m needed)
  | close =>
      simp only [HeadScan.step, Option.ite_none_right_eq_some, Option.some.injEq] at fires
      obtain ⟨all, rfl⟩ := fires
      -- the scan has passed every reader
      have scan : ∀ w m, Needed p s w m → (s.minHead : ℤ) ≤ p.entry w m := fun w m needed =>
        inv.scan w m (w.isLt.trans_eq all.symm) needed
      refine { inv with
        scan := fun w m passed _ => absurd passed (Nat.not_lt_zero _)
        lastHead := fun w m needed => ?_
        published := ?_
        rises := ?_
        returned := ?_ }
      all_goals
        dsimp only [State.close]
        split_ifs with passes
      · exact scan w m needed
      · exact inv.lastHead w m needed
      · exact fun b mem => (List.mem_cons.1 mem).elim le_of_eq fun before =>
          (inv.published b before).trans passes.le
      · exact inv.published
      · exact inv.rises.cons fun b before =>
          (inv.published b before).trans passes.le
      · exact inv.rises
      · rw [inv.returned, Nat.add_sub_cancel' passes.le]
      · exact inv.returned

theorem start_inv (p : Plan n) : Inv p (start p) where
  head _ _ needed := needed.2.2
  reading _ reads := Bool.noConfusion reads
  retired _ retired := Bool.noConfusion retired
  scan _ _ passed _ := absurd passed (Nat.not_lt_zero _)
  lastHead _ _ needed := needed.2.2
  published _ none := absurd none List.not_mem_nil
  rises := List.Pairwise.nil
  returned := rfl

/-- What an event passes on. -/
def passed (p : Plan n) (s : State n) : Event n → List ℕ
  | .close => if PassesOn p s then [s.minHead - s.lastHead] else []
  | _ => []

/-- What a step has in common with any other: entries are read when they have been seen to
have arrived, and nothing is taken back. -/
structure Moves (p : Plan n) (s s' : State n) (e : Event n) : Prop where
  seen : s'.seen = s.seen ∨ ∃ w arrived, e = .see w arrived
  done : ∀ w, s.done w ≤ s'.done w
  read : ∀ w m, m < s'.done w → m < s.done w ∨ p.entry w m < s.seen w ∧ s.reading w = true
  retired : ∀ w, s.retired w = true → s'.retired w = true
  returned : s'.returned = s.returned + (passed p s e).sum

theorem step_moves {e : Event n} (fires : HeadScan.step p s e = some s') : Moves p s s' e := by
  cases e with
  | see w arrived =>
      obtain rfl := Option.some.inj fires
      exact ⟨Or.inr ⟨w, arrived, rfl⟩, fun _ => le_rfl, fun _ _ => Or.inl, fun _ => id, rfl⟩
  | take w =>
      simp only [HeadScan.step, Option.ite_none_right_eq_some, Option.some.injEq] at fires
      obtain ⟨-, rfl⟩ := fires
      exact ⟨Or.inl rfl, fun _ => le_rfl, fun _ _ => Or.inl, fun _ => id, rfl⟩
  | finish w =>
      simp only [HeadScan.step, Option.ite_none_right_eq_some, Option.some.injEq] at fires
      obtain ⟨⟨reads, arrived⟩, rfl⟩ := fires
      refine ⟨Or.inl rfl, le_update_succ s.done w, fun w' m read => ?_, fun _ => id, rfl⟩
      dsimp only at read
      rw [update_apply] at read
      split_ifs at read with here
      · subst here
        rcases Nat.lt_succ_iff_lt_or_eq.1 read with before | rfl
        · exact Or.inl before
        · exact Or.inr ⟨arrived, reads⟩
      · exact Or.inl read
  | retire w =>
      simp only [HeadScan.step, Option.ite_none_right_eq_some, Option.some.injEq] at fires
      obtain ⟨-, rfl⟩ := fires
      refine ⟨Or.inl rfl, fun _ => le_rfl, fun _ _ => Or.inl, fun w' retired => ?_, rfl⟩
      dsimp only
      rw [update_apply, retired, ite_self]
  | flag =>
      simp only [HeadScan.step] at fires
      split_ifs at fires
      all_goals
        obtain rfl := Option.some.inj fires
        exact ⟨Or.inl rfl, fun _ => le_rfl, fun _ _ => Or.inl, fun _ => id, rfl⟩
  | look =>
      simp only [HeadScan.step] at fires
      split_ifs at fires
      obtain rfl := Option.some.inj fires
      exact ⟨Or.inl rfl, fun _ => le_rfl, fun _ _ => Or.inl, fun _ => id, rfl⟩
  | close =>
      simp only [HeadScan.step, Option.ite_none_right_eq_some, Option.some.injEq] at fires
      obtain ⟨-, rfl⟩ := fires
      refine ⟨Or.inl rfl, fun _ => le_rfl, fun _ _ => Or.inl, fun _ => id, ?_⟩
      dsimp only [State.close, passed]
      split_ifs
      · rw [List.sum_singleton]
      · rfl

/-! ### Minima do not decrease -/

/-- A reader's head does not fall back. -/
structure Plan.Rising (p : Plan n) : Prop where
  take_le : ∀ w m, m + 1 < p.count w →
    p.headAtEnd (p.entry w m) ≤ decode (p.entry w (m + 1))
  finish_le : ∀ w m, m < p.count w → decode (p.entry w m) ≤ p.headAtEnd (p.entry w m)

/-- Where heads and minima stand to each other. -/
structure Ascending (p : Plan n) (s : State n) : Prop where
  idle : ∀ w, s.reading w = false → s.done w < p.count w →
    s.head w ≤ decode (p.entry w (s.done w))
  reading : ∀ w, s.reading w = true →
    s.done w < p.count w ∧ s.head w = decode (p.entry w (s.done w))
  minima : ∀ b ∈ s.minima, ∀ w, s.retired w = false → b ≤ s.head w
  flagged : s.flagged = true →
    ∃ h : s.scanned < n, ∀ b ∈ s.minima, b ≤ s.head ⟨s.scanned, h⟩
  scan : ∀ w, w.val < s.scanned → s.retired w = false → s.minHead ≤ s.head w
  minHead : ∀ b ∈ s.minima, b ≤ s.minHead
  top : s.minHead ≤ p.top
  rises : s.minima.Pairwise (· ≥ ·)

/-- Heads that rise leave the minima behind them. -/
theorem Ascending.move (asc : Ascending p s) {done head : Fin n → ℕ} {reading : Fin n → Bool}
    (up : ∀ w, s.head w ≤ head w)
    (idle : ∀ w, reading w = false → done w < p.count w → head w ≤ decode (p.entry w (done w)))
    (reads : ∀ w, reading w = true →
      done w < p.count w ∧ head w = decode (p.entry w (done w))) :
    Ascending p { s with done := done, reading := reading, head := head } where
  __ := asc
  idle := idle
  reading := reads
  minima b mem w running := (asc.minima b mem w running).trans (up w)
  flagged flagged :=
    have ⟨h, le⟩ := asc.flagged flagged
    ⟨h, fun b mem => (le b mem).trans (up _)⟩
  scan w passed running := (asc.scan w passed running).trans (up w)

theorem le_update {f : Fin n → ℕ} {w : Fin n} {v : ℕ} (le : f w ≤ v) (w' : Fin n) :
    f w' ≤ update f w v w' := by
  rw [update_apply]
  split_ifs with here
  · exact here ▸ le
  · exact le_rfl

/-- **Every step keeps the order of heads and minima.** -/
theorem Ascending.step (asc : Ascending p s) (rising : p.Rising) {e : Event n}
    (fires : HeadScan.step p s e = some s') : Ascending p s' := by
  cases e with
  | see w arrived =>
      obtain rfl := Option.some.inj fires
      exact { asc with }
  | take w =>
      simp only [HeadScan.step, Option.ite_none_right_eq_some, Option.some.injEq] at fires
      obtain ⟨⟨idle, lt⟩, rfl⟩ := fires
      refine asc.move (le_update (asc.idle w idle lt)) (fun w' still more => ?_)
        fun w' reads => ?_
      · rcases Store.update_cases still with ⟨-, no⟩ | ⟨other, still⟩
        · exact Bool.noConfusion no
        · rw [update_of_ne other]
          exact asc.idle w' still more
      · rcases Store.update_cases reads with ⟨rfl, -⟩ | ⟨other, reads⟩
        · exact ⟨lt, update_self _ _ _⟩
        · rw [update_of_ne other]
          exact asc.reading w' reads
  | finish w =>
      simp only [HeadScan.step, Option.ite_none_right_eq_some, Option.some.injEq] at fires
      obtain ⟨⟨reads, -⟩, rfl⟩ := fires
      have ⟨lt, here⟩ := asc.reading w reads
      refine asc.move (le_update (here ▸ rising.finish_le w _ lt)) (fun w' still more => ?_)
        fun w' reads' => ?_
      · rcases Store.update_cases still with ⟨rfl, -⟩ | ⟨other, still⟩
        · rw [update_self] at more
          rw [update_self, update_self]
          exact rising.take_le w' _ more
        · rw [update_of_ne other] at more
          rw [update_of_ne other, update_of_ne other]
          exact asc.idle w' still more
      · rcases Store.update_cases reads' with ⟨-, no⟩ | ⟨other, reads'⟩
        · exact Bool.noConfusion no
        · rw [update_of_ne other, update_of_ne other]
          exact asc.reading w' reads'
  | retire w =>
      simp only [HeadScan.step, Option.ite_none_right_eq_some, Option.some.injEq] at fires
      obtain ⟨-, rfl⟩ := fires
      have before : ∀ {w'}, update s.retired w true w' = false → s.retired w' = false := by
        intro w' running
        rcases Store.update_cases running with ⟨-, no⟩ | ⟨-, running⟩
        · exact Bool.noConfusion no
        · exact running
      exact { asc with
        minima := fun b mem w' running => asc.minima b mem w' (before running)
        scan := fun w' passed running => asc.scan w' passed (before running) }
  | flag =>
      simp only [HeadScan.step] at fires
      split_ifs at fires with inside flagged retired
      · obtain rfl := Option.some.inj fires
        refine { asc with
          flagged := fun flagged' => absurd flagged' flagged
          scan := fun w passed running => ?_ }
        rcases Nat.lt_succ_iff_lt_or_eq.1 passed with before | here
        · exact asc.scan w before running
        · obtain rfl : w = ⟨s.scanned, inside⟩ := Fin.ext here
          exact Bool.noConfusion (retired.symm.trans running)
      · obtain rfl := Option.some.inj fires
        exact { asc with
          flagged := fun _ => ⟨inside, fun b mem =>
            asc.minima b mem _ (Bool.eq_false_of_not_eq_true retired)⟩ }
  | look =>
      simp only [HeadScan.step] at fires
      split_ifs at fires with inside flagged
      obtain rfl := Option.some.inj fires
      exact { asc with
        flagged := fun no => Bool.noConfusion no
        scan := fun w passed running => by
          rcases Nat.lt_succ_iff_lt_or_eq.1 passed with before | here
          · exact (min_le_left _ _).trans (asc.scan w before running)
          · obtain rfl : w = ⟨s.scanned, inside⟩ := Fin.ext here
            exact min_le_right _ _
        minHead := fun b mem => le_min (asc.minHead b mem) ((asc.flagged flagged).2 b mem)
        top := (min_le_left _ _).trans asc.top }
  | close =>
      simp only [HeadScan.step, Option.ite_none_right_eq_some, Option.some.injEq] at fires
      obtain ⟨all, rfl⟩ := fires
      have scan : ∀ w, s.retired w = false → s.minHead ≤ s.head w := fun w running =>
        asc.scan w (w.isLt.trans_eq all.symm) running
      exact { asc with
        minima := fun b mem w running => (List.mem_cons.1 mem).elim
          (fun latest => latest ▸ scan w running) fun before => asc.minima b before w running
        flagged := fun flagged => absurd all (asc.flagged flagged).1.ne
        scan := fun w passed _ => absurd passed (Nat.not_lt_zero _)
        minHead := fun b mem => (List.mem_cons.1 mem).elim
          (fun latest => latest ▸ asc.top) fun before => (asc.minHead b before).trans asc.top
        top := le_rfl
        rises := asc.rises.cons asc.minHead }

theorem start_ascending (p : Plan n) : Ascending p (start p) where
  idle _ _ _ := Nat.zero_le _
  reading _ reads := Bool.noConfusion reads
  minima _ none := absurd none List.not_mem_nil
  flagged flagged := Bool.noConfusion flagged
  scan _ passed _ := absurd passed (Nat.not_lt_zero _)
  minHead _ none := absurd none List.not_mem_nil
  top := le_rfl
  rises := List.Pairwise.nil

/-! ### What has been passed on has been read -/

/-- How many entries with a place have been read. -/
def consumed (p : Plan n) (s : State n) : ℕ :=
  ∑ w, #{m ∈ range (s.done w) | 0 ≤ p.entry w m}

/-- A head is the sentinel, or at most the number of places. -/
def Placed (total sentinel h : ℕ) : Prop := h = sentinel ∨ h ≤ total

structure Plan.Bounded (p : Plan n) (total sentinel : ℕ) : Prop where
  covers : ∀ q < total, ∃ w m, m < p.count w ∧ p.entry w m = q
  take : ∀ w m, m < p.count w → Placed total sentinel (decode (p.entry w m))
  finish : ∀ w m, m < p.count w → Placed total sentinel (p.headAtEnd (p.entry w m))

/-- The sentinel is not passed on for a place. -/
def MeaningfulFrontier (p : Plan n) (total sentinel : ℕ) (s : State n) : Event n → Prop
  | .close => PassesOn p s → s.minHead = sentinel → sentinel ≤ total
  | _ => True

instance (p : Plan n) (total sentinel : ℕ) (s : State n) (e : Event n) :
    Decidable (MeaningfulFrontier p total sentinel s e) :=
  match e with
  | .close => inferInstanceAs (Decidable (_ → _ → _))
  | .see .. | .take _ | .finish _ | .retire _ | .flag | .look => isTrue trivial

/-- What is passed on stays among the places. -/
structure Counted (p : Plan n) (total sentinel : ℕ) (s : State n) : Prop where
  head : ∀ w, Placed total sentinel (s.head w)
  minHead : s.minHead = p.top ∨ Placed total sentinel s.minHead
  lastHead : s.lastHead ≤ total

theorem placed_update {f : Fin n → ℕ} {total sentinel h : ℕ} (w : Fin n)
    (placed : ∀ w, Placed total sentinel (f w)) (here : Placed total sentinel h) (w' : Fin n) :
    Placed total sentinel (update f w h w') := by
  rw [update_apply]
  split_ifs
  · exact here
  · exact placed w'

/-- **Every step that does not pass the sentinel on keeps what is passed on bounded.** -/
theorem Counted.step {total sentinel : ℕ} (counted : Counted p total sentinel s)
    (inv : Inv p s) (bounded : p.Bounded total sentinel) {e : Event n}
    (meets : MeaningfulFrontier p total sentinel s e)
    (fires : HeadScan.step p s e = some s') : Counted p total sentinel s' := by
  cases e with
  | see w arrived =>
      obtain rfl := Option.some.inj fires
      exact { counted with }
  | take w =>
      simp only [HeadScan.step, Option.ite_none_right_eq_some, Option.some.injEq] at fires
      obtain ⟨⟨-, lt⟩, rfl⟩ := fires
      exact { counted with head := placed_update w counted.head (bounded.take w _ lt) }
  | finish w =>
      simp only [HeadScan.step, Option.ite_none_right_eq_some, Option.some.injEq] at fires
      obtain ⟨⟨reads, -⟩, rfl⟩ := fires
      exact { counted with
        head := placed_update w counted.head (bounded.finish w _ (inv.reading w reads)) }
  | retire w =>
      simp only [HeadScan.step, Option.ite_none_right_eq_some, Option.some.injEq] at fires
      obtain ⟨-, rfl⟩ := fires
      exact { counted with }
  | flag =>
      simp only [HeadScan.step] at fires
      split_ifs at fires
      all_goals
        obtain rfl := Option.some.inj fires
        exact { counted with }
  | look =>
      simp only [HeadScan.step] at fires
      split_ifs at fires with inside
      obtain rfl := Option.some.inj fires
      refine { counted with minHead := ?_ }
      rcases min_choice s.minHead (s.head ⟨s.scanned, inside⟩) with before | here
      · dsimp only
        rw [before]
        exact counted.minHead
      · dsimp only
        rw [here]
        exact Or.inr (counted.head _)
  | close =>
      simp only [HeadScan.step, Option.ite_none_right_eq_some, Option.some.injEq] at fires
      obtain ⟨-, rfl⟩ := fires
      refine { counted with minHead := Or.inl rfl, lastHead := ?_ }
      dsimp only [State.close]
      split_ifs with passes
      · rcases counted.minHead with none | no_place | within
        · exact absurd none passes.1
        · exact no_place.le.trans (meets passes no_place)
        · exact within
      · exact counted.lastHead

theorem start_counted (p : Plan n) (total sentinel : ℕ) : Counted p total sentinel (start p) where
  head _ := Or.inr (Nat.zero_le _)
  minHead := Or.inl rfl
  lastHead := Nat.zero_le _

/-- **What has been passed on has been read**, place by place. -/
theorem Counted.returned_le {total sentinel : ℕ} (counted : Counted p total sentinel s)
    (inv : Inv p s) (bounded : p.Bounded total sentinel) : s.returned ≤ consumed p s := by
  -- the places that have been read, reader by reader
  let read (w : Fin n) : Finset ℕ :=
    {m ∈ range (s.done w) | 0 ≤ p.entry w m}.image fun m => (p.entry w m).toNat
  have all_read : range s.lastHead ⊆ univ.biUnion read := by
    intro q below
    have below := mem_range.1 below
    obtain ⟨w, m, taken, place⟩ := bounded.covers q (below.trans_le counted.lastHead)
    have real : 0 ≤ p.entry w m := place ▸ Int.natCast_nonneg q
    refine mem_biUnion.2 ⟨w, mem_univ w, mem_image.2 ⟨m, mem_filter.2 ⟨mem_range.2 ?_, real⟩, ?_⟩⟩
    · by_contra unread
      have le := inv.lastHead w m ⟨not_lt.1 unread, taken, real⟩
      rw [place] at le
      exact below.not_ge (Int.ofNat_le.1 le)
    · rw [place, Int.toNat_natCast]
  calc s.returned = #(range s.lastHead) := by rw [card_range, inv.returned]
    _ ≤ #(univ.biUnion read) := card_le_card all_read
    _ ≤ ∑ w, #(read w) := card_biUnion_le
    _ ≤ consumed p s := sum_le_sum fun w _ => card_image_le

/-! ### Whole runs -/

theorem reachable_inv (sound : p.Sound) (reach : (system p).Reachable s) : Inv p s :=
  reach.invariant (start_inv p) fun _ _ _ inv fires => inv.step sound fires

theorem reachable_ascending (rising : p.Rising) (reach : (system p).Reachable s) :
    Ascending p s :=
  reach.invariant (start_ascending p) fun _ _ _ asc fires => asc.step rising fires

theorem returned_le_consumed {total sentinel : ℕ} (sound : p.Sound)
    (bounded : p.Bounded total sentinel)
    (reach : (system p).ReachableUnder (MeaningfulFrontier p total sentinel) s) :
    s.returned ≤ consumed p s := by
  have both : Inv p s ∧ Counted p total sentinel s := by
    induction reach with
    | init => exact ⟨start_inv p, start_counted p total sentinel⟩
    | step e _ meets fires ih =>
        exact ⟨ih.1.step sound fires, ih.2.step ih.1 bounded meets fires⟩
  exact both.2.returned_le both.1 bounded

/-- Whatever has been passed on lies before all that is still needed, and neither it nor the
minima that the scans find ever fall. -/
structure FreesRead (p : Plan n) (total sentinel : ℕ) (s : State n) : Prop where
  live : ∀ b ∈ s.published, ∀ w m, Needed p s w m → (b : ℤ) ≤ p.entry w m
  published : s.published.Pairwise (· ≥ ·)
  minima : total ≤ sentinel → s.minima.Pairwise (· ≥ ·)

/-! ### Readers that share a range -/

/-- Each reader takes the entries of a list of numbers. -/
def Plan.replay (tokens : Fin n → List ℕ) (record : ℕ → ℤ) (headAtEnd : ℤ → ℕ)
    (threshold top : ℕ) : Plan n where
  count w := (tokens w).length
  entry w m := record ((tokens w).getD m 0)
  headAtEnd := headAtEnd
  threshold := threshold
  top := top

/-- The readers share the range from `first` to `stop`, whose entries look ahead. -/
structure Shares (mem : ℕ → Prop) [DecidablePred mem] (first stop sentinel : ℕ)
    (tokens : Fin n → List ℕ) (record : ℕ → ℤ) : Prop where
  sorted : ∀ w, (tokens w).Pairwise (· < ·)
  inside : ∀ w, ∀ t ∈ tokens w, first ≤ t ∧ t < stop
  covers : ∀ t, first ≤ t → t < stop → ∃ w, t ∈ tokens w
  record : ∀ t, first ≤ t → t < stop → record t = entry mem first stop sentinel t

section Shares

variable {mem : ℕ → Prop} [DecidablePred mem] {first stop sentinel : ℕ}
  {tokens : Fin n → List ℕ} {record : ℕ → ℤ} {headAtEnd : ℤ → ℕ} {threshold top : ℕ}

/-- Done with an entry, a reader shows its place, or the next. -/
def EndsAt (headAtEnd : ℤ → ℕ) : Prop :=
  ∀ e, decode e ≤ headAtEnd e ∧ headAtEnd e ≤ decode e + if 0 ≤ e then 1 else 0

variable (shares : Shares mem first stop sentinel tokens record)

include shares

/-- The number that a reader takes. -/
theorem Shares.token {w : Fin n} {m : ℕ} (taken : m < (tokens w).length) :
    ∃ t, (tokens w).getD m 0 = t ∧ first ≤ t ∧ t < stop ∧
      record t = entry mem first stop sentinel t := by
  have here : (tokens w).getD m 0 = (tokens w)[m] := List.getD_eq_getElem _ _ taken
  have ⟨lo, hi⟩ := shares.inside w _ (List.getElem_mem taken)
  exact ⟨_, here, lo, hi, shares.record _ lo hi⟩

theorem Shares.token_lt {w : Fin n} {m m' : ℕ} (lt : m < m') (taken : m' < (tokens w).length) :
    (tokens w).getD m 0 < (tokens w).getD m' 0 := by
  rw [List.getD_eq_getElem _ _ (lt.trans taken), List.getD_eq_getElem _ _ taken]
  exact List.pairwise_iff_getElem.1 (shares.sorted w) m m' _ _ lt

/-- What a reader shows when it is done with an entry. -/
theorem Shares.headAtEnd_le (ends : EndsAt headAtEnd) {t : ℕ} (lo : first ≤ t) (hi : t < stop) :
    headAtEnd (record t) ≤ next mem first stop sentinel t + if mem t then 1 else 0 := by
  have bound := (ends (record t)).2
  rw [shares.record t lo hi, decode_entry lo hi] at bound
  simpa only [shares.record t lo hi, entry_nonneg_iff] using bound

/-- **Readers that share a range are sound.** -/
theorem Shares.sound (ends : EndsAt headAtEnd) :
    (Plan.replay tokens record headAtEnd threshold top).Sound where
  take_le w m m' le taken real := by
    obtain ⟨t, here, lo, hi, entry_t⟩ := shares.token (le.trans_lt taken)
    obtain ⟨t', there, lo', hi', entry_t'⟩ := shares.token taken
    have before : t ≤ t' := by
      rcases eq_or_lt_of_le le with rfl | lt
      · exact (here.symm.trans there).le
      · exact here ▸ there ▸ (shares.token_lt lt taken).le
    simp only [Plan.replay, here, there] at real ⊢
    have goes : mem t' := entry_nonneg_iff.1 (entry_t' ▸ real)
    rw [entry_t, entry_t', decode_entry lo hi, entry_of_mem goes]
    exact Int.ofNat_le.2 (next_le before lo' hi' goes)
  finish_le w m m' lt taken real := by
    obtain ⟨t, here, lo, hi, -⟩ := shares.token (lt.trans taken)
    obtain ⟨t', there, lo', hi', entry_t'⟩ := shares.token taken
    have before : t < t' := here ▸ there ▸ shares.token_lt lt taken
    simp only [Plan.replay, here, there] at real ⊢
    have goes : mem t' := entry_nonneg_iff.1 (entry_t' ▸ real)
    rw [entry_t', entry_of_mem goes]
    refine Int.ofNat_le.2 ((shares.headAtEnd_le ends lo hi).trans ?_)
    by_cases member : mem t
    · rw [if_pos member, next_of_mem lo hi member]
      exact Stream.pos_lt lo member before
    · rw [if_neg member]
      exact next_le before.le lo' hi' goes

/-- Their heads do not fall back when the sentinel is behind all places. -/
theorem Shares.rising (ends : EndsAt headAtEnd)
    (large : Stream.pos mem first stop ≤ sentinel) :
    (Plan.replay tokens record headAtEnd threshold top).Rising where
  take_le w m taken := by
    obtain ⟨t, here, lo, hi, -⟩ := shares.token (Nat.lt_of_succ_lt taken)
    obtain ⟨t', there, lo', hi', entry_t'⟩ := shares.token taken
    have before : t < t' := here ▸ there ▸ shares.token_lt (Nat.lt_succ_self m) taken
    simp only [Plan.replay, here, there]
    rw [entry_t', decode_entry lo' hi']
    refine (shares.headAtEnd_le ends lo hi).trans ?_
    by_cases member : mem t
    · rw [if_pos member]
      exact next_lt large before lo hi member
    · rw [if_neg member]
      exact next_mono large before.le
  finish_le w m taken := (ends _).1

/-- An entry is a place, or encodes one. -/
theorem Shares.entry_lt {w : Fin n} {m : ℕ} (taken : m < (tokens w).length) :
    record ((tokens w).getD m 0) < Stream.pos mem first stop := by
  obtain ⟨t, here, lo, hi, entry_t⟩ := shares.token taken
  rw [here, entry_t, entry]
  split_ifs with member
  · exact Int.ofNat_lt.2 (pos_lt_total lo hi member)
  · omega

/-- Every place is that of an entry, and heads are places or the sentinel. -/
theorem Shares.bounded (ends : EndsAt headAtEnd) (le : first ≤ stop) :
    (Plan.replay tokens record headAtEnd threshold top).Bounded
      (Stream.pos mem first stop) sentinel where
  covers q hq := by
    have within : q < (Stream.below mem first stop).length := by
      rwa [Stream.length_below le]
    obtain ⟨⟨lo, hi⟩, goes⟩ := Stream.mem_below (p := mem).1 (List.getElem_mem within)
    obtain ⟨w, mine⟩ := shares.covers _ lo hi
    obtain ⟨m, taken, here⟩ := List.mem_iff_getElem.1 mine
    refine ⟨w, m, taken, ?_⟩
    simp only [Plan.replay]
    rw [List.getD_eq_getElem _ _ taken, here, shares.record _ lo hi, entry_of_mem goes,
      Stream.pos_getElem]
  take w m taken := by
    obtain ⟨t, here, lo, hi, entry_t⟩ := shares.token taken
    simp only [Plan.replay, here, entry_t, decode_entry lo hi]
    exact next_cases.imp_right le_of_lt
  finish w m taken := by
    obtain ⟨t, here, lo, hi, entry_t⟩ := shares.token taken
    have lower := (ends (record t)).1
    have upper := shares.headAtEnd_le ends lo hi
    rw [entry_t, decode_entry lo hi] at lower
    simp only [Plan.replay, here, Placed, entry_t] at upper ⊢
    by_cases member : mem t
    · rw [if_pos member, next_of_mem lo hi member] at upper
      exact Or.inr (upper.trans (pos_lt_total lo hi member))
    · rw [if_neg member] at upper
      rw [le_antisymm upper lower]
      exact next_cases.imp_right le_of_lt

/-- **A coordinator of readers that share a range frees only what they have read.** -/
theorem Shares.freesRead (ends : EndsAt headAtEnd)
    (reach : (system (Plan.replay tokens record headAtEnd threshold top)).Reachable s) :
    FreesRead (Plan.replay tokens record headAtEnd threshold top)
      (Stream.pos mem first stop) sentinel s where
  live b passed w m needed := by
    have inv := reachable_inv (shares.sound ends) reach
    exact (Int.ofNat_le.2 (inv.published b passed)).trans (inv.lastHead w m needed)
  published := (reachable_inv (shares.sound ends) reach).rises
  minima large := (reachable_ascending (shares.rising ends large) reach).rises

end Shares

end HeadScan
