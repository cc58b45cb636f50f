import StreamEP.Lib.Loop
import StreamEP.Lib.Stream

/-!
# Entries that look ahead

The numbers of a range that satisfy `p` have places `0, 1, …` in a stream.  An array records
the place of each of them, and for a number that is skipped the place of the next one that is
not (`entry`), with a sentinel behind the last: a reader that goes through the range in
order, and skips what the array tells it to skip, always knows which place it may need next.

**Entries.**  A place `h` stands as it is, and the place of the next number as `-h - 1`, so the
sign says whether the number itself is in the stream (`entry_nonneg_iff`) and `decode` takes
both back. `Usable` is weaker: of a skipped number it asks only that the entry does not lead
past any later number of the stream.  A reader that goes by usable entries never passes what it
needs; exact ones are usable (`usable_entry`).

**The walk.**  `scan_encodes`: one walk backwards over the range turns places and `-1`s into such
entries.  The array may be laid out in any way that keeps numbers apart, and the walk leaves the
rest of it alone.  `record_eq_entry_iff` says for which numbers a `-1` is right without a walk.
-/

namespace LookAhead

open Stream Loop

variable (p : ℕ → Prop) [DecidablePred p] (start stop sentinel : ℕ)

/-- The place of the first number of the stream that is not before `t`. -/
def next (t : ℕ) : ℕ := if pos p start t < pos p start stop then pos p start t else sentinel

/-- The entry of `t`: its place, or the next one, encoded. -/
def entry (t : ℕ) : ℤ := if p t then pos p start t else -(next p start stop sentinel t : ℤ) - 1

/-- What a reader makes of an entry: the place it may need next. -/
def decode (entry : ℤ) : ℕ := (if entry < 0 then -entry - 1 else entry).toNat

variable {p start stop sentinel} {t t' : ℕ}

theorem pos_lt_total (lo : start ≤ t) (hi : t < stop) (goes : p t) :
    pos p start t < pos p start stop := pos_lt lo goes hi

theorem next_of_mem (lo : start ≤ t) (hi : t < stop) (goes : p t) :
    next p start stop sentinel t = pos p start t := if_pos (pos_lt_total lo hi goes)

theorem decode_entry (lo : start ≤ t) (hi : t < stop) :
    decode (entry p start stop sentinel t) = next p start stop sentinel t := by
  rw [entry, decode]
  by_cases goes : p t
  · rw [if_pos goes, if_neg (not_lt.2 (Int.natCast_nonneg _)), Int.toNat_natCast,
      next_of_mem lo hi goes]
  · rw [if_neg goes, if_pos (by omega)]
    omega

/-- An entry that a reader can go by, exact or not: the place of a number of the stream, or for
a skipped number something that does not lead past what follows. -/
structure Usable (p : ℕ → Prop) [DecidablePred p] (start stop t : ℕ) (e : ℤ) : Prop where
  place : p t → e = pos p start t
  skipped : ¬p t → e < 0
  behind : ∀ t', t ≤ t' → t' < stop → p t' → decode e ≤ pos p start t'

theorem decode_natCast (n : ℕ) : decode n = n := by
  rw [decode, if_neg (not_lt.2 (Int.natCast_nonneg n)), Int.toNat_natCast]

theorem usable_place (goes : p t) : Usable p start stop t (pos p start t) where
  place _ := rfl
  skipped absent := absurd goes absent
  behind t' le _ _ := by
    rw [decode_natCast]
    exact pos_mono le

/-- Entries of a range counted from its start. -/
theorem Usable.shift {i n : ℕ} {e : ℤ} (usable : Usable p start (start + n) (start + i) e) :
    Usable (fun x => p (start + x)) 0 n i e where
  place goes := by
    rw [pos_shift]
    exact usable.place goes
  skipped := usable.skipped
  behind i' le hi goes := by
    rw [pos_shift]
    exact usable.behind _ (Nat.add_le_add_left le start) (Nat.add_lt_add_left hi start) goes

/-- Exact entries, counted so. -/
theorem entry_shift (i n : ℕ) : entry (fun x => p (start + x)) 0 n sentinel i =
    entry p start (start + n) sentinel (start + i) := by
  simp only [entry, next, pos_shift]

/-- An entry that is a place belongs to a number of the stream. -/
theorem entry_nonneg_iff : 0 ≤ entry p start stop sentinel t ↔ p t := by
  rw [entry]
  split_ifs with goes
  · exact iff_of_true (Int.natCast_nonneg _) goes
  · exact iff_of_false (by omega) goes

theorem entry_of_mem (goes : p t) : entry p start stop sentinel t = pos p start t := if_pos goes

/-- What is needed next is not behind any later number of the stream. -/
theorem next_le (h : t ≤ t') (lo : start ≤ t') (hi : t' < stop) (goes : p t') :
    next p start stop sentinel t ≤ pos p start t' := by
  have below := pos_lt_total lo hi goes
  rw [next, if_pos ((pos_mono h).trans_lt below)]
  exact pos_mono h

/-- Exact entries are usable. -/
theorem usable_entry (lo : start ≤ t) (hi : t < stop) :
    Usable p start stop t (entry p start stop sentinel t) where
  place := entry_of_mem
  skipped absent := not_le.1 (mt entry_nonneg_iff.1 absent)
  behind t' le inside goes := by
    rw [decode_entry lo hi]
    exact next_le le (lo.trans le) inside goes

/-- It moves on with `t` when the sentinel is no smaller than any place. -/
theorem next_mono (large : pos p start stop ≤ sentinel) (h : t ≤ t') :
    next p start stop sentinel t ≤ next p start stop sentinel t' := by
  have mono : pos p start t ≤ pos p start t' := pos_mono h
  rw [next, next]
  split_ifs <;> omega

/-- Past a number of the stream it moves on. -/
theorem next_lt (large : pos p start stop ≤ sentinel) (h : t < t') (lo : start ≤ t)
    (hi : t < stop) (goes : p t) :
    next p start stop sentinel t < next p start stop sentinel t' := by
  have past := pos_lt lo goes h
  have below := pos_lt_total lo hi goes
  rw [next_of_mem lo hi goes, next]
  split_ifs
  · exact past
  · exact below.trans_le large

theorem next_cases : next p start stop sentinel t = sentinel ∨
    next p start stop sentinel t < pos p start stop := by
  rw [next]
  split_ifs with inside
  · exact Or.inr inside
  · exact Or.inl rfl

/-- **A skipped number looks ahead to the next of the stream.** -/
theorem next_eq_of_skipped (le : t ≤ t') (lo : start ≤ t') (hi : t' < stop) (goes : p t')
    (none : ∀ x, t ≤ x → x < t' → ¬p x) : next p start stop sentinel t = pos p start t' := by
  have same : pos p start t' = pos p start t := pos_eq_of_none le none
  rw [next, if_pos (same ▸ pos_lt_total lo hi goes), same]

/-- Behind the last of them there is only the sentinel. -/
theorem next_eq_sentinel (le : t ≤ stop) (none : ∀ x, t ≤ x → x < stop → ¬p x) :
    next p start stop sentinel t = sentinel := by
  have same : pos p start stop = pos p start t := pos_eq_of_none le none
  rw [next, if_neg (same ▸ lt_irrefl _)]

/-! ### The walk backwards -/

/-- The place seen last, and the array. -/
structure Scan where
  last : ℤ
  entries : ℕ → ℤ

/-- One number of the walk, at index `idx` of the array. -/
def scanEntry (idx : ℕ) (s : Scan) : Scan :=
  let current := s.entries idx
  if current < 0 then { s with entries := Function.update s.entries idx (-s.last - 1) }
  else { s with last := current }

theorem scanEntry_last (idx : ℕ) (s : Scan) :
    (scanEntry idx s).last = if s.entries idx < 0 then s.last else s.entries idx := by
  simp only [scanEntry]
  split_ifs <;> rfl

theorem scanEntry_self (idx : ℕ) (s : Scan) :
    (scanEntry idx s).entries idx =
      if s.entries idx < 0 then -s.last - 1 else s.entries idx := by
  simp only [scanEntry]
  split_ifs
  · exact Function.update_self _ _ _
  · rfl

theorem scanEntry_of_ne {i idx : ℕ} (other : i ≠ idx) (s : Scan) :
    (scanEntry idx s).entries i = s.entries i := by
  simp only [scanEntry]
  split_ifs
  · exact Function.update_of_ne other _ _
  · rfl

variable (p start) in
/-- What stands in the array before the walk: a place, or `-1` for a skipped number. -/
def record (t : ℕ) : ℤ := if p t then (pos p start t : ℤ) else -1

/-- The walk at a recorded entry. -/
theorem scanEntry_record {idx : ℕ} {s : Scan} (lo : start ≤ t) (hi : t < stop)
    (recorded : s.entries idx = record p start t)
    (last : s.last = next p start stop sentinel (t + 1)) :
    scanEntry idx s = ⟨next p start stop sentinel t,
      Function.update s.entries idx (entry p start stop sentinel t)⟩ := by
  unfold scanEntry
  by_cases goes : p t
  · rw [record, if_pos goes] at recorded
    have same : Function.update s.entries idx (entry p start stop sentinel t) = s.entries := by
      rw [entry_of_mem goes, ← recorded, Function.update_eq_self]
    rw [same, next_of_mem lo hi goes]
    simp only [recorded, if_neg (not_lt.2 (Int.natCast_nonneg _))]
  · rw [record, if_neg goes] at recorded
    have later : next p start stop sentinel (t + 1) = next p start stop sentinel t := by
      rw [next, next, pos_succ lo, if_neg goes, Nat.add_zero]
    rw [entry, if_neg goes, ← later, ← last]
    simp only [recorded, if_pos (by decide : (-1 : ℤ) < 0)]

/-- **An entry needs no walk** when its number is in the stream, or when no number of the
stream comes before it and one comes after. -/
theorem record_eq_entry_iff (large : 0 < sentinel) :
    record p start t = entry p start stop sentinel t ↔
      (¬p t → pos p start t = 0 ∧ 0 < pos p start stop) := by
  rw [record, entry]
  by_cases goes : p t
  · rw [if_pos goes, if_pos goes]
    exact iff_of_true rfl fun skipped => absurd goes skipped
  · rw [if_neg goes, if_neg goes, next, imp_iff_right goes]
    split_ifs <;> omega

/-- The walk from `stop - 1` down to `start`. -/
def scan (start stop sentinel : ℕ) (idx : ℕ → ℕ) (entries : ℕ → ℤ) : ℕ → ℤ :=
  (for' (stop - start) (fun s i => scanEntry (idx (stop - 1 - i)) s) ⟨sentinel, entries⟩).entries

/-- What holds when the numbers from `t` on have been visited. -/
structure ScanInv (p : ℕ → Prop) [DecidablePred p] (start stop sentinel : ℕ) (idx : ℕ → ℕ)
    (initial : ℕ → ℤ) (t : ℕ) (s : Scan) : Prop where
  last : s.last = next p start stop sentinel t
  scanned : ∀ t', t ≤ t' → t' < stop → s.entries (idx t') = entry p start stop sentinel t'
  frame : ∀ i, (∀ t', t ≤ t' → t' < stop → i ≠ idx t') → s.entries i = initial i

/-- Places of the stream, and `-1` for what is skipped. -/
def Recorded (p : ℕ → Prop) [DecidablePred p] (start stop : ℕ) (idx : ℕ → ℕ)
    (entries : ℕ → ℤ) : Prop :=
  ∀ t, start ≤ t → t < stop →
    entries (idx t) = if p t then (pos p start t : ℤ) else -1

variable {idx : ℕ → ℕ} (injective : Function.Injective idx)

include injective

theorem scanEntry_inv {initial : ℕ → ℤ} {s : Scan} (recorded : Recorded p start stop idx initial)
    (lo : start ≤ t) (hi : t < stop)
    (inv : ScanInv p start stop sentinel idx initial (t + 1) s) :
    ScanInv p start stop sentinel idx initial t (scanEntry (idx t) s) := by
  have unscanned : s.entries (idx t) = record p start t := by
    rw [inv.frame _ fun t' after _ same => by
      have := injective same
      omega]
    exact recorded t lo hi
  rw [scanEntry_record lo hi unscanned inv.last]
  refine ⟨rfl, fun t' from_t below => ?_, fun i other => ?_⟩
  · rcases Nat.eq_or_lt_of_le from_t with rfl | after
    · exact Function.update_self _ _ _
    · simp only [Function.update_of_ne fun here => (Nat.ne_of_gt after) (injective here)]
      exact inv.scanned t' after below
  · simp only [Function.update_of_ne (other t le_rfl hi)]
    exact inv.frame i fun t' after below => other t' (by omega) below

/-- **The walk encodes its range** and leaves the rest of the array alone. -/
theorem scan_encodes {initial : ℕ → ℤ} (le : start ≤ stop)
    (recorded : Recorded p start stop idx initial) :
    (∀ t, start ≤ t → t < stop →
      scan start stop sentinel idx initial (idx t) = entry p start stop sentinel t) ∧
      ∀ i, (∀ t, start ≤ t → t < stop → i ≠ idx t) →
        scan start stop sentinel idx initial i = initial i := by
  have last : next p start stop sentinel stop = sentinel := if_neg (lt_irrefl _)
  have scanned := for_invariant
    (f := fun s i => scanEntry (idx (stop - 1 - i)) s) (s := ⟨sentinel, initial⟩)
    (fun i => ScanInv p start stop sentinel idx initial (stop - i)) (n := stop - start)
    ⟨by rw [Nat.sub_zero, last], fun _ _ _ => by omega, fun _ _ => rfl⟩
    (fun i hi s inv => by
      have here : stop - (i + 1) = stop - 1 - i := by omega
      have before : stop - 1 - i + 1 = stop - i := by omega
      rw [here]
      exact scanEntry_inv injective recorded (by omega) (by omega) (before ▸ inv))
  rw [Nat.sub_sub_self le] at scanned
  exact ⟨scanned.scanned, scanned.frame⟩

end LookAhead
