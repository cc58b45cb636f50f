import StreamEP.Lib.HeadScan
import StreamEP.Lib.ReplayRings

/-!
# Replaying entries that look ahead

The rings of `ReplayRings` hold the numbers of a range, each ring those that belong to it, in
order; the readers share the range out and go by an array of entries.  Entries need only be
usable: the place of a number in every ring it belongs to, and elsewhere something that does
not lead past what follows.

A coordinator looks at the heads of the readers one after the other, and what it makes of
them it publishes later.  So with entries that are not exact, where heads may fall back, what
it can have seen of a head is bounded by the largest value so far.  That is the head of the
plan (`EntryPlan.plan`), and it is safe (`Follows.sound`).

**What an instance gives.**  For every reader the list of its numbers, the entries, and how a
reader's head comes from an entry, when it arrives at the number and when it leaves it
(`EntryPlan`). `Follows` says that the readers share the range and that the entries are usable.
From that everything about the plan follows: the packets of a number are those at its places
(`combined_eq`), and every position of a ring is the place of a number that some reader takes
(`exists_expected`).

**Exact entries.**  How far a head may lie behind is a question only with `Exact` entries, those
of `LookAhead`.  Then a reader shows no less than the place of any number up to its own
(`le_headDuring`), and one whose numbers end early never more than what came up to its last
(`head_le`): the first is what progress needs, and the second what a stuck run does.
-/

namespace ReplayRings

open LookAhead Stream Finset

variable {ι κ V : Type*}

/-- The last number of a sorted list is the largest. -/
theorem le_getLast? {l : List ℕ} (sorted : l.Pairwise (· < ·)) {last t : ℕ}
    (final : last ∈ l.getLast?) (mem : t ∈ l) : t ≤ last := by
  have ascending := sorted.imp fun lt => le_of_lt lt
  rw [List.getLast?_eq_some_getLast (List.ne_nil_of_mem mem)] at final
  exact (ascending.rel_getLast mem).trans_eq (Option.some.inj final)

/-- What the readers of a range go by. -/
structure EntryPlan (ι κ : Type*) where
  ringSize : ℕ
  chunk : ℕ
  required : ℕ → ℕ
  total : ι → ℕ
  /-- The numbers of each reader. -/
  tokens : κ → List ℕ
  entries : ℕ → ι → ℤ
  /-- The head that a reader shows when it is done with an entry. -/
  leave : ℤ → ℕ

namespace EntryPlan

/-- The readers' heads are the largest that they have shown. -/
def plan (f : EntryPlan ι κ) : Plan ι κ where
  ringSize := f.ringSize
  chunk := f.chunk
  required := f.required
  total := f.total
  count w := (f.tokens w).length
  token w m := (f.tokens w).getD m 0
  expected := f.entries
  headAtStart expectedHead head := max head (decode expectedHead)
  headAtEnd expectedHead head := max head (f.leave expectedHead)

/-- The readers share the numbers from `start` to `stop`, each taking its own in order, and the
entries are usable. -/
structure Follows (f : EntryPlan ι κ) (member : ι → ℕ → Prop) [∀ i, DecidablePred (member i)]
    (start stop : ℕ) : Prop where
  chunk_le : f.chunk ≤ f.ringSize
  le_required : ∀ n, n ≤ f.required n
  total : ∀ i, f.total i = pos (member i) start stop
  sorted : ∀ w, (f.tokens w).Pairwise (· < ·)
  inside : ∀ w, ∀ t ∈ f.tokens w, start ≤ t ∧ t < stop
  covers : ∀ t, start ≤ t → t < stop → ∃ w, t ∈ f.tokens w
  usable : ∀ i t, start ≤ t → t < stop → Usable (member i) start stop t (f.entries t i)
  ends : HeadScan.EndsAt f.leave

variable {f : EntryPlan ι κ} {member : ι → ℕ → Prop} [∀ i, DecidablePred (member i)]
  {start stop : ℕ}

theorem token_mem {w : κ} {m : ℕ} (hm : m < f.plan.count w) : f.plan.token w m ∈ f.tokens w := by
  show (f.tokens w).getD m 0 ∈ f.tokens w
  rw [List.getD_eq_getElem _ _ hm]
  exact List.getElem_mem hm

/-- Leaving a number, a reader does not pass what follows. -/
theorem leave_le {leave : ℤ → ℕ} (ends : HeadScan.EndsAt leave) {p : ℕ → Prop} [DecidablePred p]
    {t t' : ℕ} {e : ℤ} (entry : Usable p start stop t e) (lo : start ≤ t) (lt : t < t')
    (hi : t' < stop) (goes : p t') : leave e ≤ pos p start t' := by
  have bound := (ends e).2
  by_cases here : p t
  · have past := pos_lt lo here lt
    rw [entry.place here, if_pos (Int.natCast_nonneg _), decode_natCast] at bound
    rw [entry.place here]
    omega
  · have later := entry.behind t' lt.le hi goes
    rw [if_neg (not_le.2 (entry.skipped here))] at bound
    omega

namespace Follows

variable (follows : f.Follows member start stop)

include follows

theorem token_inside {w : κ} {m : ℕ} (hm : m < f.plan.count w) :
    start ≤ f.plan.token w m ∧ f.plan.token w m < stop :=
  follows.inside w _ (token_mem hm)

theorem token_lt {w : κ} {m m' : ℕ} (lt : m < m') (hm' : m' < f.plan.count w) :
    f.plan.token w m < f.plan.token w m' := by
  show (f.tokens w).getD m 0 < (f.tokens w).getD m' 0
  rw [List.getD_eq_getElem _ _ hm', List.getD_eq_getElem _ _ (lt.trans hm')]
  exact List.pairwise_iff_getElem.1 (follows.sorted w) m m' _ _ lt

theorem expected_eq {i : ι} {t : ℕ} (lo : start ≤ t) (hi : t < stop) (goes : member i t) :
    f.plan.expected t i = pos (member i) start t :=
  (follows.usable i t lo hi).place goes

/-- The last number of a reader is the largest. -/
theorem token_le_last {w : κ} {last k : ℕ} (final : last ∈ (f.tokens w).getLast?)
    (hk : k < f.plan.count w) : f.plan.token w k ≤ last :=
  le_getLast? (follows.sorted w) final (token_mem hk)

/-- A ring has a packet for the numbers that belong to it. -/
theorem expected_nonneg_iff {i : ι} {t : ℕ} (lo : start ≤ t) (hi : t < stop) :
    0 ≤ f.plan.expected t i ↔ member i t := by
  have entry := follows.usable i t lo hi
  constructor
  · intro nonneg
    by_contra absent
    exact not_lt.2 nonneg (entry.skipped absent)
  · intro goes
    rw [follows.expected_eq lo hi goes]
    exact Int.natCast_nonneg _

/-- **No head passes what its reader still needs**, whenever it is looked at. -/
theorem headAfter_le {w : κ} {i : ι} {m' : ℕ} (hm' : m' < f.plan.count w)
    (goes : member i (f.plan.token w m')) {m : ℕ} (le : m ≤ m') :
    f.plan.headAfter w i m ≤ pos (member i) start (f.plan.token w m') := by
  induction m with
  | zero => exact Nat.zero_le _
  | succ m ih =>
    have lt := follows.token_lt le hm'
    have lo := (follows.token_inside ((Nat.lt_of_succ_le le).trans hm')).1
    have hi := (follows.token_inside hm').2
    have entry := follows.usable i _ lo (lt.trans hi)
    refine max_le (max_le (ih (Nat.le_of_succ_le le)) ?_) ?_
    · exact entry.behind _ lt.le hi goes
    · exact leave_le follows.ends entry lo lt hi goes

theorem headDuring_le {w : κ} {i : ι} {m' : ℕ} (hm' : m' < f.plan.count w)
    (goes : member i (f.plan.token w m')) {m : ℕ} (le : m ≤ m') :
    f.plan.headDuring w i m ≤ pos (member i) start (f.plan.token w m') := by
  have inside := follows.token_inside (le.trans_lt hm')
  have hi := (follows.token_inside hm').2
  refine max_le (follows.headAfter_le hm' goes le) ?_
  refine (follows.usable i _ inside.1 inside.2).behind _ ?_ hi goes
  rcases le.eq_or_lt with rfl | lt
  · exact le_rfl
  · exact (follows.token_lt lt hm').le

theorem sound : f.plan.Sound where
  chunk_le := follows.chunk_le
  le_required := follows.le_required
  expected_lt w m hm i := by
    obtain ⟨lo, hi⟩ := follows.token_inside hm
    have total : f.plan.total i = pos (member i) start stop := follows.total i
    have entry := follows.usable i _ lo hi
    by_cases goes : member i (f.plan.token w m)
    · rw [follows.expected_eq lo hi goes, total]
      exact_mod_cast pos_lt_total lo hi goes
    · exact (entry.skipped goes).trans_le (Int.natCast_nonneg _)
  headAfter_le w i m m' hm' le has := by
    obtain ⟨lo, hi⟩ := follows.token_inside hm'
    have goes := (follows.expected_nonneg_iff lo hi).1 has
    rw [follows.expected_eq lo hi goes]
    exact_mod_cast follows.headAfter_le hm' goes le
  headDuring_le w i m m' hm' le has := by
    obtain ⟨lo, hi⟩ := follows.token_inside hm'
    have goes := (follows.expected_nonneg_iff lo hi).1 has
    rw [follows.expected_eq lo hi goes]
    exact_mod_cast follows.headDuring_le hm' goes le

/-- The packets of a number are those at its places. -/
theorem combined_eq [Fintype ι] [AddCommMonoid V] (payload : ι → ℕ → V) {t : ℕ} (lo : start ≤ t)
    (hi : t < stop) :
    combined f.plan payload t =
      ∑ i, if member i t then payload i (pos (member i) start t) else 0 := by
  unfold combined
  refine sum_congr rfl fun i _ => ?_
  by_cases goes : member i t
  · rw [if_pos ((follows.expected_nonneg_iff lo hi).2 goes), if_pos goes,
      follows.expected_eq lo hi goes, Int.toNat_natCast]
  · rw [if_neg (mt (follows.expected_nonneg_iff lo hi).1 goes), if_neg goes]

/-- When all readers are done, every number has been combined. -/
theorem combined_of_done [Fintype ι] [AddCommMonoid V] {payload : ι → ℕ → V}
    {s : State ι κ V} (inv : Inv f.plan payload s) (done : ∀ w, s.done w = f.plan.count w) {t : ℕ}
    (lo : start ≤ t) (hi : t < stop) : s.out t = some (combined f.plan payload t) := by
  obtain ⟨w, mem⟩ := follows.covers t lo hi
  obtain ⟨m, hm, rfl⟩ := List.getElem_of_mem mem
  have token : f.plan.token w m = (f.tokens w)[m] := List.getD_eq_getElem _ _ hm
  have below : m < s.done w := by
    rw [done w]
    exact hm
  rw [← token]
  exact (inv.readers.finished w m below).1

/-- A number of the range is taken by some reader. -/
theorem exists_token {t : ℕ} (lo : start ≤ t) (hi : t < stop) :
    ∃ w, ∃ m < f.plan.count w, f.plan.token w m = t := by
  obtain ⟨w, mem⟩ := follows.covers t lo hi
  obtain ⟨m, hm, rfl⟩ := List.getElem_of_mem mem
  exact ⟨w, m, hm, List.getD_eq_getElem _ _ hm⟩

/-- Every position of a ring is the place of a number. -/
theorem exists_place {i : ι} {q : ℕ} (hq : q < f.plan.total i) :
    ∃ t, start ≤ t ∧ t < stop ∧ member i t ∧ pos (member i) start t = q := by
  have total : f.plan.total i = pos (member i) start stop := follows.total i
  rcases le_total stop start with empty | le
  · have none : pos (member i) start stop = 0 :=
      Nat.sub_eq_zero_of_le (Nat.count_monotone _ empty)
    omega
  · have inside : q < (below (member i) start stop).length := by
      rw [length_below le, ← total]
      exact hq
    obtain ⟨⟨lo, hi⟩, goes⟩ := mem_below.1 (List.getElem_mem inside)
    exact ⟨_, lo, hi, goes, pos_getElem inside⟩

/-- Some reader waits for it. -/
theorem exists_expected {i : ι} {q : ℕ} (hq : q < f.plan.total i) :
    ∃ w, ∃ m < f.plan.count w, f.plan.expected (f.plan.token w m) i = q := by
  obtain ⟨t, lo, hi, goes, place⟩ := follows.exists_place hq
  obtain ⟨w, m, hm, rfl⟩ := follows.exists_token lo hi
  exact ⟨w, m, hm, by rw [follows.expected_eq lo hi goes, place]⟩

/-- When all readers are done, everything has been sent. -/
theorem tail_of_done [Fintype ι] [AddCommMonoid V] {payload : ι → ℕ → V} {s : State ι κ V}
    (inv : Inv f.plan payload s) (done : ∀ w, s.done w = f.plan.count w) (i : ι) :
    s.tail i = f.plan.total i := by
  have bounded := inv.rings.bounded i
  by_contra missing
  have left : s.tail i < f.plan.total i := by omega
  obtain ⟨w, m, hm, expected⟩ := follows.exists_expected left
  have sent := (inv.readers.finished w m (hm.trans_eq (done w).symm)).2 i
  rw [expected] at sent
  exact lt_irrefl _ sent

/-- Readers that have no number in common take different ones. -/
theorem token_apart (disjoint : ∀ w v t, t ∈ f.tokens w → t ∈ f.tokens v → w = v) {w v : κ}
    {m k : ℕ} (hm : m < f.plan.count w) (hk : k < f.plan.count v)
    (same : f.plan.token w m = f.plan.token v k) : w = v ∧ m = k := by
  obtain rfl := disjoint w v _ (token_mem hm) (same ▸ token_mem hk)
  refine ⟨rfl, ?_⟩
  rcases lt_trichotomy m k with before | rfl | after
  · exact absurd same (follows.token_lt before hk).ne
  · rfl
  · exact absurd same (follows.token_lt after hm).ne'

end Follows

/-- Heads that are the largest so far do not fall. -/
theorem head_rises (f : EntryPlan ι κ) (w : κ) (i : ι) (m : ℕ) :
    f.plan.headAfter w i m ≤ f.plan.headDuring w i m ∧
      f.plan.headDuring w i m ≤ f.plan.headAfter w i (m + 1) :=
  ⟨le_max_left _ _, le_max_left _ _⟩

/-! ### Exact entries -/

/-- The entries are those of `LookAhead`, with a sentinel no smaller than any place. -/
structure Exact (f : EntryPlan ι κ) (member : ι → ℕ → Prop) [∀ i, DecidablePred (member i)]
    (start stop sentinel : ℕ) : Prop where
  entries : ∀ i t, start ≤ t → t < stop →
    f.entries t i = entry (member i) start stop sentinel t
  large : ∀ i, pos (member i) start stop ≤ sentinel

namespace Exact

variable {sentinel : ℕ} (exact : f.Exact member start stop sentinel)
  (follows : f.Follows member start stop)

include exact follows

theorem decode_token {w : κ} {i : ι} {k : ℕ} (hk : k < f.plan.count w) :
    decode (f.plan.expected (f.plan.token w k) i) =
      next (member i) start stop sentinel (f.plan.token w k) := by
  obtain ⟨lo, hi⟩ := follows.token_inside hk
  have entry : f.plan.expected (f.plan.token w k) i = _ := exact.entries i _ lo hi
  rw [entry, decode_entry lo hi]

/-- A reader at a number shows no less than the place of any number up to it. -/
theorem le_headDuring {w : κ} {i : ι} {k : ℕ} (hk : k < f.plan.count w) {t : ℕ} (lo : start ≤ t)
    (hi : t < stop) (goes : member i t) (le : t ≤ f.plan.token w k) :
    pos (member i) start t ≤ f.plan.headDuring w i k :=
  calc pos (member i) start t = next (member i) start stop sentinel t :=
        (next_of_mem lo hi goes).symm
    _ ≤ next (member i) start stop sentinel (f.plan.token w k) := next_mono (exact.large i) le
    _ = decode (f.plan.expected (f.plan.token w k) i) := (exact.decode_token follows hk).symm
    _ ≤ f.plan.headDuring w i k := le_max_right _ _

/-- One that is done with it shows no less than what came up to it. -/
theorem le_headAfter (moves : ∀ e, 0 ≤ e → e.toNat + 1 ≤ f.leave e) {w : κ} {i : ι} {k : ℕ}
    (hk : k < f.plan.count w) :
    pos (member i) start (f.plan.token w k + 1) ≤ f.plan.headAfter w i (k + 1) := by
  obtain ⟨lo, hi⟩ := follows.token_inside hk
  have shown : f.leave (f.plan.expected (f.plan.token w k) i) ≤ f.plan.headAfter w i (k + 1) :=
    le_max_right _ _
  refine le_trans ?_ shown
  rw [pos_succ lo]
  by_cases goes : member i (f.plan.token w k)
  · rw [if_pos goes, follows.expected_eq lo hi goes]
    exact moves _ (Int.natCast_nonneg _)
  · have ends := (follows.ends (f.plan.expected (f.plan.token w k) i)).1
    rw [exact.decode_token follows hk] at ends
    rw [if_neg goes, Nat.add_zero]
    refine le_trans ?_ ends
    have total : pos (member i) start (f.plan.token w k) ≤ pos (member i) start stop :=
      pos_mono hi.le
    have large := exact.large i
    rw [next]
    split_ifs <;> omega

/-- A reader whose numbers end before one of the stream never shows more than what came up to
its last. -/
theorem head_le {w : κ} {i : ι} {last t : ℕ} (ends : ∀ k < f.plan.count w, f.plan.token w k ≤ last)
    (lt : last < t) (hi : t < stop) (goes : member i t) :
    (∀ k ≤ f.plan.count w, f.plan.headAfter w i k ≤ pos (member i) start (last + 1)) ∧
      ∀ k < f.plan.count w, f.plan.headDuring w i k ≤ pos (member i) start (last + 1) := by
  have shows : ∀ k < f.plan.count w,
      decode (f.plan.expected (f.plan.token w k) i) = pos (member i) start (f.plan.token w k) := by
    intro k hk
    have lo := (follows.token_inside hk).1
    have below := pos_lt_total (lo.trans ((ends k hk).trans lt.le)) hi goes
    have mono : pos (member i) start (f.plan.token w k) ≤ pos (member i) start t :=
      pos_mono ((ends k hk).trans lt.le)
    rw [exact.decode_token follows hk, next, if_pos (mono.trans_lt below)]
  have upTo : ∀ k < f.plan.count w, pos (member i) start (f.plan.token w k + 1) ≤
      pos (member i) start (last + 1) := fun k hk => pos_mono (Nat.succ_le_succ (ends k hk))
  have after : ∀ k ≤ f.plan.count w, f.plan.headAfter w i k ≤ pos (member i) start (last + 1) := by
    intro k
    induction k with
    | zero => exact fun _ => Nat.zero_le _
    | succ k ih =>
      intro hk
      have lo := (follows.token_inside hk).1
      have bound := (follows.ends (f.plan.expected (f.plan.token w k) i)).2
      have up := upTo k hk
      simp only [shows k hk, follows.expected_nonneg_iff lo (follows.token_inside hk).2] at bound
      rw [pos_succ lo] at up
      refine max_le (max_le (ih (Nat.le_of_succ_le hk)) ?_) (bound.trans up)
      rw [shows k hk]
      omega
  refine ⟨after, fun k hk => max_le (after k hk.le) ?_⟩
  have up := upTo k hk
  rw [pos_succ (follows.token_inside hk).1] at up
  rw [shows k hk]
  omega

end Exact

end EntryPlan

end ReplayRings
