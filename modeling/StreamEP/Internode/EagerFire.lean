import StreamEP.Lib.BitMask
import StreamEP.Lib.Lanes
import StreamEP.Pool
import StreamEP.Tiles

/-!
# Eager firing

An internode receiver does not wait for the end of its streams.  After every packet it looks
at the experts the packet touched: if the running count of the packet's source has reached
the count that the metadata kernel announced, the source has nothing more for that expert,
and its slot range is fired.  A mask of experts keeps a range from being fired again.

**One packet.**  The code works on machine words: `newlyComplete` is a mask made of the experts of
the packet, without those in the mask of the lane, and `firedRanges` walks its bits.  All that the
rest uses of it is which bits are set (`testBit_newlyComplete`).

**One source.**  Nothing about other sources enters, so the statements are about the packets of
one source by their positions.  `CompletesAt j e` says that packet `j` brings the count of expert
`e` to the announced one, and `firedAt j` lists what is fired there.  `MaskInv` is the invariant
of the lane: before packet `p` its mask holds the experts whose count has been reached.
`eager_step` keeps it, and says what the packet fires.

* `filter_flatMap_firedAt`: over the packets of one source, every expert with a count is fired
  once, with the full count.
* `perm_flatMap_firedAt`: so what is fired is a permutation of the experts with a count.  The
  order is that in which the experts are completed, not that of their numbers.
* `CompletesAt.untouched` and `CompletesAt.exists_slot`: nothing is fired too early.  No packet
  touches the expert later, and every slot of its range belongs to a packet that has come.
-/

namespace StreamEP.Internode

open Loop

variable {sh : Shape} {Row Weight : Type}

/-! ### One packet -/

section Packet

variable (numTopk numExperts : ℕ) (expected seen : ℕ → ℕ) (eLocalRow : ℕ → ℤ)
  (completedMask : ℕ)

/-- `newly_complete`: the experts of the packet that have just reached their count. -/
def newlyComplete : ℕ :=
  for' numTopk (fun newly k =>
    if eLocalRow k < 0 then newly
    else
      let eLocal := (eLocalRow k).toNat
      if (completedMask ||| newly) &&& (1 <<< eLocal) ≠ 0 then newly
      else if seen eLocal = expected eLocal then newly ||| 1 <<< eLocal
      else newly) 0

/-- The experts that are fired, with their counts. -/
def firedRanges : List (ℕ × ℕ) :=
  let newly := newlyComplete numTopk expected seen eLocalRow completedMask
  ((List.range numExperts).filter fun eLocal => (newly >>> eLocal) &&& 1 ≠ 0).map
    fun eLocal => (eLocal, seen eLocal)

variable {numTopk numExperts expected seen eLocalRow completedMask}

/-- An expert is new if the packet touched it, the mask does not hold it, and its count is
reached. -/
theorem testBit_newlyComplete (e : ℕ) :
    (newlyComplete numTopk expected seen eLocalRow completedMask).testBit e = true ↔
      (∃ k < numTopk, eLocalRow k = e) ∧ completedMask.testBit e = false ∧
        seen e = expected e := by
  refine for_invariant (fun n (newly : ℕ) => newly.testBit e = true ↔
    (∃ k < n, eLocalRow k = e) ∧ completedMask.testBit e = false ∧ seen e = expected e) ?_ ?_
  · simp
  · intro k _ newly inv
    have grow : (∃ k' < k + 1, eLocalRow k' = e) ↔
        (∃ k' < k, eLocalRow k' = e) ∨ eLocalRow k = e := by
      simp only [Nat.lt_succ_iff_lt_or_eq, or_and_right, exists_or, exists_eq_left]
    rw [grow]
    by_cases none : eLocalRow k < 0
    · have other : eLocalRow k ≠ e := by omega
      rw [if_pos none, inv]
      simp [other]
    · obtain ⟨e', key⟩ := Int.eq_ofNat_of_zero_le (not_lt.1 none)
      simp only [key, Int.natCast_nonneg, not_lt.2, if_false, Int.toNat_natCast, Nat.cast_inj,
        ne_eq, BitMask.and_bit_eq_zero_iff, Nat.testBit_or]
      by_cases same : e' = e
      · subst same
        cases held : completedMask.testBit e' <;> cases now : newly.testBit e' <;>
          by_cases reached : seen e' = expected e' <;>
          simp_all [Nat.one_shiftLeft]
      · have kept : (newly ||| 1 <<< e').testBit e = newly.testBit e := by
          rw [BitMask.testBit_or_bit]
          simp [same]
        split
        · rw [inv]
          simp [same]
        · split
          · rw [kept, inv]
            simp [same]
          · rw [inv]
            simp [same]

theorem shiftRight_and_one_ne_zero (mask e : ℕ) : mask >>> e &&& 1 ≠ 0 ↔ mask.testBit e = true := by
  rw [Nat.testBit, Nat.and_comm 1]
  simp

end Packet

/-! ### The packets of one source -/

section Source

variable (sh : Shape) (expected : ℕ → ℕ) (packets : ℕ → StreamEP.Packet Row Weight)

/-- The mask holds the experts whose count has been reached at position `p`. -/
def MaskInv (p mask : ℕ) : Prop :=
  ∀ e < sh.numExpertsPerRank, mask.testBit e = true ↔
    0 < expected e ∧ seenBefore sh packets e p = expected e

/-- The expert reaches its count with packet `j`. -/
def CompletesAt (j e : ℕ) : Prop :=
  seenBefore sh packets e (j * sh.numTopk) < expected e ∧
    seenBefore sh packets e ((j + 1) * sh.numTopk) = expected e

instance (j e : ℕ) : Decidable (CompletesAt sh expected packets j e) :=
  inferInstanceAs (Decidable (_ ∧ _))

/-- What is fired after packet `j`. -/
def firedAt (j : ℕ) : List (ℕ × ℕ) :=
  ((List.range sh.numExpertsPerRank).filter (CompletesAt sh expected packets j)).map
    fun e => (e, expected e)

variable {sh expected packets} {e j : ℕ}

theorem seenBefore_mono {p p' : ℕ} (le : p ≤ p') :
    seenBefore sh packets e p ≤ seenBefore sh packets e p' := Nat.count_monotone _ le

/-- The count grows over a packet exactly if the packet touches the expert. -/
theorem seenBefore_lt_iff :
    seenBefore sh packets e (j * sh.numTopk) < seenBefore sh packets e ((j + 1) * sh.numTopk) ↔
      ∃ k < sh.numTopk, pairKey sh packets (j * sh.numTopk + k) = e := by
  have grown : seenBefore sh packets e ((j + 1) * sh.numTopk) =
      seenBefore sh packets e (j * sh.numTopk) +
        Nat.count (fun k => pairKey sh packets (j * sh.numTopk + k) = e) sh.numTopk := by
    rw [Nat.succ_mul, seenBefore, Nat.count_add, ← seenBefore]
  have touched : 0 < Nat.count (fun k => pairKey sh packets (j * sh.numTopk + k) = e)
      sh.numTopk ↔ ∃ k < sh.numTopk, pairKey sh packets (j * sh.numTopk + k) = e := by
    rw [Nat.pos_iff_ne_zero, Ne, Nat.count_iff_forall_not]
    push Not
    rfl
  rw [grown, ← touched]
  omega

/-- **One packet** sets the bits of the experts it completes and fires them. -/
theorem eager_step {seen : ℕ → ℕ} {eLocalRow : ℕ → ℤ} {mask : ℕ}
    (row : ∀ k < sh.numTopk, eLocalRow k = pairKey sh packets (j * sh.numTopk + k))
    (counted : ∀ e < sh.numExpertsPerRank,
      seen e = seenBefore sh packets e ((j + 1) * sh.numTopk))
    (bounded : ∀ e < sh.numExpertsPerRank,
      seenBefore sh packets e ((j + 1) * sh.numTopk) ≤ expected e)
    (inv : MaskInv sh expected packets (j * sh.numTopk) mask) :
    MaskInv sh expected packets ((j + 1) * sh.numTopk)
        (mask ||| newlyComplete sh.numTopk expected seen eLocalRow mask) ∧
      firedRanges sh.numTopk sh.numExpertsPerRank expected seen eLocalRow mask =
        firedAt sh expected packets j := by
  -- the new bits are those of the experts that this token completes
  have new : ∀ e < sh.numExpertsPerRank,
      (newlyComplete sh.numTopk expected seen eLocalRow mask).testBit e = true ↔
        CompletesAt sh expected packets j e := by
    intro e he
    have touched : (∃ k < sh.numTopk, eLocalRow k = e) ↔
        ∃ k < sh.numTopk, pairKey sh packets (j * sh.numTopk + k) = e :=
      exists_congr fun k => and_congr_right fun hk => by rw [row k hk]
    have held := inv e he
    have bound := bounded e he
    have mono : seenBefore sh packets e (j * sh.numTopk) ≤
        seenBefore sh packets e ((j + 1) * sh.numTopk) :=
      seenBefore_mono (Nat.mul_le_mul_right _ (Nat.le_succ j))
    rw [testBit_newlyComplete, touched, ← seenBefore_lt_iff, counted e he, CompletesAt,
      ← Bool.not_eq_true, held]
    omega
  refine ⟨fun e he => ?_, ?_⟩
  · have bound := bounded e he
    have mono : seenBefore sh packets e (j * sh.numTopk) ≤
        seenBefore sh packets e ((j + 1) * sh.numTopk) :=
      seenBefore_mono (Nat.mul_le_mul_right _ (Nat.le_succ j))
    rw [Nat.testBit_or, Bool.or_eq_true, inv e he, new e he, CompletesAt]
    omega
  · have same : ∀ e ∈ List.range sh.numExpertsPerRank,
        decide ((newlyComplete sh.numTopk expected seen eLocalRow mask) >>> e &&& 1 ≠ 0) =
          decide (CompletesAt sh expected packets j e) := by
      intro e he
      rw [decide_eq_decide, shiftRight_and_one_ne_zero, new e (List.mem_range.1 he)]
    rw [firedRanges, firedAt]
    simp only [List.filter_congr same]
    refine List.map_congr_left fun e mem => ?_
    obtain ⟨he, completes⟩ := List.mem_filter.1 mem
    rw [counted e (List.mem_range.1 he), (of_decide_eq_true completes).2]

theorem filter_firedAt (he : e < sh.numExpertsPerRank) (j : ℕ) :
    (firedAt sh expected packets j).filter (·.1 = e) =
      if CompletesAt sh expected packets j e then [(e, expected e)] else [] := by
  have own : ((List.range sh.numExpertsPerRank).filter
      (CompletesAt sh expected packets j)).filter (· = e) =
        if CompletesAt sh expected packets j e then [e] else [] := by
    rw [List.filter_comm]
    have single : (List.range sh.numExpertsPerRank).filter (fun x => decide (x = e)) = [e] := by
      rw [List.filter_eq, List.count_range, if_pos he]
      rfl
    rw [single]
    by_cases completes : CompletesAt sh expected packets j e
    · simp [completes]
    · simp [completes]
  rw [firedAt, List.filter_map]
  show (List.filter (fun x => decide (x = e)) _).map _ = _
  rw [own]
  split
  · rfl
  · rfl

/-- No packet touches an expert after the one that completes it. -/
theorem CompletesAt.untouched {n j' k : ℕ}
    (total : seenBefore sh packets e (n * sh.numTopk) = expected e)
    (completes : CompletesAt sh expected packets j e) (after : j < j') (hj' : j' < n)
    (hk : k < sh.numTopk) : pairKey sh packets (j' * sh.numTopk + k) ≠ e := by
  intro touched
  have grows := seenBefore_lt_iff.2 ⟨k, hk, touched⟩
  have before : seenBefore sh packets e ((j + 1) * sh.numTopk) ≤
      seenBefore sh packets e (j' * sh.numTopk) :=
    seenBefore_mono (Nat.mul_le_mul_right _ after)
  have last : seenBefore sh packets e ((j' + 1) * sh.numTopk) ≤
      seenBefore sh packets e (n * sh.numTopk) :=
    seenBefore_mono (Nat.mul_le_mul_right _ hj')
  rw [completes.2] at before
  rw [total] at last
  omega

/-- An expert with a count is completed by some packet. -/
theorem exists_completesAt {n : ℕ} (some : 0 < expected e)
    (total : seenBefore sh packets e (n * sh.numTopk) = expected e) :
    ∃ j < n, CompletesAt sh expected packets j e := by
  induction n with
  | zero =>
    rw [Nat.zero_mul] at total
    exact absurd total.symm (Nat.ne_of_gt some)
  | succ n ih =>
    by_cases earlier : seenBefore sh packets e (n * sh.numTopk) = expected e
    · obtain ⟨j, hj, completes⟩ := ih earlier
      exact ⟨j, hj.trans (Nat.lt_succ_self n), completes⟩
    · have mono : seenBefore sh packets e (n * sh.numTopk) ≤
          seenBefore sh packets e ((n + 1) * sh.numTopk) :=
        seenBefore_mono (Nat.mul_le_mul_right _ (Nat.le_succ n))
      exact ⟨n, Nat.lt_succ_self n, lt_of_le_of_ne (mono.trans total.le) earlier, total⟩

theorem exists_completesAt_iff {n : ℕ}
    (total : seenBefore sh packets e (n * sh.numTopk) = expected e) :
    (∃ j < n, CompletesAt sh expected packets j e) ↔ 0 < expected e := by
  constructor
  · rintro ⟨j, -, completes⟩
    exact lt_of_le_of_lt (Nat.zero_le _) completes.1
  · intro some
    exact exists_completesAt some total

/-- **Over the packets of a source, an expert is fired once** if some packet completes it. -/
theorem filter_flatMap_firedAt (he : e < sh.numExpertsPerRank) (n : ℕ) :
    ((List.range n).flatMap (firedAt sh expected packets)).filter (·.1 = e) =
      if ∃ j < n, CompletesAt sh expected packets j e then [(e, expected e)] else [] := by
  induction n with
  | zero => simp
  | succ n ih =>
    rw [List.range_succ, List.flatMap_append, List.flatMap_singleton, List.filter_append, ih,
      filter_firedAt he]
    by_cases now : CompletesAt sh expected packets n e
    · have before : ¬∃ j < n, CompletesAt sh expected packets j e := by
        rintro ⟨j, hj, completes⟩
        have mono : seenBefore sh packets e ((j + 1) * sh.numTopk) ≤
            seenBefore sh packets e (n * sh.numTopk) :=
          seenBefore_mono (Nat.mul_le_mul_right _ hj)
        rw [completes.2] at mono
        exact absurd now.1 (not_lt.2 mono)
      rw [if_neg before, if_pos now, if_pos ⟨n, Nat.lt_succ_self n, now⟩, List.nil_append]
    · have same : (∃ j < n + 1, CompletesAt sh expected packets j e) ↔
          ∃ j < n, CompletesAt sh expected packets j e := by
        constructor
        · rintro ⟨j, hj, completes⟩
          rcases Nat.lt_succ_iff_lt_or_eq.1 hj with before | rfl
          · exact ⟨j, before, completes⟩
          · exact absurd completes now
        · rintro ⟨j, hj, completes⟩
          exact ⟨j, hj.trans (Nat.lt_succ_self n), completes⟩
      rw [if_neg now, List.append_nil]
      simp only [same]

/-- **Over the packets of a source, the experts with a count are fired**, up to the order. -/
theorem perm_flatMap_firedAt {n : ℕ} (total : ∀ e < sh.numExpertsPerRank,
      seenBefore sh packets e (n * sh.numTopk) = expected e) :
    ((List.range n).flatMap (firedAt sh expected packets)).Perm
      ((List.range sh.numExpertsPerRank).flatMap fun e =>
        if 0 < expected e then [(e, expected e)] else []) := by
  have experts : ∀ x ∈ (List.range n).flatMap (firedAt sh expected packets),
      x.1 < sh.numExpertsPerRank := by
    intro x mem
    obtain ⟨j, -, here⟩ := List.mem_flatMap.1 mem
    obtain ⟨e, inside, rfl⟩ := List.mem_map.1 here
    exact List.mem_range.1 (List.mem_filter.1 inside).1
  refine (Lanes.perm_byLane experts).trans (List.Perm.of_eq (List.flatMap_congr fun e he => ?_))
  have he := List.mem_range.1 he
  simp only [Lanes.of, filter_flatMap_firedAt he, exists_completesAt_iff (total e he)]
  split_ifs
  · rfl
  · rfl

/-- When an expert is fired, every slot of its range belongs to a packet that has come. -/
theorem CompletesAt.exists_slot {basePool : ℕ → ℕ} (he : e < sh.numExpertsPerRank)
    (completes : CompletesAt sh expected packets j e) {slot : ℕ} (lower : basePool e ≤ slot)
    (upper : slot < basePool e + expected e) :
    ∃ j' ≤ j, ∃ k < sh.numTopk,
      slotAt sh basePool packets (j' * sh.numTopk + k) = (slot : ℤ) := by
  have inside : slot - basePool e < seenBefore sh packets e ((j + 1) * sh.numTopk) := by
    rw [completes.2]
    omega
  obtain ⟨p, hp, key, number⟩ := PrefixSum.exists_count_eq inside
  have pos : 0 < sh.numTopk := Nat.pos_of_lt_mul_left hp
  have packet : p / sh.numTopk < j + 1 := (Nat.div_lt_iff_lt_mul pos).2 hp
  refine ⟨p / sh.numTopk, Nat.lt_succ_iff.1 packet, p % sh.numTopk, Nat.mod_lt _ pos, ?_⟩
  rw [Nat.div_add_mod', slotAt, key, if_pos ⟨Int.natCast_nonneg e, by omega⟩, Int.toNat_natCast,
    seenBefore, number, Nat.add_sub_cancel' lower]

end Source

end StreamEP.Internode
