import StreamEP.Intranode.CombineSum

/-!
# The head that combine publishes

While 23 warps replay the positions recorded in `send_head`, one more warp publishes, for
every rank, the minimum of their heads, and the rank may overwrite what lies before it.
A warp that skips a token reports the position of the next token that the rank received,
which dispatch's reverse scan left in the token's entry.

`combine_head_frees_read`: whatever head is published, all entries before it have been
read, by the warps they belong to; and the entry of a skipped token decodes to the
position of the next entry of that rank, or to the sentinel if there is none.

The first part is the rule of the replayed rings, that a position which is still needed is not
below the published head, read over the routing: an entry of a rank's ring has one token and
this token one warp.  The second part is about the tensor alone (`skipsDecode`).  In the example
two of the 23 warps have a token, and the others retire at once.
-/

namespace StreamEP.Intranode

open ReplayRings

variable {sh : Shape} {Row Weight : Type} [Zero Weight]

/-- `-expected_head - 1`: what a warp makes of a skipped token's entry. -/
def decodedHead (expectedHead : ℤ) : ℤ := -expectedHead - 1

namespace World

variable (w : World sh Row Weight) (g c : ℕ) (cfg : Config) (uninitHead : ℕ → ℤ)

/-- Every entry of rank `r` before `h` has been read by the warp of its token. -/
def ReadBelow {V : Type} (s : State (Fin sh.numRanks) (Fin numReduceWarps) V)
    (r : Fin sh.numRanks) (h : ℕ) : Prop :=
  ∀ t, channelStart (w.inputs g).numTokens sh.numChannels c ≤ t →
    t < channelEnd (w.inputs g).numTokens sh.numChannels c → (w.inputs g).InRank r t →
    ringPos (w.inputs g) r c t < h →
      ∀ i, ∀ m < (w.combinePlan g c cfg uninitHead).count i,
        (w.combinePlan g c cfg uninitHead).token i m = t → m < s.done i

/-- The entry of every token that rank `r` did not receive leads to the next one it did. -/
structure SkipsDecode (r : Fin sh.numRanks) (t : ℕ) : Prop where
  next : ∀ t', t < t' → t' < channelEnd (w.inputs g).numTokens sh.numChannels c →
    (w.inputs g).InRank r t' → (∀ x, t < x → x < t' → ¬(w.inputs g).InRank r x) →
      decodedHead (sendHead (w.inputs g) uninitHead (t * sh.numRanks + r)) =
        ringPos (w.inputs g) r c t'
  last : (∀ x, t < x → x < channelEnd (w.inputs g).numTokens sh.numChannels c →
      ¬(w.inputs g).InRank r x) →
    decodedHead (sendHead (w.inputs g) uninitHead (t * sh.numRanks + r)) =
      kReverseScanSentinel

variable {w g c cfg uninitHead}

/-- **The reverse scan looks ahead exactly.** -/
theorem skipsDecode (hc : c < sh.numChannels) {r : Fin sh.numRanks} {t : ℕ}
    (lo : channelStart (w.inputs g).numTokens sh.numChannels c ≤ t)
    (hi : t < channelEnd (w.inputs g).numTokens sh.numChannels c)
    (skipped : ¬(w.inputs g).InRank r t) : w.SkipsDecode g c uninitHead r t := by
  have entry : decodedHead (sendHead (w.inputs g) uninitHead (t * sh.numRanks + r)) =
      nextHead (w.inputs g) r c t := by
    rw [sendHead_apply uninitHead r.isLt hc lo hi, encodedHead, if_neg skipped, decodedHead]
    omega
  -- the skipped token itself does not count, so "after `t`" and "from `t` on" are the same
  have from_here : ∀ {t'}, (∀ x, t < x → x < t' → ¬(w.inputs g).InRank r x) →
      ∀ x, t ≤ x → x < t' → ¬(w.inputs g).InRank r x := by
    intro t' none x le below
    rcases eq_or_lt_of_le le with rfl | after
    · exact skipped
    · exact none x after below
  constructor
  case next =>
    intro t' after inside goes none
    have same : ringPos (w.inputs g) r c t' = ringPos (w.inputs g) r c t :=
      Stream.pos_eq_of_none after.le (from_here none)
    have below := ringPos_lt_tokensIn (lo.trans after.le) inside goes
    rw [entry, nextHead, if_pos (same ▸ below), same]
  case last =>
    intro none
    have same : (w.inputs g).tokensIn r c = ringPos (w.inputs g) r c t :=
      Stream.pos_eq_of_none hi.le (from_here none)
    rw [entry, nextHead, if_neg (by omega)]

/-- A position that is still needed is not below the published head. -/
theorem readBelow_of_needed (hc : c < sh.numChannels) {V : Type} [AddCommMonoid V]
    {payload : Fin sh.numRanks → ℕ → V}
    {s : State (Fin sh.numRanks) (Fin numReduceWarps) V}
    (readers : Readers (w.combinePlan g c cfg uninitHead) payload s) (r : Fin sh.numRanks) :
    w.ReadBelow g c cfg uninitHead s r (s.publishedHead r) := by
  intro t lo hi goes below i m hm mine
  by_contra unread
  have record := combinePlan_expected cfg uninitHead hc lo hi r
  rw [encodedHead, if_pos goes] at record
  subst mine
  have needed := readers.needed i m r (not_lt.1 unread) hm (by
    rw [record]
    exact Int.natCast_nonneg _)
  rw [record] at needed
  have := Int.ofNat_le.1 needed
  omega

variable {X W : Type} [AddCommMonoid X] [AddCommMonoid W] {io : CombineInputs X W}
  {slots : Fin sh.numRanks → ℕ → X × (ℕ → W)}

/-- **No published head frees an entry that is still to be read.** -/
theorem combine_head_frees_read (hg : g < sh.numRanks) (hc : c < sh.numChannels)
    {s s' : State (Fin sh.numRanks) (Fin numReduceWarps) (X × (ℕ → W))}
    (reach : (w.combineSystem g c cfg uninitHead io slots).Reachable s)
    {r : Fin sh.numRanks} {h : ℕ}
    (fires : (w.combineSystem g c cfg uninitHead io slots).step s (.publishHead r h) = some s') :
    s'.publishedHead r = h ∧ w.ReadBelow g c cfg uninitHead s r h ∧
      ∀ t, channelStart (w.inputs g).numTokens sh.numChannels c ≤ t →
        t < channelEnd (w.inputs g).numTokens sh.numChannels c →
        ¬(w.inputs g).InRank r t → w.SkipsDecode g c uninitHead r t := by
  have after := reachable_inv (combinePlan_sound cfg uninitHead hg hc) (reach.step _ fires)
  simp only [combineSystem, system, step, Option.ite_none_right_eq_some,
    Option.some.injEq] at fires
  obtain ⟨-, rfl⟩ := fires
  have published : Function.update s.publishedHead r h r = h := Function.update_self ..
  refine ⟨published, ?_, fun t lo hi skipped => skipsDecode hc lo hi skipped⟩
  have safe := readBelow_of_needed hc after.readers r
  simp only [published] at safe
  exact safe

section Example

variable (w0 w1 : Fin numReduceWarps) (r0 r1 : Fin exampleShape.numRanks)

/-- Channel 0 of rank 0: token 0 went to both ranks, token 1 to rank 1 only; the other warps
have no token and retire. -/
def exampleHeadRun : List (Event (Fin exampleShape.numRanks) (Fin numReduceWarps)) :=
  [.claim r0, .write r0 0, .publish r0, .readTail r0,
    .claim r1, .write r1 0, .publish r1, .claim r1, .write r1 1, .publish r1, .readTail r1,
    .arrive w0, .read w0 r0, .read w0 r1, .finish w0,
    .arrive w1, .read w1 r1, .finish w1] ++
  ((List.finRange numReduceWarps).filter fun i => i ≠ w0 ∧ i ≠ w1).map .retire

/-- At its end the head 1 of rank 0 is published, and its only entry has been read. -/
theorem exampleWorld_head_frees_read :
    ∃ s s', ((exampleWorld.combineSystem 0 0 exampleConfig (fun _ => 0) exampleIO
        fun _ _ => 0).step s (.publishHead ⟨0, Nat.two_pos⟩ 1) = some s') ∧
      s'.publishedHead ⟨0, Nat.two_pos⟩ = 1 ∧
      exampleWorld.ReadBelow 0 0 exampleConfig (fun _ => 0) s ⟨0, Nat.two_pos⟩ 1 ∧
      ∀ t, channelStart (exampleWorld.inputs 0).numTokens exampleShape.numChannels 0 ≤ t →
        t < channelEnd (exampleWorld.inputs 0).numTokens exampleShape.numChannels 0 →
        ¬(exampleWorld.inputs 0).InRank 0 t →
          exampleWorld.SkipsDecode 0 0 (fun _ => 0) ⟨0, Nat.two_pos⟩ t := by
  have replays : (((exampleWorld.combineSystem 0 0 exampleConfig (fun _ => 0) exampleIO
      fun _ _ => 0).run (start fun _ _ => 0)
        (exampleHeadRun ⟨0, by decide⟩ ⟨1, by decide⟩ ⟨0, Nat.two_pos⟩
          ⟨1, Nat.one_lt_two⟩)).bind fun s =>
      (exampleWorld.combineSystem 0 0 exampleConfig (fun _ => 0) exampleIO
        fun _ _ => 0).step s (.publishHead ⟨0, Nat.two_pos⟩ 1)).isSome = true := by
    decide +kernel
  obtain ⟨s', ends⟩ := Option.isSome_iff_exists.1 replays
  obtain ⟨s, replay, fires⟩ := Option.bind_eq_some_iff.1 ends
  exact ⟨s, s', fires,
    combine_head_frees_read (by decide) (by decide) (TransitionSystem.Reachable.init.run replay)
      fires⟩

end Example

end World

end StreamEP.Intranode
