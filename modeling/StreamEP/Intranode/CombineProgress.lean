import StreamEP.Intranode.Combine

/-!
# When intranode combine can get stuck

The rings of a combine are filled in chunks, and a ring's head moves only as far as the
slowest of the 23 warps that have not retired.  A warp that works on the earliest open
token has its head up to 22 positions behind that token, so a ring must have room for a
chunk and 22 more slots.

`combine_deadlockFree_iff` says that this is the exact condition on a configuration.  If
it holds, no routing leads to a state in which everybody waits
(`combineSystem_progress`).  If it fails, then sending everything to one rank stalls in
every run: the sender never gets beyond the chunk that holds position 22
(`stall_tail_le`).

**Enough room.**  Every warp takes each 23rd token of the channel, and positions advance by at
most one for each token.  So a warp's head lies at most 22 positions behind any token that is not
later than its own (`combinePlan_lag`), which is what the rings ask for in order to go on
(`combinePlan_paced`).  Progress in every state and a measure that steps decrease give a run to
the end from everywhere (`combineSystem_completes`).  Heads are compared with the sentinel of the
scan, so a substream must not have more packets than that (`HeadsFit`).

**Too little room.**  In `stallWorld` every token chooses the first expert, so for the tokens of
rank 0 position and token number are the same and everything about the plan is explicit.  While
the packet at the tail is missing, the warp that waits for it has its head 22 positions back
(`stall_publishedHead_le`); so the sender's condition for the next chunk fails.  The run that
gets stuck is not written down: the tail is bounded in all runs, and a run cannot go on for
ever.

With rings so large that ring and chunk together exceed every substream, nothing is ever waited
for; `RoomToCombine` has this case too.
-/

namespace StreamEP.Intranode

open Finset ReplayRings

variable {sh : Shape} {Row Weight : Type} [Zero Weight]

namespace World

/-- No substream has more packets than the scan's sentinel, which is meant to be larger
than any position. -/
def HeadsFit (w : World sh Row Weight) (g c : ℕ) : Prop :=
  ∀ r < sh.numRanks, (w.inputs g).tokensIn r c ≤ kReverseScanSentinel

/-- Everything has been sent, and every token of the channel combined. -/
structure CombineDone {V : Type} (w : World sh Row Weight) (g c : ℕ) (cfg : Config)
    (uninitHead : ℕ → ℤ) (s : State (Fin sh.numRanks) (Fin numReduceWarps) V) : Prop where
  sent : ∀ r, s.tail r = (w.combinePlan g c cfg uninitHead).total r
  combined : ∀ t, channelStart (w.inputs g).numTokens sh.numChannels c ≤ t →
    t < channelEnd (w.inputs g).numTokens sh.numChannels c → (s.out t).isSome

end World

/-- A ring has room for a chunk and for the 22 positions that a warp's head may lag
behind; or ring and chunk together exceed what any substream can hold. -/
def RoomToCombine (cfg : Config) : Prop :=
  cfg.numMaxNvlChunkedSendTokens + 22 ≤ cfg.numMaxNvlChunkedRecvTokens ∨
    kReverseScanSentinel + 22 ≤
      cfg.numMaxNvlChunkedSendTokens + cfg.numMaxNvlChunkedRecvTokens

/-- No routing, however large and however many ranks, channels and experts there are,
brings a combine with this configuration into a state where nobody can go on. -/
def CombineDeadlockFree (cfg : Config) : Prop :=
  ∀ (sh : Shape) (Row Weight X W : Type) [Zero Weight] [AddCommMonoid X] [AddCommMonoid W]
    (w : World sh Row Weight) (g c : ℕ) (uninitHead : ℕ → ℤ) (io : CombineInputs X W)
    (slots : Fin sh.numRanks → ℕ → X × (ℕ → W)),
    g < sh.numRanks → c < sh.numChannels → w.HeadsFit g c →
    ∀ s, (w.combineSystem g c cfg uninitHead io slots).Reachable s →
      w.CombineDone g c cfg uninitHead s ∨
        ∃ e s', (w.combineSystem g c cfg uninitHead io slots).step s e = some s'

namespace World

variable {w : World sh Row Weight} {g c : ℕ} {cfg : Config} {uninitHead : ℕ → ℤ}

/-! ### Enough room -/

omit [Zero Weight] in
/-- Positions advance by at most one for each token. -/
theorem ringPos_le_add {r t t' : ℕ} (lo : channelStart (w.inputs g).numTokens sh.numChannels c ≤ t)
    (le : t ≤ t') : ringPos (w.inputs g) r c t' ≤ ringPos (w.inputs g) r c t + (t' - t) := by
  induction t', le using Nat.le_induction with
  | base => omega
  | succ t' le ih =>
      rw [ringPos_succ (lo.trans le)]
      by_cases goes : (w.inputs g).InRank r t'
      · rw [if_pos goes]
        omega
      · rw [if_neg goes]
        omega

/-- What follows a token in the ring is no further than the next token's position. -/
theorem ringPos_succ_le_headAfter (hc : c < sh.numChannels) (fit : w.HeadsFit g c)
    {i : Fin numReduceWarps} {m : ℕ} (hm : m < (w.combinePlan g c cfg uninitHead).count i)
    (r : Fin sh.numRanks) {bound : ℕ} (below : bound < (w.inputs g).tokensIn r c)
    (near : bound ≤ ringPos (w.inputs g) r c
      ((w.combinePlan g c cfg uninitHead).token i m + 1) + 22) :
    bound ≤ (w.combinePlan g c cfg uninitHead).headAfter i r (m + 1) + 22 := by
  obtain ⟨lo, -⟩ := combinePlan_token hm
  rw [combinePlan_headAfter hc hm]
  rw [ringPos_succ lo] at near
  by_cases sent : (w.inputs g).InRank r ((w.combinePlan g c cfg uninitHead).token i m)
  · rwa [if_pos sent] at near ⊢
  · rw [if_neg sent] at near ⊢
    unfold nextHead
    by_cases more : ringPos (w.inputs g) r c ((w.combinePlan g c cfg uninitHead).token i m) <
        (w.inputs g).tokensIn r c
    · rwa [if_pos more]
    · have := fit r r.isLt
      rw [if_neg more]
      omega

/-- **A warp's head lies at most 22 positions behind any token that is not later than its
own.** -/
theorem combinePlan_lag (hc : c < sh.numChannels) (fit : w.HeadsFit g c)
    {i : Fin numReduceWarps} {m : ℕ} (hm : m < (w.combinePlan g c cfg uninitHead).count i)
    {v : Fin numReduceWarps} {k : ℕ} (hk : k < (w.combinePlan g c cfg uninitHead).count v)
    (le : (w.combinePlan g c cfg uninitHead).token v k ≤
      (w.combinePlan g c cfg uninitHead).token i m) (r : Fin sh.numRanks) :
    (w.combinePlan g c cfg uninitHead).expected
        ((w.combinePlan g c cfg uninitHead).token v k) r ≤
      (w.combinePlan g c cfg uninitHead).headAfter i r m + 22 := by
  obtain ⟨lo, hi⟩ := combinePlan_token hk
  rw [combinePlan_expected cfg uninitHead hc lo hi, encodedHead]
  by_cases goes : (w.inputs g).InRank r ((w.combinePlan g c cfg uninitHead).token v k)
  · rw [if_pos goes]
    cases m with
    | zero =>
        -- the warp's first token is one of the first 23 of the channel
        have first : (w.combinePlan g c cfg uninitHead).token i 0 ≤
            channelStart (w.inputs g).numTokens sh.numChannels c + 22 := by
          have warp := i.isLt
          have reduce : numReduceWarps = 23 := rfl
          simp only [combinePlan]
          omega
        have near := ringPos_le_add (w := w) (r := r) le_rfl lo
        have start : ringPos (w.inputs g) r c
            (channelStart (w.inputs g).numTokens sh.numChannels c) = 0 := Nat.sub_self _
        rw [start] at near
        exact_mod_cast (by omega : ringPos (w.inputs g) r c _ ≤ 0 + 22)
    | succ m =>
        have before : m < (w.combinePlan g c cfg uninitHead).count i := by omega
        obtain ⟨lo', -⟩ := combinePlan_token before
        have stride : (w.combinePlan g c cfg uninitHead).token i (m + 1) =
            (w.combinePlan g c cfg uninitHead).token i m + 23 := by
          simp only [combinePlan, Nat.succ_mul, Nat.add_assoc]
          rfl
        have inside := ringPos_lt_tokensIn lo hi goes
        have near : ringPos (w.inputs g) r c ((w.combinePlan g c cfg uninitHead).token v k) ≤
            ringPos (w.inputs g) r c
              ((w.combinePlan g c cfg uninitHead).token i m + 1) + 22 := by
          by_cases past : (w.combinePlan g c cfg uninitHead).token i m + 1 ≤
              (w.combinePlan g c cfg uninitHead).token v k
          · have := ringPos_le_add (w := w) (g := g) (c := c) (r := r)
              (t := (w.combinePlan g c cfg uninitHead).token i m + 1) (by omega) past
            omega
          · have : ringPos (w.inputs g) r c ((w.combinePlan g c cfg uninitHead).token v k) ≤
                ringPos (w.inputs g) r c _ := ringPos_mono (not_le.1 past).le
            omega
        exact_mod_cast ringPos_succ_le_headAfter hc fit before r inside near
  · rw [if_neg goes]
    omega

theorem combinePlan_paced (hg : g < sh.numRanks) (hc : c < sh.numChannels)
    (fit : w.HeadsFit g c) (room : RoomToCombine cfg) :
    (w.combinePlan g c cfg uninitHead).Paced 22 where
  room r tail more first := by
    have lt := cfg.nvlSend_lt_recv
    have small := fit r r.isLt
    rw [combinePlan_total cfg uninitHead hg hc] at more ⊢
    unfold RoomToCombine at room
    simp only [combinePlan] at first ⊢
    omega
  after _ _ hm _ _ hk le r := combinePlan_lag hc fit hm hk le r
  during _ _ hm _ _ hk le r := combinePlan_lag hc fit hm hk le r

variable (cfg uninitHead) in
/-- Heads stay below the sentinel, or below the number of packets. -/
theorem combinePlan_bounded (hc : c < sh.numChannels) :
    (w.combinePlan g c cfg uninitHead).Bounded fun r =>
      max ((w.inputs g).tokensIn r c) kReverseScanSentinel := by
  have after : ∀ i r, ∀ m ≤ (w.combinePlan g c cfg uninitHead).count i,
      (w.combinePlan g c cfg uninitHead).headAfter i r m ≤
        max ((w.inputs g).tokensIn r c) kReverseScanSentinel := by
    intro i r m hm
    cases m with
    | zero => exact Nat.zero_le _
    | succ m =>
        obtain ⟨lo, hi⟩ := combinePlan_token hm
        rw [combinePlan_headAfter hc hm]
        by_cases sent : (w.inputs g).InRank r ((w.combinePlan g c cfg uninitHead).token i m)
        · have := ringPos_lt_tokensIn lo hi sent
          rw [if_pos sent]
          omega
        · rw [if_neg sent, nextHead]
          split_ifs <;> omega
  exact ⟨after, fun i r m hm => after i r m hm.le⟩

section Done

variable {X W : Type} [AddCommMonoid X] [AddCommMonoid W] {io : CombineInputs X W}
  {s : State (Fin sh.numRanks) (Fin numReduceWarps) (X × (ℕ → W))}

/-- When all warps are through their tokens, everything is sent and combined. -/
theorem combineDone_of_completed (hg : g < sh.numRanks) (hc : c < sh.numChannels)
    (inv : Inv (w.combinePlan g c cfg uninitHead) (w.combinePayload g c io) s)
    (completed : s.Completed (w.combinePlan g c cfg uninitHead)) :
    w.CombineDone g c cfg uninitHead s where
  sent r := by
    have bounded := inv.rings.bounded r
    have total := combinePlan_total (w := w) cfg uninitHead hg hc r
    rw [total] at bounded ⊢
    by_contra missing
    -- the packet at the tail belongs to a token that a warp is done with
    have position : s.tail r < (selected (w.inputs g) r c).length := by
      rw [length_selected]
      omega
    have mem := List.getElem_mem position
    obtain ⟨⟨lo, hi⟩, goes⟩ := mem_selected.1 mem
    obtain ⟨i, m, hm, token⟩ := exists_combinePlan_token cfg
      uninitHead lo hi
    have sent := (inv.readers.finished i m (by rw [completed i]; exact hm)).2 r
    rw [token, combinePlan_expected cfg uninitHead hc lo hi, encodedHead, if_pos goes,
      ringPos_selected position] at sent
    omega
  combined t lo hi := by
    obtain ⟨i, m, hm, rfl⟩ := exists_combinePlan_token cfg
      uninitHead lo hi
    rw [(inv.readers.finished i m (by rw [completed i]; exact hm)).1]
    rfl

end Done

/-- **With enough room nobody gets stuck**, whatever the routing. -/
theorem combineSystem_progress {X W : Type} [AddCommMonoid X] [AddCommMonoid W]
    {io : CombineInputs X W} {slots : Fin sh.numRanks → ℕ → X × (ℕ → W)}
    (hg : g < sh.numRanks) (hc : c < sh.numChannels) (fit : w.HeadsFit g c)
    (room : RoomToCombine cfg)
    {s : State (Fin sh.numRanks) (Fin numReduceWarps) (X × (ℕ → W))}
    (reach : (w.combineSystem g c cfg uninitHead io slots).Reachable s) :
    w.CombineDone g c cfg uninitHead s ∨
      ∃ e s', (w.combineSystem g c cfg uninitHead io slots).step s e = some s' := by
  have sound := combinePlan_sound (w := w) cfg uninitHead hg hc
  have inv := reachable_inv sound reach
  by_cases completed : s.Completed (w.combinePlan g c cfg uninitHead)
  · exact Or.inl (combineDone_of_completed hg hc inv completed)
  · exact Or.inr (exists_step inv sound (combinePlan_paced hg hc fit room) completed)

/-- Then every run can be brought to its end. -/
theorem combineSystem_completes {X W : Type} [AddCommMonoid X] [AddCommMonoid W]
    {io : CombineInputs X W} {slots : Fin sh.numRanks → ℕ → X × (ℕ → W)}
    (hg : g < sh.numRanks) (hc : c < sh.numChannels) (fit : w.HeadsFit g c)
    (room : RoomToCombine cfg)
    {s : State (Fin sh.numRanks) (Fin numReduceWarps) (X × (ℕ → W))}
    (reach : (w.combineSystem g c cfg uninitHead io slots).Reachable s) :
    ∃ s', (w.combineSystem g c cfg uninitHead io slots).Reachable s' ∧
      w.CombineDone g c cfg uninitHead s' := by
  obtain ⟨s', reach', ended⟩ := exists_terminal (combinePlan_sound cfg uninitHead hg hc)
    cfg.nvlSend_pos (combinePlan_bounded cfg uninitHead hc) reach
  refine ⟨s', reach', ?_⟩
  rcases combineSystem_progress hg hc fit room reach' with done | ⟨e, s'', fires⟩
  · exact done
  · have none : (w.combineSystem g c cfg uninitHead io slots).step s' e = none := ended e
    rw [none] at fires
    exact absurd fires (by simp)

/-- So every combine has a run to its end, whatever is fed to it. -/
theorem exists_combineRun {X W : Type} [AddCommMonoid X] [AddCommMonoid W]
    (hg : g < sh.numRanks) (hc : c < sh.numChannels)
    (few : (w.inputs g).numTokens ≤ kReverseScanSentinel) (room : RoomToCombine cfg)
    (uninitHead : ℕ → ℤ) (io : CombineInputs X W) (slots : Fin sh.numRanks → ℕ → X × (ℕ → W)) :
    ∃ s, (w.combineSystem g c cfg uninitHead io slots).Reachable s ∧
      w.CombineDone g c cfg uninitHead s := by
  have fit : w.HeadsFit g c := fun r _ =>
    (Nat.sub_le _ _).trans ((Nat.count_le _).trans ((channelEnd_le _ _ _).trans few))
  have begins : (w.combineSystem g c cfg uninitHead io slots).Reachable _ := .init
  exact combineSystem_completes hg hc fit room begins

end World

/-! ### Too little room -/

/-- Two ranks with one expert each. -/
def stallShape : Shape where
  numRanks := 2
  numChannels := 1
  numExpertsPerRank := 1
  numTopk := 1
  tileM := 1
  numRanks_pos := by decide
  numChannels_pos := by decide
  numExpertsPerRank_pos := by decide
  tileM_pos := by decide

/-- Every token chooses the first expert. -/
def stallInputs (numTokens : ℕ) : DispatchInputs stallShape ℕ ℕ where
  numTokens := numTokens
  x t := t
  topkIdx _ := 0
  topkWeights _ := 1
  isTokenInRank i := i % 2 == 0
  topkIdx_lower _ _ _ _ := by decide
  topkIdx_upper _ _ _ _ := by decide
  topkIdx_distinct _ _ k hk k' hk' _ _ := by
    have hk : k < 1 := hk
    have hk' : k' < 1 := hk'
    omega
  isTokenInRank_iff t _ r hr := by
    have hr : r < 2 := hr
    show ((t * 2 + r) % 2 == 0) = true ↔ ∃ k < 1, (0 : ℤ) ≤ 0 ∧ (0 : ℤ) / 1 = r
    rw [beq_iff_eq]
    constructor
    · intro even
      exact ⟨0, by decide, le_rfl, by omega⟩
    · rintro ⟨-, -, -, first⟩
      omega

/-- Both ranks pass `numTokens` such tokens. -/
def stallWorld (numTokens : ℕ) : World stallShape ℕ ℕ where
  inputs _ := stallInputs numTokens
  numRecvBufferTokens := 1
  staleE _ _ := 0
  staleU _ _ := 0
  uninitSeen _ := 0
  uninitSlot _ := 0

/-- Arbitrary rows and weights to combine. -/
def stallIO : CombineInputs ℕ ℕ where
  x _ r := r
  perSlotWeights _ _ := 0
  recvTokenToSlots _ _ := -1

/-- The last position the sender can claim: that of the first chunk that reaches
position 22. -/
def stallBound (cfg : Config) : ℕ :=
  if 22 ≤ cfg.numMaxNvlChunkedSendTokens then cfg.numMaxNvlChunkedSendTokens
  else cfg.numMaxNvlChunkedSendTokens + 21

/-- Enough tokens that the sender would need room for more than the ring has left. -/
def stallTokens (cfg : Config) : ℕ :=
  if 22 ≤ cfg.numMaxNvlChunkedSendTokens then
    cfg.numMaxNvlChunkedSendTokens + cfg.numMaxNvlChunkedRecvTokens - 21
  else cfg.numMaxNvlChunkedSendTokens + cfg.numMaxNvlChunkedRecvTokens + 22

section Stall

local instance : NeZero stallShape.numRanks := ⟨by decide⟩

theorem stall_inRank (n t : ℕ) : (stallInputs n).InRank 0 t := by
  show ((t * 2 + 0) % 2 == 0) = true
  rw [beq_iff_eq]
  omega

theorem stall_count (n t : ℕ) : Nat.count ((stallInputs n).InRank 0) t = t :=
  Nat.count_iff_forall.2 fun t' _ => stall_inRank n t'

theorem stall_ringPos (n t : ℕ) : ringPos (stallInputs n) 0 0 t = t := by
  rw [ringPos, Stream.pos, stall_count, stall_count, channelStart_zero, Nat.sub_zero]

theorem stall_channel (n : ℕ) :
    channelStart (stallInputs n).numTokens stallShape.numChannels 0 = 0 ∧
      channelEnd (stallInputs n).numTokens stallShape.numChannels 0 = n := by
  refine ⟨channelStart_zero _ _, ?_⟩
  rw [channelEnd_eq]
  exact channelStart_last (by decide) n

theorem stall_tokensIn (n : ℕ) : (stallInputs n).tokensIn 0 0 = n := by
  rw [DispatchInputs.tokensIn, (stall_channel n).1, (stall_channel n).2, stall_count,
    stall_count, Nat.sub_zero]

variable {cfg : Config} {n : ℕ}

/-- The combine of channel 0 at rank 0, where every packet comes from rank 0. -/
abbrev stallPlan (cfg : Config) (n : ℕ) := (stallWorld n).combinePlan 0 0 cfg fun _ => 0

theorem stallPlan_total : (stallPlan cfg n).total 0 = n :=
  (World.combinePlan_total cfg _ (by decide) (by decide) 0).trans (stall_tokensIn n)

theorem stallPlan_token {i : Fin numReduceWarps} {m : ℕ} :
    (stallPlan cfg n).token i m = i + m * 23 := by
  show channelStart (stallInputs n).numTokens stallShape.numChannels 0 + _ + _ = _
  rw [(stall_channel n).1, Nat.zero_add]
  rfl

theorem stallPlan_expected {t : ℕ} (ht : t < n) : (stallPlan cfg n).expected t 0 = t := by
  have channel := stall_channel n
  refine (World.combinePlan_expected (w := stallWorld n) (g := 0) (c := 0) (t := t) cfg _
    (by decide) (channel.1.le.trans (Nat.zero_le _)) (ht.trans_le channel.2.ge) 0).trans ?_
  show encodedHead (stallInputs n) 0 0 t = _
  rw [encodedHead, if_pos (stall_inRank _ _), stall_ringPos]

/-- A warp's head stands right after its last token. -/
theorem stallPlan_headAfter {i : Fin numReduceWarps} {m : ℕ}
    (hm : m < (stallPlan cfg n).count i) :
    (stallPlan cfg n).headAfter i 0 (m + 1) = (stallPlan cfg n).token i m + 1 := by
  refine (World.combinePlan_headAfter (by decide) hm 0).trans ?_
  show (if (stallInputs n).InRank 0 _ then ringPos (stallInputs n) 0 0 _ + 1 else _) = _
  rw [if_pos (stall_inRank _ _), stall_ringPos]

theorem stallPlan_sound : (stallPlan cfg n).Sound :=
  World.combinePlan_sound (w := stallWorld n) (g := 0) (c := 0) cfg _ (by decide) (by decide)

variable {slots : Fin stallShape.numRanks → ℕ → ℕ × (ℕ → ℕ)}
  {s : State (Fin stallShape.numRanks) (Fin numReduceWarps) (ℕ × (ℕ → ℕ))}

/-- While the packet at the tail is missing, the head stays 22 positions behind it: the
warp that waits for this packet has its head there. -/
theorem stall_publishedHead_le
    (reach : ((stallWorld n).combineSystem 0 0 cfg (fun _ => 0) stallIO slots).Reachable s)
    (more : s.tail 0 < n) : s.publishedHead 0 ≤ s.tail 0 - 22 := by
  have channel := stall_channel n
  have inv := reachable_inv stallPlan_sound reach
  obtain ⟨i, m, hm, token⟩ := World.exists_combinePlan_token (w := stallWorld n) (g := 0)
    (c := 0) cfg (fun _ => 0) (t := s.tail 0) (channel.1.le.trans (Nat.zero_le _))
    (more.trans_le channel.2.ge)
  have hm : m < (stallPlan cfg n).count i := hm
  have token : (stallPlan cfg n).token i m = s.tail 0 := token
  -- the warp of the token at the tail has not got to it yet, and has not retired
  have waiting : s.done i ≤ m := by
    by_contra past
    have sent := (inv.readers.finished i m (not_le.1 past)).2 0
    rw [token, stallPlan_expected more] at sent
    exact absurd sent (lt_irrefl _)
  have active : s.retired i = false := by
    by_contra stopped
    have := inv.readers.retired i (by simpa using stopped)
    omega
  have grow : ∀ i, ∀ m < (stallPlan cfg n).count i,
      (stallPlan cfg n).headAfter i 0 m ≤ (stallPlan cfg n).headDuring i 0 m ∧
        (stallPlan cfg n).headDuring i 0 m ≤ (stallPlan cfg n).headAfter i 0 (m + 1) := by
    intro i m hm
    refine ⟨le_rfl, ?_⟩
    show (stallPlan cfg n).headAfter i 0 m ≤ _
    cases m with
    | zero => exact Nat.zero_le _
    | succ m =>
        rw [stallPlan_headAfter hm, stallPlan_headAfter (by omega), stallPlan_token,
          stallPlan_token]
        omega
  -- what is published is a minimum, so this warp's head bounds it
  have published := published_le_head stallPlan_sound grow reach active
  have head : s.head i 0 = (stallPlan cfg n).headAfter i 0 (s.done i) := by
    rw [inv.readers.head]
    cases s.reading i <;> rfl
  rw [head] at published
  cases finished : s.done i with
  | zero =>
      rw [finished] at published
      exact published.trans (Nat.zero_le _)
  | succ k =>
      rw [finished, stallPlan_headAfter (by omega), stallPlan_token] at published
      rw [stallPlan_token] at token
      omega

/-- **The sender stalls**: it never claims a chunk that begins at position 22 or later. -/
theorem stall_tail_le (tight : ¬RoomToCombine cfg)
    (reach : ((stallWorld (stallTokens cfg)).combineSystem 0 0 cfg (fun _ => 0) stallIO
      slots).Reachable s) : s.tail 0 + s.claimed 0 ≤ stallBound cfg := by
  induction reach with
  | init => exact Nat.zero_le _
  | @step s s' e before fires ih =>
      have first := (reachable_inv stallPlan_sound before).rings.first 0
      cases e <;>
        simp only [World.combineSystem, system, step, Option.ite_none_right_eq_some,
          Option.some.injEq] at fires <;>
        obtain ⟨guard, rfl⟩ := fires
      case claim r =>
        rcases eq_or_ne 0 r with rfl | other
        · obtain ⟨idle, more, room⟩ := guard
          rw [stallPlan_total] at more first
          -- room for a chunk is asked for behind the published head, which is 22 short of the tail
          have behind := stall_publishedHead_le before more
          have round : (stallPlan cfg (stallTokens cfg)).round s 0 =
              min cfg.numMaxNvlChunkedSendTokens (stallTokens cfg - s.tail 0) := by
            rw [Plan.round, stallPlan_total]
            rfl
          have room : s.tail 0 + (stallPlan cfg (stallTokens cfg)).round s 0 ≤
              s.publishedHead 0 + cfg.numMaxNvlChunkedRecvTokens := room
          have first : s.tail 0 + s.claimed 0 = 0 ∨
              min cfg.numMaxNvlChunkedSendTokens (stallTokens cfg) ≤
                s.tail 0 + s.claimed 0 := first
          have lt := cfg.nvlSend_lt_recv
          simp only [State.claim, Function.update_self]
          show s.tail 0 + (stallPlan cfg (stallTokens cfg)).round s 0 ≤ _
          unfold RoomToCombine at tight
          unfold stallTokens at *
          unfold stallBound at *
          split_ifs at * <;> omega
        · simpa only [State.claim, Function.update_of_ne other] using ih
      case publish r =>
        rcases eq_or_ne 0 r with rfl | other
        · simpa only [State.publish, Function.update_self, Nat.add_zero] using ih
        · simpa only [State.publish, Function.update_of_ne other] using ih
      all_goals exact ih

theorem stall_headsFit (tight : ¬RoomToCombine cfg) :
    (stallWorld (stallTokens cfg)).HeadsFit 0 0 := by
  intro r hr
  have few : stallTokens cfg ≤ kReverseScanSentinel := by
    have large : kReverseScanSentinel = 33554432 := rfl
    unfold RoomToCombine at tight
    unfold stallTokens
    split_ifs <;> omega
  refine le_trans ?_ few
  show (stallInputs _).tokensIn r 0 ≤ _
  exact (Nat.sub_le _ _).trans ((Nat.count_le _).trans (channelEnd_le _ _ _))

/-- Some run ends with tokens left and nobody able to go on. -/
theorem stall_terminal (tight : ¬RoomToCombine cfg) :
    ∃ s, ((stallWorld (stallTokens cfg)).combineSystem 0 0 cfg (fun _ => 0) stallIO
        fun _ _ => 0).Reachable s ∧
      ¬(stallWorld (stallTokens cfg)).CombineDone 0 0 cfg (fun _ => 0) s ∧
        ∀ e, ((stallWorld (stallTokens cfg)).combineSystem 0 0 cfg (fun _ => 0) stallIO
          fun _ _ => 0).step s e = none := by
  have bounded := World.combinePlan_bounded (w := stallWorld (stallTokens cfg)) (g := 0)
    (c := 0) cfg (fun _ => 0) (by decide)
  have begins : ((stallWorld (stallTokens cfg)).combineSystem 0 0 cfg (fun _ => 0) stallIO
    fun _ _ => 0).Reachable _ := .init
  obtain ⟨s, reach, stuck⟩ :=
    exists_terminal (p := stallPlan cfg _) stallPlan_sound cfg.nvlSend_pos bounded begins
  refine ⟨s, reach, fun done => ?_, stuck⟩
  have stalled := stall_tail_le tight reach
  have all : s.tail 0 = (stallPlan cfg (stallTokens cfg)).total 0 := done.sent 0
  have lt := cfg.nvlSend_lt_recv
  rw [stallPlan_total] at all
  unfold stallTokens at *
  unfold stallBound at *
  split_ifs at * <;> omega

end Stall

/-! ### The exact condition -/

/-- **Intranode combine cannot get stuck exactly when there is room to combine.** -/
theorem combine_deadlockFree_iff (cfg : Config) :
    CombineDeadlockFree cfg ↔ RoomToCombine cfg := by
  constructor
  · intro free
    by_contra tight
    obtain ⟨s, reach, undone, stuck⟩ := stall_terminal tight
    rcases free _ _ _ _ _ _ 0 0 _ _ _ (by decide) (by decide) (stall_headsFit tight) s reach with
      done | ⟨e, s', fires⟩
    · exact undone done
    · rw [stuck e] at fires
      exact absurd fires (by simp)
  · intro room sh Row Weight X W _ _ _ w g c uninitHead io slots hg hc fit s reach
    exact World.combineSystem_progress hg hc fit room reach

/-- A ring of five slots and chunks of four packets, which the constructor accepts. -/
def smallConfig : Config where
  numSms := 2
  numMaxNvlChunkedSendTokens := 4
  numMaxNvlChunkedRecvTokens := 5
  numMaxRdmaChunkedSendTokens := 1
  numMaxRdmaChunkedRecvTokens := 2
  nvlSend_pos := by decide
  nvlSend_lt_recv := by decide
  rdmaSend_pos := by decide
  rdmaSend_lt_recv := by decide
  rdmaSend_le_half := by decide
  rdmaRecv_aligned := by decide

/-- With it, 31 tokens for one rank get stuck. -/
theorem smallConfig_stuck :
    Config.new 2 4 5 1 2 = some smallConfig ∧
      (stallWorld 31).HeadsFit 0 0 ∧
        ∃ s, ((stallWorld 31).combineSystem 0 0 smallConfig (fun _ => 0) stallIO
            fun _ _ => 0).Reachable s ∧
          ¬(stallWorld 31).CombineDone 0 0 smallConfig (fun _ => 0) s ∧
            ∀ e, ((stallWorld 31).combineSystem 0 0 smallConfig (fun _ => 0) stallIO
              fun _ _ => 0).step s e = none := by
  have tight : ¬RoomToCombine smallConfig := by
    unfold RoomToCombine
    decide
  have tokens : stallTokens smallConfig = 31 := rfl
  have fit := stall_headsFit tight
  have stuck := stall_terminal tight
  rw [tokens] at fit stuck
  exact ⟨rfl, fit, stuck⟩

end StreamEP.Intranode
