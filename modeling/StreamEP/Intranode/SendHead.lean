import StreamEP.Config
import StreamEP.Intranode.Sender

/-!
# The recorded ring positions, encoded for the way back

While a dispatch sender walks its channel it records, for every token, the ring
position it gave it, or `-1`.  Afterwards it scans its part of `send_head` backwards
and replaces every `-1` by an encoding of the next position that follows, so that a
combine receiver that skips a token still knows how far the ring's head may move on
(`reverseScan`).

All senders of a rank share one tensor, each with entries of its own; `sendHead` is
the tensor they leave, and `sendHead_apply` its entries in closed form.

A position `h` is encoded as `-h - 1`, which is negative and so cannot be taken for a position;
at the end of the channel there is no next one, and the scan starts with a sentinel instead.
The invariant goes backwards: when the tokens from `t` on have been scanned, their entries are
encoded, those before are as recorded, and the register holds the position that comes next from
`t` on (`ScanInv`).  A sender leaves the entries of other channels and destinations alone
(`sender_frame`), so the tensor can be built up sender by sender.
-/

namespace StreamEP.Intranode

open Finset Loop

variable {sh : Shape} {Row Weight : Type}

/-- `last_head`, and the tensor scanned so far. -/
structure ScanState where
  lastHead : ℤ
  sendHead : ℕ → ℤ

/-- One token of the scan, at entry `idx`. -/
def scanEntry (idx : ℕ) (s : ScanState) : ScanState :=
  let head := s.sendHead idx
  if head < 0 then { s with sendHead := Function.update s.sendHead idx (-s.lastHead - 1) }
  else { s with lastHead := head }

section Scan

variable (inp : DispatchInputs sh Row Weight) (dst c : ℕ)

/-- The scan over the tokens of channel `c`, last to first.  A warp takes 32 tokens at
a time; its lanes pass the heads round in the order of this loop. -/
def reverseScan (sendHead : ℕ → ℤ) : ℕ → ℤ :=
  let tokenStartIdx := channelStart inp.numTokens sh.numChannels c
  let tokenEndIdx := channelEnd inp.numTokens sh.numChannels c
  (for' (tokenEndIdx - tokenStartIdx)
    (fun s i => scanEntry ((tokenEndIdx - 1 - i) * sh.numRanks + dst) s)
    ⟨kReverseScanSentinel, sendHead⟩).sendHead

/-- The position of the first selected token that is not before `t`. -/
def nextHead (t : ℕ) : ℕ :=
  if ringPos inp dst c t < inp.tokensIn dst c then ringPos inp dst c t
  else kReverseScanSentinel

/-- The entry of a token: its position, or the next one, encoded. -/
def encodedHead (t : ℕ) : ℤ :=
  if inp.InRank dst t then ringPos inp dst c t else -(nextHead inp dst c t : ℤ) - 1

/-- What the scan finds: the sender's positions, and `-1` for tokens not sent. -/
def Recorded (sendHead : ℕ → ℤ) : Prop :=
  ∀ t, channelStart inp.numTokens sh.numChannels c ≤ t →
    t < channelEnd inp.numTokens sh.numChannels c →
    sendHead (t * sh.numRanks + dst) =
      if inp.InRank dst t then (ringPos inp dst c t : ℤ) else -1

/-- What holds when the tokens from `t` on have been scanned. -/
structure ScanInv (initial : ℕ → ℤ) (t : ℕ) (s : ScanState) : Prop where
  lastHead : s.lastHead = nextHead inp dst c t
  scanned : ∀ t', t ≤ t' → t' < channelEnd inp.numTokens sh.numChannels c →
    s.sendHead (t' * sh.numRanks + dst) = encodedHead inp dst c t'
  frame : ∀ i, (∀ t', t ≤ t' → t' < channelEnd inp.numTokens sh.numChannels c →
    i ≠ t' * sh.numRanks + dst) → s.sendHead i = initial i

variable {inp dst c}

/-- Selected tokens have positions below the number of packets. -/
theorem ringPos_lt_tokensIn {t : ℕ} (lo : channelStart inp.numTokens sh.numChannels c ≤ t)
    (hi : t < channelEnd inp.numTokens sh.numChannels c) (goes : inp.InRank dst t) :
    ringPos inp dst c t < inp.tokensIn dst c :=
  ringPos_lt lo goes hi

/-- One entry of the scan keeps the invariant. -/
theorem scanEntry_inv {initial : ℕ → ℤ} {t : ℕ} {s : ScanState} (hdst : dst < sh.numRanks)
    (recorded : Recorded inp dst c initial)
    (lo : channelStart inp.numTokens sh.numChannels c ≤ t)
    (hi : t < channelEnd inp.numTokens sh.numChannels c)
    (inv : ScanInv inp dst c initial (t + 1) s) :
    ScanInv inp dst c initial t (scanEntry (t * sh.numRanks + dst) s) := by
  -- the cells of one channel and peer are apart, so the others keep what they have
  have cell : ∀ t', t' * sh.numRanks + dst = t * sh.numRanks + dst ↔ t' = t := fun t' =>
    (PrefixSum.flat_inj hdst hdst).trans (and_iff_left rfl)
  have unscanned : s.sendHead (t * sh.numRanks + dst) =
      if inp.InRank dst t then (ringPos inp dst c t : ℤ) else -1 := by
    rw [inv.frame _ fun t' after _ same => by
      have := (cell t').1 same.symm
      omega]
    exact recorded t lo hi
  unfold scanEntry
  by_cases goes : inp.InRank dst t
  · rw [if_pos goes] at unscanned
    simp only [unscanned, if_neg (not_lt.2 (Int.natCast_nonneg _))]
    refine ⟨?_, fun t' from_t below => ?_, fun i other => ?_⟩
    · rw [nextHead, if_pos (ringPos_lt_tokensIn lo hi goes)]
    · by_cases first : t' = t
      · subst first
        rw [unscanned, encodedHead, if_pos goes]
      · exact inv.scanned t' (by omega) below
    · exact inv.frame i fun t' after below => other t' (by omega) below
  · rw [if_neg goes] at unscanned
    have same : nextHead inp dst c (t + 1) = nextHead inp dst c t := by
      rw [nextHead, nextHead, ringPos_succ lo, if_neg goes, Nat.add_zero]
    simp only [unscanned, if_pos (by decide : (-1 : ℤ) < 0)]
    refine ⟨?_, fun t' from_t below => ?_, fun i other => ?_⟩
    · rw [inv.lastHead, same]
    · by_cases first : t' = t
      · subst first
        simp only [Function.update_self, encodedHead, if_neg goes, inv.lastHead, same]
      · simp only [Function.update_of_ne (mt (cell t').1 first)]
        exact inv.scanned t' (by omega) below
    · simp only [Function.update_of_ne (other t le_rfl hi)]
      exact inv.frame i fun t' after below => other t' (by omega) below

/-- **The scan encodes its channel** and leaves all other entries alone. -/
theorem reverseScan_inv {initial : ℕ → ℤ} (hdst : dst < sh.numRanks)
    (recorded : Recorded inp dst c initial) :
    (∀ t, channelStart inp.numTokens sh.numChannels c ≤ t →
        t < channelEnd inp.numTokens sh.numChannels c →
        reverseScan inp dst c initial (t * sh.numRanks + dst) = encodedHead inp dst c t) ∧
      ∀ i, (∀ t, channelStart inp.numTokens sh.numChannels c ≤ t →
        t < channelEnd inp.numTokens sh.numChannels c → i ≠ t * sh.numRanks + dst) →
        reverseScan inp dst c initial i = initial i := by
  have start_le := channelStart_le_end inp.numTokens sh.numChannels c
  have last : nextHead inp dst c (channelEnd inp.numTokens sh.numChannels c) =
      kReverseScanSentinel := if_neg (lt_irrefl (inp.tokensIn dst c))
  have scanned := for_invariant
    (f := fun s i => scanEntry
      ((channelEnd inp.numTokens sh.numChannels c - 1 - i) * sh.numRanks + dst) s)
    (s := ⟨kReverseScanSentinel, initial⟩)
    (fun i => ScanInv inp dst c initial (channelEnd inp.numTokens sh.numChannels c - i))
    (n := channelEnd inp.numTokens sh.numChannels c -
      channelStart inp.numTokens sh.numChannels c)
    ⟨by rw [Nat.sub_zero, last], fun _ _ _ => by omega, fun _ _ => rfl⟩
    (fun i hi s inv => by
      have next : channelEnd inp.numTokens sh.numChannels c - (i + 1) =
          channelEnd inp.numTokens sh.numChannels c - 1 - i := by omega
      rw [next]
      refine scanEntry_inv hdst recorded (by omega) (by omega) ?_
      have here : channelEnd inp.numTokens sh.numChannels c - 1 - i + 1 =
          channelEnd inp.numTokens sh.numChannels c - i := by omega
      rw [here]
      exact inv)
  rw [Nat.sub_sub_self start_le] at scanned
  exact ⟨fun t lo hi => scanned.scanned t lo hi,
    fun i other => scanned.frame i fun t lo hi => other t lo hi⟩

end Scan

/-! ### The whole tensor -/

variable [Zero Weight] (inp : DispatchInputs sh Row Weight)

/-- `send_head` after all senders of a rank: for every channel and destination, the
sender's walk and then its scan.  Their entries are disjoint, so their order does not
matter. -/
def sendHead (uninit : ℕ → ℤ) : ℕ → ℤ :=
  for' sh.numChannels (fun heads c =>
    for' sh.numRanks (fun heads dst =>
      reverseScan inp dst c (senderLoop inp dst c heads).sendHead) heads) uninit

variable {inp}

/-- One sender sets the entries of its tokens, -/
theorem sender_encodes {dst c t : ℕ} (hdst : dst < sh.numRanks) (heads : ℕ → ℤ)
    (lo : channelStart inp.numTokens sh.numChannels c ≤ t)
    (hi : t < channelEnd inp.numTokens sh.numChannels c) :
    reverseScan inp dst c (senderLoop inp dst c heads).sendHead (t * sh.numRanks + dst) =
      encodedHead inp dst c t :=
  (reverseScan_inv hdst fun t lo hi => (senderLoop_inv hdst heads).sendHead t lo hi).1 t lo hi

/-- and no others. -/
theorem sender_frame {dst c : ℕ} (hdst : dst < sh.numRanks) (heads : ℕ → ℤ) {i : ℕ}
    (other : ∀ t, channelStart inp.numTokens sh.numChannels c ≤ t →
      t < channelEnd inp.numTokens sh.numChannels c → i ≠ t * sh.numRanks + dst) :
    reverseScan inp dst c (senderLoop inp dst c heads).sendHead i = heads i := by
  have walked : SenderInv inp dst c heads _ _ := senderLoop_inv hdst heads
  rw [(reverseScan_inv hdst fun t lo hi => walked.sendHead t lo hi).2 i other]
  exact walked.frame i other

/-- **The entries of `send_head`.** -/
theorem sendHead_apply {dst c t : ℕ} (uninit : ℕ → ℤ) (hdst : dst < sh.numRanks)
    (hc : c < sh.numChannels) (lo : channelStart inp.numTokens sh.numChannels c ≤ t)
    (hi : t < channelEnd inp.numTokens sh.numChannels c) :
    sendHead inp uninit (t * sh.numRanks + dst) = encodedHead inp dst c t := by
  refine for_cell (fun heads => heads (t * sh.numRanks + dst) = encodedHead inp dst c t) hc
    (fun heads => ?_) (fun c' _ elsewhere heads set => ?_) uninit
  · refine for_cell
      (f := fun heads dst' => reverseScan inp dst' c (senderLoop inp dst' c heads).sendHead)
      (fun heads => heads (t * sh.numRanks + dst) = encodedHead inp dst c t) hdst
      (fun heads => sender_encodes hdst heads lo hi) (fun dst' hdst' other heads set => ?_) heads
    rw [sender_frame hdst' heads fun t' _ _ same =>
      other ((PrefixSum.flat_inj hdst hdst').1 same).2.symm]
    exact set
  · refine for_invariant
      (f := fun heads dst' => reverseScan inp dst' c' (senderLoop inp dst' c' heads).sendHead)
      (fun _ heads => heads (t * sh.numRanks + dst) = encodedHead inp dst c t) set
      (fun dst' hdst' heads set => ?_)
    have inside : t < inp.numTokens := lt_of_lt_of_le hi (channelEnd_le _ _ _)
    rw [sender_frame hdst' heads fun t' lo' hi' same => ?_]
    · exact set
    · obtain ⟨rfl, -⟩ := (PrefixSum.flat_inj hdst hdst').1 same
      have here := (div_eq_channel_iff sh.numChannels_pos inside).2 ⟨lo, hi⟩
      have there := (div_eq_channel_iff sh.numChannels_pos inside).2 ⟨lo', hi'⟩
      exact elsewhere (there.symm.trans here)

end StreamEP.Intranode
