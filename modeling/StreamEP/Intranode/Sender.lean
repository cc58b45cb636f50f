import StreamEP.Lib.BlockScan
import StreamEP.Pool
import StreamEP.Substream

/-!
# The intranode dispatch sender

One group of warps sends the tokens of channel `c` that go to rank `dst`.  It
first announces where the channel's tokens start and end among all tokens of
this rank that go there (`startOffset`, `endOffset`, stored as `-count - 1`),
then walks the channel's tokens in order.  A selected token takes the next ring
position, and that position is recorded in `send_head` for the way back
(`sendToken`).

How many tokens the sender pushes between two updates of the ring's tail has no
effect on what it pushes, so the walk is one loop here; the ring itself is
modelled where its occupancy matters.

**Counts.**  The lanes of a warp stride over the tokens and add up what they find, and the warp
adds the lanes: `startCount_eq` and `endCount_eq` say that these are numbers of tokens.

**The substream.**  `substream` is what the walk pushes, and `substream_eq` its closed form: the
packets of the selected tokens, in order.  Other modules refer to a packet by its position
(`packetAt`), and to a token by the position it has been given.
-/

namespace StreamEP.Intranode

open Finset Loop

variable {sh : Shape} {Row Weight : Type}

/-! ### Announced counts -/

section Announce

variable (inp : DispatchInputs sh Row Weight) (dst c : ℕ)

/-- `is_token_in_rank` as the integer the warp adds up. -/
def isTokenInRankInt (t : ℕ) : ℕ := (inp.isTokenInRank (t * sh.numRanks + dst)).toNat

/-- `start_count`: lanes stride over the tokens below the channel's end and count
those before its start. -/
def startCount : ℕ :=
  Warp.reduceXor [16, 8, 4, 2, 1]
    (Warp.stridedSum Warp.width (channelEnd inp.numTokens sh.numChannels c) fun t =>
      if t < channelStart inp.numTokens sh.numChannels c then isTokenInRankInt inp dst t
      else 0) 0

/-- `end_count`: the tokens from the channel's start on, plus `start_count`. -/
def endCount : ℕ :=
  Warp.reduceXor [16, 8, 4, 2, 1]
    (Warp.stridedSum Warp.width (channelEnd inp.numTokens sh.numChannels c) fun t =>
      if t < channelStart inp.numTokens sh.numChannels c then 0
      else isTokenInRankInt inp dst t) 0 + startCount inp dst c

/-- The word at `channel_start_offset`. -/
def startOffset : ℤ := -(startCount inp dst c : ℤ) - 1

/-- The word at `channel_end_offset`. -/
def endOffset : ℤ := -(endCount inp dst c : ℤ) - 1

theorem isTokenInRankInt_eq (t : ℕ) :
    isTokenInRankInt inp dst t = if inp.InRank dst t then 1 else 0 := by
  by_cases goes : inp.InRank dst t
  · rw [if_pos goes, isTokenInRankInt, show inp.isTokenInRank _ = true from goes]
    rfl
  · rw [if_neg goes, isTokenInRankInt, Bool.eq_false_iff.2 goes]
    rfl

theorem startCount_eq :
    startCount inp dst c =
      Nat.count (inp.InRank dst) (channelStart inp.numTokens sh.numChannels c) := by
  have cut : ∀ n, ∑ t ∈ range n,
      (if t < channelStart inp.numTokens sh.numChannels c then isTokenInRankInt inp dst t
        else 0) =
      Nat.count (inp.InRank dst) (min n (channelStart inp.numTokens sh.numChannels c)) := by
    intro n
    induction n with
    | zero => simp
    | succ n ih =>
        rw [sum_range_succ, ih]
        by_cases before : n < channelStart inp.numTokens sh.numChannels c
        · rw [if_pos before, Nat.min_eq_left (by omega), Nat.min_eq_left (by omega),
            Nat.count_succ, isTokenInRankInt_eq]
        · rw [if_neg before, Nat.add_zero, Nat.min_eq_right (by omega),
            Nat.min_eq_right (by omega)]
  rw [startCount, Warp.reduceXor_eq_sum _ (by decide), Warp.sum_stridedSum (by decide), cut,
    Nat.min_eq_right (channelStart_le_end _ _ _)]

theorem endCount_eq :
    endCount inp dst c =
      Nat.count (inp.InRank dst) (channelEnd inp.numTokens sh.numChannels c) := by
  have total : ∀ n, ∑ t ∈ range n, isTokenInRankInt inp dst t =
      Nat.count (inp.InRank dst) n := by
    intro n
    rw [PrefixSum.count_eq_sum]
    exact sum_congr rfl fun t _ => isTokenInRankInt_eq inp dst t
  rw [endCount, startCount, Warp.reduceXor_eq_sum _ (by decide),
    Warp.reduceXor_eq_sum _ (by decide), Warp.sum_stridedSum (by decide),
    Warp.sum_stridedSum (by decide), ← sum_add_distrib, ← total]
  refine sum_congr rfl fun t _ => ?_
  by_cases before : t < channelStart inp.numTokens sh.numChannels c
  · rw [if_pos before, if_pos before, Nat.zero_add]
  · rw [if_neg before, if_neg before, Nat.add_zero]

end Announce

/-! ### The walk over the channel's tokens -/

section Walk

variable (inp : DispatchInputs sh Row Weight) (dst : ℕ)

variable [Zero Weight]

/-- The packet of a token. -/
def packetOf (t : ℕ) : Packet Row Weight where
  x := inp.x t
  srcIdx := t
  topkIdx k := transformIdx sh dst (inp.topkIdx (t * sh.numTopk + k))
  topkWeights k :=
    if 0 ≤ transformIdx sh dst (inp.topkIdx (t * sh.numTopk + k)) then
      inp.topkWeights (t * sh.numTopk + k)
    else 0

/-- The sender's registers and what it has written so far. -/
structure SenderState (Row Weight : Type) where
  cachedChannelTailIdx : ℕ
  sendHead : ℕ → ℤ
  sent : List (Packet Row Weight)

/-- One token of the inner loop. -/
def sendToken (t : ℕ) (s : SenderState Row Weight) : SenderState Row Weight :=
  if inp.InRank dst t then
    { cachedChannelTailIdx := s.cachedChannelTailIdx + 1
      sendHead := Function.update s.sendHead (t * sh.numRanks + dst) s.cachedChannelTailIdx
      sent := s.sent ++ [packetOf inp dst t] }
  else
    { s with sendHead := Function.update s.sendHead (t * sh.numRanks + dst) (-1) }

/-- The sender's walk over channel `c`, on top of a `send_head` tensor. -/
def senderLoop (c : ℕ) (sendHead : ℕ → ℤ) : SenderState Row Weight :=
  let tokenStartIdx := channelStart inp.numTokens sh.numChannels c
  let tokenEndIdx := channelEnd inp.numTokens sh.numChannels c
  for' (tokenEndIdx - tokenStartIdx)
    (fun s i => sendToken inp dst (tokenStartIdx + i) s) ⟨0, sendHead, []⟩

/-- The packets the sender pushes into the ring of (channel `c`, this rank). -/
def substream (c : ℕ) : List (Packet Row Weight) := (senderLoop inp dst c fun _ => 0).sent

/-- What holds after the tokens of the channel below `t`. -/
structure SenderInv (c : ℕ) (initial : ℕ → ℤ) (t : ℕ) (s : SenderState Row Weight) :
    Prop where
  tail : s.cachedChannelTailIdx = ringPos inp dst c t
  sent : s.sent = (selectedBelow inp dst c t).map (packetOf inp dst)
  sendHead : ∀ t', channelStart inp.numTokens sh.numChannels c ≤ t' → t' < t →
    s.sendHead (t' * sh.numRanks + dst) =
      if inp.InRank dst t' then (ringPos inp dst c t' : ℤ) else -1
  frame : ∀ i, (∀ t', channelStart inp.numTokens sh.numChannels c ≤ t' → t' < t →
    i ≠ t' * sh.numRanks + dst) → s.sendHead i = initial i

variable {inp dst}

/-- One token keeps the invariant. -/
theorem sendToken_inv {c t : ℕ} {initial : ℕ → ℤ} {s : SenderState Row Weight}
    (hdst : dst < sh.numRanks) (h : channelStart inp.numTokens sh.numChannels c ≤ t)
    (inv : SenderInv inp dst c initial t s) :
    SenderInv inp dst c initial (t + 1) (sendToken inp dst t s) := by
  have cell : ∀ t', t' * sh.numRanks + dst = t * sh.numRanks + dst ↔ t' = t := fun t' =>
    (PrefixSum.flat_inj hdst hdst).trans (and_iff_left rfl)
  by_cases goes : inp.InRank dst t
  · refine ⟨?_, ?_, ?_, ?_⟩ <;> simp only [sendToken, if_pos goes]
    · rw [ringPos_succ h, if_pos goes, inv.tail]
    · rw [selectedBelow_succ h, if_pos goes, inv.sent, List.map_append, List.map_singleton]
    · intro t' lo hi
      by_cases last : t' = t
      · subst last
        rw [Function.update_self, if_pos goes, inv.tail]
      · rw [Function.update_of_ne (mt (cell t').1 last)]
        exact inv.sendHead t' lo (by omega)
    · intro i other
      rw [Function.update_of_ne (other t h (by omega))]
      exact inv.frame i fun t' lo hi => other t' lo (by omega)
  · refine ⟨?_, ?_, ?_, ?_⟩ <;> simp only [sendToken, if_neg goes]
    · rw [ringPos_succ h, if_neg goes, Nat.add_zero, inv.tail]
    · rw [selectedBelow_succ h, if_neg goes, List.append_nil, inv.sent]
    · intro t' lo hi
      by_cases last : t' = t
      · subst last
        rw [Function.update_self, if_neg goes]
      · rw [Function.update_of_ne (mt (cell t').1 last)]
        exact inv.sendHead t' lo (by omega)
    · intro i other
      rw [Function.update_of_ne (other t h (by omega))]
      exact inv.frame i fun t' lo hi => other t' lo (by omega)

/-- **What the sender leaves behind**: selected tokens in order, each at the ring
position that `send_head` records. -/
theorem senderLoop_inv {c : ℕ} (hdst : dst < sh.numRanks) (sendHead : ℕ → ℤ) :
    SenderInv inp dst c sendHead (channelEnd inp.numTokens sh.numChannels c)
      (senderLoop inp dst c sendHead) := by
  have start_le := channelStart_le_end inp.numTokens sh.numChannels c
  have walked := for_invariant
    (f := fun s i => sendToken inp dst (channelStart inp.numTokens sh.numChannels c + i) s)
    (s := (⟨0, sendHead, []⟩ : SenderState Row Weight))
    (fun i => SenderInv inp dst c sendHead (channelStart inp.numTokens sh.numChannels c + i))
    (n := channelEnd inp.numTokens sh.numChannels c -
      channelStart inp.numTokens sh.numChannels c)
    ⟨by simp [ringPos], by simp [selectedBelow], by omega, fun _ _ => rfl⟩
    (fun _ _ _ inv => sendToken_inv hdst (Nat.le_add_right _ _) inv)
  rw [Nat.add_sub_cancel' start_le] at walked
  exact walked

theorem substream_eq {c : ℕ} (hdst : dst < sh.numRanks) :
    substream inp dst c = (selected inp dst c).map (packetOf inp dst) :=
  (senderLoop_inv hdst _).sent

end Walk

/-! ### The substream by ring position -/

section Packets

variable (inp : DispatchInputs sh Row Weight) (dst : ℕ) [Zero Weight]

/-- The packet at position `j` of the substream. -/
def packetAt (c j : ℕ) : Packet Row Weight :=
  packetOf inp dst ((selected inp dst c).getD j 0)

variable {inp dst}

theorem packetAt_eq {c j : ℕ} (hj : j < (selected inp dst c).length) :
    packetAt inp dst c j = packetOf inp dst (selected inp dst c)[j] := by
  rw [packetAt, List.getD_eq_getElem?_getD, List.getElem?_eq_getElem hj]
  rfl

theorem packetAt_ringPos {c t : ℕ} (ht : t ∈ selected inp dst c) :
    packetAt inp dst c (ringPos inp dst c t) = packetOf inp dst t := by
  rw [packetAt, List.getD_eq_getElem?_getD, getElem?_selected ht, Option.getD_some]

theorem length_substream {c : ℕ} (hdst : dst < sh.numRanks) :
    (substream inp dst c).length = inp.tokensIn dst c := by
  rw [substream_eq hdst, List.length_map, length_selected]

theorem getElem?_substream {c j : ℕ} (hdst : dst < sh.numRanks)
    (hj : j < (substream inp dst c).length) :
    (substream inp dst c)[j]? = some (packetAt inp dst c j) := by
  rw [substream_eq hdst, List.length_map] at hj
  rw [substream_eq hdst, List.getElem?_map, List.getElem?_eq_getElem hj, packetAt_eq hj]
  rfl

end Packets

end StreamEP.Intranode
