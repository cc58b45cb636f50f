import StreamEP.RegionBytes

/-!
# Where dispatch's rings lie

`dispatch_main_kernel` finds the rings of a channel and a peer by a chain of pointer
advances from the start of a rank's buffer.  The host has checked before that the buffer
is large enough, with a sum of its own.

**The layout.**  `dispatchBuffers` follows the chain with the products of the kernel, which are
`int`s and have no value beyond them.  `Reaches` says which bytes a thread with these pointers
addresses, entry by entry, so a layout lies inside a buffer when every such byte does
(`LayoutInside`).  All bytes reached are below `layoutBytes`, and the last one is reached, so
this is a comparison of two numbers (`layoutInside_iff`).

**The checks.**  `HostChecks` has the host's assertions in their order, with the products that
they compare wrapped to `int`.  Without overflow the sum is `checkedBytes`.

The sum counts the start, end, head and tail words with four bytes each, twice four for
the last pair, where the chain advances by eight bytes for each of the four: the check lets
through buffers that are up to 16 bytes per channel and rank too small
(`layoutBytes_eq`).  `host_checks_cover_iff` says for which buffers that matters, for all sizes.
-/

namespace StreamEP.Intranode

open CInt

/-- The `Buffer` constructor for elements of `size` bytes: where this thread's part begins,
and the advanced `gbl_ptr`. -/
def bufferAt (size gblPtr numElems offset : ℕ) : ℕ × ℕ :=
  (gblPtr + offset * size, gblPtr + numElems * size)

/-- The sizes of an intranode launch. -/
structure LaunchSizes where
  numRanks : ℕ
  numChannels : ℕ
  /-- `num_max_nvl_chunked_recv_tokens`. -/
  numRecvBufferTokens : ℕ
  hidden : ℕ
  elementSize : ℕ
  numTopk : ℕ
  /-- `SWITCH_RANKS` -/
  numRanks_mem : numRanks ∈ [2, 4, 8]
  numChannels_pos : 0 < numChannels
  numRecvBufferTokens_pos : 0 < numRecvBufferTokens
  hidden_aligned : hidden * elementSize % 16 = 0
  numTopk_pos : 0 < numTopk

/-- The pointers of one channel and peer. -/
structure DispatchBuffers where
  channelStartOffset : ℕ
  channelEndOffset : ℕ
  channelHeadIdx : ℕ
  channelTailIdx : ℕ
  channelX : ℕ
  channelSrcIdx : ℕ
  channelTopkIdx : ℕ
  channelTopkWeights : ℕ

namespace LaunchSizes

variable (sz : LaunchSizes)

/-- `hidden_int4` -/
def hiddenInt4 : ℕ := sz.hidden * sz.elementSize / 16

/-- The layout of the kernel, in bytes from the start of the buffer.  Indices are `int`. -/
def dispatchBuffers (channel targetRank : ℕ) : Option DispatchBuffers := do
  let ptr := sz.numRanks * sz.numRanks * 4
  let numChannelsTotal ← int32 (sz.numChannels * sz.numRanks)
  let channelRankOffset ← int32 (channel * sz.numRanks + targetRank)
  let (channelStartOffset, ptr) := bufferAt 8 ptr numChannelsTotal channelRankOffset
  let (channelEndOffset, ptr) := bufferAt 8 ptr numChannelsTotal channelRankOffset
  let (channelHeadIdx, ptr) := bufferAt 8 ptr numChannelsTotal channelRankOffset
  let (channelTailIdx, ptr) := bufferAt 8 ptr numChannelsTotal channelRankOffset
  let numElems ← int32 (numChannelsTotal * sz.numRecvBufferTokens * sz.hiddenInt4)
  let offset ← int32 (channelRankOffset * sz.numRecvBufferTokens * sz.hiddenInt4)
  let (channelX, ptr) := bufferAt 16 ptr numElems offset
  let numElems ← int32 (numChannelsTotal * sz.numRecvBufferTokens)
  let offset ← int32 (channelRankOffset * sz.numRecvBufferTokens)
  let (channelSrcIdx, ptr) := bufferAt 4 ptr numElems offset
  let numElems ← int32 (numChannelsTotal * sz.numRecvBufferTokens * sz.numTopk)
  let offset ← int32 (channelRankOffset * sz.numRecvBufferTokens * sz.numTopk)
  let (channelTopkIdx, ptr) := bufferAt 8 ptr numElems offset
  let (channelTopkWeights, _) := bufferAt 4 ptr numElems offset
  some
    { channelStartOffset, channelEndOffset, channelHeadIdx, channelTailIdx, channelX,
      channelSrcIdx, channelTopkIdx, channelTopkWeights }

/-- Bytes of the entries that a thread with these pointers addresses: the four words, and
the payload, the source index and the top-k entries of each ring slot. -/
inductive Reaches (b : DispatchBuffers) : ℕ → Prop
  | start {i : ℕ} : i < 8 → Reaches b (b.channelStartOffset + i)
  | stop {i : ℕ} : i < 8 → Reaches b (b.channelEndOffset + i)
  | head {i : ℕ} : i < 8 → Reaches b (b.channelHeadIdx + i)
  | tail {i : ℕ} : i < 8 → Reaches b (b.channelTailIdx + i)
  | x {slot e i : ℕ} : slot < sz.numRecvBufferTokens → e < sz.hiddenInt4 → i < 16 →
      Reaches b (b.channelX + (slot * sz.hiddenInt4 + e) * 16 + i)
  | srcIdx {slot i : ℕ} : slot < sz.numRecvBufferTokens → i < 4 →
      Reaches b (b.channelSrcIdx + slot * 4 + i)
  | topkIdx {slot k i : ℕ} : slot < sz.numRecvBufferTokens → k < sz.numTopk → i < 8 →
      Reaches b (b.channelTopkIdx + (slot * sz.numTopk + k) * 8 + i)
  | topkWeights {slot k i : ℕ} : slot < sz.numRecvBufferTokens → k < sz.numTopk → i < 4 →
      Reaches b (b.channelTopkWeights + (slot * sz.numTopk + k) * 4 + i)

/-- Every channel and peer has its buffers, and all of them lie in the first
`numNvlBytes` bytes. -/
def LayoutInside (numNvlBytes : ℕ) : Prop :=
  ∀ channel < sz.numChannels, ∀ targetRank < sz.numRanks,
    ∃ b, sz.dispatchBuffers channel targetRank = some b ∧
      ∀ byte, sz.Reaches b byte → byte < numNvlBytes

/-! ### What the host checks -/

/-- The sum that `intranode_dispatch` compares, with the products of `int`s wrapped; a chain
of `int` products wraps to the same value at its end as at every step. -/
def checkedSum : ℤ :=
  let r := sz.numRanks
  let c := sz.numChannels
  let slots := sz.numRecvBufferTokens
  sizeT (wrap32 (r * r) * 4 + wrap32 (c * r) * 4 + wrap32 (c * r) * 4 + wrap32 (c * r) * 4 * 2 +
    wrap32 (c * r * slots * sz.hidden) * sz.elementSize + wrap32 (c * r * slots) * 4 +
    wrap32 (c * r * slots * sz.numTopk) * 8 + wrap32 (c * r * slots * sz.numTopk) * 4)

/-- The assertions of `intranode_dispatch` on `num_nvl_bytes`, in their order. -/
def HostChecks (numNvlBytes : ℕ) : Prop :=
  sizeT (wrap32 (sz.numRanks * sz.numRanks) * 4 +
      wrap32 (4 * sz.numChannels * sz.numRanks) * 8) ≤ numNvlBytes ∧
    sz.checkedSum ≤ numNvlBytes

instance (numNvlBytes : ℕ) : Decidable (sz.HostChecks numNvlBytes) :=
  inferInstanceAs (Decidable (_ ∧ _))

/-- The terms of the checked sum as numbers. -/
def checkedBytes : ℕ :=
  let r := sz.numRanks
  let c := sz.numChannels
  let slots := sz.numRecvBufferTokens
  r * r * 4 + c * r * 4 + c * r * 4 + c * r * 4 * 2 + c * r * slots * sz.hidden * sz.elementSize +
    c * r * slots * 4 + c * r * slots * sz.numTopk * 8 + c * r * slots * sz.numTopk * 4

/-- The indices of the kernel are `int`s. -/
structure IndicesHeld : Prop where
  x : sz.numChannels * sz.numRanks * sz.numRecvBufferTokens * sz.hiddenInt4 < 2 ^ 31
  topk : sz.numChannels * sz.numRanks * sz.numRecvBufferTokens * sz.numTopk < 2 ^ 31

/-- The products of the host's checks are `int`s. -/
structure ChecksHeld : Prop where
  words : 4 * sz.numChannels * sz.numRanks < 2 ^ 31
  x : sz.numChannels * sz.numRanks * sz.numRecvBufferTokens * sz.hidden < 2 ^ 31
  topk : sz.numChannels * sz.numRanks * sz.numRecvBufferTokens * sz.numTopk < 2 ^ 31

/-! ### The layout -/

/-- Bytes of the whole layout. -/
def layoutBytes : ℕ :=
  dispatchSectionParts sz.hiddenInt4 sz.numTopk sz.numRecvBufferTokens sz.numChannels sz.numRanks

/-- The pointers of the thread with this offset among all channels and ranks. -/
def buffersAt (offset : ℕ) : DispatchBuffers :=
  let total := sz.numChannels * sz.numRanks
  let words := sz.numRanks * sz.numRanks * 4
  let rows := words + total * 8 + total * 8 + total * 8 + total * 8
  let srcIdx := rows + total * sz.numRecvBufferTokens * sz.hiddenInt4 * 16
  let topkIdx := srcIdx + total * sz.numRecvBufferTokens * 4
  let topkWeights := topkIdx + total * sz.numRecvBufferTokens * sz.numTopk * 8
  { channelStartOffset := words + offset * 8
    channelEndOffset := words + total * 8 + offset * 8
    channelHeadIdx := words + total * 8 + total * 8 + offset * 8
    channelTailIdx := words + total * 8 + total * 8 + total * 8 + offset * 8
    channelX := rows + offset * sz.numRecvBufferTokens * sz.hiddenInt4 * 16
    channelSrcIdx := srcIdx + offset * sz.numRecvBufferTokens * 4
    channelTopkIdx := topkIdx + offset * sz.numRecvBufferTokens * sz.numTopk * 8
    channelTopkWeights := topkWeights + offset * sz.numRecvBufferTokens * sz.numTopk * 4 }

variable {sz} {channel targetRank : ℕ} {b : DispatchBuffers}

theorem numRanks_pos (sz : LaunchSizes) : 0 < sz.numRanks := by
  rcases List.mem_cons.1 sz.numRanks_mem with two | more
  · omega
  · simp only [List.mem_cons, List.not_mem_nil, or_false] at more
    omega

/-- The layout is what the sum counts and another 16 bytes for each channel and rank. -/
theorem layoutBytes_eq (sz : LaunchSizes) :
    sz.layoutBytes = sz.checkedBytes + 16 * (sz.numChannels * sz.numRanks) := by
  have row : sz.hidden * sz.elementSize = sz.hiddenInt4 * 16 :=
    (Nat.div_mul_cancel (Nat.dvd_of_mod_eq_zero sz.hidden_aligned)).symm
  have rows : sz.numChannels * sz.numRanks * sz.numRecvBufferTokens * sz.hidden *
      sz.elementSize =
        sz.numChannels * sz.numRanks * sz.numRecvBufferTokens * sz.hiddenInt4 * 16 := by
    rw [Nat.mul_assoc _ sz.hidden, row, Nat.mul_assoc _ sz.hiddenInt4]
  simp only [layoutBytes, dispatchSectionParts, checkedBytes, rows]
  ring

theorem dispatchBuffers_eq_some (hc : channel < sz.numChannels) (hr : targetRank < sz.numRanks) :
    sz.dispatchBuffers channel targetRank = some b ↔
      sz.IndicesHeld ∧ sz.buffersAt (channel * sz.numRanks + targetRank) = b := by
  have inside : channel * sz.numRanks + targetRank ≤ sz.numChannels * sz.numRanks :=
    (PrefixSum.flat_lt hc hr).le
  have slots : sz.numChannels * sz.numRanks ≤
      sz.numChannels * sz.numRanks * sz.numRecvBufferTokens :=
    Nat.le_mul_of_pos_right _ sz.numRecvBufferTokens_pos
  have entries : sz.numChannels * sz.numRanks * sz.numRecvBufferTokens ≤
      sz.numChannels * sz.numRanks * sz.numRecvBufferTokens * sz.numTopk :=
    Nat.le_mul_of_pos_right _ sz.numTopk_pos
  have slotsBelow := Nat.mul_le_mul_right sz.numRecvBufferTokens inside
  have rowsBelow := Nat.mul_le_mul_right sz.hiddenInt4 slotsBelow
  have entriesBelow := Nat.mul_le_mul_right sz.numTopk slotsBelow
  simp only [dispatchBuffers, bind, int32_bind_eq_some, bufferAt, Option.some.injEq]
  constructor
  · rintro ⟨-, -, x, -, -, -, topk, -, rfl⟩
    exact ⟨⟨x, topk⟩, rfl⟩
  · rintro ⟨held, rfl⟩
    have x := held.x
    have topk := held.topk
    exact ⟨by omega, by omega, x, by omega, by omega, by omega, topk, by omega, rfl⟩

/-- Everything a thread reaches lies in the layout. -/
theorem Reaches.lt_layoutBytes {offset byte : ℕ} (ho : offset < sz.numChannels * sz.numRanks)
    (reach : sz.Reaches (sz.buffersAt offset) byte) : byte < sz.layoutBytes := by
  have slotBelow {slot : ℕ} (h : slot < sz.numRecvBufferTokens) :
      offset * sz.numRecvBufferTokens + slot <
        sz.numChannels * sz.numRanks * sz.numRecvBufferTokens := PrefixSum.flat_lt ho h
  have entryBelow {n slot e : ℕ} (h : slot < sz.numRecvBufferTokens) (he : e < n) :
      offset * sz.numRecvBufferTokens * n + (slot * n + e) <
        sz.numChannels * sz.numRanks * sz.numRecvBufferTokens * n := by
    have flat := PrefixSum.flat_lt (slotBelow h) he
    rwa [Nat.add_mul, Nat.add_assoc] at flat
  have words : 4 * sz.numChannels * sz.numRanks * 8 = 32 * (sz.numChannels * sz.numRanks) := by
    ring
  unfold layoutBytes dispatchSectionParts
  rw [words]
  cases reach with
  | start hi | stop hi | head hi | tail hi => simp only [buffersAt]; omega
  | x hs he hi => have := entryBelow hs he; simp only [buffersAt]; omega
  | srcIdx hs hi => have := slotBelow hs; simp only [buffersAt]; omega
  | topkIdx hs hk hi => have := entryBelow hs hk; simp only [buffersAt]; omega
  | topkWeights hs hk hi => have := entryBelow hs hk; simp only [buffersAt]; omega

/-- The last entry of the layout is reached. -/
theorem reaches_last (sz : LaunchSizes) :
    sz.Reaches (sz.buffersAt (sz.numChannels * sz.numRanks - 1)) (sz.layoutBytes - 1) := by
  obtain ⟨total, all⟩ := Nat.exists_eq_succ_of_ne_zero
    (Nat.mul_pos sz.numChannels_pos sz.numRanks_pos).ne'
  obtain ⟨slot, slots⟩ := Nat.exists_eq_succ_of_ne_zero sz.numRecvBufferTokens_pos.ne'
  obtain ⟨k, topk⟩ := Nat.exists_eq_succ_of_ne_zero sz.numTopk_pos.ne'
  have reach := Reaches.topkWeights (b := sz.buffersAt total) (i := 3)
    (slots ▸ Nat.lt_succ_self slot) (topk ▸ Nat.lt_succ_self k) (by decide)
  have last : sz.layoutBytes - 1 = (sz.buffersAt total).channelTopkWeights +
      (slot * sz.numTopk + k) * 4 + 3 := by
    have words : 4 * sz.numChannels * sz.numRanks * 8 =
        32 * (sz.numChannels * sz.numRanks) := by ring
    simp only [layoutBytes, dispatchSectionParts, buffersAt, words, all, slots, topk]
    have end_eq : total.succ * slot.succ * k.succ =
        total * slot.succ * k.succ + (slot * k.succ + k) + 1 := by
      simp only [Nat.succ_eq_add_one]
      ring
    omega
  rw [all, Nat.succ_sub_one, last]
  exact reach

/-- The layout lies in the buffer when its indices are held and its bytes are. -/
theorem layoutInside_iff {numNvlBytes : ℕ} :
    sz.LayoutInside numNvlBytes ↔ sz.IndicesHeld ∧ sz.layoutBytes ≤ numNvlBytes := by
  obtain ⟨channel, channels⟩ := Nat.exists_eq_succ_of_ne_zero sz.numChannels_pos.ne'
  obtain ⟨rank, ranks⟩ := Nat.exists_eq_succ_of_ne_zero sz.numRanks_pos.ne'
  have hc : channel < sz.numChannels := channels ▸ Nat.lt_succ_self channel
  have hr : rank < sz.numRanks := ranks ▸ Nat.lt_succ_self rank
  constructor
  · intro inside
    obtain ⟨b, found, bytes⟩ := inside channel hc rank hr
    obtain ⟨held, rfl⟩ := (dispatchBuffers_eq_some hc hr).1 found
    have lastOffset : channel * sz.numRanks + rank = sz.numChannels * sz.numRanks - 1 := by
      rw [channels, Nat.succ_mul]
      omega
    have last := bytes _ (lastOffset ▸ sz.reaches_last)
    exact ⟨held, by omega⟩
  · rintro ⟨held, fits⟩ channel hc targetRank hr
    refine ⟨_, (dispatchBuffers_eq_some hc hr).2 ⟨held, rfl⟩, fun byte reach => ?_⟩
    exact (reach.lt_layoutBytes (PrefixSum.flat_lt hc hr)).trans_le fits

/-- Without overflow, a buffer that holds the layout passes the checks. -/
theorem hostChecks_of_layout {numNvlBytes : ℕ} (held : sz.ChecksHeld)
    (fits : sz.layoutBytes ≤ numNvlBytes) (bounded : numNvlBytes < 2 ^ 63) :
    sz.HostChecks numNvlBytes := by
  have words := held.words
  have topk := held.topk
  have ranks : sz.numRanks ≤ 8 := by
    have mem := sz.numRanks_mem
    simp only [List.mem_cons, List.not_mem_nil, or_false] at mem
    omega
  have matrix : sz.numRanks * sz.numRanks ≤ 8 * 8 := Nat.mul_le_mul ranks ranks
  have slots : sz.numChannels * sz.numRanks * sz.numRecvBufferTokens ≤
      sz.numChannels * sz.numRanks * sz.numRecvBufferTokens * sz.numTopk :=
    Nat.le_mul_of_pos_right _ sz.numTopk_pos
  have channels : 4 * sz.numChannels * sz.numRanks = 4 * (sz.numChannels * sz.numRanks) :=
    Nat.mul_assoc 4 _ _
  have whole := layoutBytes_eq sz
  have sum : sz.checkedSum = sz.checkedBytes := by
    have terms : sz.checkedSum = sizeT sz.checkedBytes := by
      simp only [checkedSum, checkedBytes, ← Nat.cast_mul]
      rw [wrap32_of_lt (n := sz.numRanks * sz.numRanks) (by omega),
        wrap32_of_lt (n := sz.numChannels * sz.numRanks) (by omega), wrap32_of_lt held.x,
        wrap32_of_lt (lt_of_le_of_lt slots topk), wrap32_of_lt topk]
      norm_cast
    rw [terms, sizeT_of_lt (by omega)]
  constructor
  · have first : (wrap32 (sz.numRanks * sz.numRanks) * 4 +
        wrap32 (4 * sz.numChannels * sz.numRanks) * 8 : ℤ) =
          (sz.numRanks * sz.numRanks * 4 + 4 * sz.numChannels * sz.numRanks * 8 : ℕ) := by
      have matrixHeld := wrap32_of_lt (n := sz.numRanks * sz.numRanks) (by omega)
      have wordsHeld := wrap32_of_lt words
      push_cast at matrixHeld wordsHeld ⊢
      rw [matrixHeld, wordsHeld]
    have part : sz.numRanks * sz.numRanks * 4 + 4 * sz.numChannels * sz.numRanks * 8 ≤
        sz.layoutBytes := by
      unfold layoutBytes dispatchSectionParts
      omega
    have bounds : numNvlBytes < 2 ^ 64 := bounded.trans (by decide)
    rw [first, sizeT_of_lt ((part.trans fits).trans_lt bounds)]
    exact_mod_cast part.trans fits
  · rw [sum]
    exact_mod_cast (by omega : sz.checkedBytes ≤ numNvlBytes)

/-- **The host checks cover the layout exactly when the buffer has room for the missing
bytes of the words too.** -/
theorem host_checks_cover_iff (sz : LaunchSizes) (numNvlBytes : ℕ) :
    (sz.HostChecks numNvlBytes → sz.LayoutInside numNvlBytes) ↔
      (sz.HostChecks numNvlBytes → sz.IndicesHeld ∧
        sz.checkedBytes + 16 * (sz.numChannels * sz.numRanks) ≤ numNvlBytes) := by
  rw [layoutInside_iff, layoutBytes_eq]

/-- Two ranks, one channel and rings of two slots. -/
def twoRanks : LaunchSizes where
  numRanks := 2
  numChannels := 1
  numRecvBufferTokens := 2
  hidden := 32
  elementSize := 2
  numTopk := 1
  numRanks_mem := List.mem_cons_self
  numChannels_pos := Nat.one_pos
  numRecvBufferTokens_pos := Nat.two_pos
  hidden_aligned := rfl
  numTopk_pos := Nat.one_pos

/-- A buffer of 384 bytes passes the checks, but the layout has 400. -/
theorem twoRanks_not_covered : ¬(twoRanks.HostChecks 384 → twoRanks.LayoutInside 384) := by
  intro covers
  have inside := covers (by decide)
  have fits := (layoutInside_iff.1 inside).2
  have bytes : twoRanks.layoutBytes = 400 := rfl
  omega

end LaunchSizes

end StreamEP.Intranode
