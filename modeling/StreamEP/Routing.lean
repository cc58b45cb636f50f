import Mathlib.Data.Int.Basic
import StreamEP.Lib.PrefixSum

/-!
# Sizes, channel ranges and the routing of one dispatch

Everything a dispatch computes is determined by the sizes all ranks agree on
(`Shape`) and by what each rank passes in (`DispatchInputs`): its tokens, the
experts each token chose, and the bitmap of ranks that own a chosen expert.

**Arrays.**  A tensor is a function from its flat index, with the index
arithmetic of the kernels kept: `topk_idx` is read at `t * num_topk + k` and
`is_token_in_rank` at `t * num_ranks + r`.  Reads outside the tensor are not ruled out by a type;
the theorems only speak of indices inside.

**Invariants.**  What a caller owes the kernels is carried by the structure: an
entry of `topk_idx` is `-1` or a global expert, the chosen experts of one token
differ, and the bitmap marks exactly the ranks that own a chosen expert.  Every theorem about a
routing is thus about any routing that a caller may pass, and no theorem has a hypothesis about
routings.

**Rows and weights are abstract.**  `Row` and `Weight` are types of their own until a layer adds
something up.  What dispatch does with them is to copy them.

**Channels.**  The tokens of a rank are cut into consecutive ranges, one for each channel, of
`ceil_div` tokens each and fewer at the end; late channels may be empty.  Two descriptions of the
same partition occur in the code, a range for each channel and a quotient for each token, and
`div_eq_channel_iff` says that they agree.  So a prefix of channels is a prefix of tokens
(`sum_tokensIn`), which is how the prefix sums of the kernels turn into counts.
-/

namespace StreamEP

/-- The sizes that every kernel of a dispatch is launched with. -/
structure Shape where
  numRanks : ℕ
  numChannels : ℕ
  /-- Experts on one rank, `num_experts / num_ranks`. -/
  numExpertsPerRank : ℕ
  numTopk : ℕ
  /-- Rows of one pool tile. -/
  tileM : ℕ
  numRanks_pos : 0 < numRanks
  numChannels_pos : 0 < numChannels
  numExpertsPerRank_pos : 0 < numExpertsPerRank
  tileM_pos : 0 < tileM

/-! ### Channel ranges -/

/-- `ceil_div`. -/
def ceilDiv (a b : ℕ) : ℕ := (a + b - 1) / b

/-- `get_channel_task_range`: the tokens `[start, end)` of one channel. -/
def getChannelTaskRange (numTokens numSms smId : ℕ) : ℕ × ℕ :=
  let numTokensPerSm := ceilDiv numTokens numSms
  let tokenStartIdx := min (numTokensPerSm * smId) numTokens
  (tokenStartIdx, min (tokenStartIdx + numTokensPerSm) numTokens)

/-- First token of a channel. -/
def channelStart (numTokens numSms smId : ℕ) : ℕ :=
  (getChannelTaskRange numTokens numSms smId).1

/-- One past the last token of a channel. -/
def channelEnd (numTokens numSms smId : ℕ) : ℕ :=
  (getChannelTaskRange numTokens numSms smId).2

section Channels

variable {n C c t : ℕ}

theorem le_ceilDiv_mul (pos : 0 < C) (n : ℕ) : n ≤ ceilDiv n C * C := by
  have covered := Nat.lt_mul_div_succ (n + C - 1) pos
  rw [Nat.mul_add_one, Nat.mul_comm] at covered
  rw [ceilDiv]
  omega

theorem ceilDiv_mul_lt (pos : 0 < C) (n : ℕ) : ceilDiv n C * C < n + C := by
  have fits := Nat.div_mul_le_self (n + C - 1) C
  rw [ceilDiv]
  omega

theorem channelEnd_eq (n C c : ℕ) : channelEnd n C c = channelStart n C (c + 1) := by
  simp only [channelEnd, channelStart, getChannelTaskRange, Nat.mul_add_one]
  omega

@[simp] theorem channelStart_zero (n C : ℕ) : channelStart n C 0 = 0 := by
  simp [channelStart, getChannelTaskRange]

theorem channelStart_last (pos : 0 < C) (n : ℕ) : channelStart n C C = n :=
  Nat.min_eq_right (le_ceilDiv_mul pos n)

theorem channelStart_le_end (n C c : ℕ) : channelStart n C c ≤ channelEnd n C c := by
  simp only [channelEnd, channelStart, getChannelTaskRange]
  omega

theorem channelEnd_le (n C c : ℕ) : channelEnd n C c ≤ n := Nat.min_le_right _ _

theorem channelStart_mono {c c' : ℕ} (h : c ≤ c') :
    channelStart n C c ≤ channelStart n C c' := by
  have scaled := Nat.mul_le_mul_left (ceilDiv n C) h
  simp only [channelStart, getChannelTaskRange]
  omega

theorem ceilDiv_pos (pos : 0 < C) (ht : t < n) : 0 < ceilDiv n C := by
  have covered := le_ceilDiv_mul pos n
  by_contra none
  rw [Nat.eq_zero_of_not_pos none, Nat.zero_mul] at covered
  omega

/-- The histogram's `t / num_tokens_per_channel` is the channel whose task range
holds the token. -/
theorem div_eq_channel_iff (pos : 0 < C) (ht : t < n) :
    t / ceilDiv n C = c ↔ channelStart n C c ≤ t ∧ t < channelEnd n C c := by
  rw [Nat.div_eq_iff (ceilDiv_pos pos ht), channelEnd_eq]
  simp only [channelStart, getChannelTaskRange]
  rw [Nat.mul_add_one, Nat.mul_comm c]
  have := ceilDiv_pos pos ht
  omega

theorem channel_lt (pos : 0 < C) (ht : t < n) : t / ceilDiv n C < C := by
  have covered := le_ceilDiv_mul pos n
  exact Nat.div_lt_of_lt_mul (by omega)

end Channels

/-! ### What one rank passes to dispatch -/

/-- The arguments of one rank's dispatch.  `Row` is the type of one token's
hidden vector and `Weight` that of a routing weight. -/
structure DispatchInputs (sh : Shape) (Row Weight : Type) where
  numTokens : ℕ
  /-- Row of each token. -/
  x : ℕ → Row
  /-- Chosen global expert at `t * num_topk + k`, or `-1`. -/
  topkIdx : ℕ → ℤ
  /-- Its weight, at the same index. -/
  topkWeights : ℕ → Weight
  /-- Bitmap at `t * num_ranks + r`. -/
  isTokenInRank : ℕ → Bool
  topkIdx_lower : ∀ t < numTokens, ∀ k < sh.numTopk,
    -1 ≤ topkIdx (t * sh.numTopk + k)
  topkIdx_upper : ∀ t < numTokens, ∀ k < sh.numTopk,
    topkIdx (t * sh.numTopk + k) < sh.numRanks * sh.numExpertsPerRank
  /-- The experts one token chose differ. -/
  topkIdx_distinct : ∀ t < numTokens, ∀ k < sh.numTopk, ∀ k' < sh.numTopk,
    0 ≤ topkIdx (t * sh.numTopk + k) →
      topkIdx (t * sh.numTopk + k) = topkIdx (t * sh.numTopk + k') → k = k'
  /-- The bitmap marks the ranks that own a chosen expert. -/
  isTokenInRank_iff : ∀ t < numTokens, ∀ r < sh.numRanks,
    isTokenInRank (t * sh.numRanks + r) = true ↔
      ∃ k < sh.numTopk, 0 ≤ topkIdx (t * sh.numTopk + k) ∧
        topkIdx (t * sh.numTopk + k) / sh.numExpertsPerRank = r

namespace DispatchInputs

variable {sh : Shape} {Row Weight : Type} (inp : DispatchInputs sh Row Weight)

/-- The token goes to rank `r`. -/
def InRank (r t : ℕ) : Prop := inp.isTokenInRank (t * sh.numRanks + r) = true

instance (r t : ℕ) : Decidable (inp.InRank r t) :=
  inferInstanceAs (Decidable (_ = true))

/-- The entry at flat index `p` of `topk_idx` is local expert `e` of rank `r`. -/
def RoutedTo (r e p : ℕ) : Prop :=
  inp.topkIdx p = ((r * sh.numExpertsPerRank + e : ℕ) : ℤ)

instance (r e p : ℕ) : Decidable (inp.RoutedTo r e p) :=
  inferInstanceAs (Decidable (_ = _))

/-- Global expert numbers split into an owner and a local expert. -/
theorem routedTo_iff {r e p : ℕ} (he : e < sh.numExpertsPerRank) :
    inp.RoutedTo r e p ↔
      0 ≤ inp.topkIdx p ∧ inp.topkIdx p / sh.numExpertsPerRank = r ∧
        inp.topkIdx p - r * sh.numExpertsPerRank = e := by
  have pos : (0 : ℤ) < sh.numExpertsPerRank := by exact_mod_cast sh.numExpertsPerRank_pos
  constructor
  · intro routed
    rw [RoutedTo] at routed
    have owner : (inp.topkIdx p) / sh.numExpertsPerRank = r := by
      rw [routed, ← Int.natCast_ediv, PrefixSum.flat_div he]
    refine ⟨by rw [routed]; exact Int.natCast_nonneg _, owner, ?_⟩
    rw [routed]
    push_cast
    omega
  · rintro ⟨-, -, localExpert⟩
    rw [RoutedTo]
    push_cast
    omega

/-- A token with an entry routed to rank `r` goes to rank `r`. -/
theorem inRank_of_routedTo {r e t k : ℕ} (ht : t < inp.numTokens)
    (hk : k < sh.numTopk) (hr : r < sh.numRanks) (he : e < sh.numExpertsPerRank)
    (routed : inp.RoutedTo r e (t * sh.numTopk + k)) : inp.InRank r t := by
  obtain ⟨nonneg, owner, -⟩ := (inp.routedTo_iff he).1 routed
  exact (inp.isTokenInRank_iff t ht r hr).2 ⟨k, hk, nonneg, owner⟩

/-- A token that goes to rank `r` has an entry routed there. -/
theorem exists_routedTo {r t : ℕ} (ht : t < inp.numTokens) (hr : r < sh.numRanks)
    (goes : inp.InRank r t) :
    ∃ k < sh.numTopk, ∃ e < sh.numExpertsPerRank,
      inp.RoutedTo r e (t * sh.numTopk + k) := by
  obtain ⟨k, hk, nonneg, owner⟩ := (inp.isTokenInRank_iff t ht r hr).1 goes
  have pos : (0 : ℤ) < sh.numExpertsPerRank := by exact_mod_cast sh.numExpertsPerRank_pos
  have split := Int.emod_add_mul_ediv (inp.topkIdx (t * sh.numTopk + k)) sh.numExpertsPerRank
  have lower := Int.emod_nonneg (inp.topkIdx (t * sh.numTopk + k)) pos.ne'
  have upper := Int.emod_lt_of_pos (inp.topkIdx (t * sh.numTopk + k)) pos
  rw [owner, Int.mul_comm] at split
  refine ⟨k, hk, (inp.topkIdx (t * sh.numTopk + k) % sh.numExpertsPerRank).toNat,
    by omega, ?_⟩
  rw [RoutedTo]
  push_cast
  omega

/-! ### Counts per channel -/

/-- The (token, k) pairs of channel `c` routed to local expert `e` of rank `r`. -/
def pairsIn (r e c : ℕ) : ℕ :=
  Nat.count (inp.RoutedTo r e)
      (channelEnd inp.numTokens sh.numChannels c * sh.numTopk) -
    Nat.count (inp.RoutedTo r e)
      (channelStart inp.numTokens sh.numChannels c * sh.numTopk)

/-- The tokens of channel `c` that go to rank `r`. -/
def tokensIn (r c : ℕ) : ℕ :=
  Nat.count (inp.InRank r) (channelEnd inp.numTokens sh.numChannels c) -
    Nat.count (inp.InRank r) (channelStart inp.numTokens sh.numChannels c)

/-- Channels are consecutive, so a prefix of channels is a prefix of tokens. -/
theorem sum_tokensIn (r c : ℕ) :
    ∑ c' ∈ Finset.range c, inp.tokensIn r c' =
      Nat.count (inp.InRank r) (channelStart inp.numTokens sh.numChannels c) := by
  have mono : Monotone fun c =>
      Nat.count (inp.InRank r) (channelStart inp.numTokens sh.numChannels c) :=
    fun _ _ h => Nat.count_monotone _ (channelStart_mono h)
  simp only [tokensIn, channelEnd_eq]
  rw [Finset.sum_range_tsub mono, channelStart_zero, Nat.count_zero, Nat.sub_zero]

/-- The increments a loop over all tokens makes for channel `c`, when each token
contributes `f t` and only the tokens of that channel count. -/
theorem sum_channel_window {p : ℕ → Prop} [DecidablePred p]
    (c : ℕ) :
    (∑ t ∈ Finset.range inp.numTokens,
        if t / ceilDiv inp.numTokens sh.numChannels = c ∧ p t then 1 else 0) =
      Nat.count p (channelEnd inp.numTokens sh.numChannels c) -
        Nat.count p (channelStart inp.numTokens sh.numChannels c) := by
  rw [← PrefixSum.count_window (channelStart_le_end _ _ c) (channelEnd_le _ _ c),
    PrefixSum.count_eq_sum]
  refine Finset.sum_congr rfl fun t ht => ?_
  simp only [div_eq_channel_iff sh.numChannels_pos (Finset.mem_range.1 ht)]

/-- The same for a loop over all (token, k) pairs. -/
theorem sum_pairs_window (r e c : ℕ) :
    (∑ t ∈ Finset.range inp.numTokens, ∑ k ∈ Finset.range sh.numTopk,
        if t / ceilDiv inp.numTokens sh.numChannels = c ∧
          inp.RoutedTo r e (t * sh.numTopk + k) then 1 else 0) = inp.pairsIn r e c := by
  have start_le := Nat.mul_le_mul_right sh.numTopk
    (channelStart_le_end inp.numTokens sh.numChannels c)
  have end_le := Nat.mul_le_mul_right sh.numTopk
    (channelEnd_le inp.numTokens sh.numChannels c)
  rw [pairsIn, ← PrefixSum.count_window start_le end_le, PrefixSum.count_eq_sum,
    PrefixSum.sum_range_mul]
  refine Finset.sum_congr rfl fun t ht => Finset.sum_congr rfl fun k hk => ?_
  have hk := Finset.mem_range.1 hk
  have window : t / ceilDiv inp.numTokens sh.numChannels = c ↔
      channelStart inp.numTokens sh.numChannels c * sh.numTopk ≤ t * sh.numTopk + k ∧
        t * sh.numTopk + k < channelEnd inp.numTokens sh.numChannels c * sh.numTopk := by
    have pos : 0 < sh.numTopk := by omega
    rw [div_eq_channel_iff sh.numChannels_pos (Finset.mem_range.1 ht),
      ← Nat.le_div_iff_mul_le pos, ← Nat.div_lt_iff_lt_mul pos, PrefixSum.flat_div hk]
  simp only [window]

end DispatchInputs

end StreamEP
