import StreamEP.Lib.Stream
import StreamEP.Routing

/-!
# The tokens of a substream

The tokens of one channel that a source sends to rank `dst` are its *substream*.  Both
transports send them in source order, so a token's place is a count: `ringPos` within
its substream, and `recvTokenId` among all tokens that reach the rank, by source rank
and source token.

`selected` lists the tokens of a substream, `transformIdx` renumbers their experts
for the rank they go to, and `pairsBefore` counts pairs as `ringPos` counts tokens.

**Lists and counts.**  A sender walks its tokens and skips those that do not go to the rank; a
receiver only sees how many came before.  `selected` is the walk and `ringPos` is the count, and
`getElem?_selected` with `ringPos_selected` says that each determines the other.  All later
results about order use these two and not the walk.

**Ids are not announced.**  A receiver computes the id of a token from a prefix sum over the
sources and its place in the substream.  `map_recvTokenId` says that the ids of one substream are
consecutive, so the channels of a source, one after the other, number its tokens without a gap.
-/

namespace StreamEP

open Finset

variable {sh : Shape} {Row Weight : Type}

section Substream

variable (inp : DispatchInputs sh Row Weight) (dst : ℕ)

/-- Ring position of token `t` in its substream. -/
def ringPos (c t : ℕ) : ℕ :=
  Stream.pos (inp.InRank dst) (channelStart inp.numTokens sh.numChannels c) t

/-- The tokens of channel `c` below `t` that go to rank `dst`, in order. -/
def selectedBelow (c t : ℕ) : List ℕ :=
  Stream.below (inp.InRank dst) (channelStart inp.numTokens sh.numChannels c) t

/-- The tokens of channel `c` that go to rank `dst`, in order. -/
def selected (c : ℕ) : List ℕ :=
  selectedBelow inp dst c (channelEnd inp.numTokens sh.numChannels c)

variable {inp dst}

theorem ringPos_succ {c t : ℕ} (h : channelStart inp.numTokens sh.numChannels c ≤ t) :
    ringPos inp dst c (t + 1) =
      ringPos inp dst c t + if inp.InRank dst t then 1 else 0 :=
  Stream.pos_succ h

/-- Earlier selected tokens have smaller ring positions. -/
theorem ringPos_lt {c t t' : ℕ} (h : channelStart inp.numTokens sh.numChannels c ≤ t)
    (goes : inp.InRank dst t) (lt : t < t') : ringPos inp dst c t < ringPos inp dst c t' :=
  Stream.pos_lt h goes lt

theorem ringPos_mono {c t t' : ℕ} (h : t ≤ t') : ringPos inp dst c t ≤ ringPos inp dst c t' :=
  Stream.pos_mono h

theorem selectedBelow_succ {c t : ℕ} (h : channelStart inp.numTokens sh.numChannels c ≤ t) :
    selectedBelow inp dst c (t + 1) =
      selectedBelow inp dst c t ++ if inp.InRank dst t then [t] else [] :=
  Stream.below_succ h

theorem length_selected (c : ℕ) : (selected inp dst c).length = inp.tokensIn dst c :=
  Stream.length_below (channelStart_le_end _ _ _)

theorem mem_selected {c t : ℕ} :
    t ∈ selected inp dst c ↔
      (channelStart inp.numTokens sh.numChannels c ≤ t ∧
        t < channelEnd inp.numTokens sh.numChannels c) ∧ inp.InRank dst t :=
  Stream.mem_below

theorem getElem?_selected {c t : ℕ} (ht : t ∈ selected inp dst c) :
    (selected inp dst c)[ringPos inp dst c t]? = some t := by
  obtain ⟨⟨lo, hi⟩, goes⟩ := mem_selected.1 ht
  exact Stream.getElem?_below lo hi goes

/-- The token at position `j` has ring position `j`. -/
theorem ringPos_selected {c j : ℕ} (hj : j < (selected inp dst c).length) :
    ringPos inp dst c (selected inp dst c)[j] = j :=
  Stream.pos_getElem hj

/-- A token that goes to the rank is selected in one of the channels. -/
theorem exists_selected {t : ℕ} (ht : t < inp.numTokens) (goes : inp.InRank dst t) :
    ∃ c < sh.numChannels, t ∈ selected inp dst c :=
  ⟨_, channel_lt sh.numChannels_pos ht,
    mem_selected.2 ⟨(div_eq_channel_iff sh.numChannels_pos ht).1 rfl, goes⟩⟩

/-- The channels' selected tokens, one channel after the other, are the selected
tokens in order. -/
theorem flatMap_selected (c : ℕ) :
    (List.range c).flatMap (selected inp dst) =
      Stream.below (inp.InRank dst) 0 (channelStart inp.numTokens sh.numChannels c) := by
  induction c with
  | zero => simp
  | succ c ih =>
      rw [List.range_succ, List.flatMap_append, ih, ← channelEnd_eq,
        Stream.below_append (Nat.zero_le _) (channelStart_le_end _ _ c), List.flatMap_singleton]
      rfl

end Substream

/-! ### The expert a packet carries -/

/-- `topk_idx` as the destination reads it: its own experts, renumbered from zero. -/
def transformIdx (sh : Shape) (dst : ℕ) (idxValue : ℤ) : ℤ :=
  let recvExpertBegin : ℤ := dst * sh.numExpertsPerRank
  let recvExpertEnd : ℤ := (dst + 1) * sh.numExpertsPerRank
  if recvExpertBegin ≤ idxValue ∧ idxValue < recvExpertEnd then idxValue - recvExpertBegin
  else -1

/-- A packet carries `e` exactly when the pair is routed to expert `e` of its
destination. -/
theorem transformIdx_eq_iff {g e : ℕ} {v : ℤ} (he : e < sh.numExpertsPerRank) :
    transformIdx sh g v = e ↔ v = ((g * sh.numExpertsPerRank + e : ℕ) : ℤ) := by
  have distrib : ((g : ℤ) + 1) * sh.numExpertsPerRank =
      g * sh.numExpertsPerRank + sh.numExpertsPerRank := by ring
  unfold transformIdx
  simp only [distrib]
  push_cast
  by_cases inside : (g : ℤ) * sh.numExpertsPerRank ≤ v ∧
      v < g * sh.numExpertsPerRank + sh.numExpertsPerRank
  · rw [if_pos inside]
    constructor <;> intro h <;> omega
  · rw [if_neg inside]
    constructor <;> intro h <;> omega

/-- A packet carries a local expert or `-1`. -/
theorem transformIdx_cases (g : ℕ) (v : ℤ) :
    transformIdx sh g v = -1 ∨
      0 ≤ transformIdx sh g v ∧ transformIdx sh g v < sh.numExpertsPerRank := by
  unfold transformIdx
  have distrib : ((g : ℤ) + 1) * sh.numExpertsPerRank =
      g * sh.numExpertsPerRank + sh.numExpertsPerRank := by ring
  simp only [distrib]
  split_ifs with inside <;> omega

/-! ### Counts over all sources -/

section Sources

variable (inputs : ℕ → DispatchInputs sh Row Weight) (g : ℕ)

/-- How many tokens of source `src` go to rank `g`. -/
def numRouted (src : ℕ) : ℕ := Nat.count ((inputs src).InRank g) (inputs src).numTokens

/-- The number of a token among those that reach rank `g`, by source rank and then
by source token. -/
def recvTokenId (src t : ℕ) : ℕ :=
  ∑ src' ∈ range src, numRouted inputs g src' + Nat.count ((inputs src).InRank g) t

/-- Pairs of the channel of position `p` that come before `p` and go to expert `e`. -/
def pairsBefore (c src e p : ℕ) : ℕ :=
  Nat.count ((inputs src).RoutedTo g e) p -
    Nat.count ((inputs src).RoutedTo g e)
      (channelStart (inputs src).numTokens sh.numChannels c * sh.numTopk)

variable {inputs g}

/-- The ids of one substream are consecutive. -/
theorem map_recvTokenId (src c : ℕ) :
    (selected (inputs src) g c).map (recvTokenId inputs g src) =
      (List.range ((inputs src).tokensIn g c)).map fun j =>
        ∑ src' ∈ range src, numRouted inputs g src' +
          (∑ c' ∈ range c, (inputs src).tokensIn g c' + j) := by
  refine List.ext_getElem (by simp [length_selected]) fun j hj hj' => ?_
  have hj : j < (selected (inputs src) g c).length := by simpa using hj
  have pos := ringPos_selected hj
  obtain ⟨⟨lo, -⟩, -⟩ := mem_selected.1 (List.getElem_mem hj)
  have mono := Nat.count_monotone ((inputs src).InRank g) lo
  rw [ringPos, Stream.pos] at pos
  rw [List.getElem_map, List.getElem_map, List.getElem_range, DispatchInputs.sum_tokensIn,
    recvTokenId]
  omega

end Sources

end StreamEP
