import StreamEP.SizeHints
import StreamEP.Intranode.BufferLayout

/-!
# The NVLink size hint is sufficient

Intranode, the buffer holds the sections of dispatch and combine; internode, the regions
of dispatch, combine and the metadata kernels.  The hint uses the internode sizes for
both.  Per slot the assumed top-k leaves over far more than the two layouts differ by, so
the hint covers both as long as its sums stay in their types.

**What a hint is for.**  It is computed from the number of ranks and the row width alone, before
any call is known, so it takes upper bounds for the rest: a top-k of 128, where the kernels accept
32, and 64 local experts.  `BufferShape` has the bounds of the kernels as fields.  `NvlHintCovers`
asks of the hint that it has a value, that all regions of a call of the shape fit into as many
bytes, and that an intranode dispatch passes its own checks and stays inside.

**The condition.**  The sums of the hint are taken in `int` and `int64_t`.  `NvlHintHeld` says
that none of them leaves its type, and `nvl_hint_covers` needs nothing else.  It is a condition
on the shape, and `wideRows_not_covered` shows that there are shapes beyond it: a row of 2^31
bytes has no token size in `int`.

**The arithmetic.**  `sections_add_le` is the core inside a node: before they are rounded, the
two sections leave 254 bytes of what the hint counts, which is more than rounding can add.
Between nodes every region grows with top-k and with the experts, so the bounds of the hint are
the largest case (`internodeNvlFits`).
-/

namespace StreamEP

open CInt Internode Intranode

namespace BufferShape

variable (sh : BufferShape)

/-- `num_rdma_ranks` of the hint. -/
def hintNodes : ℕ := max (sh.numRanks / numMaxNvlPeers) 1

/-- The assertion of `intranode_combine`: both sections fit. -/
def IntranodeNvlFits (numNvlBytes : ℕ) : Prop :=
  ∃ dispatch combine,
    intranodeGetDispatchSectionBytes sh.numChannels sh.numRanks
        sh.cfg.numMaxNvlChunkedRecvTokens sh.hiddenInt4 sh.numTopk = some dispatch ∧
      intranodeGetCombineSectionBytes sh.numChannels sh.numRanks
          sh.cfg.numMaxNvlChunkedRecvTokens sh.hiddenInt4 sh.numTopk = some combine ∧
        dispatch + combine ≤ numNvlBytes

/-- The assertion of `internode_dispatch`: the metadata region fits behind the other two. -/
def InternodeNvlFits (numNvlBytes : ℕ) : Prop :=
  ∃ dispatch combine metadata,
    getDispatchNvlRegionBytes sh.hiddenInt4 sh.numTopk sh.cfg.numMaxNvlChunkedRecvTokens
        sh.numChannels sh.numRdmaRanks = some dispatch ∧
      getCombineNvlRegionBytes sh.hiddenInt4 sh.numTopk sh.cfg.numMaxNvlChunkedRecvTokens
          sh.numChannels sh.numRdmaRanks = some combine ∧
        getMetadataNvlRegionBytes sh.numLocalExperts sh.numChannels sh.numRdmaRanks =
            some metadata ∧
          dispatch + combine + metadata ≤ numNvlBytes

/-- The sizes that an intranode launch of this shape runs with. -/
structure Launches (sz : LaunchSizes) : Prop where
  numRanks : sz.numRanks = sh.numRanks
  numChannels : sz.numChannels = sh.numChannels
  numRecvBufferTokens : sz.numRecvBufferTokens = sh.cfg.numMaxNvlChunkedRecvTokens
  numTopk : sz.numTopk = sh.numTopk
  hidden : sz.hidden * sz.elementSize = sh.hiddenBytes

/-- The hint gives the `int64_t` size of a buffer whose regions fit, and in which an
intranode dispatch passes its checks and stays inside. -/
def NvlHintCovers : Prop :=
  ∃ numNvlBytes, sh.cfg.getNvlBufferSizeHint sh.hiddenBytes sh.numRanks =
    some numNvlBytes ∧ numNvlBytes < 2 ^ 63 ∧
      (sh.numRanks ≤ numMaxNvlPeers → sh.IntranodeNvlFits numNvlBytes) ∧
      (numMaxNvlPeers < sh.numRanks → sh.InternodeNvlFits numNvlBytes) ∧
      ∀ sz, sh.Launches sz → sz.IndicesHeld → sz.ChecksHeld →
        sz.HostChecks numNvlBytes ∧ sz.LayoutInside numNvlBytes

/-- The metadata region of the hint. -/
def assumedMetadata : ℕ :=
  if numMaxNvlPeers < sh.numRanks then
    metadataNvlBytes numMaxLocalExperts sh.numChannels sh.hintNodes
  else 0

/-- The regions with the hint's bounds; the fields of its tokens take 1040 and 528 bytes. -/
def nvlAssumed : ℕ :=
  sh.cfg.numMaxNvlChunkedRecvTokens * 8 * sh.numChannels * (32 * sh.hiddenInt4 + 1568) +
    256 * sh.hintNodes * sh.numChannels + 128 * sh.numChannels + sh.assumedMetadata

/-- The shape is not so large that the sums of the hint leave their types. -/
structure NvlHintHeld : Prop where
  token : 16 * sh.hiddenInt4 + 1048 < 2 ^ 31
  total : sh.nvlAssumed + 127 < 2 ^ 63

variable {sh} {numNvlBytes : ℕ}

theorem nvlAssumed_eq (sh : BufferShape) :
    sh.nvlAssumed =
      dispatchNvlBytes sh.hiddenInt4 kNumMaxTopK sh.cfg.numMaxNvlChunkedRecvTokens
          sh.numChannels sh.hintNodes +
        combineNvlBytes sh.hiddenInt4 kNumMaxTopK sh.cfg.numMaxNvlChunkedRecvTokens
          sh.numChannels sh.hintNodes + sh.assumedMetadata := by
  have dispatchToken : tokenBytes sh.hiddenInt4 kNumMaxTopK kNumMaxTopK =
      16 * sh.hiddenInt4 + 1040 := rfl
  have combineToken : tokenBytes sh.hiddenInt4 0 kNumMaxTopK = 16 * sh.hiddenInt4 + 528 := rfl
  rw [dispatchNvlBytes, combineNvlBytes, dispatchToken, combineToken, nvlAssumed]
  ring

/-- The hint has a value when its sums hold, and it is their rounded total. -/
theorem getNvlBufferSizeHint_eq (held : sh.NvlHintHeld) :
    sh.cfg.getNvlBufferSizeHint sh.hiddenBytes sh.numRanks =
      some (alignUp sh.nvlAssumed 128) := by
  have token := held.token
  have total := held.total
  have parts := nvlAssumed_eq sh
  have nodes : (sh.numRanks < numMaxNvlPeers ∨ sh.numRanks % numMaxNvlPeers = 0) ∧
      (sh.numRanks ≤ numMaxNvlPeers ∨ sh.cfg.numSms % 2 = 0) := by
    refine ⟨?_, Or.inr sh.sms_even⟩
    rcases sh.ranks_form_nodes with few | whole
    · rcases few.lt_or_eq with less | all
      · exact Or.inl less
      · exact Or.inr (by rw [all]; rfl)
    · exact Or.inr whole
  rw [Config.getNvlBufferSizeHint, if_pos nodes]
  have metadata : (if numMaxNvlPeers < sh.numRanks then
      getMetadataNvlRegionBytes numMaxLocalExperts sh.numChannels sh.hintNodes else some 0) =
        some sh.assumedMetadata := by
    rw [assumedMetadata] at parts ⊢
    by_cases more : numMaxNvlPeers < sh.numRanks
    · rw [if_pos more] at parts
      rw [if_pos more, if_pos more]
      exact getMetadataNvlRegionBytes_eq_some.2 ⟨by omega, rfl⟩
    · rw [if_neg more, if_neg more]
  simp only [bind, int32_bind_eq_some]
  refine ⟨show sh.hiddenInt4 < 2 ^ 31 by omega, ?_⟩
  change ((getDispatchNvlRegionBytes sh.hiddenInt4 kNumMaxTopK
    sh.cfg.numMaxNvlChunkedRecvTokens sh.numChannels sh.hintNodes).bind _) = _
  rw [(getDispatchNvlRegionBytes_eq_some sh.numChannels_pos).2
    ⟨show 16 * sh.hiddenInt4 + 1032 + 16 < 2 ^ 31 by omega, by omega, rfl⟩, Option.bind_some]
  change ((getCombineNvlRegionBytes sh.hiddenInt4 kNumMaxTopK
    sh.cfg.numMaxNvlChunkedRecvTokens sh.numChannels sh.hintNodes).bind _) = _
  rw [(getCombineNvlRegionBytes_eq_some sh.numChannels_pos).2
    ⟨show 16 * sh.hiddenInt4 + 520 + 16 < 2 ^ 31 by omega, by omega, rfl⟩, Option.bind_some]
  change ((if numMaxNvlPeers < sh.numRanks then
    getMetadataNvlRegionBytes numMaxLocalExperts sh.numChannels sh.hintNodes
      else some 0).bind _) = _
  rw [metadata, Option.bind_some, ← parts, Nat.mod_eq_of_lt (by omega)]
  rfl

/-! ### What fits -/

theorem numTopk_le_max (sh : BufferShape) : sh.numTopk ≤ 32 := sh.numTopk_le

/-- The slots of all channels and ranks are at most those that the hint counts. -/
theorem intranode_slots_le (few : sh.numRanks ≤ 8) (n : ℕ) :
    sh.numChannels * sh.numRanks * sh.cfg.numMaxNvlChunkedRecvTokens * n ≤
      sh.cfg.numMaxNvlChunkedRecvTokens * 8 * sh.numChannels * n := by
  have ranks : sh.numChannels * sh.numRanks * sh.cfg.numMaxNvlChunkedRecvTokens ≤
      sh.numChannels * 8 * sh.cfg.numMaxNvlChunkedRecvTokens :=
    Nat.mul_le_mul_right _ (Nat.mul_le_mul_left _ few)
  refine Nat.mul_le_mul_right n (ranks.trans_eq ?_)
  ring

/-- Both sections, before they are rounded, leave 254 bytes of what the hint counts. -/
theorem sections_add_le (few : sh.numRanks ≤ 8) :
    dispatchSectionParts sh.hiddenInt4 sh.numTopk sh.cfg.numMaxNvlChunkedRecvTokens
        sh.numChannels sh.numRanks +
      combineSectionParts sh.hiddenInt4 sh.numTopk sh.cfg.numMaxNvlChunkedRecvTokens
        sh.numChannels sh.numRanks + 254 ≤ sh.nvlAssumed := by
  have rows := intranode_slots_le few sh.hiddenInt4
  have index := intranode_slots_le few 1
  have topk := intranode_slots_le few sh.numTopk
  have topkMax := Nat.mul_le_mul_left
    (sh.cfg.numMaxNvlChunkedRecvTokens * 8 * sh.numChannels) sh.numTopk_le_max
  have matrix : sh.numRanks * sh.numRanks ≤ 8 * 8 := Nat.mul_le_mul few few
  have words : sh.numChannels * sh.numRanks ≤ sh.numChannels * 8 := Nat.mul_le_mul_left _ few
  have dispatchWords : 4 * sh.numChannels * sh.numRanks = 4 * (sh.numChannels * sh.numRanks) :=
    Nat.mul_assoc _ _ _
  have combineWords : 2 * sh.numChannels * sh.numRanks = 2 * (sh.numChannels * sh.numRanks) :=
    Nat.mul_assoc _ _ _
  have ring : 0 < sh.cfg.numMaxNvlChunkedRecvTokens :=
    sh.cfg.nvlSend_pos.trans sh.cfg.nvlSend_lt_recv
  have slots : sh.numChannels ≤ sh.cfg.numMaxNvlChunkedRecvTokens * 8 * sh.numChannels :=
    Nat.le_mul_of_pos_left _ (by omega)
  have channels := sh.numChannels_pos
  have counted : sh.cfg.numMaxNvlChunkedRecvTokens * 8 * sh.numChannels *
      (32 * sh.hiddenInt4 + 1568) =
        32 * (sh.cfg.numMaxNvlChunkedRecvTokens * 8 * sh.numChannels * sh.hiddenInt4) +
          1568 * (sh.cfg.numMaxNvlChunkedRecvTokens * 8 * sh.numChannels) := by ring
  unfold dispatchSectionParts combineSectionParts nvlAssumed
  rw [counted]
  omega

theorem intranodeNvlFits (few : sh.numRanks ≤ 8) (fits : sh.nvlAssumed ≤ numNvlBytes)
    (bounded : numNvlBytes < 2 ^ 63) : sh.IntranodeNvlFits numNvlBytes := by
  have room := sections_add_le few
  refine ⟨_, _, intranodeGetDispatchSectionBytes_eq_some.2 ⟨by omega, rfl⟩,
    intranodeGetCombineSectionBytes_eq_some.2 ⟨by omega, rfl⟩, ?_⟩
  have dispatch := alignUp_lt (a := dispatchSectionParts sh.hiddenInt4 sh.numTopk
    sh.cfg.numMaxNvlChunkedRecvTokens sh.numChannels sh.numRanks) (b := 128) (by decide)
  have combine := alignUp_lt (a := combineSectionParts sh.hiddenInt4 sh.numTopk
    sh.cfg.numMaxNvlChunkedRecvTokens sh.numChannels sh.numRanks) (b := 128) (by decide)
  omega

/-- Internode, each region grows with top-k and with the experts. -/
theorem internodeNvlFits (more : numMaxNvlPeers < sh.numRanks) (held : sh.NvlHintHeld)
    (fits : sh.nvlAssumed ≤ numNvlBytes) (bounded : numNvlBytes < 2 ^ 63) :
    sh.InternodeNvlFits numNvlBytes := by
  have nodes : sh.hintNodes = sh.numRdmaRanks := max_eq_left (Nat.div_pos more.le (by decide))
  have topk : sh.numTopk ≤ kNumMaxTopK := sh.numTopk_le.trans (by decide)
  have dispatch : dispatchNvlBytes sh.hiddenInt4 sh.numTopk sh.cfg.numMaxNvlChunkedRecvTokens
      sh.numChannels sh.numRdmaRanks ≤
        dispatchNvlBytes sh.hiddenInt4 kNumMaxTopK sh.cfg.numMaxNvlChunkedRecvTokens
          sh.numChannels sh.numRdmaRanks := by
    unfold dispatchNvlBytes
    gcongr
    exact tokenBytes_mono topk topk
  have combine : combineNvlBytes sh.hiddenInt4 sh.numTopk sh.cfg.numMaxNvlChunkedRecvTokens
      sh.numChannels sh.numRdmaRanks ≤
        combineNvlBytes sh.hiddenInt4 kNumMaxTopK sh.cfg.numMaxNvlChunkedRecvTokens
          sh.numChannels sh.numRdmaRanks := by
    unfold combineNvlBytes
    gcongr
    exact tokenBytes_mono le_rfl topk
  have metadata : metadataNvlBytes sh.numLocalExperts sh.numChannels sh.numRdmaRanks ≤
      metadataNvlBytes numMaxLocalExperts sh.numChannels sh.numRdmaRanks := by
    have experts := sh.numLocalExperts_le
    unfold metadataNvlBytes
    gcongr
  have total : sh.nvlAssumed =
      dispatchNvlBytes sh.hiddenInt4 kNumMaxTopK sh.cfg.numMaxNvlChunkedRecvTokens
          sh.numChannels sh.numRdmaRanks +
        combineNvlBytes sh.hiddenInt4 kNumMaxTopK sh.cfg.numMaxNvlChunkedRecvTokens
          sh.numChannels sh.numRdmaRanks +
        metadataNvlBytes numMaxLocalExperts sh.numChannels sh.numRdmaRanks := by
    rw [nvlAssumed_eq, assumedMetadata, if_pos more, nodes]
  have room := held.token
  have topkMax := sh.numTopk_le_max
  exact ⟨_, _, _,
    (getDispatchNvlRegionBytes_eq_some sh.numChannels_pos).2
      ⟨by unfold tokenFields; omega, by omega, rfl⟩,
    (getCombineNvlRegionBytes_eq_some sh.numChannels_pos).2
      ⟨by unfold tokenFields; omega, by omega, rfl⟩,
    getMetadataNvlRegionBytes_eq_some.2 ⟨by omega, rfl⟩, by omega⟩

/-- A launch of this shape lays its rings out in the dispatch section. -/
theorem Launches.layoutBytes {sz : LaunchSizes} (same : sh.Launches sz) :
    sz.layoutBytes = dispatchSectionParts sh.hiddenInt4 sh.numTopk
      sh.cfg.numMaxNvlChunkedRecvTokens sh.numChannels sh.numRanks := by
  unfold LaunchSizes.layoutBytes LaunchSizes.hiddenInt4
  rw [same.numRanks, same.numChannels, same.numRecvBufferTokens, same.numTopk, same.hidden]
  rfl

/-- **The NVLink hint covers every shape whose sums stay in their types.** -/
theorem nvl_hint_covers (sh : BufferShape) (held : sh.NvlHintHeld) : sh.NvlHintCovers := by
  have total := held.total
  have bounded : alignUp sh.nvlAssumed 128 < 2 ^ 63 := by
    have up : (sh.nvlAssumed + 128 - 1) / 128 * 128 ≤ sh.nvlAssumed + 128 - 1 :=
      Nat.div_mul_le_self _ _
    unfold alignUp ceilDiv
    omega
  have fits : sh.nvlAssumed ≤ alignUp sh.nvlAssumed 128 := le_alignUp (by decide)
  refine ⟨_, getNvlBufferSizeHint_eq held, bounded, fun few => intranodeNvlFits few fits bounded,
    fun more => internodeNvlFits more held fits bounded, ?_⟩
  intro sz same indices products
  have few : sh.numRanks ≤ 8 := by
    have mem := sz.numRanks_mem
    rw [same.numRanks] at mem
    simp only [List.mem_cons, List.not_mem_nil, or_false] at mem
    omega
  have inside : sz.layoutBytes ≤ alignUp sh.nvlAssumed 128 := by
    have sections := sections_add_le few
    rw [same.layoutBytes]
    omega
  exact ⟨LaunchSizes.hostChecks_of_layout products inside bounded,
    LaunchSizes.layoutInside_iff.2 ⟨indices, inside⟩⟩

/-- Two nodes with the smallest rings are covered. -/
theorem tightNodes_nvl_covered :
    InternodeBufferShape.tightNodes.toBufferShape.NvlHintCovers :=
  nvl_hint_covers _ ⟨by decide, by decide⟩

/-- Rows of two gigabytes on one node. -/
def wideRows : BufferShape where
  cfg := tightConfig
  numRanks := 2
  hiddenBytes := 2 ^ 31
  numTopk := kMaxTopK
  numLocalExperts := numMaxLocalExperts
  sms_even := tightConfig_numSms_even
  two_le_sms := two_le_tightConfig_numSms
  numRanks_pos := Nat.two_pos
  ranks_form_nodes := Or.inl (by decide)
  hidden_aligned := rfl
  numTopk_le := le_rfl
  numLocalExperts_le := le_rfl

/-- Their token size is beyond `int`, so the hint has no value. -/
theorem wideRows_not_covered : ¬wideRows.NvlHintCovers := by
  rintro ⟨numNvlBytes, hint, -⟩
  have undefined : wideRows.cfg.getNvlBufferSizeHint wideRows.hiddenBytes wideRows.numRanks =
      none := by decide
  exact nomatch hint.symm.trans undefined

end BufferShape

end StreamEP
