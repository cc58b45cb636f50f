import StreamEP.RegionBytes

/-!
# Buffer size hints

A caller sizes its buffers before it knows the shape of the calls, from a `Config` and
the width of a token.  `getNvlBufferSizeHint` and `getRdmaBufferSizeHint` therefore count
each region with the largest top-k they assume, and the NVLink one also with the largest
number of experts.

**Shapes.**  `BufferShape` is what a buffer has to be sized for: a config, a row width, the
number of ranks, and the top-k and number of experts of the calls, within what the kernels
accept.  `InternodeBufferShape` has more than one node on top.  The bounds are fields, so the
results hold for every shape without a hypothesis.

**The missing term.**  The RDMA hint has no term for what the metadata kernel exchanges,
`rdmaPayload`: there is room for it only in what the assumed top-k leaves over.  Each slot of the
two rings is larger than needed by `slotSlack`, there are `rdmaSlots` of them, and rounding adds
a little more.  `rdma_hint_covers_iff` says exactly when that is enough.

**When the hint has a value.**  Its sums are taken in `int64_t` after token sizes in `int`;
`RdmaHintHeld` is that none of them leaves its type, and the equivalence has it as one part of
its right side.

`tightNodes` is the other extreme: rings of two slots, the most experts and the largest top-k.
The payload then does not fit, and the assertion of `internode_dispatch` fails on a buffer of
just the hinted size.  The NVLink hint is treated in `NvlHint`, where nothing is missing.
-/

namespace StreamEP

open CInt Internode

/-- The hints' `kNumMaxTopK`. -/
def kNumMaxTopK : ℕ := 128

/-- `NUM_MAX_LOCAL_EXPERTS`. -/
def numMaxLocalExperts : ℕ := 64

/-- `kMaxTopK`, the most that the kernels accept. -/
def kMaxTopK : ℕ := 32

namespace Config

variable (cfg : Config) (hiddenBytes numRanks : ℕ)

/-- `get_nvl_buffer_size_hint`; the regions are added in `size_t`. -/
def getNvlBufferSizeHint : Option ℕ :=
  if (numRanks < numMaxNvlPeers ∨ numRanks % numMaxNvlPeers = 0) ∧
      (numRanks ≤ numMaxNvlPeers ∨ cfg.numSms % 2 = 0) then do
    let numRdmaRanks := max (numRanks / numMaxNvlPeers) 1
    let numChannels := cfg.numSms / 2
    let hiddenInt4 ← int32 (hiddenBytes / 16)
    let dispatch ← getDispatchNvlRegionBytes hiddenInt4 kNumMaxTopK
      cfg.numMaxNvlChunkedRecvTokens numChannels numRdmaRanks
    let combine ← getCombineNvlRegionBytes hiddenInt4 kNumMaxTopK
      cfg.numMaxNvlChunkedRecvTokens numChannels numRdmaRanks
    let metadata ← (if numMaxNvlPeers < numRanks then
        getMetadataNvlRegionBytes numMaxLocalExperts numChannels numRdmaRanks
      else some 0)
    some ((dispatch + combine + metadata + 127) % 2 ^ 64 / 128 * 128)
  else none

/-- `get_rdma_buffer_size_hint`. -/
def getRdmaBufferSizeHint : Option ℕ :=
  if numRanks ≤ numMaxNvlPeers then some 0
  else if numRanks % numMaxNvlPeers = 0 ∧ cfg.numSms % 2 = 0 then do
    let numRdmaRanks := numRanks / numMaxNvlPeers
    let numChannels := cfg.numSms / 2
    let hiddenInt4 ← int32 (hiddenBytes / 16)
    let dispatch ← getDispatchRdmaRegionBytes hiddenInt4 kNumMaxTopK
      cfg.numMaxRdmaChunkedRecvTokens numChannels numRdmaRanks
    let combine ← getCombineRdmaRegionBytes hiddenInt4 kNumMaxTopK
      cfg.numMaxRdmaChunkedRecvTokens numChannels numRdmaRanks
    some ((dispatch + combine + 127) % 2 ^ 64 / 128 * 128)
  else none

end Config

/-! ### The shapes of calls -/

/-- What a buffer has to be sized for. -/
structure BufferShape where
  cfg : Config
  numRanks : ℕ
  hiddenBytes : ℕ
  numTopk : ℕ
  numLocalExperts : ℕ
  sms_even : cfg.numSms % 2 = 0
  two_le_sms : 2 ≤ cfg.numSms
  numRanks_pos : 0 < numRanks
  ranks_form_nodes : numRanks ≤ numMaxNvlPeers ∨ numRanks % numMaxNvlPeers = 0
  hidden_aligned : hiddenBytes % 16 = 0
  numTopk_le : numTopk ≤ kMaxTopK
  numLocalExperts_le : numLocalExperts ≤ numMaxLocalExperts

/-- Ranks on more than one node. -/
structure InternodeBufferShape extends BufferShape where
  internode : numMaxNvlPeers < numRanks

namespace BufferShape

variable (sh : BufferShape)

def hiddenInt4 : ℕ := sh.hiddenBytes / 16

def numChannels : ℕ := sh.cfg.numSms / 2

def numRdmaRanks : ℕ := sh.numRanks / numMaxNvlPeers

def numExperts : ℕ := sh.numLocalExperts * sh.numRanks

variable {sh}

theorem numChannels_pos : 0 < sh.numChannels :=
  Nat.div_pos sh.two_le_sms Nat.two_pos

end BufferShape

/-! ### RDMA -/

namespace InternodeBufferShape

variable (sh : InternodeBufferShape)

/-- What the metadata kernel exchanges over RDMA: `streaming_rdma_offset`, the counts, and
`streaming_rdma_total`. -/
def rdmaPayload : ℕ :=
  let numRdmaExperts := sh.numExperts / sh.numRdmaRanks
  let streamingRdmaOffset := 2 * sh.numRdmaRanks * (numMaxNvlPeers + numRdmaExperts + 1) * 4
  let streamingRdmaTotal :=
    2 * sh.numRdmaRanks * sh.numChannels * numMaxNvlPeers * sh.numLocalExperts * 4
  streamingRdmaOffset + streamingRdmaTotal

/-- `metadata_rdma_offset` of `internode_dispatch`. -/
def metadataRdmaOffset : Option ℕ := do
  let dispatch ← getDispatchRdmaRegionBytes sh.hiddenInt4 sh.numTopk
    sh.cfg.numMaxRdmaChunkedRecvTokens sh.numChannels sh.numRdmaRanks
  let combine ← getCombineRdmaRegionBytes sh.hiddenInt4 sh.numTopk
    sh.cfg.numMaxRdmaChunkedRecvTokens sh.numChannels sh.numRdmaRanks
  int64 (dispatch + combine)

/-- The capacity assertion of `internode_dispatch` in a buffer of `numRdmaBytes`. -/
def RdmaFits (numRdmaBytes : ℕ) : Prop :=
  ∃ offset, sh.metadataRdmaOffset = some offset ∧ offset + sh.rdmaPayload ≤ numRdmaBytes

/-- The hint gives the `int64_t` size of a buffer that passes the assertion. -/
def RdmaHintCovers : Prop :=
  ∃ numRdmaBytes, sh.cfg.getRdmaBufferSizeHint sh.hiddenBytes sh.numRanks =
    some numRdmaBytes ∧ numRdmaBytes < 2 ^ 63 ∧ sh.RdmaFits numRdmaBytes

/-- RDMA bytes of dispatch and combine with top-k `k`. -/
def rdmaRings (k : ℕ) : ℕ :=
  rdmaBytes (tokenBytes sh.hiddenInt4 k k) sh.cfg.numMaxRdmaChunkedRecvTokens sh.numChannels
      sh.numRdmaRanks +
    rdmaBytes (tokenBytes sh.hiddenInt4 0 k) sh.cfg.numMaxRdmaChunkedRecvTokens sh.numChannels
      sh.numRdmaRanks

/-- Slots of one RDMA ring, sending and receiving, over all links. -/
def rdmaSlots : ℕ :=
  2 * sh.cfg.numMaxRdmaChunkedRecvTokens * sh.numRdmaRanks * sh.numChannels

/-- What the assumed top-k leaves over in a dispatch slot and a combine slot together. -/
def slotSlack : ℕ :=
  1568 - (alignUp (8 + 8 * sh.numTopk) 16 + alignUp (8 + 4 * sh.numTopk) 16)

/-- Both rings with the assumed top-k, whose fields take 1040 and 528 bytes. -/
def rdmaAssumed : ℕ :=
  sh.rdmaSlots * (32 * sh.hiddenInt4 + 1568) + 32 * sh.numRdmaRanks * sh.numChannels

/-- What rounding the rings up to a whole buffer alignment adds. -/
def rdmaPadding : ℕ := alignUp sh.rdmaAssumed 128 - sh.rdmaAssumed

/-- The shape is not so large that the sums of the hint leave their types. -/
structure RdmaHintHeld : Prop where
  token : 16 * sh.hiddenInt4 + 1048 < 2 ^ 31
  total : sh.rdmaAssumed + 127 < 2 ^ 63

variable {sh} {k : ℕ}

theorem numRdmaRanks_pos : 0 < sh.numRdmaRanks :=
  Nat.div_pos sh.internode.le (by decide)

/-- The rings with top-k `k`, slot by slot. -/
theorem rdmaRings_eq (k : ℕ) :
    sh.rdmaRings k =
      sh.rdmaSlots * (32 * sh.hiddenInt4 +
        (alignUp (tokenFields k k) 16 + alignUp (tokenFields 0 k) 16)) +
          32 * sh.numRdmaRanks * sh.numChannels := by
  unfold rdmaRings rdmaBytes rdmaSlots tokenBytes
  ring

theorem rdmaRings_assumed (sh : InternodeBufferShape) :
    sh.rdmaRings kNumMaxTopK = sh.rdmaAssumed := rdmaRings_eq kNumMaxTopK

theorem RdmaHintHeld.rounded (sums : sh.RdmaHintHeld) :
    alignUp (sh.rdmaRings kNumMaxTopK) 128 < 2 ^ 63 := by
  have total := sums.total
  have up : (sh.rdmaAssumed + 128 - 1) / 128 * 128 ≤ sh.rdmaAssumed + 128 - 1 :=
    Nat.div_mul_le_self _ _
  rw [rdmaRings_assumed]
  unfold alignUp ceilDiv
  omega

/-- A real token has at most the fields that the hint assumes. -/
theorem fields_le (sh : InternodeBufferShape) :
    alignUp (tokenFields sh.numTopk sh.numTopk) 16 + alignUp (tokenFields 0 sh.numTopk) 16 ≤
      1568 := by
  have topk : sh.numTopk ≤ kNumMaxTopK := sh.numTopk_le.trans (by decide)
  have dispatch : tokenFields sh.numTopk sh.numTopk ≤ 1032 := by
    unfold tokenFields kNumMaxTopK at *
    omega
  have combine : tokenFields 0 sh.numTopk ≤ 520 := by
    unfold tokenFields kNumMaxTopK at *
    omega
  exact Nat.add_le_add (alignUp_mono dispatch 16) (alignUp_mono combine 16)

/-- What the hint leaves over the rings of the call. -/
theorem rdmaRings_add_slack (sh : InternodeBufferShape) :
    sh.rdmaRings sh.numTopk + (sh.rdmaSlots * sh.slotSlack + sh.rdmaPadding) =
      alignUp (sh.rdmaRings kNumMaxTopK) 128 := by
  have fields : 1568 = alignUp (tokenFields sh.numTopk sh.numTopk) 16 +
      alignUp (tokenFields 0 sh.numTopk) 16 + sh.slotSlack := by
    have le := sh.fields_le
    unfold slotSlack
    unfold tokenFields at *
    rw [show 8 + 8 * sh.numTopk = 8 + sh.numTopk * 4 + sh.numTopk * 4 by omega,
      show 8 + 4 * sh.numTopk = 8 + 0 * 4 + sh.numTopk * 4 by omega]
    omega
  have rounded := le_alignUp (a := sh.rdmaAssumed) (b := 128) (by decide)
  have slots : sh.rdmaRings sh.numTopk + sh.rdmaSlots * sh.slotSlack =
      sh.rdmaAssumed := by
    have wide : 32 * sh.hiddenInt4 + 1568 = 32 * sh.hiddenInt4 +
        (alignUp (tokenFields sh.numTopk sh.numTopk) 16 +
          alignUp (tokenFields 0 sh.numTopk) 16 + sh.slotSlack) := by rw [← fields]
    rw [rdmaAssumed, rdmaRings_eq, wide]
    ring
  rw [rdmaRings_assumed, rdmaPadding]
  omega

theorem rdmaSlots_pos (sh : InternodeBufferShape) : 0 < sh.rdmaSlots := by
  have ring : 0 < sh.cfg.numMaxRdmaChunkedRecvTokens :=
    sh.cfg.rdmaSend_pos.trans sh.cfg.rdmaSend_lt_recv
  exact Nat.mul_pos (Nat.mul_pos (Nat.mul_pos Nat.two_pos ring) sh.numRdmaRanks_pos)
    BufferShape.numChannels_pos

/-- The hint has a value when its sums hold, and it is the rounded rings. -/
theorem getRdmaBufferSizeHint_eq_some {numRdmaBytes : ℕ} :
    (sh.cfg.getRdmaBufferSizeHint sh.hiddenBytes sh.numRanks = some numRdmaBytes ∧
      numRdmaBytes < 2 ^ 63) ↔
        sh.RdmaHintHeld ∧ alignUp (sh.rdmaRings kNumMaxTopK) 128 = numRdmaBytes := by
  have nodes : sh.numRanks % numMaxNvlPeers = 0 := sh.ranks_form_nodes.resolve_left
    (Nat.not_le.2 sh.internode)
  rw [Config.getRdmaBufferSizeHint, if_neg (Nat.not_le.2 sh.internode),
    if_pos ⟨nodes, sh.sms_even⟩]
  simp only [bind, Option.bind_eq_some_iff, int32_eq_some,
    getDispatchRdmaRegionBytes_eq_some, getCombineRdmaRegionBytes_eq_some, Option.some.injEq]
  -- combine's token is shorter, so the two sums cannot wrap together
  have shorter : rdmaBytes (tokenBytes sh.hiddenInt4 0 kNumMaxTopK)
      sh.cfg.numMaxRdmaChunkedRecvTokens sh.numChannels sh.numRdmaRanks + 512 ≤
        rdmaBytes (tokenBytes sh.hiddenInt4 kNumMaxTopK kNumMaxTopK)
          sh.cfg.numMaxRdmaChunkedRecvTokens sh.numChannels sh.numRdmaRanks := by
    have token : tokenBytes sh.hiddenInt4 kNumMaxTopK kNumMaxTopK =
        tokenBytes sh.hiddenInt4 0 kNumMaxTopK + 512 := rfl
    have more : rdmaBytes (tokenBytes sh.hiddenInt4 kNumMaxTopK kNumMaxTopK)
        sh.cfg.numMaxRdmaChunkedRecvTokens sh.numChannels sh.numRdmaRanks =
          rdmaBytes (tokenBytes sh.hiddenInt4 0 kNumMaxTopK)
            sh.cfg.numMaxRdmaChunkedRecvTokens sh.numChannels sh.numRdmaRanks +
              sh.rdmaSlots * 512 := by
      rw [token]
      unfold rdmaBytes rdmaSlots
      ring
    have slots := sh.rdmaSlots_pos
    omega
  have rings : sh.rdmaRings kNumMaxTopK =
      rdmaBytes (tokenBytes sh.hiddenInt4 kNumMaxTopK kNumMaxTopK)
          sh.cfg.numMaxRdmaChunkedRecvTokens sh.numChannels sh.numRdmaRanks +
        rdmaBytes (tokenBytes sh.hiddenInt4 0 kNumMaxTopK)
          sh.cfg.numMaxRdmaChunkedRecvTokens sh.numChannels sh.numRdmaRanks := rfl
  have up := le_alignUp (a := sh.rdmaRings kNumMaxTopK) (b := 128) (by decide)
  constructor
  · rintro ⟨⟨_, ⟨-, rfl⟩, _, ⟨room, dHeld, rfl⟩, _, ⟨-, -, rfl⟩, rfl⟩, held⟩
    have size : (sh.rdmaRings kNumMaxTopK + 127) % 2 ^ 64 / 128 * 128 =
        alignUp (sh.rdmaRings kNumMaxTopK) 128 := by
      rw [Nat.mod_eq_of_lt]
      · rfl
      · rw [rings]
        change rdmaBytes (tokenBytes sh.hiddenInt4 kNumMaxTopK kNumMaxTopK)
          sh.cfg.numMaxRdmaChunkedRecvTokens sh.numChannels sh.numRdmaRanks < 2 ^ 63 at dHeld
        omega
    replace held : alignUp (sh.rdmaRings kNumMaxTopK) 128 < 2 ^ 63 := size ▸ held
    refine ⟨⟨room, ?_⟩, size.symm⟩
    have whole : 128 ∣ alignUp (sh.rdmaRings kNumMaxTopK) 128 := Dvd.intro_left _ rfl
    rw [← rdmaRings_assumed]
    omega
  · rintro ⟨sums, rfl⟩
    have room := sums.token
    have held := sums.rounded
    refine ⟨⟨_, ⟨?_, rfl⟩, _, ⟨room, ?_, rfl⟩, _, ⟨?_, ?_, rfl⟩, ?_⟩, held⟩
    · change sh.hiddenInt4 < 2 ^ 31
      omega
    · change rdmaBytes (tokenBytes sh.hiddenInt4 kNumMaxTopK kNumMaxTopK)
        sh.cfg.numMaxRdmaChunkedRecvTokens sh.numChannels sh.numRdmaRanks < 2 ^ 63
      omega
    · change 16 * sh.hiddenInt4 + 520 + 16 < 2 ^ 31
      omega
    · change rdmaBytes (tokenBytes sh.hiddenInt4 0 kNumMaxTopK)
        sh.cfg.numMaxRdmaChunkedRecvTokens sh.numChannels sh.numRdmaRanks < 2 ^ 63
      omega
    · change (sh.rdmaRings kNumMaxTopK + 127) % 2 ^ 64 / 128 * 128 = _
      rw [Nat.mod_eq_of_lt (by omega)]
      rfl

/-- The offset has a value when its sums hold, and it is the rings of the call. -/
theorem metadataRdmaOffset_eq_some {offset : ℕ} :
    sh.metadataRdmaOffset = some offset ↔
      (16 * sh.hiddenInt4 + tokenFields sh.numTopk sh.numTopk + 16 < 2 ^ 31 ∧
        sh.rdmaRings sh.numTopk < 2 ^ 63) ∧ sh.rdmaRings sh.numTopk = offset := by
  simp only [metadataRdmaOffset, bind, Option.bind_eq_some_iff, int64_eq_some,
    getDispatchRdmaRegionBytes_eq_some, getCombineRdmaRegionBytes_eq_some]
  unfold rdmaRings
  constructor
  · rintro ⟨_, ⟨room, -, rfl⟩, _, ⟨-, -, rfl⟩, held, rfl⟩
    exact ⟨⟨room, held⟩, rfl⟩
  · rintro ⟨⟨room, held⟩, rfl⟩
    refine ⟨_, ⟨room, by omega, rfl⟩, _, ⟨?_, by omega, rfl⟩, held, rfl⟩
    unfold tokenFields at *
    omega

/-- **The RDMA hint covers a call exactly when what the assumed top-k leaves over holds the
metadata payload.** -/
theorem rdma_hint_covers_iff (sh : InternodeBufferShape) :
    sh.RdmaHintCovers ↔
      sh.RdmaHintHeld ∧ sh.rdmaPayload ≤ sh.rdmaSlots * sh.slotSlack + sh.rdmaPadding := by
  have slack := sh.rdmaRings_add_slack
  constructor
  · rintro ⟨numRdmaBytes, hint, held, offset, placed, fits⟩
    obtain ⟨sums, rfl⟩ := getRdmaBufferSizeHint_eq_some.1 ⟨hint, held⟩
    obtain rfl := (metadataRdmaOffset_eq_some.1 placed).2
    exact ⟨sums, by omega⟩
  · rintro ⟨sums, room⟩
    obtain ⟨hint, held⟩ := getRdmaBufferSizeHint_eq_some.2 ⟨sums, rfl⟩
    have placed : sh.metadataRdmaOffset = some (sh.rdmaRings sh.numTopk) := by
      refine metadataRdmaOffset_eq_some.2 ⟨⟨?_, ?_⟩, rfl⟩
      · have token := sums.token
        have topk : sh.numTopk ≤ 32 := sh.numTopk_le
        unfold tokenFields
        omega
      · have rounded := sums.rounded
        omega
    exact ⟨_, hint, held, _, placed, by omega⟩

/-- Two nodes, rings of two slots, and as many experts and top-k as a kernel accepts. -/
def tightNodes : InternodeBufferShape where
  cfg := tightConfig
  numRanks := 16
  hiddenBytes := 14336
  numTopk := 32
  numLocalExperts := 64
  sms_even := tightConfig_numSms_even
  two_le_sms := two_le_tightConfig_numSms
  numRanks_pos := by decide
  ranks_form_nodes := Or.inr rfl
  hidden_aligned := rfl
  numTopk_le := le_rfl
  numLocalExperts_le := le_rfl
  internode := by decide

/-- Its RDMA hint leaves no room for the metadata payload. -/
theorem tightNodes_rdma_not_covered : ¬tightNodes.RdmaHintCovers := by
  rintro ⟨numRdmaBytes, hint, -, offset, placed, fits⟩
  have size : tightNodes.cfg.getRdmaBufferSizeHint tightNodes.hiddenBytes tightNodes.numRanks =
      some 483968 := by decide
  have start : tightNodes.metadataRdmaOffset = some 465536 := by decide
  have payload : tightNodes.rdmaPayload = 24720 := by decide
  cases hint.symm.trans size
  cases placed.symm.trans start
  omega

end InternodeBufferShape

end StreamEP
