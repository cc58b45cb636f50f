import StreamEP.Config
import StreamEP.Internode.Nodes
import StreamEP.Lib.CInt

/-!
# Sizes of the buffer regions

Every rank holds one buffer that its NVLink peers write and, internode, one that its RDMA
peers write.  Each is carved into regions, one for the rings of dispatch, one for those of
combine and, internode, one for the metadata kernels.  The functions here compute the size
of a region from the shape of a call; the host uses them to place regions and to check
that they fit, and the size hints of `Config` use them with upper bounds.

**Types of the source.**  The sizes of tokens are computed in `int`, those of regions in
`size_t` or `int64_t`.  A function has no value where one of its intermediate results leaves its
type, so a size is an `Option`, and the order of the multiplications is that of the source: it
decides which intermediate results there are.

**Values.**  Each function comes with an equivalence, `get..._eq_some`, between having a value
and a closed formula that fits.  One bound is enough: the formula is larger than every
intermediate result, so that they all fit follows from the last one.  The modules on hints, on
host checks and on pointer chains use the equivalences and never unfold a function.

`alignUp` rounds the fields of a token and, inside a node, a whole section; the lemmas about it
are what the host checks and the hints need of rounding.
-/

namespace StreamEP

open CInt Internode

/-! ### Rounding up -/

theorem alignUp_lt {a b : ℕ} (pos : 0 < b) : alignUp a b < a + b := by
  have rounded : alignUp a b ≤ a + b - 1 := Nat.div_mul_le_self (a + b - 1) b
  omega

theorem alignUp_mono {a a' : ℕ} (h : a ≤ a') (b : ℕ) : alignUp a b ≤ alignUp a' b :=
  Nat.mul_le_mul_right b (Nat.div_le_div_right (by omega))

/-- What is a multiple already stays when whole multiples are added. -/
theorem alignUp_mul_add {b : ℕ} (pos : 0 < b) (k a : ℕ) :
    alignUp (b * k + a) b = b * k + alignUp a b := by
  unfold alignUp ceilDiv
  rw [show b * k + a + b - 1 = a + b - 1 + b * k by omega, Nat.add_mul_div_left _ _ pos,
    Nat.add_mul, Nat.mul_comm k b, Nat.add_comm]

/-! ### One token -/

/-- `get_source_meta_bytes_inline`. -/
def getSourceMetaBytes : ℕ := 8

/-- `get_num_bytes_per_token`, in `int`. -/
def getNumBytesPerToken (hiddenInt4 numTopkIdx numTopkWeights : ℕ) : Option ℕ := do
  let raw ← int32 (hiddenInt4 * 16 + getSourceMetaBytes + numTopkIdx * 4 + numTopkWeights * 4)
  let a := 16
  let rounded ← int32 (raw + a)
  some ((rounded - 1) / a * a)

/-- Bytes that a token with these fields has before they are rounded up. -/
def tokenFields (numTopkIdx numTopkWeights : ℕ) : ℕ := 8 + numTopkIdx * 4 + numTopkWeights * 4

/-- The rounded size of a token. -/
def tokenBytes (hiddenInt4 numTopkIdx numTopkWeights : ℕ) : ℕ :=
  16 * hiddenInt4 + alignUp (tokenFields numTopkIdx numTopkWeights) 16

variable {h4 idx weights v : ℕ}

theorem getNumBytesPerToken_eq_some :
    getNumBytesPerToken h4 idx weights = some v ↔
      16 * h4 + tokenFields idx weights + 16 < 2 ^ 31 ∧ tokenBytes h4 idx weights = v := by
  have size : (h4 * 16 + getSourceMetaBytes + idx * 4 + weights * 4 + 16 - 1) / 16 * 16 =
      tokenBytes h4 idx weights := by
    rw [tokenBytes, ← alignUp_mul_add (by decide)]
    unfold alignUp ceilDiv tokenFields getSourceMetaBytes
    congr 2
    omega
  simp only [getNumBytesPerToken, bind, int32_bind_eq_some, Option.some.injEq, size]
  unfold tokenFields getSourceMetaBytes
  constructor
  · rintro ⟨-, room, rfl⟩
    exact ⟨by omega, rfl⟩
  · rintro ⟨room, rfl⟩
    exact ⟨by omega, by omega, rfl⟩

theorem getNumBytesPerToken_bind_eq_some {α : Type} {f : ℕ → Option α} {a : α} :
    (getNumBytesPerToken h4 idx weights).bind f = some a ↔
      16 * h4 + tokenFields idx weights + 16 < 2 ^ 31 ∧
        f (tokenBytes h4 idx weights) = some a := by
  rw [Option.bind_eq_some_iff]
  simp only [getNumBytesPerToken_eq_some]
  constructor
  · rintro ⟨-, ⟨room, rfl⟩, goesOn⟩
    exact ⟨room, goesOn⟩
  · rintro ⟨room, goesOn⟩
    exact ⟨_, ⟨room, rfl⟩, goesOn⟩

/-- More of the fields makes a token longer. -/
theorem tokenBytes_mono {idx' weights' : ℕ} (moreIdx : idx ≤ idx')
    (moreWeights : weights ≤ weights') :
    tokenBytes h4 idx weights ≤ tokenBytes h4 idx' weights' := by
  unfold tokenBytes
  refine Nat.add_le_add_left (alignUp_mono ?_ 16) _
  unfold tokenFields
  omega

/-! ### Internode regions -/

section Regions

variable (hiddenInt4 numTopk recvTokens numChannels numRdmaRanks : ℕ)

/-- `get_dispatch_nvl_region_bytes`. -/
def getDispatchNvlRegionBytes : Option ℕ := do
  let bytesPerToken ← getNumBytesPerToken hiddenInt4 numTopk numTopk
  let perSlabX ← int64 (recvTokens * bytesPerToken)
  let totalX ← int64 (perSlabX * numMaxNvlPeers * numChannels)
  let perChannelPrefix ← int64 (numRdmaRanks * 8 * numMaxNvlPeers)
  let totalPrefix ← int64 (perChannelPrefix * numChannels)
  let totalHt ← int64 (8 * numMaxNvlPeers * numChannels)
  int64 (totalX + 2 * totalPrefix + 2 * totalHt)

/-- `get_combine_nvl_region_bytes`. -/
def getCombineNvlRegionBytes : Option ℕ := do
  let bytesPerToken ← getNumBytesPerToken hiddenInt4 0 numTopk
  let perSlabX ← int64 (recvTokens * bytesPerToken)
  let totalX ← int64 (perSlabX * numMaxNvlPeers * numChannels)
  let perChannelHt ← int64 (numRdmaRanks * 8 * numMaxNvlPeers)
  let totalHt ← int64 (perChannelHt * numChannels)
  int64 (totalX + 2 * totalHt)

/-- `get_metadata_nvl_region_bytes`. -/
def getMetadataNvlRegionBytes (numLocalExperts numChannels numRdmaRanks : ℕ) : Option ℕ := do
  let numRdmaExperts ← int64 (numLocalExperts * numMaxNvlPeers)
  let countInts ← int64 (numRdmaExperts + numRdmaRanks * numMaxNvlPeers +
    numLocalExperts * numMaxNvlPeers)
  let streamingInts ← int64 (numRdmaRanks * numChannels * numLocalExperts * numMaxNvlPeers)
  int64 ((countInts + streamingInts) * 4)

/-- `get_dispatch_rdma_region_bytes`. -/
def getDispatchRdmaRegionBytes : Option ℕ := do
  let bytesPerToken ← getNumBytesPerToken hiddenInt4 numTopk numTopk
  let dataBytes ← int64 (2 * recvTokens * bytesPerToken * numRdmaRanks * numChannels)
  let htBytes ← int64 (2 * 8 * numRdmaRanks * numChannels)
  int64 (dataBytes + htBytes)

/-- `get_combine_rdma_region_bytes`. -/
def getCombineRdmaRegionBytes : Option ℕ := do
  let bytesPerToken ← getNumBytesPerToken hiddenInt4 0 numTopk
  let dataBytes ← int64 (2 * recvTokens * bytesPerToken * numRdmaRanks * numChannels)
  let htBytes ← int64 (2 * 8 * numRdmaRanks * numChannels)
  int64 (dataBytes + htBytes)

/-! ### Intranode sections -/

/-- `intranode_get_dispatch_section_bytes`. -/
def intranodeGetDispatchSectionBytes
    (numChannels numRanks numRecvBufferTokens hiddenInt4 numTopk : ℕ) : Option ℕ := do
  let slots ← int64 (numChannels * numRanks * numRecvBufferTokens)
  let bytes ← int64 (numRanks * numRanks * 4 + 4 * numChannels * numRanks * 8 +
    slots * hiddenInt4 * 16 + slots * 4 + slots * numTopk * 8 + slots * numTopk * 4)
  let rounded ← int64 (bytes + 127)
  some (rounded / 128 * 128)

/-- `intranode_get_combine_section_bytes`. -/
def intranodeGetCombineSectionBytes
    (numChannels numRanks numRecvBufferTokens hiddenInt4 numTopk : ℕ) : Option ℕ := do
  let slots ← int64 (numChannels * numRanks * numRecvBufferTokens)
  let bytes ← int64 (2 * numChannels * numRanks * 8 + slots * hiddenInt4 * 16 + slots * 4 +
    slots * numTopk * 4)
  let rounded ← int64 (bytes + 127)
  some (rounded / 128 * 128)

end Regions

/-! ### Their values -/

section Values

variable {k S c R r E : ℕ}

/-- Bytes of dispatch's NVLink region. -/
def dispatchNvlBytes (h4 k S c R : ℕ) : ℕ :=
  S * tokenBytes h4 k k * 8 * c + 2 * (R * 8 * 8 * c) + 2 * (8 * 8 * c)

/-- Bytes of combine's NVLink region. -/
def combineNvlBytes (h4 k S c R : ℕ) : ℕ :=
  S * tokenBytes h4 0 k * 8 * c + 2 * (R * 8 * 8 * c)

/-- Bytes of the NVLink region of the metadata kernels. -/
def metadataNvlBytes (E c R : ℕ) : ℕ := (E * 8 + R * 8 + E * 8 + R * c * E * 8) * 4

/-- Bytes of an RDMA region whose tokens have `bytes` bytes: a ring for sending and one for
receiving to and from every node and channel, and a head and a tail. -/
def rdmaBytes (bytes S c R : ℕ) : ℕ := 2 * S * bytes * R * c + 2 * 8 * R * c

/-- Bytes of the parts of dispatch's intranode section. -/
def dispatchSectionParts (h4 k S c r : ℕ) : ℕ :=
  r * r * 4 + 4 * c * r * 8 + c * r * S * h4 * 16 + c * r * S * 4 + c * r * S * k * 8 +
    c * r * S * k * 4

/-- Bytes of the parts of combine's intranode section. -/
def combineSectionParts (h4 k S c r : ℕ) : ℕ :=
  2 * c * r * 8 + c * r * S * h4 * 16 + c * r * S * 4 + c * r * S * k * 4

theorem getDispatchNvlRegionBytes_eq_some (channels : 0 < c) :
    getDispatchNvlRegionBytes h4 k S c R = some v ↔
      16 * h4 + tokenFields k k + 16 < 2 ^ 31 ∧
        dispatchNvlBytes h4 k S c R < 2 ^ 63 ∧ dispatchNvlBytes h4 k S c R = v := by
  have slab : S * tokenBytes h4 k k ≤ S * tokenBytes h4 k k * 8 * c := by
    rw [Nat.mul_assoc _ 8]
    exact Nat.le_mul_of_pos_right _ (by omega)
  have words : R * 8 * 8 ≤ R * 8 * 8 * c := Nat.le_mul_of_pos_right _ channels
  simp only [getDispatchNvlRegionBytes, bind, getNumBytesPerToken_bind_eq_some,
    int64_bind_eq_some, int64_eq_some, numMaxNvlPeers]
  unfold dispatchNvlBytes
  constructor
  · rintro ⟨room, -, -, -, -, -, total⟩
    exact ⟨room, total⟩
  · rintro ⟨room, total⟩
    exact ⟨room, by omega, by omega, by omega, by omega, by omega, total⟩

theorem getCombineNvlRegionBytes_eq_some (channels : 0 < c) :
    getCombineNvlRegionBytes h4 k S c R = some v ↔
      16 * h4 + tokenFields 0 k + 16 < 2 ^ 31 ∧
        combineNvlBytes h4 k S c R < 2 ^ 63 ∧ combineNvlBytes h4 k S c R = v := by
  have slab : S * tokenBytes h4 0 k ≤ S * tokenBytes h4 0 k * 8 * c := by
    rw [Nat.mul_assoc _ 8]
    exact Nat.le_mul_of_pos_right _ (by omega)
  have words : R * 8 * 8 ≤ R * 8 * 8 * c := Nat.le_mul_of_pos_right _ channels
  simp only [getCombineNvlRegionBytes, bind, getNumBytesPerToken_bind_eq_some,
    int64_bind_eq_some, int64_eq_some, numMaxNvlPeers]
  unfold combineNvlBytes
  constructor
  · rintro ⟨room, -, -, -, -, total⟩
    exact ⟨room, total⟩
  · rintro ⟨room, total⟩
    exact ⟨room, by omega, by omega, by omega, by omega, total⟩

theorem getMetadataNvlRegionBytes_eq_some :
    getMetadataNvlRegionBytes E c R = some v ↔
      metadataNvlBytes E c R < 2 ^ 63 ∧ metadataNvlBytes E c R = v := by
  simp only [getMetadataNvlRegionBytes, bind, int64_bind_eq_some, int64_eq_some, numMaxNvlPeers]
  unfold metadataNvlBytes
  constructor
  · rintro ⟨-, -, -, total⟩
    exact total
  · rintro total
    exact ⟨by omega, by omega, by omega, total⟩

theorem getDispatchRdmaRegionBytes_eq_some :
    getDispatchRdmaRegionBytes h4 k S c R = some v ↔
      16 * h4 + tokenFields k k + 16 < 2 ^ 31 ∧
        rdmaBytes (tokenBytes h4 k k) S c R < 2 ^ 63 ∧
          rdmaBytes (tokenBytes h4 k k) S c R = v := by
  simp only [getDispatchRdmaRegionBytes, bind, getNumBytesPerToken_bind_eq_some,
    int64_bind_eq_some, int64_eq_some]
  unfold rdmaBytes
  constructor
  · rintro ⟨room, -, -, total⟩
    exact ⟨room, total⟩
  · rintro ⟨room, total⟩
    exact ⟨room, by omega, by omega, total⟩

theorem getCombineRdmaRegionBytes_eq_some :
    getCombineRdmaRegionBytes h4 k S c R = some v ↔
      16 * h4 + tokenFields 0 k + 16 < 2 ^ 31 ∧
        rdmaBytes (tokenBytes h4 0 k) S c R < 2 ^ 63 ∧
          rdmaBytes (tokenBytes h4 0 k) S c R = v := by
  simp only [getCombineRdmaRegionBytes, bind, getNumBytesPerToken_bind_eq_some,
    int64_bind_eq_some, int64_eq_some]
  unfold rdmaBytes
  constructor
  · rintro ⟨room, -, -, total⟩
    exact ⟨room, total⟩
  · rintro ⟨room, total⟩
    exact ⟨room, by omega, by omega, total⟩

theorem intranodeGetDispatchSectionBytes_eq_some :
    intranodeGetDispatchSectionBytes c r S h4 k = some v ↔
      dispatchSectionParts h4 k S c r + 127 < 2 ^ 63 ∧
        alignUp (dispatchSectionParts h4 k S c r) 128 = v := by
  simp only [intranodeGetDispatchSectionBytes, bind, int64_bind_eq_some, Option.some.injEq]
  unfold dispatchSectionParts
  constructor
  · rintro ⟨-, -, room, rounded⟩
    exact ⟨room, rounded⟩
  · rintro ⟨room, rounded⟩
    exact ⟨by omega, by omega, room, rounded⟩

theorem intranodeGetCombineSectionBytes_eq_some :
    intranodeGetCombineSectionBytes c r S h4 k = some v ↔
      combineSectionParts h4 k S c r + 127 < 2 ^ 63 ∧
        alignUp (combineSectionParts h4 k S c r) 128 = v := by
  simp only [intranodeGetCombineSectionBytes, bind, int64_bind_eq_some, Option.some.injEq]
  unfold combineSectionParts
  constructor
  · rintro ⟨-, -, room, rounded⟩
    exact ⟨room, rounded⟩
  · rintro ⟨room, rounded⟩
    exact ⟨by omega, by omega, room, rounded⟩

end Values

end StreamEP
