import StreamEP.SizeHints
import StreamEP.Intranode.BufferLayout
import StreamEP.Lib.TransitionSystem
import Mathlib.Order.CompletePartialOrder
import Mathlib.Order.Interval.Set.Basic

/-!
# The regions of a sequence of calls

A `Buffer` pins the token geometry and, for the rings of dispatch and of combine apart, the
config at their first call.  A call that the pins and the assertions of its host function
let through uses ranges of bytes of the NVLink buffer: the kernels of dispatch the one at
offset zero, those of combine the one behind what dispatch would use with *combine's*
config, and the metadata kernels the one behind what both would use with *dispatch's*.

So the ranges are disjoint when the two configs are the same.  Nothing in the code compares the
config of a combine with that of the dispatch whose handle it takes, and this module says exactly
how much of a comparison is missing.

**The calls.**  `Call` has the four calls of the buffer, with the arguments that the pins and
the assertions look at.  `Session.call` is one of them: `Layouts.check` first, which raises when
a pinned layout changes, then the assertions of the host function (`acceptsDispatch`,
`acceptsDispatchGrads`, `acceptsCombine`), and only then the use of the buffer.  A call that
raises leaves its pin behind, because the pin is set before anything is asserted.

**Reachable sessions.**  The sessions are those of a transition system, so a result is about all
sequences of calls, in any order and with any arguments, also with handles of earlier dispatches.
`Session.Inv` is what the pins and the assertions leave: all calls share one row width and one
top-k (`Inv.sameGeometry`), calls on the same rings share their config (`Inv.sameConfig`), and
every range has been checked against the size of the buffer as far as the host checks it.

**What is exact.**  `regions_disjoint_iff` is an equivalence over reachable sessions.  Its right
side, `CallsAgree`, compares the configs of a dispatch and a combine (`RingsAgree`) and, inside a
node, asks the section of each dispatch to fit; it mentions no range.  The proof goes through the
ends of the intervals (`disjoint_ranges_iff`), and every range has a byte.

The sizes of the carved ranges are computed twice, by the kernels' chains of constructors and by
the host's functions; the lemmas `dispatchEnd_internode` to `metadataBytes_eq` say that the two
agree.  `widerDispatch_overlaps` is a session that is let through and overlaps.
-/

namespace StreamEP

open Internode Intranode

deriving instance DecidableEq for Config

/-! ### Pinned layouts -/

/-- `hidden_bytes` and `num_topk`. -/
structure Geometry where
  hiddenBytes : ℕ
  numTopk : ℕ
deriving DecidableEq

/-- The two uses of a config. -/
inductive Rings
  | dispatch
  | combine
deriving DecidableEq

/-- `_layouts` -/
structure Layouts where
  tokenGeometry : Option Geometry
  config : Rings → Option Config

/-- `_check_layout`: the layouts after it, and whether it returned. -/
def Layouts.check (l : Layouts) (rings : Rings) (geometry : Geometry) (cfg : Config) :
    Layouts × Bool :=
  let l := { l with tokenGeometry := some (l.tokenGeometry.getD geometry) }
  if l.tokenGeometry = some geometry then
    let l := { l with config := Function.update l.config rings (some ((l.config rings).getD cfg)) }
    (l, decide (l.config rings = some cfg))
  else (l, false)

/-! ### Calls -/

/-- What a later call takes from the handle of a dispatch. -/
structure Handle where
  numTopk : ℕ
  numChannels : ℕ
  numLocalExperts : ℕ

/-- The calls; `combine` and `combine_grads` differ in nothing that matters here. -/
inductive Call
  | dispatch (cfg : Config) (hidden elementSize numTopk numLocalExperts : ℕ)
  | dispatchGrads (handle : ℕ) (cfg : Config) (hidden elementSize : ℕ)
  | combine (handle : ℕ) (cfg : Config) (hidden elementSize : ℕ)

/-- A call whose kernels ran. -/
structure Use where
  rings : Rings
  cfg : Config
  hiddenInt4 : ℕ
  numTopk : ℕ
  /-- The experts of the metadata kernels, for the calls that run them. -/
  metadata : Option ℕ
deriving DecidableEq

/-- What is fixed when the buffer is made. -/
structure NvlBuffer where
  numRanks : ℕ
  numNvlBytes : ℕ
  numRanks_pos : 0 < numRanks

/-- `num_channels` -/
def Config.numChannels (cfg : Config) : ℕ := cfg.numSms / 2

namespace NvlBuffer

variable (buf : NvlBuffer)

/-- `num_rdma_ranks` -/
def numRdmaRanks : ℕ := max 1 (buf.numRanks / numMaxNvlPeers)

/-- `_is_internode` -/
def isInternode : Bool := decide (1 < buf.numRdmaRanks)

/-! ### Ranges -/

/-- Half-open ranges of bytes. -/
abbrev Range : Type := ℕ × ℕ

/-- Bytes of an `AsymBuffer` of all channels. -/
def asymBytes (size numElems numRanks numSms : ℕ) : ℕ := numElems * size * numRanks * numSms

/-- What `dispatch_main_kernel` and `dispatch_grads_main_kernel` carve: intranode the layout
of `LaunchSizes`, internode `nvl_channel_x`, the prefixes, the head and the tail. -/
def dispatchEnd (cfg : Config) (h4 k : ℕ) : ℕ :=
  let slots := cfg.numMaxNvlChunkedRecvTokens
  let c := cfg.numChannels
  if buf.isInternode then
    asymBytes 1 (slots * tokenBytes h4 k k) numMaxNvlPeers c +
      asymBytes 8 buf.numRdmaRanks numMaxNvlPeers c +
      asymBytes 8 buf.numRdmaRanks numMaxNvlPeers c +
      asymBytes 8 1 numMaxNvlPeers c + asymBytes 8 1 numMaxNvlPeers c
  else dispatchSectionParts h4 k slots c buf.numRanks

/-- Where `combine_main_kernel` starts with its own config. -/
def combineStart (cfg : Config) (h4 k : ℕ) : ℕ :=
  let slots := cfg.numMaxNvlChunkedRecvTokens
  let c := cfg.numChannels
  if buf.isInternode then dispatchNvlBytes h4 k slots c buf.numRdmaRanks
  else alignUp (dispatchSectionParts h4 k slots c buf.numRanks) 128

/-- What it carves: internode `nvl_channel_x`, head and tail; intranode head, tail, the rows,
the skipped source indices and the weights. -/
def combineBytes (cfg : Config) (h4 k : ℕ) : ℕ :=
  let slots := cfg.numMaxNvlChunkedRecvTokens
  let c := cfg.numChannels
  if buf.isInternode then
    asymBytes 1 (slots * tokenBytes h4 0 k) numMaxNvlPeers c +
      asymBytes 8 buf.numRdmaRanks numMaxNvlPeers c +
      asymBytes 8 buf.numRdmaRanks numMaxNvlPeers c
  else
    let total := c * buf.numRanks
    total * 8 + total * 8 + total * slots * h4 * 16 + total * slots * 4 + total * slots * k * 4

/-- `nvl_metadata_offset` -/
def metadataStart (cfg : Config) (h4 k : ℕ) : ℕ :=
  let slots := cfg.numMaxNvlChunkedRecvTokens
  let c := cfg.numChannels
  dispatchNvlBytes h4 k slots c buf.numRdmaRanks + combineNvlBytes h4 k slots c buf.numRdmaRanks

/-- What the metadata kernels carve: the reduced counts, the counts for each rank and each
expert, and the inboxes of the peers. -/
def metadataBytes (cfg : Config) (numLocalExperts : ℕ) : ℕ :=
  numLocalExperts * numMaxNvlPeers * 4 + asymBytes 4 buf.numRdmaRanks numMaxNvlPeers 1 +
    asymBytes 4 numLocalExperts numMaxNvlPeers 1 +
    asymBytes 4 (buf.numRdmaRanks * cfg.numChannels * numLocalExperts) numMaxNvlPeers 1

/-- The ranges that a call uses for dispatch, combine and the metadata kernels. -/
inductive Region
  | dispatch
  | combine
  | metadata
deriving DecidableEq

def ranges (u : Use) : List (Region × Range) :=
  match u.rings with
  | .dispatch =>
    (.dispatch, 0, buf.dispatchEnd u.cfg u.hiddenInt4 u.numTopk) ::
      match u.metadata with
      | some experts =>
        let start := buf.metadataStart u.cfg u.hiddenInt4 u.numTopk
        [(.metadata, start, start + buf.metadataBytes u.cfg experts)]
      | none => []
  | .combine =>
    let start := buf.combineStart u.cfg u.hiddenInt4 u.numTopk
    [(.combine, start, start + buf.combineBytes u.cfg u.hiddenInt4 u.numTopk)]

/-! ### What the host functions let through -/

/-- The sizes of an intranode launch that the host accepts. -/
def launchSizes (cfg : Config) (hidden elementSize numTopk : ℕ) : Option LaunchSizes :=
  if launches : buf.numRanks ∈ [2, 4, 8] ∧ 0 < cfg.numChannels ∧
      hidden * elementSize % 16 = 0 ∧ 0 < numTopk then
    some
      { numRanks := buf.numRanks
        numChannels := cfg.numChannels
        numRecvBufferTokens := cfg.numMaxNvlChunkedRecvTokens
        hidden := hidden
        elementSize := elementSize
        numTopk := numTopk
        numRanks_mem := launches.1
        numChannels_pos := launches.2.1
        numRecvBufferTokens_pos := cfg.nvlSend_pos.trans cfg.nvlSend_lt_recv
        hidden_aligned := launches.2.2.1
        numTopk_pos := launches.2.2.2 }
  else none

/-- `intranode_dispatch` and `internode_dispatch`. -/
def acceptsDispatch (cfg : Config) (hidden elementSize numTopk numLocalExperts : ℕ) : Bool :=
  let h4 := hidden * elementSize / 16
  let slots := cfg.numMaxNvlChunkedRecvTokens
  let c := cfg.numChannels
  decide (cfg.numSms % 2 = 0 ∧ 0 < c ∧ numLocalExperts ≤ numMaxLocalExperts) &&
    if buf.isInternode then
      match getDispatchNvlRegionBytes h4 numTopk slots c buf.numRdmaRanks,
        getCombineNvlRegionBytes h4 numTopk slots c buf.numRdmaRanks,
        getMetadataNvlRegionBytes numLocalExperts c buf.numRdmaRanks with
      | some dispatch, some combine, some metadata =>
        decide (dispatch + combine + metadata ≤ buf.numNvlBytes)
      | _, _, _ => false
    else
      match buf.launchSizes cfg hidden elementSize numTopk with
      | some sz => decide (sz.HostChecks buf.numNvlBytes)
      | none => false

/-- `intranode_dispatch_grads`, which checks the words only, and `internode_dispatch_grads`,
which checks no size. -/
def acceptsDispatchGrads (handle : Handle) (cfg : Config) (hidden elementSize : ℕ) : Bool :=
  let c := cfg.numChannels
  decide (cfg.numSms % 2 = 0 ∧ 0 < c ∧ hidden * elementSize % 16 = 0) &&
    (buf.isInternode ||
      decide (c * buf.numRanks * handle.numLocalExperts =
          handle.numChannels * buf.numRanks * handle.numLocalExperts ∧
        CInt.sizeT (CInt.wrap32 (buf.numRanks * buf.numRanks) * 4 +
          CInt.wrap32 (4 * c * buf.numRanks) * 8) ≤ buf.numNvlBytes))

/-- `intranode_combine`, and `internode_combine` with the assertions of its launch. -/
def acceptsCombine (handle : Handle) (cfg : Config) (hidden elementSize : ℕ) : Bool :=
  let h4 := hidden * elementSize / 16
  let slots := cfg.numMaxNvlChunkedRecvTokens
  let c := cfg.numChannels
  decide (cfg.numSms % 2 = 0 ∧ 0 < c) &&
    if buf.isInternode then
      let warpsPerForwarder := max (numCombineForwarderWarps / buf.numRdmaRanks) 1
      decide (buf.numRdmaRanks ≤ numCombineForwarderWarps ∧
        numMaxNvlPeers < buf.numRdmaRanks * warpsPerForwarder ∧
        slots % buf.numRdmaRanks = 0 ∧
        max cfg.numMaxRdmaChunkedSendTokens cfg.numMaxNvlChunkedSendTokens <
          slots / buf.numRdmaRanks ∧
        cfg.numMaxNvlChunkedSendTokens + warpsPerForwarder ≤ slots / buf.numRdmaRanks ∧
        warpsPerForwarder ≤ cfg.numMaxRdmaChunkedSendTokens)
    else
      decide (c = handle.numChannels ∧ hidden * elementSize % 16 = 0) &&
        match intranodeGetDispatchSectionBytes c buf.numRanks slots h4 handle.numTopk,
          intranodeGetCombineSectionBytes c buf.numRanks slots h4 handle.numTopk with
        | some dispatch, some combine => decide (dispatch + combine ≤ buf.numNvlBytes)
        | _, _ => false

end NvlBuffer

/-! ### Sequences of calls -/

/-- A `Buffer` and what its calls have used so far. -/
structure Session where
  layouts : Layouts
  handles : List Handle
  uses : List Use

namespace Session

def start : Session := ⟨⟨none, fun _ => none⟩, [], []⟩

variable (buf : NvlBuffer) (s : Session)

/-- One call.  What a call has pinned stays pinned when it raises. -/
def call : Call → Session
  | .dispatch cfg hidden elementSize numTopk numLocalExperts =>
    let (layouts, same) := s.layouts.check .dispatch ⟨hidden * elementSize, numTopk⟩ cfg
    if same && buf.acceptsDispatch cfg hidden elementSize numTopk numLocalExperts then
      { layouts
        handles := s.handles ++ [⟨numTopk, cfg.numChannels, numLocalExperts⟩]
        uses := ⟨.dispatch, cfg, hidden * elementSize / 16, numTopk,
          if buf.isInternode then some numLocalExperts else none⟩ :: s.uses }
    else { s with layouts }
  | .dispatchGrads handle cfg hidden elementSize =>
    match s.handles[handle]? with
    | some h =>
      let (layouts, same) := s.layouts.check .dispatch ⟨hidden * elementSize, h.numTopk⟩ cfg
      if same && buf.acceptsDispatchGrads h cfg hidden elementSize then
        { s with
          layouts
          uses := ⟨.dispatch, cfg, hidden * elementSize / 16, h.numTopk, none⟩ :: s.uses }
      else { s with layouts }
    | none => s
  | .combine handle cfg hidden elementSize =>
    match s.handles[handle]? with
    | some h =>
      let (layouts, same) := s.layouts.check .combine ⟨hidden * elementSize, h.numTopk⟩ cfg
      if same && buf.acceptsCombine h cfg hidden elementSize then
        { s with
          layouts
          uses := ⟨.combine, cfg, hidden * elementSize / 16, h.numTopk, none⟩ :: s.uses }
      else { s with layouts }
    | none => s

/-- All sequences of calls. -/
def system : TransitionSystem Session Call where
  init := start
  step s c := some (s.call buf c)

/-! ### When they are disjoint -/

/-- The rings of the two configs agree: combine starts behind what dispatch uses, and
internode it also ends inside the buffer and leaves the metadata kernels their range. -/
def RingsAgree (dispatch combine : Use) : Prop :=
  let h4 := dispatch.hiddenInt4
  let k := dispatch.numTopk
  let slots := dispatch.cfg.numMaxNvlChunkedRecvTokens
  let c := dispatch.cfg.numChannels
  let slots' := combine.cfg.numMaxNvlChunkedRecvTokens
  let c' := combine.cfg.numChannels
  let nodes := buf.numRdmaRanks
  if buf.isInternode then
    dispatchNvlBytes h4 k slots c nodes ≤ dispatchNvlBytes h4 k slots' c' nodes ∧
      dispatchNvlBytes h4 k slots' c' nodes + combineNvlBytes h4 k slots' c' nodes ≤
        buf.numNvlBytes ∧
      ∀ experts ∈ dispatch.metadata,
        dispatchNvlBytes h4 k slots' c' nodes + combineNvlBytes h4 k slots' c' nodes ≤
            dispatchNvlBytes h4 k slots c nodes + combineNvlBytes h4 k slots c nodes ∨
          dispatchNvlBytes h4 k slots c nodes + combineNvlBytes h4 k slots c nodes +
            metadataNvlBytes experts c nodes ≤ dispatchNvlBytes h4 k slots' c' nodes
  else
    dispatchSectionParts h4 k slots c buf.numRanks ≤
      alignUp (dispatchSectionParts h4 k slots' c' buf.numRanks) 128

/-- The calls of a session go together: intranode the section of each dispatch fits the
buffer, and the rings of each combine agree with those of each dispatch. -/
structure CallsAgree : Prop where
  fits : buf.isInternode = false → ∀ u ∈ s.uses, u.rings = .dispatch →
    dispatchSectionParts u.hiddenInt4 u.numTopk u.cfg.numMaxNvlChunkedRecvTokens
      u.cfg.numChannels buf.numRanks ≤ buf.numNvlBytes
  agree : ∀ u ∈ s.uses, ∀ u' ∈ s.uses, u.rings = .dispatch → u'.rings = .combine →
    RingsAgree buf u u'

/-- Ranges of different regions are disjoint, and all end inside the buffer. -/
structure RegionsDisjoint : Prop where
  disjoint : ∀ u ∈ s.uses, ∀ u' ∈ s.uses, ∀ x ∈ buf.ranges u, ∀ x' ∈ buf.ranges u', x.1 ≠ x'.1 →
    Disjoint (Set.Ico x.2.1 x.2.2) (Set.Ico x'.2.1 x'.2.2)
  inside : ∀ u ∈ s.uses, ∀ x ∈ buf.ranges u, x.2.2 ≤ buf.numNvlBytes

end Session

/-! ### What the pins keep -/

namespace Layouts

/-- What is pinned stays pinned. -/
structure Keeps (l l' : Layouts) : Prop where
  config : ∀ rings cfg, l.config rings = some cfg → l'.config rings = some cfg
  geometry : ∀ geometry, l.tokenGeometry = some geometry → l'.tokenGeometry = some geometry

variable (l : Layouts) (rings : Rings) (geometry : Geometry) (cfg : Config)

theorem check_keeps : l.Keeps (l.check rings geometry cfg).1 := by
  unfold check
  simp only
  split
  · refine ⟨fun r c pinned => ?_, fun g pinned => by simp [pinned]⟩
    by_cases same : r = rings
    · subst same
      simp [pinned]
    · simpa [Function.update_of_ne same] using pinned
  · exact ⟨fun r c pinned => pinned, fun g pinned => by simp [pinned]⟩

/-- A check that returns has pinned what it was given. -/
theorem check_pins (returned : (l.check rings geometry cfg).2 = true) :
    (l.check rings geometry cfg).1.config rings = some cfg ∧
      (l.check rings geometry cfg).1.tokenGeometry = some geometry := by
  unfold check at returned ⊢
  simp only at returned ⊢
  split at returned
  case isTrue same =>
    rw [if_pos same]
    exact ⟨of_decide_eq_true returned, same⟩
  case isFalse => exact absurd returned Bool.false_ne_true

end Layouts

/-! ### What the host functions leave -/

/-- What holds of a call that the host let through. -/
structure Use.Accepted (buf : NvlBuffer) (u : Use) : Prop where
  channels : 0 < u.cfg.numChannels
  metadata : u.metadata ≠ none → buf.isInternode = true ∧ u.rings = .dispatch
  metadataFits : ∀ experts ∈ u.metadata,
    buf.metadataStart u.cfg u.hiddenInt4 u.numTopk + buf.metadataBytes u.cfg experts ≤
      buf.numNvlBytes
  combineFits : buf.isInternode = false → u.rings = .combine →
    buf.combineStart u.cfg u.hiddenInt4 u.numTopk +
      buf.combineBytes u.cfg u.hiddenInt4 u.numTopk ≤ buf.numNvlBytes

namespace NvlBuffer

variable {buf : NvlBuffer} {cfg : Config} {hidden elementSize numTopk E h4 k : ℕ}

/-! The ranges that the kernels carve are the sizes that the host computes. -/

theorem dispatchEnd_internode (internode : buf.isInternode = true) :
    buf.dispatchEnd cfg h4 k = dispatchNvlBytes h4 k cfg.numMaxNvlChunkedRecvTokens
      cfg.numChannels buf.numRdmaRanks := by
  simp only [dispatchEnd, internode, if_true, asymBytes, dispatchNvlBytes, numMaxNvlPeers]
  ring

theorem combineBytes_internode (internode : buf.isInternode = true) :
    buf.combineBytes cfg h4 k = combineNvlBytes h4 k cfg.numMaxNvlChunkedRecvTokens
      cfg.numChannels buf.numRdmaRanks := by
  simp only [combineBytes, internode, if_true, asymBytes, combineNvlBytes, numMaxNvlPeers]
  ring

theorem combineBytes_intranode (intranode : buf.isInternode = false) :
    buf.combineBytes cfg h4 k = combineSectionParts h4 k cfg.numMaxNvlChunkedRecvTokens
      cfg.numChannels buf.numRanks := by
  simp only [combineBytes, intranode, Bool.false_eq_true, if_false, combineSectionParts]
  ring

theorem metadataBytes_eq :
    buf.metadataBytes cfg E = metadataNvlBytes E cfg.numChannels buf.numRdmaRanks := by
  simp only [metadataBytes, asymBytes, metadataNvlBytes, numMaxNvlPeers]
  ring

/-- An accepted internode dispatch has its metadata range inside the buffer. -/
theorem acceptsDispatch_fits (internode : buf.isInternode = true)
    (accepts : buf.acceptsDispatch cfg hidden elementSize numTopk E = true) :
    0 < cfg.numChannels ∧
      buf.metadataStart cfg (hidden * elementSize / 16) numTopk + buf.metadataBytes cfg E ≤
        buf.numNvlBytes := by
  simp only [acceptsDispatch, internode, if_true, Bool.and_eq_true, decide_eq_true_eq] at accepts
  obtain ⟨⟨-, channels, -⟩, fits⟩ := accepts
  refine ⟨channels, ?_⟩
  split at fits
  case h_1 d c m dispatch combine metadata =>
    obtain ⟨-, -, rfl⟩ := (getDispatchNvlRegionBytes_eq_some channels).1 dispatch
    obtain ⟨-, -, rfl⟩ := (getCombineNvlRegionBytes_eq_some channels).1 combine
    obtain ⟨-, rfl⟩ := getMetadataNvlRegionBytes_eq_some.1 metadata
    rw [metadataBytes_eq]
    exact of_decide_eq_true fits
  case h_2 => exact absurd fits Bool.false_ne_true

/-- An accepted intranode combine ends inside the buffer. -/
theorem acceptsCombine_fits {handle : Handle} (intranode : buf.isInternode = false)
    (accepts : buf.acceptsCombine handle cfg hidden elementSize = true) :
    buf.combineStart cfg (hidden * elementSize / 16) handle.numTopk +
      buf.combineBytes cfg (hidden * elementSize / 16) handle.numTopk ≤ buf.numNvlBytes := by
  simp only [acceptsCombine, intranode, Bool.false_eq_true, if_false, Bool.and_eq_true] at accepts
  obtain ⟨-, -, fits⟩ := accepts
  split at fits
  case h_1 d c dispatch combine =>
    obtain ⟨-, rfl⟩ := intranodeGetDispatchSectionBytes_eq_some.1 dispatch
    obtain ⟨-, rfl⟩ := intranodeGetCombineSectionBytes_eq_some.1 combine
    have section_le := le_alignUp (a := combineSectionParts (hidden * elementSize / 16)
      handle.numTopk cfg.numMaxNvlChunkedRecvTokens cfg.numChannels buf.numRanks) (b := 128)
        (by decide)
    rw [combineBytes_intranode intranode, combineStart]
    simp only [intranode, Bool.false_eq_true, if_false]
    have sum := of_decide_eq_true fits
    omega
  case h_2 => exact absurd fits Bool.false_ne_true

theorem combineBytes_pos (channels : 0 < cfg.numChannels) : 0 < buf.combineBytes cfg h4 k := by
  cases internode : buf.isInternode with
  | true =>
    have nodes : 0 < buf.numRdmaRanks := Nat.lt_of_lt_of_le Nat.one_pos (le_max_left _ _)
    have words := Nat.mul_pos nodes channels
    rw [combineBytes_internode internode, combineNvlBytes]
    have same : buf.numRdmaRanks * 8 * 8 * cfg.numChannels =
      64 * (buf.numRdmaRanks * cfg.numChannels) := by ring
    omega
  | false =>
    have words := Nat.mul_pos channels buf.numRanks_pos
    rw [combineBytes_intranode internode, combineSectionParts]
    have same : 2 * cfg.numChannels * buf.numRanks = 2 * (cfg.numChannels * buf.numRanks) :=
      Nat.mul_assoc _ _ _
    omega

theorem metadataBytes_pos : 0 < buf.metadataBytes cfg E := by
  have nodes : 0 < buf.numRdmaRanks := Nat.lt_of_lt_of_le Nat.one_pos (le_max_left _ _)
  rw [metadataBytes_eq, metadataNvlBytes]
  omega

/-- The ranges of a call, one by one. -/
theorem mem_ranges {u : Use} {x : Region × Range} :
    x ∈ buf.ranges u ↔
      (u.rings = .dispatch ∧
        (x = (.dispatch, 0, buf.dispatchEnd u.cfg u.hiddenInt4 u.numTopk) ∨
          ∃ experts ∈ u.metadata,
            x = (.metadata, buf.metadataStart u.cfg u.hiddenInt4 u.numTopk,
              buf.metadataStart u.cfg u.hiddenInt4 u.numTopk + buf.metadataBytes u.cfg experts))) ∨
      (u.rings = .combine ∧
        x = (.combine, buf.combineStart u.cfg u.hiddenInt4 u.numTopk,
          buf.combineStart u.cfg u.hiddenInt4 u.numTopk +
            buf.combineBytes u.cfg u.hiddenInt4 u.numTopk)) := by
  unfold ranges
  cases u.rings <;> cases u.metadata <;> simp

end NvlBuffer

/-! ### Intervals -/

/-- Half-open ranges with a byte each are disjoint when one ends before the other begins. -/
theorem disjoint_ranges_iff {a b c d : ℕ} (first : a < b) (second : c < d) :
    Disjoint (Set.Ico a b) (Set.Ico c d) ↔ b ≤ c ∨ d ≤ a := by
  rw [Set.Ico_disjoint_Ico]
  omega

namespace Session

variable {buf : NvlBuffer} {s : Session}

/-- What the pins and the assertions leave. -/
structure Inv (buf : NvlBuffer) (s : Session) : Prop where
  pinned : ∀ u ∈ s.uses, s.layouts.config u.rings = some u.cfg ∧
    ∃ geometry, s.layouts.tokenGeometry = some geometry ∧
      u.hiddenInt4 = geometry.hiddenBytes / 16 ∧ u.numTopk = geometry.numTopk
  accepted : ∀ u ∈ s.uses, u.Accepted buf
  handled : s.uses ≠ [] → s.handles ≠ []
  dispatched : s.handles ≠ [] →
    ∃ u ∈ s.uses, u.rings = .dispatch ∧ (buf.isInternode = true → u.metadata ≠ none)

/-- A call that raises keeps the invariant. -/
theorem Inv.raise {l : Layouts} (inv : s.Inv buf) (keeps : s.layouts.Keeps l) :
    Inv buf { s with layouts := l } where
  pinned u hu := by
    obtain ⟨config, geometry, pinned, sizes⟩ := inv.pinned u hu
    exact ⟨keeps.config _ _ config, geometry, keeps.geometry _ pinned, sizes⟩
  accepted := inv.accepted
  handled := inv.handled
  dispatched := inv.dispatched

/-- So does a call that was let through. -/
theorem Inv.use {l : Layouts} {u : Use} {handles : List Handle} {hiddenBytes : ℕ}
    (inv : s.Inv buf) (keeps : s.layouts.Keeps l)
    (pins : l.config u.rings = some u.cfg ∧ l.tokenGeometry = some ⟨hiddenBytes, u.numTopk⟩)
    (row : u.hiddenInt4 = hiddenBytes / 16) (accepted : u.Accepted buf) (handled : handles ≠ [])
    (dispatched : s.handles ≠ [] ∨
      u.rings = .dispatch ∧ (buf.isInternode = true → u.metadata ≠ none)) :
    Inv buf ⟨l, handles, u :: s.uses⟩ where
  pinned := by
    intro u' hu'
    rcases List.mem_cons.1 hu' with rfl | old
    · exact ⟨pins.1, _, pins.2, row, rfl⟩
    · exact (inv.raise keeps).pinned u' old
  accepted := by
    intro u' hu'
    rcases List.mem_cons.1 hu' with rfl | old
    · exact accepted
    · exact inv.accepted u' old
  handled _ := handled
  dispatched := by
    intro _
    rcases dispatched with before | now
    · obtain ⟨u', old, kind⟩ := inv.dispatched before
      exact ⟨u', List.mem_cons_of_mem _ old, kind⟩
    · exact ⟨u, List.mem_cons_self, now⟩

theorem call_inv (inv : s.Inv buf) (c : Call) : (s.call buf c).Inv buf := by
  cases c with
  | dispatch cfg hidden elementSize numTopk numLocalExperts =>
    -- the check keeps what earlier calls have pinned and pins the layout of this one
    have keeps := s.layouts.check_keeps .dispatch ⟨hidden * elementSize, numTopk⟩ cfg
    have pins := s.layouts.check_pins .dispatch ⟨hidden * elementSize, numTopk⟩ cfg
    simp only [call]
    split
    case isTrue through =>
      obtain ⟨same, accepts⟩ := Bool.and_eq_true_iff.1 through
      refine inv.use keeps (pins same) rfl ?_ (by simp) (Or.inr ⟨rfl, fun internode => ?_⟩)
      · refine ⟨?_, fun some => ⟨?_, rfl⟩, ?_, fun _ kind => nomatch kind⟩
        · simp only [NvlBuffer.acceptsDispatch, Bool.and_eq_true, decide_eq_true_eq] at accepts
          exact accepts.1.2.1
        · by_contra intranode
          exact some (if_neg intranode)
        · intro experts mem
          by_cases internode : buf.isInternode = true
          · rw [if_pos internode] at mem
            cases mem
            exact (NvlBuffer.acceptsDispatch_fits internode accepts).2
          · rw [if_neg internode] at mem
            exact nomatch mem
      · rw [if_pos internode]
        exact Option.some_ne_none _
    case isFalse => exact inv.raise keeps
  | dispatchGrads handle cfg hidden elementSize =>
    simp only [call]
    split
    case h_1 h found =>
      have keeps := s.layouts.check_keeps .dispatch ⟨hidden * elementSize, h.numTopk⟩ cfg
      have pins := s.layouts.check_pins .dispatch ⟨hidden * elementSize, h.numTopk⟩ cfg
      have some : s.handles ≠ [] := List.ne_nil_of_mem (List.mem_of_getElem? found)
      split
      case isTrue through =>
        obtain ⟨same, accepts⟩ := Bool.and_eq_true_iff.1 through
        refine inv.use keeps (pins same) rfl ?_ some (Or.inl some)
        refine ⟨?_, fun no => absurd rfl no, fun _ mem => (nomatch mem), fun _ kind => nomatch kind⟩
        simp only [NvlBuffer.acceptsDispatchGrads, Bool.and_eq_true, decide_eq_true_eq] at accepts
        exact accepts.1.2.1
      case isFalse => exact inv.raise keeps
    case h_2 => exact inv
  | combine handle cfg hidden elementSize =>
    simp only [call]
    split
    case h_1 h found =>
      have keeps := s.layouts.check_keeps .combine ⟨hidden * elementSize, h.numTopk⟩ cfg
      have pins := s.layouts.check_pins .combine ⟨hidden * elementSize, h.numTopk⟩ cfg
      have some : s.handles ≠ [] := List.ne_nil_of_mem (List.mem_of_getElem? found)
      split
      case isTrue through =>
        obtain ⟨same, accepts⟩ := Bool.and_eq_true_iff.1 through
        refine inv.use keeps (pins same) rfl ?_ some (Or.inl some)
        refine ⟨?_, fun no => absurd rfl no, fun _ mem => (nomatch mem), fun intranode _ =>
          NvlBuffer.acceptsCombine_fits intranode accepts⟩
        simp only [NvlBuffer.acceptsCombine, Bool.and_eq_true, decide_eq_true_eq] at accepts
        exact accepts.1.2
      case isFalse => exact inv.raise keeps
    case h_2 => exact inv

/-- All calls have one row width and one top-k. -/
theorem Inv.sameGeometry {u u' : Use} (inv : s.Inv buf) (hu : u ∈ s.uses) (hu' : u' ∈ s.uses) :
    u.hiddenInt4 = u'.hiddenInt4 ∧ u.numTopk = u'.numTopk := by
  obtain ⟨-, geometry, pinned, row, topk⟩ := inv.pinned u hu
  obtain ⟨-, geometry', pinned', row', topk'⟩ := inv.pinned u' hu'
  cases pinned.symm.trans pinned'
  exact ⟨row.trans row'.symm, topk.trans topk'.symm⟩

/-- All calls on the same rings have one config. -/
theorem Inv.sameConfig {u u' : Use} (inv : s.Inv buf) (hu : u ∈ s.uses) (hu' : u' ∈ s.uses)
    (same : u.rings = u'.rings) : u.cfg = u'.cfg := by
  have pinned := (inv.pinned u hu).1
  rw [same] at pinned
  exact Option.some.inj (pinned.symm.trans (inv.pinned u' hu').1)

/-- Internode, what dispatch uses ends inside the buffer: the metadata range lies behind. -/
theorem Inv.dispatch_inside (inv : s.Inv buf) (internode : buf.isInternode = true) {u : Use}
    (hu : u ∈ s.uses) (kind : u.rings = .dispatch) :
    buf.dispatchEnd u.cfg u.hiddenInt4 u.numTopk ≤ buf.numNvlBytes := by
  obtain ⟨u', hu', kind', carved⟩ :=
    inv.dispatched (inv.handled (List.ne_nil_of_mem hu))
  obtain ⟨experts, some⟩ := Option.ne_none_iff_exists'.1 (carved internode)
  have fits := (inv.accepted u' hu').metadataFits experts some
  rw [inv.sameConfig hu hu' (kind.trans kind'.symm), (inv.sameGeometry hu hu').1,
    (inv.sameGeometry hu hu').2, NvlBuffer.dispatchEnd_internode internode]
  simp only [NvlBuffer.metadataStart] at fits
  omega

/-- Dispatch and the metadata kernels are placed with the same config. -/
theorem Inv.dispatch_metadata (inv : s.Inv buf) {u u' : Use} (hu : u ∈ s.uses)
    (hu' : u' ∈ s.uses) (kind : u.rings = .dispatch) {experts : ℕ} (mem : experts ∈ u'.metadata) :
    buf.dispatchEnd u.cfg u.hiddenInt4 u.numTopk ≤
      buf.metadataStart u'.cfg u'.hiddenInt4 u'.numTopk := by
  obtain ⟨internode, kind'⟩ := (inv.accepted u' hu').metadata
    (by rw [mem]; exact Option.some_ne_none _)
  rw [inv.sameConfig hu hu' (kind.trans kind'.symm), (inv.sameGeometry hu hu').1,
    (inv.sameGeometry hu hu').2, NvlBuffer.dispatchEnd_internode internode]
  exact Nat.le_add_right _ _

/-- Whether the rings of a dispatch and a combine agree, in terms of their ranges. -/
theorem Inv.ringsAgree_iff (inv : s.Inv buf) {u u' : Use} (hu : u ∈ s.uses)
    (hu' : u' ∈ s.uses) :
    RingsAgree buf u u' ↔
      buf.dispatchEnd u.cfg u.hiddenInt4 u.numTopk ≤
          buf.combineStart u'.cfg u'.hiddenInt4 u'.numTopk ∧
        (buf.isInternode = true →
          buf.combineStart u'.cfg u'.hiddenInt4 u'.numTopk +
              buf.combineBytes u'.cfg u'.hiddenInt4 u'.numTopk ≤ buf.numNvlBytes ∧
            ∀ experts ∈ u.metadata,
              buf.combineStart u'.cfg u'.hiddenInt4 u'.numTopk +
                  buf.combineBytes u'.cfg u'.hiddenInt4 u'.numTopk ≤
                buf.metadataStart u.cfg u.hiddenInt4 u.numTopk ∨
              buf.metadataStart u.cfg u.hiddenInt4 u.numTopk + buf.metadataBytes u.cfg experts ≤
                buf.combineStart u'.cfg u'.hiddenInt4 u'.numTopk) := by
  rw [← (inv.sameGeometry hu hu').1, ← (inv.sameGeometry hu hu').2]
  cases internode : buf.isInternode with
  | true =>
    simp only [RingsAgree, internode, if_true, NvlBuffer.dispatchEnd_internode internode,
      NvlBuffer.combineBytes_internode internode, NvlBuffer.combineStart,
      NvlBuffer.metadataStart, NvlBuffer.metadataBytes_eq, true_imp_iff]
  | false =>
    simp only [RingsAgree, internode, Bool.false_eq_true, if_false, NvlBuffer.dispatchEnd,
      NvlBuffer.combineStart, false_imp_iff, and_true]

theorem reachable_inv (reach : (system buf).Reachable s) : s.Inv buf := by
  refine reach.invariant ?_ fun s c s' (inv : s.Inv buf) fires => ?_
  · exact ⟨fun _ mem => (nomatch mem), fun _ mem => (nomatch mem), fun no => absurd rfl no,
      fun no => absurd rfl no⟩
  · cases fires
    exact call_inv inv c

/-- Configs with the same NVLink ring and channels agree. -/
theorem Inv.callsAgree_of_same (inv : s.Inv buf)
    (same : ∀ u ∈ s.uses, ∀ u' ∈ s.uses,
      u.cfg.numMaxNvlChunkedRecvTokens = u'.cfg.numMaxNvlChunkedRecvTokens ∧
        u.cfg.numChannels = u'.cfg.numChannels)
    (fits : buf.isInternode = false → ∀ u ∈ s.uses, u.rings = .dispatch →
      dispatchSectionParts u.hiddenInt4 u.numTopk u.cfg.numMaxNvlChunkedRecvTokens
        u.cfg.numChannels buf.numRanks ≤ buf.numNvlBytes) : s.CallsAgree buf := by
  refine ⟨fits, fun u hu u' hu' kind kind' => ?_⟩
  obtain ⟨ring, channels⟩ := same u hu u' hu'
  cases internode : buf.isInternode with
  | false =>
    simp only [RingsAgree, internode, Bool.false_eq_true, if_false, ring, channels]
    exact le_alignUp (by decide)
  | true =>
    simp only [RingsAgree, internode, if_true, ring, channels]
    refine ⟨le_rfl, ?_, fun _ _ => Or.inl le_rfl⟩
    obtain ⟨d, hd, kindD, carved⟩ := inv.dispatched (inv.handled (List.ne_nil_of_mem hu))
    obtain ⟨experts, some⟩ := Option.ne_none_iff_exists'.1 (carved internode)
    have room := (inv.accepted d hd).metadataFits experts some
    rw [← inv.sameConfig hu hd (kind.trans kindD.symm), ← (inv.sameGeometry hu hd).1,
      ← (inv.sameGeometry hu hd).2] at room
    simp only [NvlBuffer.metadataStart, ring, channels] at room
    omega

/-- **The regions stay disjoint and inside exactly in the sessions whose calls agree.** -/
theorem regions_disjoint_iff (buf : NvlBuffer) {s : Session}
    (reach : (system buf).Reachable s) : s.RegionsDisjoint buf ↔ s.CallsAgree buf := by
  have inv := reachable_inv reach
  constructor
  · intro regions
    constructor
    · intro intranode u hu kind
      have inside := regions.inside u hu _ (NvlBuffer.mem_ranges.2 (.inl ⟨kind, .inl rfl⟩))
      simpa only [NvlBuffer.dispatchEnd, intranode, Bool.false_eq_true, if_false] using inside
    · intro u hu u' hu' kind kind'
      have combine : (.combine, buf.combineStart u'.cfg u'.hiddenInt4 u'.numTopk,
          buf.combineStart u'.cfg u'.hiddenInt4 u'.numTopk +
            buf.combineBytes u'.cfg u'.hiddenInt4 u'.numTopk) ∈ buf.ranges u' :=
        NvlBuffer.mem_ranges.2 (.inr ⟨kind', rfl⟩)
      have channels' := (inv.accepted u' hu').channels
      -- a region without bytes would be disjoint from everything
      have nonempty : buf.combineStart u'.cfg u'.hiddenInt4 u'.numTopk <
          buf.combineStart u'.cfg u'.hiddenInt4 u'.numTopk +
            buf.combineBytes u'.cfg u'.hiddenInt4 u'.numTopk :=
        Nat.lt_add_of_pos_right (NvlBuffer.combineBytes_pos channels')
      refine (inv.ringsAgree_iff hu hu').2 ⟨?_, fun internode => ⟨?_, ?_⟩⟩
      · have apart := regions.disjoint u hu u' hu' _
          (NvlBuffer.mem_ranges.2 (.inl ⟨kind, .inl rfl⟩)) _ combine fun same => nomatch same
        simp only at apart
        by_contra overlap
        rw [disjoint_ranges_iff (by omega) nonempty] at apart
        omega
      · exact regions.inside u' hu' _ combine
      · intro experts mem
        have apart := regions.disjoint u hu u' hu' _
          (NvlBuffer.mem_ranges.2 (.inl ⟨kind, .inr ⟨experts, mem, rfl⟩⟩)) _ combine
            fun same => nomatch same
        rw [disjoint_ranges_iff (Nat.lt_add_of_pos_right NvlBuffer.metadataBytes_pos)
          nonempty] at apart
        exact apart.symm
  · intro agree
    have dispatchCombine : ∀ u ∈ s.uses, ∀ u' ∈ s.uses, u.rings = .dispatch →
        u'.rings = .combine → buf.dispatchEnd u.cfg u.hiddenInt4 u.numTopk ≤
          buf.combineStart u'.cfg u'.hiddenInt4 u'.numTopk := fun u hu u' hu' kind kind' =>
      ((inv.ringsAgree_iff hu hu').1 (agree.agree u hu u' hu' kind kind')).1
    have metadataCombine : ∀ u ∈ s.uses, ∀ u' ∈ s.uses, u.rings = .dispatch →
        u'.rings = .combine → ∀ experts ∈ u.metadata,
          buf.combineStart u'.cfg u'.hiddenInt4 u'.numTopk +
              buf.combineBytes u'.cfg u'.hiddenInt4 u'.numTopk ≤
            buf.metadataStart u.cfg u.hiddenInt4 u.numTopk ∨
          buf.metadataStart u.cfg u.hiddenInt4 u.numTopk + buf.metadataBytes u.cfg experts ≤
            buf.combineStart u'.cfg u'.hiddenInt4 u'.numTopk :=
      fun u hu u' hu' kind kind' experts mem =>
        (((inv.ringsAgree_iff hu hu').1 (agree.agree u hu u' hu' kind kind')).2
          ((inv.accepted u hu).metadata (by rw [mem]; exact Option.some_ne_none _)).1).2 experts mem
    constructor
    · intro u hu u' hu' x hx x' hx' differ
      -- two regions of one kind are not compared, the other pairs are ordered by `agree`
      rw [Set.Ico_disjoint_Ico]
      rcases NvlBuffer.mem_ranges.1 hx with ⟨kind, rfl | ⟨experts, mem, rfl⟩⟩ | ⟨kind, rfl⟩ <;>
        rcases NvlBuffer.mem_ranges.1 hx' with
          ⟨kind', rfl | ⟨experts', mem', rfl⟩⟩ | ⟨kind', rfl⟩
      · exact absurd rfl differ
      · have := inv.dispatch_metadata hu hu' kind mem'
        simp only
        omega
      · have := dispatchCombine u hu u' hu' kind kind'
        simp only
        omega
      · have := inv.dispatch_metadata hu' hu kind' mem
        simp only
        omega
      · exact absurd rfl differ
      · have := metadataCombine u hu u' hu' kind kind' experts mem
        simp only
        omega
      · have := dispatchCombine u' hu' u hu kind' kind
        simp only
        omega
      · have := metadataCombine u' hu' u hu kind' kind experts' mem'
        simp only
        omega
      · exact absurd rfl differ
    · intro u hu x hx
      rcases NvlBuffer.mem_ranges.1 hx with ⟨kind, rfl | ⟨experts, mem, rfl⟩⟩ | ⟨kind, rfl⟩
      · cases internode : buf.isInternode with
        | true => exact inv.dispatch_inside internode hu kind
        | false =>
          simpa only [NvlBuffer.dispatchEnd, internode, Bool.false_eq_true, if_false] using
            agree.fits internode u hu kind
      · exact (inv.accepted u hu).metadataFits experts mem
      · cases internode : buf.isInternode with
        | false => exact (inv.accepted u hu).combineFits internode kind
        | true =>
          obtain ⟨u', hu', kind', -⟩ := inv.dispatched (inv.handled (List.ne_nil_of_mem hu))
          exact (((inv.ringsAgree_iff hu' hu).1 (agree.agree u' hu' u hu kind' kind)).2
            internode).1

/-- Two ranks that share 1536 bytes. -/
def smallBuffer : NvlBuffer := ⟨2, 1536, Nat.two_pos⟩

/-- A dispatch and the combine of its handle, with rows of 64 bytes. -/
def dispatchAndCombine (dispatch combine : Config) : Session :=
  (start.call smallBuffer (.dispatch dispatch 32 2 1 1)).call smallBuffer (.combine 0 combine 32 2)

theorem reachable_dispatchAndCombine (dispatch combine : Config) :
    (system smallBuffer).Reachable (dispatchAndCombine dispatch combine) :=
  .step (.combine 0 combine 32 2) (.step (.dispatch dispatch 32 2 1 1) .init rfl) rfl

theorem uses_same_config :
    (dispatchAndCombine tightConfig tightConfig).uses =
      [⟨.combine, tightConfig, 4, 1, none⟩, ⟨.dispatch, tightConfig, 4, 1, none⟩] := by
  decide +kernel

/-- With one config for both, the regions are disjoint. -/
theorem sameConfig_regions_disjoint :
    (dispatchAndCombine tightConfig tightConfig).RegionsDisjoint smallBuffer := by
  have reach := reachable_dispatchAndCombine tightConfig tightConfig
  refine (regions_disjoint_iff smallBuffer reach).2
    ((reachable_inv reach).callsAgree_of_same ?_ ?_)
  · rw [uses_same_config]
    intro u hu u' hu'
    simp only [List.mem_cons, List.not_mem_nil, or_false] at hu hu'
    rcases hu with rfl | rfl <;> rcases hu' with rfl | rfl <;> exact ⟨rfl, rfl⟩
  · rw [uses_same_config]
    intro _ u hu _
    simp only [List.mem_cons, List.not_mem_nil, or_false] at hu
    rcases hu with rfl | rfl <;> decide

/-- Rings of four slots, otherwise as `tightConfig`. -/
def widerConfig : Config :=
  { tightConfig with
    numMaxNvlChunkedRecvTokens := 4
    nvlSend_lt_recv := Nat.le_add_right (nat_lit 2) (nat_lit 2) }

/-- A dispatch with longer rings than the combine: both are let through, and combine's range
begins inside that of dispatch. -/
theorem widerDispatch_overlaps :
    ∃ s, (system smallBuffer).Reachable s ∧ ¬s.RegionsDisjoint smallBuffer := by
  refine ⟨_, reachable_dispatchAndCombine widerConfig tightConfig, fun regions => ?_⟩
  have uses : (dispatchAndCombine widerConfig tightConfig).uses =
      [⟨.combine, tightConfig, 4, 1, none⟩, ⟨.dispatch, widerConfig, 4, 1, none⟩] := by
    decide +kernel
  have apart := regions.disjoint ⟨.dispatch, widerConfig, 4, 1, none⟩ (by rw [uses]; simp)
    ⟨.combine, tightConfig, 4, 1, none⟩ (by rw [uses]; simp) (.dispatch, 0, 1424) (by decide)
    (.combine, 896, 1536) (by decide) (by decide)
  have inBoth : 896 ∈ Set.Ico 0 1424 ∧ 896 ∈ Set.Ico 896 1536 :=
    ⟨⟨by decide, by decide⟩, by decide, by decide⟩
  exact Set.disjoint_left.1 apart inBoth.1 inBoth.2

end Session

end StreamEP
