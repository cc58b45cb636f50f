import StreamEP.Config
import StreamEP.Internode.Nodes
import StreamEP.Lib.LookAhead
import StreamEP.Lib.TransitionSystem

/-!
# The gaps of `send_nvl_head`

Every forwarder warp of a dispatch block records, for the tokens of each source node, the
place it gave the token in the stream of that node to its peer, or `-1`.  When all warps of
the block are through, warp `w` scans the range of node `w` backwards and replaces the `-1`s,
one lane for each peer.

Two things are not as exact as the scan itself.  There are as many scanning warps as peers,
so the ranges of the nodes behind them keep their `-1`s.  And the start of a range is read
from a cell that the block of the *previous* channel writes, with which nothing synchronises
this block.  `nvl_heads_exact` says what holds when every block reads its cell late enough;
`farNode_not_encoded` and `early_read_overwrites` are the two ways to fail.

**Tokens.**  The tokens that come to a rank over RDMA are numbered node by node, and for a node
channel by channel (`RecvTokens`).  So the tokens of a channel and node are a range; a token has
one channel and one node (`range_unique`), and every pair of a token and a peer its own entry
(`headCell_inj`).

**Blocks.**  All blocks of the rank are one system, `NvlHeads`, since they share the tensor of
heads and the matrix of range starts.  Its events are the steps of single warps and lanes: a
header that is read, a token that is forwarded, a range that is read, a token that is visited by
the scan.  The two barriers of a block are guards of these events (`HeadersRead`, `Forwarded`);
between blocks there are none.

**The invariant.**  One column, of a channel, a node and a peer, is `ColumnInv`: while the warp
forwards, the entries so far are as recorded, and while the lane scans (`Scanning`), what it has
visited is encoded and what lies ahead still recorded.  `ColumnInv.frame` is for the columns
that a step does not touch.

**Exactness.**  At the end a range with a scanning warp is encoded (`scanned_range`), and the
others stay as recorded (`far_range`).  A recorded `-1` happens to be right when what goes to
the peer comes last in the range and there is some: `FarNodesPlain` asks that of the nodes
without a warp, and `exact_iff` says that nothing less will do.
-/

namespace StreamEP.Internode

open Finset LookAhead Stream

/-! ### The received tokens -/

/-- The tokens that come to a rank over RDMA: those of a node lie behind those of the nodes
before it, channel after channel. -/
structure RecvTokens where
  numRdmaRanks : ℕ
  numChannels : ℕ
  /-- Tokens of a channel and a source node. -/
  numTokens : ℕ → ℕ → ℕ
  /-- Whether a token goes to a peer. -/
  isTokenInNvlRank : ℕ → ℕ → Bool

namespace RecvTokens

variable (T : RecvTokens) (c s p : ℕ)

/-- Tokens of a node in the channels before `c`: `rdma_channel_prefix` in its header. -/
def channelPrefix : ℕ := ∑ c' ∈ range c, T.numTokens c' s

/-- `recv_rdma_rank_prefix_sum` before node `s`. -/
def rankPrefixSum : ℕ := ∑ s' ∈ range s, T.channelPrefix T.numChannels s'

/-- First token of a channel and node. -/
def tokenStartIdx : ℕ := T.channelPrefix c s + T.rankPrefixSum s

/-- One past the last. -/
def tokenEndIdx : ℕ := T.channelPrefix (c + 1) s + T.rankPrefixSum s

/-- The token goes to peer `p`. -/
def Goes (t : ℕ) : Prop := T.isTokenInNvlRank p t = true

instance : DecidablePred (T.Goes p) := fun t =>
  inferInstanceAs (Decidable (T.isTokenInNvlRank p t = true))

/-- The cell of `recv_rdma_channel_prefix_matrix`. -/
def matrixCell : ℕ := s * T.numChannels + c

end RecvTokens

/-- The entry of `send_nvl_head`. -/
def headCell (p t : ℕ) : ℕ := t * numMaxNvlPeers + p

/-! ### The blocks -/

/-- What a forwarder warp holds for one source node, and the lane that scans for its peer. -/
structure HeadColumn where
  /-- The header has been read. -/
  header : Bool
  /-- Tokens forwarded or skipped so far. -/
  forwarded : ℕ
  rdmaNvlTokenIdx : ℕ
  /-- One past the token that the scan visits next. -/
  tokenIdx : ℕ
  lastHead : ℤ

/-- All forwarder blocks of a rank, by channel, peer and source node. -/
structure NvlHeads where
  recvRdmaChannelPrefixMatrix : ℕ → ℕ
  sendNvlHead : ℕ → ℤ
  columns : ℕ × ℕ × ℕ → HeadColumn
  /-- The range that a scanning warp has read, by channel and node. -/
  ranges : ℕ × ℕ → Option (ℕ × ℕ)

inductive HeadEvent
  /-- A lane of warp `p` reads the header of node `s`. -/
  | header (c p s : ℕ)
  /-- Warp `p` forwards or skips the next token of node `s`. -/
  | forward (c p s : ℕ)
  /-- Warp `w` reads its range. -/
  | readRange (c w : ℕ)
  /-- Its lane `p` visits a token. -/
  | scan (c w p : ℕ)

/-- The channel whose block an event belongs to. -/
def HeadEvent.channel : HeadEvent → ℕ
  | .header c _ _ | .forward c _ _ | .readRange c _ | .scan c _ _ => c

namespace NvlHeads

variable (T : RecvTokens) (st : NvlHeads)

/-- The tensors are zeroed before the kernel. -/
def start : NvlHeads where
  recvRdmaChannelPrefixMatrix _ := 0
  sendNvlHead _ := 0
  columns _ := ⟨false, 0, 0, 0, 0⟩
  ranges _ := none

/-- The block is past `sync_forwarder_smem`. -/
def HeadersRead (c : ℕ) : Prop :=
  ∀ p < numMaxNvlPeers, ∀ s < T.numRdmaRanks, (st.columns (c, p, s)).header = true

/-- The block is past `sync_forwarder_tail`. -/
def Forwarded (c : ℕ) : Prop :=
  st.HeadersRead T c ∧ ∀ p < numMaxNvlPeers, ∀ s < T.numRdmaRanks,
    (st.columns (c, p, s)).forwarded = T.numTokens c s

instance (c : ℕ) : Decidable (st.HeadersRead T c) :=
  inferInstanceAs (Decidable (∀ p < numMaxNvlPeers, ∀ s < T.numRdmaRanks, _))

instance (c : ℕ) : Decidable (st.Forwarded T c) := inferInstanceAs (Decidable (_ ∧ _))

/-- One step of a block. -/
def step : HeadEvent → Option NvlHeads
  | .header c p s =>
    let col := st.columns (c, p, s)
    if c < T.numChannels ∧ p < numMaxNvlPeers ∧ s < T.numRdmaRanks ∧ col.header = false then
      some { st with
        recvRdmaChannelPrefixMatrix := Function.update st.recvRdmaChannelPrefixMatrix
          (T.matrixCell c s) (T.channelPrefix (c + 1) s)
        columns := Function.update st.columns (c, p, s) { col with header := true } }
    else none
  | .forward c p s =>
    let col := st.columns (c, p, s)
    if c < T.numChannels ∧ p < numMaxNvlPeers ∧ s < T.numRdmaRanks ∧ st.HeadersRead T c ∧
        col.forwarded < T.numTokens c s then
      let t := T.tokenStartIdx c s + col.forwarded
      some { st with
        sendNvlHead := Function.update st.sendNvlHead (headCell p t)
          (if T.Goes p t then (col.rdmaNvlTokenIdx : ℤ) else -1)
        columns := Function.update st.columns (c, p, s) { col with
          forwarded := col.forwarded + 1
          rdmaNvlTokenIdx := col.rdmaNvlTokenIdx + if T.Goes p t then 1 else 0 } }
    else none
  | .readRange c w =>
    if c < T.numChannels ∧ w < numMaxNvlPeers ∧ w < T.numRdmaRanks ∧ st.Forwarded T c ∧
        st.ranges (c, w) = none then
      let first := if c = 0 then 0 else st.recvRdmaChannelPrefixMatrix (T.matrixCell (c - 1) w)
      let last := st.recvRdmaChannelPrefixMatrix (T.matrixCell c w)
      let shift := T.rankPrefixSum w
      some { st with
        ranges := Function.update st.ranges (c, w) (some (first + shift, last + shift))
        columns := fun key =>
          if key.1 = c ∧ key.2.2 = w then
            { st.columns key with tokenIdx := last + shift, lastHead := kReverseScanSentinel }
          else st.columns key }
    else none
  | .scan c w p =>
    match st.ranges (c, w) with
    | none => none
    | some (first, _) =>
      let col := st.columns (c, p, w)
      if p < numMaxNvlPeers ∧ first < col.tokenIdx then
        let visited := scanEntry (headCell p (col.tokenIdx - 1)) ⟨col.lastHead, st.sendNvlHead⟩
        some { st with
          sendNvlHead := visited.entries
          columns := Function.update st.columns (c, p, w)
            { col with tokenIdx := col.tokenIdx - 1, lastHead := visited.last } }
      else none

/-- The forwarder blocks of a dispatch. -/
def system : TransitionSystem NvlHeads HeadEvent where
  init := start
  step := step T

/-- A warp reads the start of its range when the cell holds what the earlier channels
received: the previous block has written it, or they received nothing. -/
def ReadsInOrder : HeadEvent → Prop
  | .readRange c w =>
    c = 0 ∨ st.recvRdmaChannelPrefixMatrix (T.matrixCell (c - 1) w) = T.channelPrefix c w
  | _ => True

instance (e : HeadEvent) : Decidable (st.ReadsInOrder T e) := by
  unfold ReadsInOrder
  cases e <;> infer_instance

/-- All blocks have ended. -/
def Ended : Prop :=
  ∀ c < T.numChannels, st.Forwarded T c ∧ ∀ w < numMaxNvlPeers, w < T.numRdmaRanks →
    ∃ range, st.ranges (c, w) = some range ∧
      ∀ p < numMaxNvlPeers, (st.columns (c, p, w)).tokenIdx ≤ range.1

instance : Decidable (st.Ended T) :=
  inferInstanceAs (Decidable (∀ c < T.numChannels, st.Forwarded T c ∧
    ∀ w < numMaxNvlPeers, w < T.numRdmaRanks → ∃ range ∈ st.ranges (c, w),
      ∀ p < numMaxNvlPeers, (st.columns (c, p, w)).tokenIdx ≤ range.1))

/-- The entry that a token should have: its place, or the next one, encoded. -/
def encoded (c s p t : ℕ) : ℤ :=
  entry (T.Goes p) (T.tokenStartIdx c s) (T.tokenEndIdx c s) kReverseScanSentinel t

/-- All entries are as they should be. -/
def Exact : Prop :=
  ∀ c < T.numChannels, ∀ s < T.numRdmaRanks, ∀ p < numMaxNvlPeers, ∀ t,
    T.tokenStartIdx c s ≤ t → t < T.tokenEndIdx c s →
      st.sendNvlHead (headCell p t) = encoded T c s p t

end NvlHeads

/-! ### Ranges do not overlap -/

namespace RecvTokens

variable {T : RecvTokens} {c c' s s' p p' t t' : ℕ}

theorem tokenEndIdx_eq (c s : ℕ) : T.tokenEndIdx c s = T.tokenStartIdx c s + T.numTokens c s := by
  unfold tokenEndIdx tokenStartIdx channelPrefix
  rw [sum_range_succ]
  omega

/-- A token of some channel and node lies among those of the node. -/
theorem mem_node (hc : c < T.numChannels) (lo : T.tokenStartIdx c s ≤ t)
    (hi : t < T.tokenEndIdx c s) :
    T.rankPrefixSum s ≤ t ∧ t < T.rankPrefixSum s + T.channelPrefix T.numChannels s := by
  have inside : T.channelPrefix (c + 1) s ≤ T.channelPrefix T.numChannels s :=
    PrefixSum.prefix_mono hc
  unfold tokenStartIdx at lo
  unfold tokenEndIdx at hi
  omega

/-- A token has one node and one channel. -/
theorem range_unique (hc : c < T.numChannels) (hc' : c' < T.numChannels)
    (lo : T.tokenStartIdx c s ≤ t) (hi : t < T.tokenEndIdx c s)
    (lo' : T.tokenStartIdx c' s' ≤ t) (hi' : t < T.tokenEndIdx c' s') : c = c' ∧ s = s' := by
  have node : s = s' := PrefixSum.block_unique (mem_node hc lo hi) (mem_node hc' lo' hi')
  subst node
  refine ⟨PrefixSum.block_unique (f := fun c => T.numTokens c s) (x := t - T.rankPrefixSum s)
    ?_ ?_, rfl⟩
  · rw [tokenEndIdx_eq] at hi
    unfold tokenStartIdx channelPrefix at lo hi
    omega
  · rw [tokenEndIdx_eq] at hi'
    unfold tokenStartIdx channelPrefix at lo' hi'
    omega

theorem matrixCell_inj (hc : c < T.numChannels) (hc' : c' < T.numChannels) :
    T.matrixCell c s = T.matrixCell c' s' ↔ s = s' ∧ c = c' := PrefixSum.flat_inj hc hc'

end RecvTokens

theorem headCell_inj {p p' t t' : ℕ} (hp : p < numMaxNvlPeers) (hp' : p' < numMaxNvlPeers) :
    headCell p t = headCell p' t' ↔ t = t' ∧ p = p' := PrefixSum.flat_inj hp hp'

/-! ### What every step keeps -/

namespace NvlHeads

variable {T : RecvTokens} {st : NvlHeads} {c s p : ℕ}

/-- What the forwarder warp records for a token. -/
def recorded (T : RecvTokens) (c s p t : ℕ) : ℤ := record (T.Goes p) (T.tokenStartIdx c s) t

/-- A lane scans its range: what it has visited is encoded, what lies ahead is recorded. -/
structure Scanning (T : RecvTokens) (st : NvlHeads) (c s p first : ℕ) : Prop where
  first : first = T.tokenStartIdx c s
  forwarded : (st.columns (c, p, s)).forwarded = T.numTokens c s
  lo : T.tokenStartIdx c s ≤ (st.columns (c, p, s)).tokenIdx
  hi : (st.columns (c, p, s)).tokenIdx ≤ T.tokenEndIdx c s
  lastHead : (st.columns (c, p, s)).lastHead = next (T.Goes p) (T.tokenStartIdx c s)
    (T.tokenEndIdx c s) kReverseScanSentinel (st.columns (c, p, s)).tokenIdx
  visited : ∀ t, (st.columns (c, p, s)).tokenIdx ≤ t → t < T.tokenEndIdx c s →
    st.sendNvlHead (headCell p t) = encoded T c s p t
  ahead : ∀ t, T.tokenStartIdx c s ≤ t → t < (st.columns (c, p, s)).tokenIdx →
    st.sendNvlHead (headCell p t) = recorded T c s p t

/-- One column, while the warp forwards and while the lane scans. -/
structure ColumnInv (T : RecvTokens) (st : NvlHeads) (c s p : ℕ) : Prop where
  forwarded_le : (st.columns (c, p, s)).forwarded ≤ T.numTokens c s
  place : (st.columns (c, p, s)).rdmaNvlTokenIdx =
    pos (T.Goes p) (T.tokenStartIdx c s)
      (T.tokenStartIdx c s + (st.columns (c, p, s)).forwarded)
  unscanned : st.ranges (c, s) = none →
    ∀ t, T.tokenStartIdx c s ≤ t →
      t < T.tokenStartIdx c s + (st.columns (c, p, s)).forwarded →
        st.sendNvlHead (headCell p t) = recorded T c s p t
  scanned : ∀ range, st.ranges (c, s) = some range → Scanning T st c s p range.1

structure Inv (T : RecvTokens) (st : NvlHeads) : Prop where
  matrix : ∀ c < T.numChannels, ∀ s < T.numRdmaRanks, ∀ p < numMaxNvlPeers,
    (st.columns (c, p, s)).header = true →
      st.recvRdmaChannelPrefixMatrix (T.matrixCell c s) = T.channelPrefix (c + 1) s
  column : ∀ c < T.numChannels, ∀ s < T.numRdmaRanks, ∀ p < numMaxNvlPeers, ColumnInv T st c s p
  scanning : ∀ c w range, st.ranges (c, w) = some range →
    c < T.numChannels ∧ w < numMaxNvlPeers ∧ w < T.numRdmaRanks

/-- The columns agree in everything but the header. -/
def SameWork (col col' : HeadColumn) : Prop :=
  col'.forwarded = col.forwarded ∧ col'.rdmaNvlTokenIdx = col.rdmaNvlTokenIdx ∧
    col'.tokenIdx = col.tokenIdx ∧ col'.lastHead = col.lastHead

/-- A column is kept when nothing of it changes. -/
theorem ColumnInv.frame {st' : NvlHeads} (inv : ColumnInv T st c s p)
    (column : SameWork (st.columns (c, p, s)) (st'.columns (c, p, s)))
    (range : st'.ranges (c, s) = st.ranges (c, s))
    (heads : ∀ t, T.tokenStartIdx c s ≤ t → t < T.tokenEndIdx c s →
      st'.sendNvlHead (headCell p t) = st.sendNvlHead (headCell p t)) :
    ColumnInv T st' c s p := by
  obtain ⟨forwarded, place, tokenIdx, lastHead⟩ := column
  have fits := inv.forwarded_le
  refine ⟨by rw [forwarded]; exact fits, by rw [place, forwarded]; exact inv.place,
    fun none t lo hi => ?_, fun r some => ?_⟩
  · rw [forwarded] at hi
    rw [heads t lo (by rw [RecvTokens.tokenEndIdx_eq]; omega)]
    exact inv.unscanned (range ▸ none) t lo hi
  · have scan := inv.scanned r (range ▸ some)
    refine ⟨scan.first, by rw [forwarded]; exact scan.forwarded, by rw [tokenIdx]; exact scan.lo,
      by rw [tokenIdx]; exact scan.hi, by rw [lastHead, tokenIdx]; exact scan.lastHead,
      fun t visited hi => ?_, fun t lo ahead => ?_⟩
    · rw [tokenIdx] at visited
      rw [heads t (scan.lo.trans visited) hi]
      exact scan.visited t visited hi
    · rw [tokenIdx] at ahead
      rw [heads t lo (ahead.trans_le scan.hi)]
      exact scan.ahead t lo ahead

theorem start_inv : Inv T start where
  matrix _ _ _ _ _ _ read := absurd read Bool.false_ne_true
  column _ _ _ _ _ _ :=
    { forwarded_le := Nat.zero_le _
      place := pos_start.symm
      unscanned := fun _ _ lo hi => absurd hi (not_lt.2 lo)
      scanned := fun _ some => nomatch some }
  scanning _ _ _ some := nomatch some

/-- Writing the entry of one token leaves the other columns alone. -/
theorem heads_update {c' s' p' t' : ℕ} (hc : c < T.numChannels) (hp : p < numMaxNvlPeers)
    (hc' : c' < T.numChannels) (hp' : p' < numMaxNvlPeers)
    (lo' : T.tokenStartIdx c' s' ≤ t') (hi' : t' < T.tokenEndIdx c' s')
    (other : (c', p', s') ≠ (c, p, s)) (heads : ℕ → ℤ) (entry : ℤ) {t : ℕ}
    (lo : T.tokenStartIdx c s ≤ t) (hi : t < T.tokenEndIdx c s) :
    Function.update heads (headCell p' t') entry (headCell p t) = heads (headCell p t) := by
  refine Function.update_of_ne (fun same => other ?_) _ _
  obtain ⟨rfl, rfl⟩ := (headCell_inj hp hp').1 same
  obtain ⟨rfl, rfl⟩ := RecvTokens.range_unique hc hc' lo hi lo' hi'
  rfl

theorem header_inv {c' p' s' : ℕ} {st' : NvlHeads} (inv : st.Inv T)
    (fires : st.step T (.header c' p' s') = some st') : st'.Inv T := by
  simp only [step] at fires
  split at fires
  case isFalse => cases fires
  case isTrue enabled =>
    cases fires
    refine ⟨fun c hc s hs p hp read => ?_, fun c hc s hs p hp => ?_, inv.scanning⟩
    · by_cases cell : T.matrixCell c s = T.matrixCell c' s'
      · obtain ⟨rfl, rfl⟩ := (RecvTokens.matrixCell_inj hc enabled.1).1 cell
        rw [cell]
        exact Function.update_self _ _ _
      · simp only [Function.update_of_ne cell]
        refine inv.matrix c hc s hs p hp ?_
        have other : (c, p, s) ≠ (c', p', s') := by
          rintro same
          cases same
          exact cell rfl
        simpa only [Function.update_of_ne other] using read
    · refine (inv.column c hc s hs p hp).frame ?_ rfl fun _ _ _ => rfl
      by_cases same : (c, p, s) = (c', p', s')
      · simp only [same, Function.update_self]
        exact ⟨rfl, rfl, rfl, rfl⟩
      · simp only [Function.update_of_ne same]
        exact ⟨rfl, rfl, rfl, rfl⟩

/-- The token that a warp forwards next lies in its range. -/
theorem next_token_lt (few : (st.columns (c, p, s)).forwarded < T.numTokens c s) :
    T.tokenStartIdx c s + (st.columns (c, p, s)).forwarded < T.tokenEndIdx c s := by
  rw [RecvTokens.tokenEndIdx_eq]
  omega

theorem forward_inv {c' p' s' : ℕ} {st' : NvlHeads} (inv : st.Inv T)
    (fires : st.step T (.forward c' p' s') = some st') : st'.Inv T := by
  simp only [step] at fires
  split at fires
  case isFalse => cases fires
  case isTrue enabled =>
    obtain ⟨hc', hp', hs', -, few⟩ := enabled
    cases fires
    refine ⟨fun c hc s hs p hp read => ?_, fun c hc s hs p hp => ?_, inv.scanning⟩
    · refine inv.matrix c hc s hs p hp ?_
      by_cases same : (c, p, s) = (c', p', s')
      · simp only [same, Function.update_self] at read
        rwa [same]
      · simpa only [Function.update_of_ne same] using read
    · by_cases same : (c', p', s') = (c, p, s)
      · cases same
        have column := inv.column c' hc s' hs p' hp
        have none : st.ranges (c', s') = none := by
          refine Option.eq_none_iff_forall_not_mem.2 fun range some => ?_
          exact few.ne (column.scanned range some).forwarded
        refine ⟨?_, ?_, fun _ t lo hi => ?_, fun range some => ?_⟩
        · simp only [Function.update_self]
          exact few
        · simp only [Function.update_self, ← Nat.add_assoc]
          rw [pos_succ (Nat.le_add_right _ _), column.place]
        · simp only [Function.update_self, ← Nat.add_assoc] at hi ⊢
          rcases Nat.lt_succ_iff_lt_or_eq.1 hi with before | rfl
          · rw [Function.update_of_ne fun cell => before.ne ((headCell_inj hp hp).1 cell).1]
            exact column.unscanned none t lo before
          · rw [Function.update_self, recorded, record, column.place]
        · exact absurd (some.symm.trans none) (Option.some_ne_none _)
      · refine (inv.column c hc s hs p hp).frame ?_ rfl fun t lo hi =>
          heads_update hc hp hc' hp' (Nat.le_add_right _ _) (next_token_lt few) same _ _ lo hi
        simp only [Function.update_of_ne (Ne.symm same)]
        exact ⟨rfl, rfl, rfl, rfl⟩

theorem readRange_inv {c' w : ℕ} {st' : NvlHeads} (inv : st.Inv T)
    (ordered : st.ReadsInOrder T (.readRange c' w))
    (fires : st.step T (.readRange c' w) = some st') : st'.Inv T := by
  simp only [step] at fires
  split at fires
  case isFalse => cases fires
  case isTrue enabled =>
    obtain ⟨hc', hw, hs', ⟨headers, forwarded⟩, none⟩ := enabled
    -- the warp reads the bounds of its own range
    have first : (if c' = 0 then 0
        else st.recvRdmaChannelPrefixMatrix (T.matrixCell (c' - 1) w)) + T.rankPrefixSum w =
          T.tokenStartIdx c' w := by
      split_ifs with zero
      · subst zero
        rfl
      · rw [ordered.resolve_left zero, RecvTokens.tokenStartIdx]
    have last : st.recvRdmaChannelPrefixMatrix (T.matrixCell c' w) + T.rankPrefixSum w =
        T.tokenEndIdx c' w := by
      rw [inv.matrix c' hc' w hs' 0 (by decide) (headers 0 (by decide) w hs'),
        RecvTokens.tokenEndIdx]
    simp only [first, last] at fires
    cases fires
    refine ⟨fun c hc s hs p hp read => inv.matrix c hc s hs p hp ?_,
      fun c hc s hs p hp => ?_, fun c w' range some => ?_⟩
    · simp only at read
      split_ifs at read <;> exact read
    · have column := inv.column c hc s hs p hp
      by_cases same : (c', w) = (c, s)
      · cases same
        have all := forwarded p hp w hs
        have le : T.tokenStartIdx c' w ≤ T.tokenEndIdx c' w := by
          rw [RecvTokens.tokenEndIdx_eq]
          omega
        refine ⟨?_, ?_, fun none' => ?_, fun range some => ?_⟩
        · simp only [and_self, if_true]
          exact column.forwarded_le
        · simp only [and_self, if_true]
          exact column.place
        · simp only [Function.update_self] at none'
          cases none'
        · simp only [Function.update_self] at some
          cases some
          refine ⟨rfl, ?_, ?_, ?_, ?_, ?_, ?_⟩ <;> simp only [and_self, if_true]
          · exact all
          · exact le
          · exact le_rfl
          · rw [next, if_neg (lt_irrefl _)]
          · exact fun t visited hi => absurd hi (not_lt.2 visited)
          · intro t lo hi
            refine column.unscanned none t lo ?_
            rw [all, ← RecvTokens.tokenEndIdx_eq]
            exact hi
      · refine column.frame ?_ (Function.update_of_ne (Ne.symm same) _ _) fun _ _ _ => rfl
        have other : ¬(c = c' ∧ s = w) := fun both => same (Prod.ext both.1.symm both.2.symm)
        simp only [if_neg other]
        exact ⟨rfl, rfl, rfl, rfl⟩
    · by_cases same : (c, w') = (c', w)
      · cases same
        exact ⟨hc', hw, hs'⟩
      · simp only [Function.update_of_ne same] at some
        exact inv.scanning c w' range some

/-- The token that a lane visits lies in its range. -/
theorem Scanning.visits {first : ℕ} (scan : Scanning T st c s p first)
    (ahead : first < (st.columns (c, p, s)).tokenIdx) :
    ∃ t, (st.columns (c, p, s)).tokenIdx = t + 1 ∧ T.tokenStartIdx c s ≤ t ∧
      t < T.tokenEndIdx c s := by
  obtain ⟨t, visits⟩ := Nat.exists_eq_add_one.2 (Nat.zero_lt_of_lt ahead)
  have hi := scan.hi
  rw [scan.first, visits] at ahead
  rw [visits] at hi
  exact ⟨t, visits, Nat.le_of_lt_succ ahead, hi⟩

/-- A visit encodes the entry of its token and moves on. -/
theorem scan_cases {c' w p' : ℕ} {st' : NvlHeads} (inv : st.Inv T)
    (fires : st.step T (.scan c' w p') = some st') :
    c' < T.numChannels ∧ w < T.numRdmaRanks ∧ p' < numMaxNvlPeers ∧
      (∃ range, st.ranges (c', w) = some range) ∧
      ∃ t, (st.columns (c', p', w)).tokenIdx = t + 1 ∧ T.tokenStartIdx c' w ≤ t ∧
        t < T.tokenEndIdx c' w ∧ st' = { st with
          sendNvlHead := Function.update st.sendNvlHead (headCell p' t) (encoded T c' w p' t)
          columns := Function.update st.columns (c', p', w)
            { st.columns (c', p', w) with
              tokenIdx := t
              lastHead := next (T.Goes p') (T.tokenStartIdx c' w) (T.tokenEndIdx c' w)
                kReverseScanSentinel t } } := by
  simp only [step] at fires
  split at fires
  case h_1 => cases fires
  case h_2 first last some =>
    split at fires
    case isFalse => cases fires
    case isTrue enabled =>
      obtain ⟨hp', ahead⟩ := enabled
      obtain ⟨hc', -, hs'⟩ := inv.scanning c' w _ some
      have scan := (inv.column c' hc' w hs' p' hp').scanned _ some
      obtain ⟨t, visits, lo, hi⟩ := scan.visits ahead
      have recorded := scan.ahead t lo (visits ▸ Nat.lt_succ_self t)
      simp only [visits, Nat.add_sub_cancel] at fires
      rw [scanEntry_record lo hi recorded (visits ▸ scan.lastHead)] at fires
      exact ⟨hc', hs', hp', ⟨_, some⟩, t, visits, lo, hi, (Option.some.inj fires).symm⟩

theorem scan_inv {c' w p' : ℕ} {st' : NvlHeads} (inv : st.Inv T)
    (fires : st.step T (.scan c' w p') = some st') : st'.Inv T := by
  obtain ⟨hc', hs', hp', ⟨range', some⟩, t', visits, lo', hi', rfl⟩ := scan_cases inv fires
  refine ⟨fun c hc s hs p hp read => ?_, fun c hc s hs p hp => ?_, inv.scanning⟩
  · refine inv.matrix c hc s hs p hp ?_
    by_cases same : (c, p, s) = (c', p', w)
    · simp only [same, Function.update_self] at read
      rwa [same]
    · simpa only [Function.update_of_ne same] using read
  · have column := inv.column c hc s hs p hp
    by_cases same : (c', p', w) = (c, p, s)
    · cases same
      refine ⟨?_, ?_, fun none => absurd (some.symm.trans none) (Option.some_ne_none _),
        fun range some' => ?_⟩
      · simp only [Function.update_self]
        exact column.forwarded_le
      · simp only [Function.update_self]
        exact column.place
      · have scan := column.scanned range some'
        refine ⟨scan.first, ?_, ?_, ?_, ?_, fun t from_t below => ?_,
          fun t lo before => ?_⟩ <;> simp only [Function.update_self] at *
        · exact scan.forwarded
        · exact lo'
        · exact hi'.le
        · rcases Nat.eq_or_lt_of_le from_t with rfl | after
          · exact Function.update_self _ _ _
          · rw [Function.update_of_ne fun cell => after.ne' ((headCell_inj hp hp).1 cell).1]
            exact scan.visited t (visits ▸ after) below
        · rw [Function.update_of_ne fun cell => before.ne ((headCell_inj hp hp).1 cell).1]
          exact scan.ahead t lo (visits ▸ before.trans (Nat.lt_succ_self t'))
    · refine column.frame ?_ rfl fun t lo hi =>
        heads_update hc hp hc' hp' lo' hi' same _ _ lo hi
      simp only [Function.update_of_ne (Ne.symm same)]
      exact ⟨rfl, rfl, rfl, rfl⟩

theorem step_inv {st' : NvlHeads} {e : HeadEvent} (inv : st.Inv T)
    (ordered : st.ReadsInOrder T e) (fires : st.step T e = some st') : st'.Inv T := by
  cases e with
  | header => exact header_inv inv fires
  | forward => exact forward_inv inv fires
  | readRange => exact readRange_inv inv ordered fires
  | scan => exact scan_inv inv fires

theorem reachable_inv (reach : (system T).ReachableUnder (ReadsInOrder T) st) : st.Inv T :=
  reach.invariant start_inv fun _ _ _ inv ordered fires => step_inv inv ordered fires

/-! ### Exactness -/

/-- A step leaves the entries of the other channels alone. -/
def OwnEntriesOnly (T : RecvTokens) (st : NvlHeads) (e : HeadEvent) (st' : NvlHeads) : Prop :=
  ∀ c < T.numChannels, c ≠ e.channel → ∀ s < T.numRdmaRanks, ∀ p < numMaxNvlPeers, ∀ t,
    T.tokenStartIdx c s ≤ t → t < T.tokenEndIdx c s →
      st'.sendNvlHead (headCell p t) = st.sendNvlHead (headCell p t)

/-- The nodes that no warp scans need no scan: what goes to a peer comes last in its range,
after all that does not, and there is some. -/
def FarNodesPlain (T : RecvTokens) : Prop :=
  ∀ c < T.numChannels, ∀ s < T.numRdmaRanks, numMaxNvlPeers ≤ s → ∀ p < numMaxNvlPeers, ∀ t,
    T.tokenStartIdx c s ≤ t → t < T.tokenEndIdx c s → ¬T.Goes p t →
      (∀ x, T.tokenStartIdx c s ≤ x → x < t → ¬T.Goes p x) ∧
        ∃ x, t < x ∧ x < T.tokenEndIdx c s ∧ T.Goes p x

theorem own_entries_only {st' : NvlHeads} {e : HeadEvent} (inv : st.Inv T)
    (fires : st.step T e = some st') : OwnEntriesOnly T st e st' := by
  intro c hc other s hs p hp t lo hi
  cases e with
  | header c' p' s' =>
    simp only [step] at fires
    split at fires
    · cases fires
      rfl
    · cases fires
  | readRange c' w =>
    simp only [step] at fires
    split at fires
    · cases fires
      rfl
    · cases fires
  | forward c' p' s' =>
    simp only [step] at fires
    split at fires
    case isFalse => cases fires
    case isTrue enabled =>
      obtain ⟨hc', hp', hs', -, few⟩ := enabled
      cases fires
      exact heads_update hc hp hc' hp' (Nat.le_add_right _ _) (next_token_lt few)
        (fun same => other (congrArg Prod.fst same).symm) _ _ lo hi
  | scan c' w p' =>
    obtain ⟨hc', -, hp', -, t', -, lo', hi', rfl⟩ := scan_cases inv fires
    exact heads_update hc hp hc' hp' lo' hi'
      (fun same => other (congrArg Prod.fst same).symm) _ _ lo hi

/-- A recorded `-1` is right where what goes to the peer comes last. -/
theorem recorded_eq_encoded_iff {t : ℕ} (lo : T.tokenStartIdx c s ≤ t)
    (hi : t < T.tokenEndIdx c s) :
    recorded T c s p t = encoded T c s p t ↔ (¬T.Goes p t →
      (∀ x, T.tokenStartIdx c s ≤ x → x < t → ¬T.Goes p x) ∧
        ∃ x, t < x ∧ x < T.tokenEndIdx c s ∧ T.Goes p x) := by
  rw [recorded, encoded, record_eq_entry_iff (by decide)]
  refine forall_congr' fun skipped => ?_
  rw [pos_eq_zero_iff lo]
  refine and_congr_right fun none => ?_
  rw [Nat.pos_iff_ne_zero, Ne, pos_eq_zero_iff (lo.trans hi.le)]
  push Not
  constructor
  · rintro ⟨x, from_start, below, goes⟩
    refine ⟨x, ?_, below, goes⟩
    by_contra late
    rcases (not_lt.1 late).eq_or_lt with rfl | before
    · exact skipped goes
    · exact none x from_start before goes
  · rintro ⟨x, after, below, goes⟩
    exact ⟨x, lo.trans after.le, below, goes⟩

/-- At the end a range with a scanning warp is encoded. -/
theorem scanned_range (inv : st.Inv T) (ended : st.Ended T) (hc : c < T.numChannels)
    (hs : s < T.numRdmaRanks) (near : s < numMaxNvlPeers) (hp : p < numMaxNvlPeers) {t : ℕ}
    (lo : T.tokenStartIdx c s ≤ t) (hi : t < T.tokenEndIdx c s) :
    st.sendNvlHead (headCell p t) = encoded T c s p t := by
  obtain ⟨range, some, through⟩ := (ended c hc).2 s near hs
  have scan := (inv.column c hc s hs p hp).scanned range some
  have done := through p hp
  rw [scan.first] at done
  exact scan.visited t (done.trans lo) hi

/-- The others stay as recorded. -/
theorem far_range (inv : st.Inv T) (ended : st.Ended T) (hc : c < T.numChannels)
    (hs : s < T.numRdmaRanks) (far : numMaxNvlPeers ≤ s) (hp : p < numMaxNvlPeers) {t : ℕ}
    (lo : T.tokenStartIdx c s ≤ t) (hi : t < T.tokenEndIdx c s) :
    st.sendNvlHead (headCell p t) = recorded T c s p t := by
  have none : st.ranges (c, s) = none :=
    Option.eq_none_iff_forall_not_mem.2 fun range some =>
      not_lt.2 far (inv.scanning c s range some).2.1
  have all := (ended c hc).1.2 p hp s hs
  refine (inv.column c hc s hs p hp).unscanned none t lo ?_
  rw [all, ← RecvTokens.tokenEndIdx_eq]
  exact hi

theorem exact_iff (inv : st.Inv T) (ended : st.Ended T) : st.Exact T ↔ FarNodesPlain T := by
  constructor
  · intro exact c hc s hs far p hp t lo hi
    refine (recorded_eq_encoded_iff lo hi).1 ?_
    rw [← far_range inv ended hc hs far hp lo hi]
    exact exact c hc s hs p hp t lo hi
  · intro plain c hc s hs p hp t lo hi
    rcases lt_or_ge s numMaxNvlPeers with near | far
    · exact scanned_range inv ended hc hs near hp lo hi
    · rw [far_range inv ended hc hs far hp lo hi]
      exact (recorded_eq_encoded_iff lo hi).2 (plain c hc s hs far p hp t lo hi)

/-- **The gaps are encoded exactly** in every run whose blocks read their cells late enough,
if and only if the nodes that no warp scans need no scan. -/
theorem nvl_heads_exact (T : RecvTokens) {st : NvlHeads}
    (reach : (system T).ReachableUnder (ReadsInOrder T) st) :
    (∀ e st', st.step T e = some st' → OwnEntriesOnly T st e st') ∧
      (st.Ended T → (st.Exact T ↔ FarNodesPlain T)) :=
  ⟨fun _ _ fires => own_entries_only (reachable_inv reach) fires,
    exact_iff (reachable_inv reach)⟩

/-! ### Two nodes and twelve -/

/-- A block up to its reverse scan, one warp after the other. -/
def forwardEvents (T : RecvTokens) (c : ℕ) : List HeadEvent :=
  let warps := List.range numMaxNvlPeers
  let nodes := List.range T.numRdmaRanks
  (warps.flatMap fun p => nodes.map (.header c p)) ++
    (warps.flatMap fun p => nodes.flatMap fun s =>
      List.replicate (T.numTokens c s) (.forward c p s)) ++
    (warps.filter (· < T.numRdmaRanks)).map (.readRange c)

/-- Its reverse scan, over ranges of the given lengths. -/
def scanEvents (T : RecvTokens) (c : ℕ) (length : ℕ → ℕ) : List HeadEvent :=
  let warps := List.range numMaxNvlPeers
  (warps.filter (· < T.numRdmaRanks)).flatMap fun w => warps.flatMap fun p =>
    List.replicate (length w) (.scan c w p)

/-- The first channel brings a token for peer 1, the second one for peer 0. -/
def twoChannels : RecvTokens where
  numRdmaRanks := 2
  numChannels := 2
  numTokens _ s := if s = 0 then 1 else 0
  isTokenInNvlRank p t := decide (p + t = 1)

/-- Both blocks, one after the other. -/
def inOrder : List HeadEvent :=
  forwardEvents twoChannels 0 ++ scanEvents twoChannels 0 (twoChannels.numTokens 0) ++
    forwardEvents twoChannels 1 ++ scanEvents twoChannels 1 (twoChannels.numTokens 1)

/-- The second block is at its scan before the first block starts. -/
def earlyRead : List HeadEvent :=
  forwardEvents twoChannels 1 ++ forwardEvents twoChannels 0 ++
    scanEvents twoChannels 0 (twoChannels.numTokens 0) ++
    scanEvents twoChannels 1 fun w => if w = 0 then 2 else 0

set_option maxRecDepth 4000 in
theorem inOrder_exact : ∃ st, (system twoChannels).ReachableUnder (ReadsInOrder twoChannels) st ∧
    st.Ended twoChannels ∧ st.Exact twoChannels := by
  obtain ⟨st, replay, ended⟩ := (Option.any_eq_true _ _).1 (show
    ((system twoChannels).runUnder (ReadsInOrder twoChannels) start inOrder).any
      (fun st => decide (st.Ended twoChannels)) = true by decide +kernel)
  have reach := TransitionSystem.ReachableUnder.run .init replay
  have far : FarNodesPlain twoChannels := fun _ _ s hs far =>
    absurd (hs.trans_le ((by decide : 2 ≤ numMaxNvlPeers).trans far)) (lt_irrefl s)
  exact ⟨st, reach, of_decide_eq_true ended,
    ((nvl_heads_exact twoChannels reach).2 (of_decide_eq_true ended)).2 far⟩

set_option maxRecDepth 4000 in
/-- **A block that reads its cell early** walks on into the entries of the channel before,
and makes the sentinel there a place of its own. -/
theorem early_read_overwrites : ∃ st, (system twoChannels).Reachable st ∧
    st.Ended twoChannels ∧ encoded twoChannels 0 0 0 0 = -(kReverseScanSentinel : ℤ) - 1 ∧
      st.sendNvlHead (headCell 0 0) = -0 - 1 := by
  obtain ⟨st, replay, ended⟩ := (Option.any_eq_true _ _).1 (show
    ((system twoChannels).run start earlyRead).any (fun st => decide (st.Ended twoChannels ∧
      st.sendNvlHead (headCell 0 0) = -0 - 1)) = true by decide +kernel)
  obtain ⟨ended, entry⟩ := of_decide_eq_true ended
  exact ⟨st, TransitionSystem.Reachable.run .init replay, ended, by decide +kernel, entry⟩

/-- One of the numbers of nodes in `SWITCH_RDMA_RANKS` that have more nodes than peers. The
ninth brings one token, for peer 0. -/
def twelveNodes : RecvTokens where
  numRdmaRanks := 12
  numChannels := 1
  numTokens _ s := if s = 8 then 1 else 0
  isTokenInNvlRank p _ := decide (p = 0)

set_option maxRecDepth 4000 in
/-- **A node behind the last peer is not scanned**: the entry of peer 1 stays `-1`, which
reads as the first place, and should be the sentinel. -/
theorem farNode_not_encoded : ∃ st,
    (system twelveNodes).ReachableUnder (ReadsInOrder twelveNodes) st ∧ st.Ended twelveNodes ∧
      ¬st.Exact twelveNodes := by
  obtain ⟨st, replay, ended⟩ := (Option.any_eq_true _ _).1 (show
    ((system twelveNodes).runUnder (ReadsInOrder twelveNodes) start
      (forwardEvents twelveNodes 0 ++ scanEvents twelveNodes 0 (twelveNodes.numTokens 0))).any
        (fun st => decide (st.Ended twelveNodes ∧ st.sendNvlHead (headCell 1 0) = -1)) = true
      by decide +kernel)
  obtain ⟨ended, entry⟩ := of_decide_eq_true ended
  refine ⟨st, TransitionSystem.ReachableUnder.run .init replay, ended, fun exact => ?_⟩
  have encoded := exact 0 (by decide) 8 (by decide) 1 (by decide) 0 (by decide) (by decide)
  rw [entry] at encoded
  exact absurd encoded (by decide +kernel)

end NvlHeads

end StreamEP.Internode
