import StreamEP.Internode.NvlHeads

/-!
# The forwarder blocks come to their end

A forwarder block waits only for warps of its own: for all headers before anything is
forwarded, and for everything to be forwarded before the ranges are read.  So whatever a rank
receives, its blocks can always go on, and if the headers of all blocks are read before the
first range is, every warp finds the start of its range in the matrix
(`exists_step_in_order`).  Such a run ends, and then the heads are exact (`exists_exact`).

The argument is a measure and a step.  `fuel` adds up what is left in every column, that is for
every (channel, peer, source): a header, the tokens, and the entries that the lane still has to
scan.  Every step changes one column and makes it smaller (`fuel_lt_of_column`); and from every
state that is not at its end there is a step that also keeps the order of headers and ranges.

The existence is what other modules need: a combine is over heads that a dispatch has left, and
`exact` heads are an assumption of its theorems.  The condition is the one under which they are
exact at all, that no more nodes have to be scanned than the block has warps for
(`FarNodesPlain`).
-/

namespace StreamEP.Internode

open Finset

namespace NvlHeads

variable {T : RecvTokens} {st st' : NvlHeads}

/-- What is left to do in a column: its header, its tokens, and what its lane scans. -/
def work (T : RecvTokens) (st : NvlHeads) (key : ℕ × ℕ × ℕ) : ℕ :=
  let col := st.columns key
  (bif col.header then 0 else 1) + (T.numTokens key.1 key.2.2 - col.forwarded) +
    (st.ranges (key.1, key.2.2)).elim (T.numTokens key.1 key.2.2 + 1) fun range =>
      col.tokenIdx - range.1

/-- What is left to do in all blocks. -/
def fuel (T : RecvTokens) (st : NvlHeads) : ℕ :=
  ∑ key ∈ range T.numChannels ×ˢ range numMaxNvlPeers ×ˢ range T.numRdmaRanks, st.work T key

theorem fuel_lt {c p s : ℕ} (hc : c < T.numChannels) (hp : p < numMaxNvlPeers)
    (hs : s < T.numRdmaRanks) (others : ∀ key, st'.work T key ≤ st.work T key)
    (less : st'.work T (c, p, s) < st.work T (c, p, s)) : st'.fuel T < st.fuel T := by
  refine sum_lt_sum (fun key _ => others key) ⟨(c, p, s), ?_, less⟩
  simp only [mem_product, mem_range]
  exact ⟨hc, hp, hs⟩

/-- A step that changes one column and no range. -/
theorem fuel_lt_of_column {c p s : ℕ} (hc : c < T.numChannels) (hp : p < numMaxNvlPeers)
    (hs : s < T.numRdmaRanks) {col : HeadColumn}
    (columns : st'.columns = Function.update st.columns (c, p, s) col)
    (ranges : st'.ranges = st.ranges) (less : st'.work T (c, p, s) < st.work T (c, p, s)) :
    st'.fuel T < st.fuel T := by
  refine fuel_lt hc hp hs (fun key => ?_) less
  rcases eq_or_ne key (c, p, s) with rfl | other
  · exact less.le
  · simp only [work, columns, ranges, Function.update_of_ne other]
    exact le_rfl

variable (inv : st.Inv T)

include inv in
/-- A block that is not at its end has a step to take, and all headers come first. -/
theorem exists_step_in_order (going : ¬st.Ended T) :
    ∃ e st', st.step T e = some st' ∧ st.ReadsInOrder T e ∧ st'.fuel T < st.fuel T := by
  by_cases headers : ∀ c < T.numChannels, st.HeadersRead T c
  case neg =>
    simp only [HeadersRead, not_forall, Bool.not_eq_true] at headers
    obtain ⟨c, hc, p, hp, s, hs, unread⟩ := headers
    refine ⟨.header c p s, _, if_pos ⟨hc, hp, hs, unread⟩, trivial,
      fuel_lt_of_column hc hp hs rfl rfl ?_⟩
    simp only [work, Function.update_self, unread]
    simp
  by_cases forwarded : ∀ c < T.numChannels, st.Forwarded T c
  case neg =>
    simp only [not_forall] at forwarded
    obtain ⟨c, hc, missing⟩ := forwarded
    simp only [Forwarded, headers c hc, true_and, not_forall] at missing
    obtain ⟨p, hp, s, hs, more⟩ := missing
    have left : (st.columns (c, p, s)).forwarded < T.numTokens c s :=
      lt_of_le_of_ne (inv.column c hc s hs p hp).forwarded_le more
    refine ⟨.forward c p s, _, if_pos ⟨hc, hp, hs, headers c hc, left⟩, trivial,
      fuel_lt_of_column hc hp hs rfl rfl ?_⟩
    simp only [work, Function.update_self]
    omega
  by_cases read : ∀ c < T.numChannels, ∀ w < numMaxNvlPeers, w < T.numRdmaRanks →
      st.ranges (c, w) ≠ none
  case neg =>
    simp only [not_forall, not_not] at read
    obtain ⟨c, hc, w, hw, hs, none⟩ := read
    have cell : ∀ c < T.numChannels, st.recvRdmaChannelPrefixMatrix (T.matrixCell c w) =
        T.channelPrefix (c + 1) w := fun c hc =>
      inv.matrix c hc w hs w hw (headers c hc w hw w hs)
    have previous : c ≠ 0 → st.recvRdmaChannelPrefixMatrix (T.matrixCell (c - 1) w) =
        T.channelPrefix c w := fun later => by
      rw [cell (c - 1) ((Nat.sub_le c 1).trans_lt hc),
        Nat.sub_add_cancel (Nat.pos_of_ne_zero later)]
    have first : (if c = 0 then 0 else st.recvRdmaChannelPrefixMatrix (T.matrixCell (c - 1) w)) =
        T.channelPrefix c w := by
      split_ifs with zero
      · rw [zero]
        rfl
      · exact previous zero
    have fires : st.step T (.readRange c w) = some { st with
        ranges := Function.update st.ranges (c, w)
          (some (T.tokenStartIdx c w, T.tokenEndIdx c w))
        columns := fun key =>
          if key.1 = c ∧ key.2.2 = w then
            { st.columns key with
              tokenIdx := T.tokenEndIdx c w
              lastHead := kReverseScanSentinel }
          else st.columns key } := by
      simp only [step, first, cell c hc]
      exact if_pos ⟨hc, hw, hs, forwarded c hc, none⟩
    refine ⟨_, _, fires, or_iff_not_imp_left.2 previous, ?_⟩
    have shorter : ∀ p, T.numTokens c w - (st.columns (c, p, w)).forwarded +
        (T.tokenEndIdx c w - T.tokenStartIdx c w) <
          T.numTokens c w - (st.columns (c, p, w)).forwarded + (T.numTokens c w + 1) := by
      intro p
      rw [RecvTokens.tokenEndIdx_eq]
      omega
    refine fuel_lt hc hw hs (fun key => ?_) ?_
    · obtain ⟨c', p, s⟩ := key
      by_cases same : c' = c ∧ s = w
      · obtain ⟨rfl, rfl⟩ := same
        have less := shorter p
        simp only [work, none, and_self, if_true, Function.update_self, Option.elim]
        omega
      · have other : (c', s) ≠ (c, w) := fun eq => same (Prod.ext_iff.1 eq)
        simp only [work, if_neg same, Function.update_of_ne other]
        exact le_rfl
    · have less := shorter w
      simp only [work, none, and_self, if_true, Function.update_self, Option.elim]
      omega
  -- some lane has not scanned its range
  simp only [Ended, not_forall] at going
  obtain ⟨c, hc, unfinished⟩ := going
  simp only [forwarded c hc, true_and, not_forall] at unfinished
  obtain ⟨w, hw, hs, unscanned⟩ := unfinished
  obtain ⟨⟨first, last⟩, some⟩ := Option.ne_none_iff_exists'.1 (read c hc w hw hs)
  simp only [some, Option.some.injEq, exists_eq_left', not_forall, not_le] at unscanned
  obtain ⟨p, hp, ahead⟩ := unscanned
  have fires : ∃ col lastHead heads, st.step T (.scan c w p) = Option.some { st with
      sendNvlHead := heads
      columns := Function.update st.columns (c, p, w)
        { col with tokenIdx := (st.columns (c, p, w)).tokenIdx - 1, lastHead := lastHead } } ∧
      col = st.columns (c, p, w) := by
    simp only [step, some]
    exact ⟨_, _, _, if_pos ⟨hp, ahead⟩, rfl⟩
  obtain ⟨_, _, _, fires, rfl⟩ := fires
  refine ⟨_, _, fires, trivial, fuel_lt_of_column hc hp hs rfl rfl ?_⟩
  simp only [work, some, Function.update_self, Option.elim]
  omega

/-- **Every rank's blocks can leave exact heads**, unless more nodes than a block has warps
need to be scanned. -/
theorem exists_exact (T : RecvTokens) (plain : FarNodesPlain T) :
    ∃ st, (system T).Reachable st ∧ st.Ended T ∧ st.Exact T := by
  have progress : ∀ st, (system T).ReachableUnder (ReadsInOrder T) st → ¬st.Ended T →
      ∃ e st', (system T).step st e = some st' ∧ (system T).ReachableUnder (ReadsInOrder T) st' ∧
        st'.fuel T < st.fuel T := by
    intro st reach going
    obtain ⟨e, st', fires, ordered, less⟩ := exists_step_in_order (reachable_inv reach) going
    exact ⟨e, st', fires, .step e reach ordered fires, less⟩
  obtain ⟨st, -, reach, ended⟩ := TransitionSystem.exists_leads (fuel T) progress .init
  exact ⟨st, reach.reachable, ended, (exact_iff (reachable_inv reach) ended).2 plain⟩

end NvlHeads

end StreamEP.Internode
