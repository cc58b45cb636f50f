import StreamEP.Internode.NvlHeads

/-!
# What combine can rely on in `send_nvl_head`

`nvl_heads_exact` is about blocks that read the start of their range late enough.  A block that
reads it early walks on into the ranges of the channels before, and a block of a node that no
warp scans leaves its `-1`s.  Neither does harm to a reader that goes by the entries: the place
of a token that goes to the peer is always right, and the entry of any other token is negative
and never leads past a token that follows it (`nvl_heads_usable`).  So this holds of every run,
whatever the order of the blocks.

What makes it go through is a bound on the head that a scanning lane carries along: it is no
larger than the place of any token that the lane has passed in the range it is in (`Behind`).  A
visit keeps the bound whatever it finds, a place, a `-1` or an entry that another lane has already
encoded (`Behind.visit`), and so what it writes is usable (`Behind.usable`).

A lane that walks on into an earlier channel visits tokens of a column that has a lane of its own,
and both may write the same entries.  So the invariant says of a column that every entry is what
was recorded or something usable (`ColumnUsable`), and does not say who has written it; of a
scanning warp it says how far its lanes can get, which is no further than its own node
(`RangeInv`).
-/

namespace StreamEP.Internode

open LookAhead Stream

namespace NvlHeads

variable {T : RecvTokens} {st st' : NvlHeads} {c s p w : ℕ}

/-- The head that a lane carries at token `m`: not past the tokens that the lane has visited
of the range it is in. -/
structure Behind (T : RecvTokens) (w p m : ℕ) (lastHead : ℤ) : Prop where
  nonneg : 0 ≤ lastHead
  le : ∀ c < T.numChannels, T.tokenStartIdx c w < m → ∀ t, m ≤ t → t < T.tokenEndIdx c w →
    T.Goes p t → lastHead ≤ pos (T.Goes p) (T.tokenStartIdx c w) t

/-- The entries of one column. -/
structure ColumnUsable (T : RecvTokens) (st : NvlHeads) (c s p : ℕ) : Prop where
  forwarded_le : (st.columns (c, p, s)).forwarded ≤ T.numTokens c s
  place : (st.columns (c, p, s)).rdmaNvlTokenIdx =
    pos (T.Goes p) (T.tokenStartIdx c s)
      (T.tokenStartIdx c s + (st.columns (c, p, s)).forwarded)
  unwritten : ∀ t, T.tokenStartIdx c s + (st.columns (c, p, s)).forwarded ≤ t →
    t < T.tokenEndIdx c s → st.sendNvlHead (headCell p t) = 0
  written : ∀ t, T.tokenStartIdx c s ≤ t →
    t < T.tokenStartIdx c s + (st.columns (c, p, s)).forwarded →
      Usable (T.Goes p) (T.tokenStartIdx c s) (T.tokenEndIdx c s) t
        (st.sendNvlHead (headCell p t))

/-- A scanning warp: how far its lanes can get, and what they carry. -/
structure RangeInv (T : RecvTokens) (st : NvlHeads) (c w first : ℕ) : Prop where
  channel : c < T.numChannels
  node : w < T.numRdmaRanks
  first : T.rankPrefixSum w ≤ first
  hi : ∀ p < numMaxNvlPeers, (st.columns (c, p, w)).tokenIdx ≤ T.tokenEndIdx c w
  behind : ∀ p < numMaxNvlPeers,
    Behind T w p (st.columns (c, p, w)).tokenIdx (st.columns (c, p, w)).lastHead

structure UsableInv (T : RecvTokens) (st : NvlHeads) : Prop where
  matrix : ∀ c < T.numChannels, ∀ s < T.numRdmaRanks, ∀ p < numMaxNvlPeers,
    (st.columns (c, p, s)).header = true →
      st.recvRdmaChannelPrefixMatrix (T.matrixCell c s) = T.channelPrefix (c + 1) s
  column : ∀ c < T.numChannels, ∀ s < T.numRdmaRanks, ∀ p < numMaxNvlPeers,
    ColumnUsable T st c s p
  range : ∀ c w range, st.ranges (c, w) = some range → RangeInv T st c w range.1

/-! ### Steps that leave a column or a range alone -/

theorem ColumnUsable.frame (inv : ColumnUsable T st c s p)
    (column : (st'.columns (c, p, s)).forwarded = (st.columns (c, p, s)).forwarded ∧
      (st'.columns (c, p, s)).rdmaNvlTokenIdx = (st.columns (c, p, s)).rdmaNvlTokenIdx)
    (heads : ∀ t, T.tokenStartIdx c s ≤ t → t < T.tokenEndIdx c s →
      st'.sendNvlHead (headCell p t) = st.sendNvlHead (headCell p t)) :
    ColumnUsable T st' c s p := by
  obtain ⟨forwarded, place⟩ := column
  have fits := inv.forwarded_le
  have fitsIn := RecvTokens.tokenEndIdx_eq (T := T) c s
  refine ⟨by rw [forwarded]; exact fits, by rw [place, forwarded]; exact inv.place,
    fun t lo hi => ?_, fun t lo hi => ?_⟩
  · rw [forwarded] at lo
    rw [heads t (by omega) hi]
    exact inv.unwritten t lo hi
  · rw [forwarded] at hi
    rw [heads t lo (by omega)]
    exact inv.written t lo hi

theorem RangeInv.frame {first : ℕ} (inv : RangeInv T st c w first)
    (columns : ∀ p, (st'.columns (c, p, w)).tokenIdx = (st.columns (c, p, w)).tokenIdx ∧
      (st'.columns (c, p, w)).lastHead = (st.columns (c, p, w)).lastHead) :
    RangeInv T st' c w first where
  channel := inv.channel
  node := inv.node
  first := inv.first
  hi p hp := (columns p).1 ▸ inv.hi p hp
  behind p hp := by
    rw [(columns p).1, (columns p).2]
    exact inv.behind p hp

theorem start_usable : UsableInv T start where
  matrix _ _ _ _ _ _ read := absurd read Bool.false_ne_true
  column _ _ _ _ _ _ :=
    { forwarded_le := Nat.zero_le _
      place := pos_start.symm
      unwritten := fun _ _ _ => rfl
      written := fun _ lo hi => absurd hi (not_lt.2 lo) }
  range _ _ _ some := nomatch some

theorem header_usable {c' p' s' : ℕ} (inv : UsableInv T st)
    (fires : st.step T (.header c' p' s') = some st') : UsableInv T st' := by
  simp only [step] at fires
  split at fires
  case isFalse => cases fires
  case isTrue enabled =>
    cases fires
    have sameWork : ∀ key, SameWork (st.columns key)
        (Function.update st.columns (c', p', s')
          { st.columns (c', p', s') with header := true } key) := by
      intro key
      rcases eq_or_ne key (c', p', s') with rfl | other
      · rw [Function.update_self]
        exact ⟨rfl, rfl, rfl, rfl⟩
      · rw [Function.update_of_ne other]
        exact ⟨rfl, rfl, rfl, rfl⟩
    refine ⟨fun c hc s hs p hp read => ?_, fun c hc s hs p hp => ?_, fun c w range some => ?_⟩
    · by_cases cell : T.matrixCell c s = T.matrixCell c' s'
      · obtain ⟨rfl, rfl⟩ := (RecvTokens.matrixCell_inj hc enabled.1).1 cell
        rw [cell]
        exact Function.update_self _ _ _
      · simp only [Function.update_of_ne cell]
        refine inv.matrix c hc s hs p hp ?_
        have other : (c, p, s) ≠ (c', p', s') := by
          rintro same
          cases same
          exact cell rfl
        simpa only [Function.update_of_ne other] using read
    · exact (inv.column c hc s hs p hp).frame ⟨(sameWork _).1, (sameWork _).2.1⟩ fun _ _ _ => rfl
    · exact (inv.range c w range some).frame fun p => ⟨(sameWork _).2.2.1, (sameWork _).2.2.2⟩

theorem forward_usable {c' p' s' : ℕ} (inv : UsableInv T st)
    (fires : st.step T (.forward c' p' s') = some st') : UsableInv T st' := by
  simp only [step] at fires
  split at fires
  case isFalse => cases fires
  case isTrue enabled =>
    obtain ⟨hc', hp', hs', -, few⟩ := enabled
    cases fires
    refine ⟨fun c hc s hs p hp read => ?_, fun c hc s hs p hp => ?_, fun c w range some => ?_⟩
    · refine inv.matrix c hc s hs p hp ?_
      by_cases same : (c, p, s) = (c', p', s')
      · simp only [same, Function.update_self] at read
        rwa [same]
      · simpa only [Function.update_of_ne same] using read
    · by_cases same : (c', p', s') = (c, p, s)
      · cases same
        have column := inv.column c' hc s' hs p' hp
        refine ⟨?_, ?_, fun t lo hi => ?_, fun t lo hi => ?_⟩
        · simp only [Function.update_self]
          exact few
        · simp only [Function.update_self, ← Nat.add_assoc]
          rw [pos_succ (Nat.le_add_right _ _), column.place]
        · simp only [Function.update_self, ← Nat.add_assoc] at lo ⊢
          rw [Function.update_of_ne fun cell =>
            (Nat.lt_of_succ_le lo).ne' ((headCell_inj hp hp).1 cell).1]
          exact column.unwritten t (Nat.le_of_succ_le lo) hi
        · simp only [Function.update_self, ← Nat.add_assoc] at hi ⊢
          rcases Nat.lt_succ_iff_lt_or_eq.1 hi with before | rfl
          · rw [Function.update_of_ne fun cell => before.ne ((headCell_inj hp hp).1 cell).1]
            exact column.written t lo before
          · rw [Function.update_self, column.place]
            split_ifs with goes
            · exact usable_place goes
            · exact ⟨fun goes' => absurd goes' goes, fun _ => by decide,
                fun _ _ _ _ => Nat.zero_le _⟩
      · refine (inv.column c hc s hs p hp).frame ?_ fun t lo hi =>
          heads_update hc hp hc' hp' (Nat.le_add_right _ _) (next_token_lt few) same _ _ lo hi
        simp only [Function.update_of_ne (Ne.symm same), and_self]
    · refine (inv.range c w range some).frame fun p => ?_
      by_cases same : (c, p, w) = (c', p', s')
      · simp only [same, Function.update_self, and_self]
      · simp only [Function.update_of_ne same, and_self]

theorem readRange_usable {c' w : ℕ} (inv : UsableInv T st)
    (fires : st.step T (.readRange c' w) = some st') : UsableInv T st' := by
  simp only [step] at fires
  split at fires
  case isFalse => cases fires
  case isTrue enabled =>
    obtain ⟨hc', -, hs', ⟨headers, -⟩, none⟩ := enabled
    have last : st.recvRdmaChannelPrefixMatrix (T.matrixCell c' w) + T.rankPrefixSum w =
        T.tokenEndIdx c' w := by
      rw [inv.matrix c' hc' w hs' 0 (by decide) (headers 0 (by decide) w hs'),
        RecvTokens.tokenEndIdx]
    simp only [last] at fires
    cases fires
    refine ⟨fun c hc s hs p hp read => inv.matrix c hc s hs p hp ?_,
      fun c hc s hs p hp => (inv.column c hc s hs p hp).frame ?_ fun _ _ _ => rfl,
      fun c w' range some => ?_⟩
    · simp only at read
      split_ifs at read <;> exact read
    · simp only
      split_ifs <;> exact ⟨rfl, rfl⟩
    · by_cases same : (c, w') = (c', w)
      · cases same
        simp only [Function.update_self, Option.some.injEq] at some
        subst some
        refine ⟨hc', hs', Nat.le_add_left _ _, fun p _ => ?_, fun p _ => ?_⟩
        · simp only [and_self, if_true, le_refl]
        · simp only [and_self, if_true]
          refine ⟨Int.natCast_nonneg _, fun c hc before t after inside _ => ?_⟩
          -- a range that starts before the end of this one does not go on behind it
          rcases Nat.lt_or_ge c' c with later | earlier
          · have starts : T.channelPrefix (c' + 1) w ≤ T.channelPrefix c w :=
              PrefixSum.prefix_mono later
            unfold RecvTokens.tokenStartIdx RecvTokens.tokenEndIdx at before
            omega
          · have ends : T.channelPrefix (c + 1) w ≤ T.channelPrefix (c' + 1) w :=
              PrefixSum.prefix_mono (Nat.succ_le_succ earlier)
            unfold RecvTokens.tokenEndIdx at after inside
            omega
      · simp only [Function.update_of_ne same] at some
        refine (inv.range c w' range some).frame fun p => ?_
        have other : ¬(c = c' ∧ w' = w) := fun both => same (Prod.ext both.1 both.2)
        simp only [if_neg other, and_self]

/-! ### A visit -/

/-- **A visit keeps the bound**, whatever it finds. -/
theorem Behind.visit {m : ℕ} {lastHead entry : ℤ} (behind : Behind T w p (m + 1) lastHead)
    (found : ∀ c < T.numChannels, T.tokenStartIdx c w ≤ m → m < T.tokenEndIdx c w →
      entry = 0 ∨ Usable (T.Goes p) (T.tokenStartIdx c w) (T.tokenEndIdx c w) m entry) :
    Behind T w p m (if entry < 0 then lastHead else entry) where
  nonneg := by
    split_ifs with skipped
    · exact behind.nonneg
    · exact not_lt.1 skipped
  le c hc before t after inside goes := by
    have here := found c hc before.le (after.trans_lt inside)
    split_ifs with skipped
    · rcases after.eq_or_lt with rfl | later
      · rcases here with rfl | usable
        · exact absurd skipped (lt_irrefl 0)
        · exact absurd (usable.place goes) (by omega)
      · exact behind.le c hc (before.trans (Nat.lt_succ_self m)) t later inside goes
    · rcases here with rfl | usable
      · exact Int.natCast_nonneg _
      · have bound := usable.behind t after inside goes
        rw [decode, if_neg skipped] at bound
        omega

/-- What the visit leaves in a skipped token's entry is usable. -/
theorem Behind.usable {m : ℕ} {lastHead : ℤ} (behind : Behind T w p (m + 1) lastHead)
    (hc : c < T.numChannels) (lo : T.tokenStartIdx c w ≤ m) (skipped : ¬T.Goes p m) :
    Usable (T.Goes p) (T.tokenStartIdx c w) (T.tokenEndIdx c w) m (-lastHead - 1) where
  place goes := absurd goes skipped
  skipped _ := by
    have := behind.nonneg
    omega
  behind t after inside goes := by
    have nonneg := behind.nonneg
    have later : m < t := after.lt_of_ne fun same => skipped (same ▸ goes)
    have bound := behind.le c hc (Nat.lt_succ_of_le lo) t later inside goes
    rw [decode, if_pos (by omega)]
    omega

/-- The token that a lane visits is one of its node, and comes before the end of its range. -/
theorem scan_visits {c' w' p' : ℕ} (inv : UsableInv T st)
    (fires : st.step T (.scan c' w' p') = some st') :
    (∃ range, st.ranges (c', w') = some range) ∧ c' < T.numChannels ∧ w' < T.numRdmaRanks ∧
      p' < numMaxNvlPeers ∧ ∃ m, (st.columns (c', p', w')).tokenIdx = m + 1 ∧
        T.rankPrefixSum w' ≤ m ∧ m < T.tokenEndIdx c' w' ∧
        Behind T w' p' (m + 1) (st.columns (c', p', w')).lastHead ∧ st' = { st with
          sendNvlHead := (scanEntry (headCell p' m)
            ⟨(st.columns (c', p', w')).lastHead, st.sendNvlHead⟩).entries
          columns := Function.update st.columns (c', p', w') { st.columns (c', p', w') with
            tokenIdx := m
            lastHead := (scanEntry (headCell p' m)
              ⟨(st.columns (c', p', w')).lastHead, st.sendNvlHead⟩).last } } := by
  simp only [step] at fires
  split at fires
  case h_1 => cases fires
  case h_2 first last some =>
    split at fires
    case isFalse => cases fires
    case isTrue enabled =>
      obtain ⟨hp, ahead⟩ := enabled
      have range := inv.range c' w' _ some
      obtain ⟨m, visits⟩ := Nat.exists_eq_add_one.2 (Nat.zero_lt_of_lt ahead)
      have hi := range.hi p' hp
      have behind := range.behind p' hp
      have node := range.first
      rw [visits] at ahead hi behind
      simp only [visits, Nat.add_sub_cancel] at fires
      exact ⟨⟨_, some⟩, range.channel, range.node, hp, m, visits,
        node.trans (Nat.le_of_lt_succ ahead), hi, behind, (Option.some.inj fires).symm⟩

/-- A token of a node has no range of another node. -/
theorem node_of_range {m : ℕ} (hc : c < T.numChannels) (hc' : c' < T.numChannels)
    (node : T.rankPrefixSum w ≤ m) (hi : m < T.tokenEndIdx c' w) (lo' : T.tokenStartIdx c s ≤ m)
    (hi' : m < T.tokenEndIdx c s) : s = w := by
  have inside : T.channelPrefix (c' + 1) w ≤ T.channelPrefix T.numChannels w :=
    PrefixSum.prefix_mono hc'
  have top : m < T.rankPrefixSum w + T.channelPrefix T.numChannels w := by
    unfold RecvTokens.tokenEndIdx at hi
    omega
  exact PrefixSum.block_unique (RecvTokens.mem_node hc lo' hi') ⟨node, top⟩

/-- What the entry of a token can be, forwarded or not. -/
theorem ColumnUsable.entry {m : ℕ} (column : ColumnUsable T st c s p)
    (lo : T.tokenStartIdx c s ≤ m) (hi : m < T.tokenEndIdx c s) :
    st.sendNvlHead (headCell p m) = 0 ∨
      Usable (T.Goes p) (T.tokenStartIdx c s) (T.tokenEndIdx c s) m
        (st.sendNvlHead (headCell p m)) := by
  rcases lt_or_ge m (T.tokenStartIdx c s + (st.columns (c, p, s)).forwarded) with below | not
  · exact Or.inr (column.written m lo below)
  · exact Or.inl (column.unwritten m not hi)

/-- A column after a visit of some lane. -/
theorem ColumnUsable.visit {m p' w' : ℕ} {lastHead : ℤ} (column : ColumnUsable T st c s p)
    (hc : c < T.numChannels) (hp : p < numMaxNvlPeers) (hp' : p' < numMaxNvlPeers)
    (same : (st'.columns (c, p, s)).forwarded = (st.columns (c, p, s)).forwarded ∧
      (st'.columns (c, p, s)).rdmaNvlTokenIdx = (st.columns (c, p, s)).rdmaNvlTokenIdx)
    (heads : st'.sendNvlHead = (scanEntry (headCell p' m) ⟨lastHead, st.sendNvlHead⟩).entries)
    (node : T.tokenStartIdx c s ≤ m → m < T.tokenEndIdx c s → s = w')
    (behind : Behind T w' p' (m + 1) lastHead) : ColumnUsable T st' c s p := by
  have fits := column.forwarded_le
  have fitsIn := RecvTokens.tokenEndIdx_eq (T := T) c s
  refine ⟨same.1 ▸ fits, by rw [same.1, same.2]; exact column.place, fun t lo hi => ?_,
    fun t lo hi => ?_⟩
  · rw [same.1] at lo
    have zero := column.unwritten t lo hi
    rw [heads]
    by_cases here : headCell p t = headCell p' m
    · rw [here] at zero ⊢
      rw [scanEntry_self]
      simp only [zero]
      rfl
    · rw [scanEntry_of_ne here]
      exact zero
  · rw [same.1] at hi
    have usable := column.written t lo hi
    rw [heads]
    by_cases here : headCell p t = headCell p' m
    · obtain ⟨rfl, rfl⟩ := (headCell_inj hp hp').1 here
      rw [scanEntry_self]
      split_ifs with negative
      · have skipped : ¬T.Goes p t := fun goes => by
          have place := usable.place goes
          dsimp only at negative
          omega
        obtain rfl := node lo (by omega)
        exact behind.usable hc lo skipped
      · exact usable
    · rw [scanEntry_of_ne here]
      exact usable

theorem scan_usable {c' w' p' : ℕ} (inv : UsableInv T st)
    (fires : st.step T (.scan c' w' p') = some st') : UsableInv T st' := by
  obtain ⟨⟨range', some'⟩, hc', hw', hp', m, visits, node, hi, behind, rfl⟩ :=
    scan_visits inv fires
  refine ⟨fun c hc s hs p hp read => ?_, fun c hc s hs p hp => ?_, fun c w range some => ?_⟩
  · refine inv.matrix c hc s hs p hp ?_
    by_cases same : (c, p, s) = (c', p', w')
    · simp only [same, Function.update_self] at read
      rwa [same]
    · simpa only [Function.update_of_ne same] using read
  · refine (inv.column c hc s hs p hp).visit hc hp hp' ?_ rfl
      (node_of_range hc hc' node hi) behind
    by_cases same : (c, p, s) = (c', p', w')
    · simp only [same, Function.update_self, and_self]
    · simp only [Function.update_of_ne same, and_self]
  · have kept := inv.range c w range some
    refine ⟨kept.channel, kept.node, kept.first, fun p hp => ?_, fun p hp => ?_⟩
    · by_cases same : (c, p, w) = (c', p', w')
      · cases same
        simp only [Function.update_self]
        exact hi.le
      · simp only [Function.update_of_ne same]
        exact kept.hi p hp
    · by_cases same : (c, p, w) = (c', p', w')
      · cases same
        simp only [Function.update_self, scanEntry_last]
        exact behind.visit fun c hc lo hi => (inv.column c hc w' hw' p' hp).entry lo hi
      · simp only [Function.update_of_ne same]
        exact kept.behind p hp

theorem usable_step {e : HeadEvent} (inv : UsableInv T st) (fires : st.step T e = some st') :
    UsableInv T st' := by
  cases e with
  | header => exact header_usable inv fires
  | forward => exact forward_usable inv fires
  | readRange => exact readRange_usable inv fires
  | scan => exact scan_usable inv fires

theorem reachable_usable (reach : (system T).Reachable st) : UsableInv T st :=
  have kept : ∀ (st : NvlHeads) e st', UsableInv T st → (system T).step st e = some st' →
      UsableInv T st' := fun _ _ _ inv fires => usable_step inv fires
  reach.invariant start_usable kept

/-- **Every entry of `send_nvl_head` is usable** once the blocks have forwarded their tokens,
whatever their order. -/
theorem nvl_heads_usable (T : RecvTokens) (reach : (system T).Reachable st)
    (hc : c < T.numChannels) (hs : s < T.numRdmaRanks) (hp : p < numMaxNvlPeers)
    (forwarded : st.Forwarded T c) {t : ℕ} (lo : T.tokenStartIdx c s ≤ t)
    (hi : t < T.tokenEndIdx c s) :
    Usable (T.Goes p) (T.tokenStartIdx c s) (T.tokenEndIdx c s) t
      (st.sendNvlHead (headCell p t)) := by
  refine ((reachable_usable reach).column c hc s hs p hp).written t lo ?_
  rwa [forwarded.2 p hp s hs, ← RecvTokens.tokenEndIdx_eq]

/-- What the headers leave in the cells. -/
theorem matrix_apply (T : RecvTokens) (reach : (system T).Reachable st) (hc : c < T.numChannels)
    (hs : s < T.numRdmaRanks) (forwarded : st.Forwarded T c) :
    st.recvRdmaChannelPrefixMatrix (T.matrixCell c s) = T.channelPrefix (c + 1) s :=
  (reachable_usable reach).matrix c hc s hs 0 numMaxNvlPeers_pos
    (forwarded.1 0 numMaxNvlPeers_pos s hs)

end NvlHeads

end StreamEP.Internode
