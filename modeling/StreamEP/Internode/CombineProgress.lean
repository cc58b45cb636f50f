import StreamEP.Internode.Combine
import StreamEP.Internode.HeadRuns
import StreamEP.Intranode.CombineProgress
import StreamEP.Lib.CreditedRings

/-!
# When internode combine can get stuck

A peer of a node sends in whole chunks and waits for room for one; a forwarder's head moves
when it is done with a token; and the forwarders of a large warp wait for each other at the end
of an RDMA chunk.  The launch asserts that a ring has room for a peer's chunk and for as many
slots more as the large warp has forwarders.

That is enough as long as every forwarder has a token in the chunk.  If the last chunk has fewer
tokens than there are forwarders, those without one wait for the others and show the head of
their last token, which lies in the chunk before.

**The system.**  `combineSystemWithCredit` is `combineSystem` with the coordinators in detail:
those of the receivers return credit a chunk at a time, and forwarders wait for it.  It is an
instance of `CreditedRings`, whose theorems say that somebody can go on as long as the plans are
sound (`combine_sound`) and heads are not held back too far (`combine_roomy`).

**How far a head is held back.**  The arithmetic is about one large warp.  A forwarder has every
`numWarps`-th token of a chunk.  At a token where a chunk of packets begins, every forwarder is
through with the earlier rounds; what it shows is past all its own tokens there, which leaves at
most as many packets as there are other forwarders (`fits_after`).  Only in the last chunk may a
forwarder have no token to come, and `RoomBehindLast` is the condition for that case.

**For one routing it is exact**: combine always goes on exactly when the rings have room behind
these forwarders (`NodeWorld.combine_progress_iff`), and with that room it can be brought to its
end (`exists_combineDone`).  That a run ends at all is a matter of fuel: every step uses some up.

What it takes for all routings at once, a condition on the config, is in `CombineDeadlock`.
-/

namespace StreamEP.Internode

open Finset LookAhead Stream Intranode ReplayRings

variable {sh : NodeShape} {Row Weight : Type}

/-! ### A large warp -/

section LargeWarp

variable {cfg : Config} {numWarps numTokensToCombine sentinel : ℕ} {ι : Type*}
  {f : EntryPlan ι (Fin numWarps)} {member : ι → ℕ → Prop} [∀ i, DecidablePred (member i)]
  {i : ι}

/-- At a token behind the last one of a forwarder where a chunk of packets begins, the ring has
room for it when the forwarder's head is published. -/
def RoomBehindLast (cfg : Config) (numWarps numTokensToCombine ringSize : ℕ)
    (member : ℕ → Prop) [DecidablePred member] : Prop :=
  ∀ subWarpId : Fin numWarps,
    ∀ last ∈ (forwarderTokens cfg numTokensToCombine numWarps subWarpId).getLast?,
    ∀ t, last < t → t < numTokensToCombine → member t →
      cfg.numMaxNvlChunkedSendTokens ∣ pos member 0 t →
        pos member 0 t + cfg.numMaxNvlChunkedSendTokens ≤ pos member 0 (last + 1) + ringSize

/-- Places advance by at most one for each number. -/
theorem pos_le_add {p : ℕ → Prop} [DecidablePred p] {t t' : ℕ} (le : t ≤ t') :
    pos p 0 t' ≤ pos p 0 t + (t' - t) := by
  induction t', le using Nat.le_induction with
  | base => omega
  | succ t' le ih =>
    rw [pos_succ (Nat.zero_le t')]
    split_ifs <;> omega

/-- Two forwarders have no token in common. -/
theorem forwarderTokens_disjoint (warps : 0 < numWarps) (v w : Fin numWarps) (t : ℕ)
    (mem : t ∈ forwarderTokens cfg numTokensToCombine numWarps v)
    (mem' : t ∈ forwarderTokens cfg numTokensToCombine numWarps w) : v = w :=
  Fin.ext (((mem_forwarderTokens warps).1 mem).2.symm.trans ((mem_forwarderTokens warps).1 mem').2)

variable (tokens : f.tokens = forwarderTokens cfg numTokensToCombine numWarps)
  (chunk : f.chunk = cfg.numMaxNvlChunkedSendTokens)
  (required : ∀ n, f.required n = max n cfg.numMaxNvlChunkedSendTokens)
  (follows : f.Follows member 0 numTokensToCombine)

omit [∀ i, DecidablePred (member i)] in
include chunk required in
/-- A sender waits for room for a whole chunk. -/
theorem fits_iff {tail head : ℕ} : CreditedRings.Fits f.plan i tail head ↔
    tail + cfg.numMaxNvlChunkedSendTokens ≤ head + f.ringSize := by
  show tail + f.required (min f.chunk (f.total i - tail)) ≤ head + f.ringSize ↔ _
  rw [required, chunk, max_eq_right (min_le_left _ _)]

include tokens follows in
/-- A number of a forwarder that is not among its first `k` comes later. -/
theorem le_of_mem_tokens {v : Fin numWarps} {k x stop : ℕ}
    (beyond : k < f.plan.count v → stop ≤ f.plan.token v k)
    (mem : x ∈ forwarderTokens cfg numTokensToCombine numWarps v) :
    (∃ k' < k, f.plan.token v k' = x) ∨ stop ≤ x := by
  rw [← tokens] at mem
  obtain ⟨m, hm, rfl⟩ := List.getElem_of_mem mem
  have here : f.plan.token v m = (f.tokens v)[m] := List.getD_eq_getElem _ _ hm
  rcases lt_or_ge m k with before | after
  · exact Or.inl ⟨m, before, here⟩
  · right
    rw [← here]
    have later := beyond (after.trans_lt hm)
    rcases after.eq_or_lt with rfl | lt
    · exact later
    · exact later.trans (follows.token_lt lt hm).le

variable (exact : f.Exact member 0 numTokensToCombine sentinel)
  (moves : ∀ e, 0 ≤ e → e.toNat + 1 ≤ f.leave e) (warps : 0 < numWarps)
  (large : numWarps ≤ cfg.numMaxRdmaChunkedSendTokens)
  (slots : cfg.numMaxNvlChunkedSendTokens + numWarps ≤ f.ringSize)

include tokens chunk required follows exact moves warps large slots in
/-- **What a forwarder shows that is through with the tokens of a chunk** leaves room for the
packets that the others of the large warp need there. -/
theorem fits_after
    (room : RoomBehindLast cfg numWarps numTokensToCombine f.ringSize (member i))
    {first : ℕ} (multiple : cfg.numMaxRdmaChunkedSendTokens ∣ first) {t : ℕ} (lo : first ≤ t)
    (hi : t < min (first + cfg.numMaxRdmaChunkedSendTokens) numTokensToCombine) {tail : ℕ}
    (begins : cfg.numMaxNvlChunkedSendTokens ∣ tail) (waiting : (tail : ℤ) ≤ f.plan.expected t i)
    {v : Fin numWarps} {k : ℕ} (hk : k ≤ f.plan.count v)
    (before : ∀ k' < k, f.plan.token v k' <
      min (first + cfg.numMaxRdmaChunkedSendTokens) numTokensToCombine)
    (beyond : k < f.plan.count v →
      min (first + cfg.numMaxRdmaChunkedSendTokens) numTokensToCombine ≤ f.plan.token v k) :
    CreditedRings.Fits f.plan i tail (f.plan.headAfter v i k) := by
  set stop := min (first + cfg.numMaxRdmaChunkedSendTokens) numTokensToCombine with stops
  have inside : t < numTokensToCombine := hi.trans_le (min_le_right _ _)
  have goes : member i t := (follows.expected_nonneg_iff (Nat.zero_le t) inside).1
    ((Int.natCast_nonneg tail).trans waiting)
  rw [follows.expected_eq (Nat.zero_le t) inside goes] at waiting
  have waiting : tail ≤ pos (member i) 0 t := by exact_mod_cast waiting
  have warp := v.isLt
  have own : ∀ x ∈ forwarderTokens cfg numTokensToCombine numWarps v,
      (∃ k' < k, f.plan.token v k' = x) ∨ stop ≤ x := fun x mem =>
    le_of_mem_tokens tokens follows beyond mem
  rw [fits_iff chunk required]
  cases k with
  | zero =>
    -- the forwarder has no token up to the end of the chunk, which is the first one
    have short : stop ≤ v := by
      by_contra more
      have mem := (mem_forwarderTokens warps).2 ⟨(not_le.1 more).trans_le (min_le_right _ _), by
        rw [Nat.mod_eq_of_lt (warp.trans_le large), Nat.mod_eq_of_lt warp]⟩
      rcases own v mem with ⟨k', none, -⟩ | late
      · exact Nat.not_lt_zero _ none
      · exact more late
    have few := pos_le_add (p := member i) (Nat.zero_le t)
    rw [pos_start] at few
    omega
  | succ k' =>
    have taken : k' < f.plan.count v := hk
    set last := f.plan.token v k' with lasts
    have lastInside : last < stop := before k' (Nat.lt_succ_self k')
    have mem : last ∈ forwarderTokens cfg numTokensToCombine numWarps v :=
      tokens ▸ EntryPlan.token_mem taken
    have place := ((mem_forwarderTokens warps).1 mem).2
    have shows : pos (member i) 0 (last + 1) ≤ f.plan.headAfter v i (k' + 1) :=
      exact.le_headAfter follows moves taken
    have upTo : ∀ k'' < k' + 1, f.plan.token v k'' ≤ last := by
      intro k'' lt
      rcases (Nat.le_of_lt_succ lt).eq_or_lt with rfl | lt
      · exact le_rfl
      · exact (follows.token_lt lt taken).le
    obtain ⟨a, rfl⟩ := multiple
    rcases le_or_gt (cfg.numMaxRdmaChunkedSendTokens * a) last with here | earlier
    · rcases le_or_gt t last with past | ahead
      · have mono : pos (member i) 0 t ≤ pos (member i) 0 (last + 1) :=
          pos_mono (past.trans (Nat.le_succ _))
        omega
      · -- the forwarder's next token of the chunk would be in reach
        have near : t < last + numWarps := by
          by_contra far
          obtain ⟨r, split⟩ := Nat.exists_eq_add_of_le here
          have inChunk : r + numWarps < cfg.numMaxRdmaChunkedSendTokens := by omega
          rw [split, Nat.mul_add_mod, Nat.mod_eq_of_lt (Nat.lt_of_add_right_lt inChunk)] at place
          have next : last + numWarps ∈ forwarderTokens cfg numTokensToCombine numWarps v := by
            refine (mem_forwarderTokens warps).2 ⟨by omega, ?_⟩
            rw [split, Nat.add_assoc, Nat.mul_add_mod, Nat.mod_eq_of_lt inChunk,
              Nat.add_mod_right, place]
          rcases own _ next with ⟨k'', lt, same⟩ | late
          · have le := upTo k'' lt
            omega
          · omega
        have few : pos (member i) 0 t ≤ pos (member i) 0 (last + 1) + (t - (last + 1)) :=
          pos_le_add ahead
        omega
    · -- the forwarder has no token in the chunk, so that is the last one
      have short : stop ≤ cfg.numMaxRdmaChunkedSendTokens * a + v := by
        by_contra more
        have next : cfg.numMaxRdmaChunkedSendTokens * a + v ∈
            forwarderTokens cfg numTokensToCombine numWarps v := by
          refine (mem_forwarderTokens warps).2 ⟨by omega, ?_⟩
          rw [Nat.mul_add_mod, Nat.mod_eq_of_lt (warp.trans_le large), Nat.mod_eq_of_lt warp]
        rcases own _ next with ⟨k'', lt, same⟩ | late
        · have le := upTo k'' lt
          omega
        · exact more late
      have end_ : stop = numTokensToCombine := by omega
      have all : k' + 1 = f.plan.count v := by
        by_contra other
        have more : k' + 1 < f.plan.count v := lt_of_le_of_ne hk other
        have late := beyond more
        have inRange := (follows.token_inside more).2
        omega
      have final : last ∈ (forwarderTokens cfg numTokensToCombine numWarps v).getLast? := by
        have length : (forwarderTokens cfg numTokensToCombine numWarps v).length = k' + 1 :=
          (congrArg (fun l => (l v).length) tokens.symm).trans all.symm
        rw [List.getLast?_eq_getElem?, length, Nat.add_sub_cancel, Option.mem_def,
          List.getElem?_eq_some_iff]
        refine ⟨length ▸ Nat.lt_succ_self k', ?_⟩
        simp only [← tokens]
        exact (List.getD_eq_getElem _ _ taken).symm
      have left : tail < f.plan.total i := by
        have below := pos_lt_total (Nat.zero_le t) inside goes
        have total : f.plan.total i = pos (member i) 0 numTokensToCombine := follows.total i
        omega
      obtain ⟨t', -, inside', goes', place'⟩ := follows.exists_place left
      rcases le_or_gt t' last with past | behind
      · have below := pos_lt (Nat.zero_le t') goes' (Nat.lt_add_one_of_le past)
        omega
      · have fit := room v last final t' behind inside' goes' (place'.symm ▸ begins)
        rw [place'] at fit
        exact fit.trans (Nat.add_le_add_right shows _)

section Last

variable {member : ℕ → Prop} [DecidablePred member] {ringSize : ℕ}

/-- **How far the last chunk can be ahead** of a forwarder without a token in it. -/
theorem roomBehindLast_of_room (warps : 0 < numWarps)
    (large : numWarps ≤ cfg.numMaxRdmaChunkedSendTokens)
    (room : cfg.numMaxNvlChunkedSendTokens + numWarps + cfg.numMaxRdmaChunkedSendTokens % numWarps ≤
      ringSize + 2) :
    RoomBehindLast cfg numWarps numTokensToCombine ringSize member := by
  intro v last final t behind inside _ _
  have place := ((mem_forwarderTokens warps).1 (List.mem_of_getLast? final)).2
  have warp := v.isLt
  have split := Nat.div_add_mod last cfg.numMaxRdmaChunkedSendTokens
  have below := Nat.mod_lt last cfg.rdmaSend_pos
  set first := cfg.numMaxRdmaChunkedSendTokens * (last / cfg.numMaxRdmaChunkedSendTokens)
    with firsts
  set r := last % cfg.numMaxRdmaChunkedSendTokens with rest
  have none : ∀ x < numTokensToCombine, last < x →
      x % cfg.numMaxRdmaChunkedSendTokens % numWarps ≠ v := by
    intro x hx later same
    exact absurd (le_getLast? (forwarderTokens_sorted warps v) final
      ((mem_forwarderTokens warps).2 ⟨hx, same⟩)) (not_le.2 later)
  have near : t < last + numWarps + cfg.numMaxRdmaChunkedSendTokens % numWarps := by
    by_contra far
    rcases lt_or_ge (r + numWarps) cfg.numMaxRdmaChunkedSendTokens with here | past
    · -- its next token of the same chunk
      refine none (last + numWarps) (by omega) (Nat.lt_add_of_pos_right warps) ?_
      rw [← split, Nat.add_assoc, firsts, Nat.mul_add_mod, Nat.mod_eq_of_lt here,
        Nat.add_mod_right, place]
    · -- its first one of the next
      have rounds := Nat.div_add_mod cfg.numMaxRdmaChunkedSendTokens numWarps
      have own := Nat.div_add_mod r numWarps
      rw [place] at own
      have few : cfg.numMaxRdmaChunkedSendTokens / numWarps ≤ r / numWarps + 1 := by
        by_contra more
        have step := Nat.mul_le_mul_left numWarps (not_le.1 more)
        rw [Nat.mul_succ, Nat.mul_succ] at step
        omega
      have step := Nat.mul_le_mul_left numWarps few
      rw [Nat.mul_succ] at step
      refine none (first + cfg.numMaxRdmaChunkedSendTokens + v) (by omega) (by omega) ?_
      rw [firsts, ← Nat.mul_succ, Nat.mul_add_mod, Nat.mod_eq_of_lt (warp.trans_le large),
        Nat.mod_eq_of_lt warp]
  have ahead : pos member 0 t ≤ pos member 0 (last + 1) + (t - (last + 1)) := pos_le_add behind
  omega

/-- A chunk and a rest: the forwarder that would be next in the chunk sits the rest out. -/
theorem getLast?_of_rest (warps : 0 < numWarps)
    (large : numWarps ≤ cfg.numMaxRdmaChunkedSendTokens) (v : Fin numWarps)
    (rest : cfg.numMaxRdmaChunkedSendTokens % numWarps = v) (b : ℕ) :
    cfg.numMaxRdmaChunkedSendTokens * b + (cfg.numMaxRdmaChunkedSendTokens - numWarps) ∈
      (forwarderTokens cfg (cfg.numMaxRdmaChunkedSendTokens * (b + 1) + v) numWarps
        v).getLast? := by
  have warp := v.isLt
  have whole : (cfg.numMaxRdmaChunkedSendTokens - numWarps) % numWarps = v := by
    rw [← Nat.mod_eq_sub_mod large, rest]
  have mem : cfg.numMaxRdmaChunkedSendTokens * b + (cfg.numMaxRdmaChunkedSendTokens - numWarps) ∈
      forwarderTokens cfg (cfg.numMaxRdmaChunkedSendTokens * (b + 1) + v) numWarps v := by
    refine (mem_forwarderTokens warps).2 ⟨?_, ?_⟩
    · rw [Nat.mul_succ]
      omega
    · rw [Nat.mul_add_mod, Nat.mod_eq_of_lt (Nat.sub_lt cfg.rdmaSend_pos warps), whole]
  have final := List.getLast?_eq_some_getLast (List.ne_nil_of_mem mem)
  set last := List.getLast _ (List.ne_nil_of_mem mem) with lasts
  obtain ⟨inside, place⟩ := (mem_forwarderTokens warps).1 (List.mem_of_getLast? final)
  have le := le_getLast? (forwarderTokens_sorted warps v) final mem
  -- nothing comes behind it
  have ge : last ≤ cfg.numMaxRdmaChunkedSendTokens * b +
      (cfg.numMaxRdmaChunkedSendTokens - numWarps) := by
    by_contra more
    rw [Nat.mul_succ] at inside
    rcases lt_or_ge last (cfg.numMaxRdmaChunkedSendTokens * (b + 1)) with here | past
    · rw [Nat.mul_succ] at here
      obtain ⟨j, split⟩ := Nat.exists_eq_add_of_le (le.trans' (Nat.le_add_right _ _))
      rw [split] at here more place
      rw [Nat.mul_add_mod, Nat.mod_eq_of_lt (Nat.lt_of_add_lt_add_left here)] at place
      have round := Nat.sub_mod_eq_zero_of_mod_eq (place.trans whole.symm)
      rw [Nat.mod_eq_of_lt (by omega)] at round
      omega
    · obtain ⟨j, split⟩ := Nat.exists_eq_add_of_le past
      rw [split, Nat.mul_succ] at inside
      have short : j < v := by omega
      rw [split, Nat.mul_add_mod, Nat.mod_eq_of_lt (short.trans (warp.trans_le large)),
        Nat.mod_eq_of_lt (short.trans warp)] at place
      exact short.ne place
  rw [final, le_antisymm ge le]
  rfl

end Last

end LargeWarp

/-! ### The system -/

/-- A forwarder's head moves past what it has read. -/
theorem forwarder_moves (e : ℤ) (nonneg : 0 ≤ e) :
    e.toNat + 1 ≤ (if e < 0 then -e - 1 else e + 1).toNat := by
  rw [if_neg (not_lt.2 nonneg)]
  omega

namespace NodeWorld

variable (w : NodeWorld sh Row Weight) (g c : ℕ)

/-- Tokens of the channel that the forwarders on node `d` combine. -/
def numForwarded (d : Fin sh.numRdmaRanks) : ℕ :=
  (w.nodeTokens (sameGpuIdx sh g d) c (sh.nvlRank (sameGpuIdx sh g d)) (sh.rdmaRank g)).length

/-- Peer `p` of node `d` holds token `i` of them. -/
def FromPeer (d : Fin sh.numRdmaRanks) (p : Fin numMaxNvlPeers) (i : ℕ) : Prop :=
  (w.recvTokens (sameGpuIdx sh g d)).Goes p
    ((w.recvTokens (sameGpuIdx sh g d)).tokenStartIdx c (sh.rdmaRank g) + i)

instance (d : Fin sh.numRdmaRanks) (p : Fin numMaxNvlPeers) : DecidablePred (w.FromPeer g c d p) :=
  fun i => inferInstanceAs (Decidable ((w.recvTokens (sameGpuIdx sh g d)).Goes p
    ((w.recvTokens (sameGpuIdx sh g d)).tokenStartIdx c (sh.rdmaRank g) + i)))

/-- The rings have room behind the forwarders that have no token in the last chunk. -/
def RoomBehindIdle (cfg : Config) : Prop :=
  ∀ (d : Fin sh.numRdmaRanks) (p : Fin numMaxNvlPeers),
    RoomBehindLast cfg (numWarpsPerForwarder sh.numRdmaRanks) (w.numForwarded g c d)
      (cfg.numMaxNvlChunkedRecvTokens / sh.numRdmaRanks) (w.FromPeer g c d p)

variable (cfg : Config) (heads : Fin sh.numRdmaRanks → NvlHeads) (uninit : ℕ → ℤ)

/-- Everybody who works on channel `c` of rank `g`, with the coordinators in detail: those of
the receivers return credit a chunk at a time. -/
def combineSystemWithCredit {X W : Type} [AddCommMonoid X] [AddCommMonoid W]
    (io : CombineInputs X W)
    (nvlSlots : Fin sh.numRdmaRanks → Fin numMaxNvlPeers → ℕ → X × (ℕ → W))
    (rdmaSlots : Fin sh.numRdmaRanks → ℕ → X × (ℕ → W)) :=
  CreditedRings.system (w.nvlPlan g c cfg heads) (w.rdmaPlan g c cfg heads uninit)
    cfg.numMaxRdmaChunkedSendTokens
    (fun d => w.nvlPayload (sameGpuIdx sh g d) c (sh.rdmaRank g) io) nvlSlots rdmaSlots

/-- The rings of both levels have been filled, and every token of the channel combined. -/
structure CombineDone {V : Type}
    (s : CreditedRings.State (Fin sh.numRdmaRanks) (Fin numMaxNvlPeers)
      (Fin (numWarpsPerForwarder sh.numRdmaRanks)) (Fin (numRdmaReceivers sh.numRdmaRanks)) V) :
    Prop where
  nvl : ∀ d p, (s.rings.first d).tail p = (w.nvlPlan g c cfg heads d).total p
  rdma : ∀ d, s.rings.second.tail d = (w.rdmaPlan g c cfg heads uninit).total d
  combined : ∀ t, tokenStartIdx (w.inputs g) c ≤ t → t < tokenEndIdx (w.inputs g) c →
    (s.rings.second.out t).isSome

variable {w g c cfg heads uninit}

section Plans

variable (hg : g < sh.numRanks) (hc : c < sh.numChannels)
  (left : ∀ d : Fin sh.numRdmaRanks, w.HeadsLeft (sameGpuIdx sh g d) (heads d))

include hg hc left

theorem rdmaPlan_total (d : Fin sh.numRdmaRanks) :
    (w.rdmaPlan g c cfg heads uninit).total d = w.numForwarded g c d :=
  numTokensToCombine_eq (left d) hc (NodeShape.rdmaRank_lt hg)

theorem nvlEntries_tokens (d : Fin sh.numRdmaRanks) :
    (w.nvlEntries (sameGpuIdx sh g d) c (sh.rdmaRank g) (heads d) cfg).tokens =
      forwarderTokens cfg (w.numForwarded g c d) (numWarpsPerForwarder sh.numRdmaRanks) :=
  congrArg (fun n => forwarderTokens cfg n _)
    (numTokensToCombine_eq (left d) hc (NodeShape.rdmaRank_lt hg))

theorem forwarded_follows (peers : sh.numNvlPeers = numMaxNvlPeers)
    (launch : CombineLaunch sh.numRdmaRanks cfg) (d : Fin sh.numRdmaRanks) :
    (w.nvlEntries (sameGpuIdx sh g d) c (sh.rdmaRank g) (heads d) cfg).Follows
      (w.FromPeer g c d) 0 (w.numForwarded g c d) :=
  nvlEntries_follows (left d) (sameGpuIdx_lt g d) hc (NodeShape.rdmaRank_lt hg) peers
    ((Nat.le_add_right _ _).trans launch.room)

/-- What the forwarders go by is exact when what dispatch left is. -/
theorem forwarded_exact {d : Fin sh.numRdmaRanks}
    (exact : (heads d).Exact (w.recvTokens (sameGpuIdx sh g d)))
    (fits : w.numForwarded g c d ≤ kReverseScanSentinel) :
    (w.nvlEntries (sameGpuIdx sh g d) c (sh.rdmaRank g) (heads d) cfg).Exact
      (w.FromPeer g c d) 0 (w.numForwarded g c d) kReverseScanSentinel where
  entries p i _ hi := by
    have hs : sh.rdmaRank g < sh.numRdmaRanks := NodeShape.rdmaRank_lt hg
    have ends : (w.recvTokens (sameGpuIdx sh g d)).tokenEndIdx c (sh.rdmaRank g) =
        (w.recvTokens (sameGpuIdx sh g d)).tokenStartIdx c (sh.rdmaRank g) +
          w.numForwarded g c d := RecvTokens.tokenEndIdx_eq c (sh.rdmaRank g)
    have recorded := exact c hc (sh.rdmaRank g) hs p p.isLt _ (Nat.le_add_right _ i)
      ((Nat.add_lt_add_left hi _).trans_eq ends.symm)
    rw [NvlHeads.encoded, ends, ← entry_shift] at recorded
    show (heads d).sendNvlHead (headCell p (w.numTokensPrefix _ c _ (heads d) + i)) = _
    rw [numTokensPrefix_eq (left d) (sameGpuIdx_lt g d) hc hs]
    exact recorded
  large p := by
    have few := pos_le_add (p := w.FromPeer g c d p) (Nat.zero_le (w.numForwarded g c d))
    rw [pos_start] at few
    omega

/-- What the receivers go by is exact. -/
theorem rdmaEntries_exact (fits : ∀ d, w.numForwarded g c d ≤ kReverseScanSentinel) :
    (w.rdmaEntries g c cfg heads uninit).Exact (fun d => (w.inputs g).InNode d)
      (tokenStartIdx (w.inputs g) c) (tokenEndIdx (w.inputs g) c) kReverseScanSentinel where
  entries d _ lo hi := sendRdmaHead_apply uninit d.isLt hc lo hi
  large d := by
    have total := (rdmaEntries_follows hg hc left cfg uninit).total d
    have sent : (w.rdmaPlan g c cfg heads uninit).total d = w.numForwarded g c d :=
      rdmaPlan_total hg hc left d
    rw [← total]
    exact sent.trans_le (fits d)

/-- The plans of all groups and of the receivers are sound. -/
theorem combine_sound (peers : sh.numNvlPeers = numMaxNvlPeers)
    (launch : CombineLaunch sh.numRdmaRanks cfg) :
    CreditedRings.Sound (w.nvlPlan g c cfg heads) (w.rdmaPlan g c cfg heads uninit) where
  first d := (forwarded_follows hg hc left peers launch d).sound
  second := (rdmaEntries_follows hg hc left cfg uninit).sound
  firstRises _ i v k _ := EntryPlan.head_rises _ v i k
  secondRises i v k _ := EntryPlan.head_rises _ v i k
  apart d _ _ _ hm _ hk same := (forwarded_follows hg hc left peers launch d).token_apart
    (fun v v' t mem mem' => forwarderTokens_disjoint (numWarpsPerForwarder_pos _) v v' t mem mem')
    hm hk same

/-- **Heads are not held back too far** where there is room behind the forwarders that sit the
last chunk out. -/
theorem combine_roomy (peers : sh.numNvlPeers = numMaxNvlPeers)
    (launch : CombineLaunch sh.numRdmaRanks cfg)
    (exact : ∀ d, (heads d).Exact (w.recvTokens (sameGpuIdx sh g d)))
    (fits : ∀ d, w.numForwarded g c d ≤ kReverseScanSentinel)
    (room : w.RoomBehindIdle g c cfg) :
    CreditedRings.Roomy (w.nvlPlan g c cfg heads) (w.rdmaPlan g c cfg heads uninit)
      cfg.numMaxRdmaChunkedSendTokens where
  covers d t ht := by
    rw [rdmaPlan_total hg hc left] at ht
    exact (forwarded_follows hg hc left peers launch d).exists_token (Nat.zero_le t) ht
  sorted d v m hm k le := by
    rcases le.eq_or_lt with rfl | lt
    · exact le_rfl
    · exact ((forwarded_follows hg hc left peers launch d).token_lt lt hm).le
  during d v m hm p tail _ waiting v' k hk le := by
    have follows := forwarded_follows hg hc left peers launch d
    obtain ⟨lo, hi⟩ := follows.token_inside hm
    have goes := (follows.expected_nonneg_iff lo hi).1 ((Int.natCast_nonneg tail).trans waiting)
    have reached := Int.ofNat_le.1 (waiting.trans_eq (follows.expected_eq lo hi goes))
    have shows := (forwarded_exact hg hc left (exact d) (fits d)).le_headDuring follows hk lo hi
      goes le
    refine (fits_iff rfl fun _ => rfl).2 ?_
    exact Nat.add_le_add (reached.trans shows) follows.chunk_le
  after d first multiple v m _ lo hi p tail begins waiting v' k hk before beyond := by
    have follows := forwarded_follows hg hc left peers launch d
    rw [rdmaPlan_total hg hc left] at hi before beyond
    exact fits_after (nvlEntries_tokens hg hc left d) rfl (fun _ => rfl) follows
      (forwarded_exact hg hc left (exact d) (fits d)) forwarder_moves (numWarpsPerForwarder_pos _)
      launch.large launch.room (room d p) multiple lo hi begins waiting hk before beyond
  second v m hm v' k hk le d := by
    have follows := rdmaEntries_follows hg hc left cfg uninit
    obtain ⟨lo, hi⟩ := follows.token_inside hm
    by_cases goes : (w.inputs g).InNode d ((w.rdmaPlan g c cfg heads uninit).token v m)
    · have shows := (rdmaEntries_exact hg hc left fits).le_headDuring follows hk lo hi goes le
      exact (follows.expected_eq lo hi goes).trans_le (Int.ofNat_le.2 shows)
    · have skipped := (not_le.1 (mt (follows.expected_nonneg_iff lo hi).1 goes)).le
      exact skipped.trans (Int.natCast_nonneg _)
  credit d tail _ := by
    have half := cfg.rdmaSend_le_half
    have round : min cfg.numMaxRdmaChunkedSendTokens
        ((w.rdmaPlan g c cfg heads uninit).total d - tail) ≤ cfg.numMaxRdmaChunkedSendTokens :=
      min_le_left _ _
    show min cfg.numMaxRdmaChunkedSendTokens _ + _ ≤ cfg.numMaxRdmaChunkedRecvTokens + 1
    omega

end Plans

section Runs

variable {X W : Type} [AddCommMonoid X] [AddCommMonoid W] {io : CombineInputs X W}
  {nvlSlots : Fin sh.numRdmaRanks → Fin numMaxNvlPeers → ℕ → X × (ℕ → W)}
  {rdmaSlots : Fin sh.numRdmaRanks → ℕ → X × (ℕ → W)}
  {s : CreditedRings.State (Fin sh.numRdmaRanks) (Fin numMaxNvlPeers)
    (Fin (numWarpsPerForwarder sh.numRdmaRanks)) (Fin (numRdmaReceivers sh.numRdmaRanks))
    (X × (ℕ → W))}

/-- When all receivers are through their tokens, everything is sent and combined. -/
theorem combineDone_of_completed (hg : g < sh.numRanks) (hc : c < sh.numChannels)
    (left : ∀ d : Fin sh.numRdmaRanks, w.HeadsLeft (sameGpuIdx sh g d) (heads d))
    (peers : sh.numNvlPeers = numMaxNvlPeers) (launch : CombineLaunch sh.numRdmaRanks cfg)
    (inv : CreditedRings.Inv (w.nvlPlan g c cfg heads) (w.rdmaPlan g c cfg heads uninit)
      (fun d => w.nvlPayload (sameGpuIdx sh g d) c (sh.rdmaRank g) io) s)
    (completed : s.rings.second.Completed (w.rdmaPlan g c cfg heads uninit)) :
    w.CombineDone g c cfg heads uninit s := by
  have receivers := rdmaEntries_follows hg hc left cfg uninit
  have rdma := receivers.tail_of_done inv.rings.second completed
  refine ⟨fun d p => ?_, rdma, fun t lo hi => ?_⟩
  · have follows := forwarded_follows hg hc left peers launch d
    refine follows.tail_of_done (inv.rings.first d) (inv.completed_first (rdma d) ?_) p
    intro v m hm
    rw [rdmaPlan_total hg hc left]
    exact (follows.token_inside hm).2
  · exact Option.isSome_of_eq_some (receivers.combined_of_done inv.rings.second completed lo hi)

/-- Every combine has a run that has gone as far as it can. -/
theorem exists_combine_terminal (hg : g < sh.numRanks) (hc : c < sh.numChannels)
    (left : ∀ d : Fin sh.numRdmaRanks, w.HeadsLeft (sameGpuIdx sh g d) (heads d))
    (peers : sh.numNvlPeers = numMaxNvlPeers) (launch : CombineLaunch sh.numRdmaRanks cfg) :
    ∃ s, (w.combineSystemWithCredit g c cfg heads uninit io nvlSlots rdmaSlots).Reachable s ∧
      ∀ e, (w.combineSystemWithCredit g c cfg heads uninit io nvlSlots rdmaSlots).step s e =
        none := by
  have sound : CreditedRings.Sound (w.nvlPlan g c cfg heads) (w.rdmaPlan g c cfg heads uninit) :=
    combine_sound hg hc left peers launch
  have begins : (w.combineSystemWithCredit g c cfg heads uninit io nvlSlots
      rdmaSlots).Reachable _ := .init
  exact CreditedRings.exists_terminal sound (fun _ => cfg.nvlSend_pos) cfg.rdmaSend_pos
    cfg.rdmaSend_pos (fun d => (sound.firstRises d).bounded) sound.secondRises.bounded begins

/-- Without room behind the forwarders that sit the last chunk out, some run stops early. -/
theorem exists_stuck (hg : g < sh.numRanks) (hc : c < sh.numChannels)
    (peers : sh.numNvlPeers = numMaxNvlPeers) (launch : CombineLaunch sh.numRdmaRanks cfg)
    (left : ∀ d : Fin sh.numRdmaRanks, w.HeadsLeft (sameGpuIdx sh g d) (heads d))
    (exact : ∀ d, (heads d).Exact (w.recvTokens (sameGpuIdx sh g d)))
    (fits : ∀ d, w.numForwarded g c d ≤ kReverseScanSentinel) (tight : ¬w.RoomBehindIdle g c cfg) :
    ∃ s, (w.combineSystemWithCredit g c cfg heads uninit io nvlSlots rdmaSlots).Reachable s ∧
      ¬w.CombineDone g c cfg heads uninit s ∧
      ∀ e, (w.combineSystemWithCredit g c cfg heads uninit io nvlSlots rdmaSlots).step s e =
        none := by
  have sound : CreditedRings.Sound (w.nvlPlan g c cfg heads) (w.rdmaPlan g c cfg heads uninit) :=
    combine_sound hg hc left peers launch
  obtain ⟨s, reach, stuck⟩ : ∃ s, (w.combineSystemWithCredit g c cfg heads uninit io nvlSlots
      rdmaSlots).Reachable s ∧ ∀ e, _ := exists_combine_terminal hg hc left peers launch
  refine ⟨s, reach, fun done => tight ?_, stuck⟩
  intro d p v last final t behind inside goes multiple
  by_contra short
  have follows := forwarded_follows hg hc left peers launch d
  obtain ⟨u, m, hm, rfl⟩ := follows.exists_token (Nat.zero_le t) inside
  have tokens : (w.nvlEntries (sameGpuIdx sh g d) c (sh.rdmaRank g) (heads d) cfg).tokens = _ :=
    nvlEntries_tokens hg hc left d
  -- no head of the forwarder that sits out gets past its last token
  obtain ⟨after, during⟩ := (forwarded_exact hg hc left (exact d) (fits d)).head_le follows
    (fun k hk => follows.token_le_last (tokens ▸ final) hk) behind inside goes
  have stops := CreditedRings.tail_le_of_tight sound hm
    (follows.expected_eq (Nat.zero_le _) inside goes) multiple after during
    (mt (fits_iff rfl fun _ => rfl).1 short) reach
  have total := pos_lt_total (Nat.zero_le _) inside goes
  rw [← follows.total p] at total
  exact absurd ((Nat.le_add_right _ _).trans stops)
    (not_le.2 (total.trans_eq (done.nvl d p).symm))

/-- **Combine goes on exactly when there is room behind the forwarders that sit the last chunk
out**, under the launch's asserts. -/
theorem combine_progress_iff (hg : g < sh.numRanks) (hc : c < sh.numChannels)
    (peers : sh.numNvlPeers = numMaxNvlPeers) (launch : CombineLaunch sh.numRdmaRanks cfg)
    (left : ∀ d : Fin sh.numRdmaRanks, w.HeadsLeft (sameGpuIdx sh g d) (heads d))
    (exact : ∀ d, (heads d).Exact (w.recvTokens (sameGpuIdx sh g d)))
    (fits : ∀ d, w.numForwarded g c d ≤ kReverseScanSentinel) :
    (∀ s, (w.combineSystemWithCredit g c cfg heads uninit io nvlSlots rdmaSlots).Reachable s →
      w.CombineDone g c cfg heads uninit s ∨
        ∃ e s', (w.combineSystemWithCredit g c cfg heads uninit io nvlSlots rdmaSlots).step s e =
          some s') ↔
      w.RoomBehindIdle g c cfg := by
  have sound : CreditedRings.Sound (w.nvlPlan g c cfg heads) (w.rdmaPlan g c cfg heads uninit) :=
    combine_sound hg hc left peers launch
  constructor
  · intro progress
    by_contra tight
    obtain ⟨s, reach, undone, stuck⟩ : ∃ s, (w.combineSystemWithCredit g c cfg heads uninit io
        nvlSlots rdmaSlots).Reachable s ∧ ¬w.CombineDone g c cfg heads uninit s ∧ ∀ e, _ :=
      exists_stuck hg hc peers launch left exact fits tight
    rcases progress s reach with done | ⟨e, s', fires⟩
    · exact undone done
    · exact absurd (fires.symm.trans (stuck e)) (Option.some_ne_none s')
  · intro room s reach
    have inv := CreditedRings.reachable_inv sound reach
    by_cases completed : s.rings.second.Completed (w.rdmaPlan g c cfg heads uninit)
    · exact Or.inl (combineDone_of_completed hg hc left peers launch inv completed)
    · exact Or.inr (CreditedRings.exists_step inv sound
        (combine_roomy hg hc left peers launch exact fits room) completed)

/-- With that room it can be brought to its end. -/
theorem exists_combineDone (hg : g < sh.numRanks) (hc : c < sh.numChannels)
    (peers : sh.numNvlPeers = numMaxNvlPeers) (launch : CombineLaunch sh.numRdmaRanks cfg)
    (left : ∀ d : Fin sh.numRdmaRanks, w.HeadsLeft (sameGpuIdx sh g d) (heads d))
    (exact : ∀ d, (heads d).Exact (w.recvTokens (sameGpuIdx sh g d)))
    (fits : ∀ d, w.numForwarded g c d ≤ kReverseScanSentinel) (room : w.RoomBehindIdle g c cfg) :
    ∃ s, (w.combineSystemWithCredit g c cfg heads uninit io nvlSlots rdmaSlots).Reachable s ∧
      w.CombineDone g c cfg heads uninit s := by
  obtain ⟨s, reach, stuck⟩ : ∃ s, (w.combineSystemWithCredit g c cfg heads uninit io nvlSlots
      rdmaSlots).Reachable s ∧ ∀ e, _ := exists_combine_terminal hg hc left peers launch
  rcases (combine_progress_iff hg hc peers launch left exact fits).2 room s reach with
    done | ⟨e, s', fires⟩
  · exact ⟨s, reach, done⟩
  · exact absurd (fires.symm.trans (stuck e)) (Option.some_ne_none s')

end Runs

theorem numForwarded_le (d : Fin sh.numRdmaRanks) :
    w.numForwarded g c d ≤ (w.inputs g).numTokens := by
  have same : srcWorld sh (sh.rdmaRank g) (sh.nvlRank (sameGpuIdx sh g d)) = g := by
    rw [nvlRank_sameGpuIdx]
    exact NodeShape.rank_eq g
  rw [numForwarded, length_nodeTokens, same]
  exact (Nat.sub_le _ _).trans ((Nat.count_le _).trans (channelEnd_le _ _ _))

/-- With a warp for every node dispatch can leave exact heads everywhere. -/
theorem exists_exactHeads (w : NodeWorld sh Row Weight) (g : ℕ)
    (nodes : sh.numRdmaRanks ≤ numMaxNvlPeers) : ∃ heads : Fin sh.numRdmaRanks → NvlHeads,
      (∀ d : Fin sh.numRdmaRanks, w.HeadsLeft (sameGpuIdx sh g d) (heads d)) ∧
        ∀ d, (heads d).Exact (w.recvTokens (sameGpuIdx sh g d)) := by
  have dispatched : ∀ d : Fin sh.numRdmaRanks, ∃ heads : NvlHeads,
      w.HeadsLeft (sameGpuIdx sh g d) heads ∧
        heads.Exact (w.recvTokens (sameGpuIdx sh g d)) := by
    intro d
    -- no node is beyond the warps of a block
    have plain : NvlHeads.FarNodesPlain (w.recvTokens (sameGpuIdx sh g d)) :=
      fun _ _ s (hs : s < sh.numRdmaRanks) far => absurd (far.trans_lt hs) (not_lt.2 nodes)
    obtain ⟨heads, reach, ended, exact⟩ := NvlHeads.exists_exact _ plain
    exact ⟨heads, ⟨reach, ended⟩, exact⟩
  choose heads left exact using dispatched
  exact ⟨heads, left, exact⟩

/-- With a warp for every node and room in the rings, dispatch leaves heads with which combine
has a run to its end. -/
theorem exists_combineRun {X W : Type} [AddCommMonoid X] [AddCommMonoid W]
    (hg : g < sh.numRanks) (hc : c < sh.numChannels)
    (peers : sh.numNvlPeers = numMaxNvlPeers) (launch : CombineLaunch sh.numRdmaRanks cfg)
    (nodes : sh.numRdmaRanks ≤ numMaxNvlPeers)
    (few : (w.inputs g).numTokens ≤ kReverseScanSentinel)
    (room : cfg.numMaxNvlChunkedSendTokens + numWarpsPerForwarder sh.numRdmaRanks +
      cfg.numMaxRdmaChunkedSendTokens % numWarpsPerForwarder sh.numRdmaRanks ≤
        cfg.numMaxNvlChunkedRecvTokens / sh.numRdmaRanks + 2)
    (uninit : ℕ → ℤ) (io : Intranode.CombineInputs X W)
    (nvlSlots : Fin sh.numRdmaRanks → Fin numMaxNvlPeers → ℕ → X × (ℕ → W))
    (rdmaSlots : Fin sh.numRdmaRanks → ℕ → X × (ℕ → W)) :
    ∃ (heads : Fin sh.numRdmaRanks → NvlHeads) (s : _),
      (∀ d : Fin sh.numRdmaRanks, w.HeadsLeft (sameGpuIdx sh g d) (heads d)) ∧
      (w.combineSystemWithCredit g c cfg heads uninit io nvlSlots rdmaSlots).Reachable s ∧
        w.CombineDone g c cfg heads uninit s := by
  obtain ⟨heads, left, exact⟩ := exists_exactHeads w g nodes
  have fits : ∀ d, w.numForwarded g c d ≤ kReverseScanSentinel := fun d =>
    (numForwarded_le (w := w) (g := g) (c := c) d).trans few
  have behind : w.RoomBehindIdle g c cfg := fun d p =>
    roomBehindLast_of_room (numWarpsPerForwarder_pos _) launch.large room
  obtain ⟨s, reach, done⟩ : ∃ s, (w.combineSystemWithCredit g c cfg heads uninit io nvlSlots
      rdmaSlots).Reachable s ∧ w.CombineDone g c cfg heads uninit s :=
    exists_combineDone hg hc peers launch left exact fits behind
  exact ⟨heads, s, left, reach, done⟩

end NodeWorld

end StreamEP.Internode
