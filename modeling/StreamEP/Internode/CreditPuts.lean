import StreamEP.Internode.CreditRuns

/-!
# Puts into an RDMA ring

A sender warp stages a token only when the credits reach its position, so a chunk of tokens
goes to slots that the destination has drained (`puts_safe`).  The header is put without a
look at the credits.  A dispatch gets away with it, because its metadata kernel has waited
for the destination; a dispatch_grads that finds the ring full overwrites the oldest position
(`backToBack_overwrites`).

**What a put needs.**  `Fits` says of a slot and a position that the slot is that of the position,
that the position is new, and that it is less than a ring ahead of the slowest forwarder warp.
Two positions within a ring have different slots, so a put that fits overwrites nothing that
somebody still has to read (`Fits.safe`).  There are three kinds of puts, and each fits for a
reason of its own: a token has passed the gate (`fits_stage`), so have those of a chunk
(`fits_issue`), and a header fits when the ring is not full (`fits_header`).

**Where slots come from.**  The slot of a position is computed from the baseline of a warp and
the number of its token, in words that wrap.  `slot_of_base` is that computation for an exact
baseline; it needs the size of the ring to divide `2 ^ 32`, or no position to get that far.

**Orderly runs.**  The conditions on a step are those of `CreditLink` and two for the coordinator:
it reads its baseline before a warp writes back, and a dispatch_grads puts its header when the
ring is not full.  The second is the defect; a dispatch needs no such condition, because `RingsInv`
knows that its rings are drained.

The run behind `backToBack_overwrites` is one token, dispatched to a node whose forwarders are
held, and an empty dispatch_grads behind it.
-/

namespace StreamEP.Internode

open Function Finset

variable {cfg : Config} {t : Traffic} {own : Bool} {i k : ℕ} {l l' : Link}

/-- The position has been put (on a node's ring to itself, written in place). -/
def Sender.Put (t : Traffic) (own : Bool) (i : ℕ) (s : Sender) (q : ℕ) : Prop :=
  q < t.base i ∨ q = t.base i ∧ s.headerSent = true ∨
    ∃ j, q = t.base i + (j + 1) ∧ if own = true then s.staged j = true else j < s.lastIssuedTail

namespace Link

/-- Positions of the stream that a forwarder warp has read. -/
def read (t : Traffic) (k : ℕ) (l : Link) (f : Fin numMaxNvlPeers) : ℕ :=
  t.base k + l.forwarder.consumed f

/-- A step overwrites only what all forwarder warps have read. -/
def PutSafe (cfg : Config) (t : Traffic) (own : Bool) (i k : ℕ) (l : Link) (e : Sender.Event) :
    Prop :=
  ∀ put ∈ l.sender.puts cfg t own i e, ∀ q, l.ring put.1 = some q → ∀ f, q < l.read t k f

/-- What a put needs: its slot is that of the position, which is new and less than a ring ahead
of the warps that have read least. -/
structure Fits (cfg : Config) (t : Traffic) (own : Bool) (i k : ℕ) (l : Link) (put : ℕ × ℕ) :
    Prop where
  slot : put.1 = put.2 % cfg.numMaxRdmaChunkedRecvTokens
  new : ¬l.sender.Put t own i put.2
  unsent : t.base i + l.sender.sent ≤ put.2
  room : ∀ f, put.2 < l.read t k f + cfg.numMaxRdmaChunkedRecvTokens

/-- What a ring holds. -/
structure RingInv (cfg : Config) (t : Traffic) (own : Bool) (i k : ℕ) (l : Link) : Prop where
  coordPrev : ∀ prev, l.sender.coordPrev = some prev → prev = BitVec.ofNat 32 (t.base i)
  slot : ∀ slot q, l.ring slot = some q → slot = q % cfg.numMaxRdmaChunkedRecvTokens
  put : ∀ slot q, l.ring slot = some q → l.sender.Put t own i q
  room : ∀ slot q, l.ring slot = some q → ∀ f,
    q < l.read t k f + cfg.numMaxRdmaChunkedRecvTokens

/-- **A put that fits overwrites nothing unread**: two positions within a ring have different
slots. -/
theorem Fits.safe {put : ℕ × ℕ} (fits : l.Fits cfg t own i k put) (inv : l.Inv cfg t i k)
    (ring : l.RingInv cfg t own i k) {q : ℕ} (holds : l.ring put.1 = some q) (f) :
    q < l.read t k f := by
  by_contra unread
  have arrived : l.read t k f ≤ put.2 := by
    have tails := inv.tails
    have read := inv.forwarder.consumed_arrived f
    have unsent := fits.unsent
    rw [Link.read]
    omega
  have same : q = put.2 := ReplayRings.eq_of_mod_eq (not_lt.1 unread) (ring.room _ q holds f)
    arrived (fits.room f) ((ring.slot _ q holds).symm.trans fits.slot)
  exact fits.new (same ▸ ring.put _ q holds)

/-- Credits are behind what has been read. -/
theorem Inv.head_le_read (inv : l.Inv cfg t i k) (f) : l.rdmaChannelHead ≤ l.read t k f := by
  have credits := inv.credits
  have returned := inv.forwarder.returned_le f
  have behind := inv.forwarder.head_le_consumed f
  rw [read]
  omega

/-- The conditions on a step of the coordinator: it reads its baseline before a warp writes
back, and a dispatch_grads puts its header when the ring is not full. -/
def Orderly (cfg : Config) (t : Traffic) (backward : Bool) (i k : ℕ) (l : Link) : Event → Prop
  | .sender .coordReadPrev => ∀ w, l.sender.wroteHead w = false
  | .sender .header => backward = true →
      ∀ f, t.base i < l.read t k f + cfg.numMaxRdmaChunkedRecvTokens
  | _ => True

section Puts

variable (inv : l.Inv cfg t i k) (ring : l.RingInv cfg t own i k)
  (phase : cfg.numMaxRdmaChunkedRecvTokens ∣ 2 ^ 32 ∨ t.base i < 2 ^ 32)

include phase

/-- The slot of a position, for a warp that has the right baseline. -/
theorem slot_of_base {prev : BitVec 32} (exact : prev = BitVec.ofNat 32 (t.base i)) (j : ℕ) :
    senderSlot cfg prev j = (t.base i + j) % cfg.numMaxRdmaChunkedRecvTokens := by
  rw [exact, ← t.readerPrevHead_eq, t.senderSlot_of_phase j phase]

include inv

/-- A token that passes the gate fits. -/
theorem fits_stage {w j} {prev : BitVec 32} {s : Sender} (read : l.sender.prevHead w = some prev)
    (fires : l.sender.step cfg t own i l.rdmaChannelHead (.stage w j) = some s) :
    l.Fits cfg t true i k (senderSlot cfg prev (j + 1), t.base i + (j + 1)) := by
  simp only [Sender.step, Option.bind_eq_some_iff, Option.ite_none_right_eq_some,
    Option.some.injEq] at fires
  obtain ⟨cached, looked, ⟨⟨-, -, new⟩, -, room⟩, -⟩ := fires
  refine ⟨slot_of_base phase (inv.sender.prevHead w prev read) (j + 1), ?_, ?_, fun f => ?_⟩
  · rintro (before | ⟨here, -⟩ | ⟨j', same, staged⟩)
    · dsimp only at before
      omega
    · dsimp only at here
      omega
    · obtain rfl : j' = j := by
        dsimp only at same
        omega
      rw [if_pos rfl, new] at staged
      exact Bool.noConfusion staged
  · have behind := inv.sender.le_of_not_staged new
    rw [Sender.sent]
    dsimp only
    split_ifs <;> omega
  · have credit := inv.sender.cachedHead w cached looked
    have read := inv.head_le_read f
    dsimp only
    omega

include ring

/-- A header fits when the ring is not full. -/
theorem fits_header {prev : BitVec 32} {s : Sender} (read : l.sender.coordPrev = some prev)
    (fires : l.sender.step cfg t own i l.rdmaChannelHead .header = some s)
    (room : ∀ f, t.base i < l.read t k f + cfg.numMaxRdmaChunkedRecvTokens) :
    l.Fits cfg t own i k (senderSlot cfg prev 0, t.base i) := by
  simp only [Sender.step, Option.ite_none_right_eq_some, Option.some.injEq] at fires
  obtain ⟨⟨-, unsent⟩, -⟩ := fires
  refine ⟨slot_of_base phase (ring.coordPrev prev read) 0, ?_, ?_, room⟩
  · rintro (before | ⟨-, sent⟩ | ⟨j, same, -⟩)
    · exact lt_irrefl _ before
    · rw [unsent] at sent
      exact Bool.noConfusion sent
    · dsimp only at same
      omega
  · rw [Sender.sent, unsent, inv.sender.first unsent, if_neg Bool.false_ne_true]
    exact le_rfl

/-- The tokens of a chunk fit: they have passed the gate. -/
theorem fits_issue {prev : BitVec 32} {s : Sender} (read : l.sender.coordPrev = some prev)
    (fires : l.sender.step cfg t false i l.rdmaChannelHead .issue = some s) {j : ℕ}
    (lt : j < l.sender.numTokensToIssue cfg false prev) :
    l.Fits cfg t false i k (senderSlot cfg prev (l.sender.lastIssuedTail + 1) + j,
      t.base i + (l.sender.lastIssuedTail + 1 + j)) := by
  simp only [Sender.step, Option.bind_eq_some_iff, Option.ite_none_right_eq_some,
    Option.some.injEq] at fires
  obtain ⟨_, -, ⟨sent, -⟩, -⟩ := fires
  have processed := lt.trans_le (l.sender.numTokensToIssue_le cfg false prev)
  rw [Sender.numTokensProcessed] at processed
  refine ⟨?_, ?_, ?_, fun f => ?_⟩
  · -- the chunk ends before the ring does
    rw [Sender.numTokensToIssue, if_neg Bool.false_ne_true] at lt
    have inside := lt.trans_le (min_le_right _ _)
    have slot := slot_of_base phase (ring.coordPrev prev read) (l.sender.lastIssuedTail + 1)
    dsimp only
    rw [← Nat.add_assoc, ← Nat.mod_add_mod, ← slot, Nat.mod_eq_of_lt (by omega)]
  · rintro (before | ⟨here, -⟩ | ⟨j', same, issued⟩)
    · dsimp only at before
      omega
    · dsimp only at here
      omega
    · rw [if_neg Bool.false_ne_true] at issued
      dsimp only at same
      omega
  · rw [Sender.sent, if_pos sent]
    dsimp only
    omega
  · have released := inv.sender.window.below (l.sender.lastIssuedTail + j) (by omega)
    have gate := (inv.sender.staged _ (inv.sender.released _ released)).2
    have read := inv.head_le_read f
    dsimp only
    omega

/-- **Everything that is put fits.** -/
theorem fits_of_step {backward : Bool} {e : Sender.Event} {s : Sender}
    (waited : backward = false → ∀ f, t.base i ≤ l.read t k f)
    (orderly : l.Orderly cfg t backward i k (.sender e))
    (fires : l.sender.step cfg t own i l.rdmaChannelHead e = some s) :
    ∀ put ∈ l.sender.puts cfg t own i e, l.Fits cfg t own i k put := by
  intro put mem
  cases e with
  | stage w j =>
      cases own with
      | false => exact absurd mem List.not_mem_nil
      | true =>
          cases read : l.sender.prevHead w with
          | none => simp [Sender.puts, read] at mem
          | some prev =>
              simp only [Sender.puts, read, List.mem_singleton] at mem
              exact mem ▸ fits_stage inv phase read fires
  | header =>
      cases read : l.sender.coordPrev with
      | none => simp [Sender.puts, read] at mem
      | some prev =>
          simp only [Sender.puts, read, List.mem_singleton] at mem
          refine mem ▸ fits_header inv ring phase read fires fun f => ?_
          cases backward with
          | false => exact (waited rfl f).trans_lt (Nat.lt_add_of_pos_right Config.rdmaRecv_pos)
          | true => exact orderly rfl f
  | issue =>
      cases own with
      | true => exact absurd mem List.not_mem_nil
      | false =>
          cases read : l.sender.coordPrev with
          | none => simp [Sender.puts, read] at mem
          | some prev =>
              simp only [Sender.puts, read, List.mem_map, List.mem_range] at mem
              obtain ⟨j, lt, rfl⟩ := mem
              exact fits_issue inv ring phase read fires lt
  | readPrev w => exact absurd mem List.not_mem_nil
  | look w => exact absurd mem List.not_mem_nil
  | release w j => exact absurd mem List.not_mem_nil
  | writeback w => exact absurd mem List.not_mem_nil
  | coordReadPrev => exact absurd mem List.not_mem_nil

end Puts

/-- What a step puts has been put. -/
theorem put_of_mem {e : Sender.Event} {s : Sender}
    (fires : l.sender.step cfg t own i l.rdmaChannelHead e = some s) {put : ℕ × ℕ}
    (mem : put ∈ l.sender.puts cfg t own i e) : s.Put t own i put.2 := by
  cases e with
  | stage w j =>
      simp only [Sender.step, Option.bind_eq_some_iff, Option.ite_none_right_eq_some,
        Option.some.injEq] at fires
      obtain ⟨cached, -, -, rfl⟩ := fires
      cases own with
      | false => exact absurd mem List.not_mem_nil
      | true =>
          cases read : l.sender.prevHead w with
          | none => simp [Sender.puts, read] at mem
          | some prev =>
              simp only [Sender.puts, read, List.mem_singleton] at mem
              refine Or.inr (Or.inr ⟨j, mem ▸ rfl, ?_⟩)
              rw [if_pos rfl]
              exact update_self _ _ _
  | header =>
      simp only [Sender.step, Option.ite_none_right_eq_some, Option.some.injEq] at fires
      obtain ⟨-, rfl⟩ := fires
      cases read : l.sender.coordPrev with
      | none => simp [Sender.puts, read] at mem
      | some prev =>
          simp only [Sender.puts, read, List.mem_singleton] at mem
          exact Or.inr (Or.inl ⟨mem ▸ rfl, rfl⟩)
  | issue =>
      simp only [Sender.step, Option.bind_eq_some_iff, Option.ite_none_right_eq_some,
        Option.some.injEq] at fires
      obtain ⟨prev, read, -, rfl⟩ := fires
      cases own with
      | true => exact absurd mem List.not_mem_nil
      | false =>
          simp only [Sender.puts, read, List.mem_map, List.mem_range] at mem
          obtain ⟨j, lt, rfl⟩ := mem
          refine Or.inr (Or.inr ⟨l.sender.lastIssuedTail + j, by dsimp only; omega, ?_⟩)
          rw [if_neg Bool.false_ne_true]
          exact Nat.add_lt_add_left lt _
  | readPrev w => exact absurd mem List.not_mem_nil
  | look w => exact absurd mem List.not_mem_nil
  | release w j => exact absurd mem List.not_mem_nil
  | writeback w => exact absurd mem List.not_mem_nil
  | coordReadPrev => exact absurd mem List.not_mem_nil

/-- What has been put stays put. -/
theorem put_mono {e : Sender.Event} {s s' : Sender} (progress : s.Progress cfg own s' e) {q : ℕ}
    (put : s.Put t own i q) : s'.Put t own i q := by
  rcases put with before | ⟨here, sent⟩ | ⟨j, here, done⟩
  · exact Or.inl before
  · exact Or.inr (Or.inl ⟨here, progress.headerSent sent⟩)
  · refine Or.inr (Or.inr ⟨j, here, ?_⟩)
    split_ifs at done ⊢
    · exact progress.staged j done
    · exact done.trans_le progress.lastIssuedTail

/-- A slot holds what a step puts there or what it held before. -/
theorem putAll_cases {puts : List (ℕ × ℕ)} {ring : ℕ → Option ℕ} {slot q : ℕ}
    (holds : putAll puts ring slot = some q) : (slot, q) ∈ puts ∨ ring slot = some q := by
  have cases := Store.run_cases (β := fun _ => Option ℕ) (puts.map fun put => ⟨put.1, some put.2⟩)
    ring slot
  rcases cases with stored | kept
  · obtain ⟨put, mem, same⟩ := List.mem_map.1 stored
    obtain ⟨slot_eq, value⟩ := Sigma.mk.inj same
    have q_eq := Option.some.inj ((eq_of_heq value).trans holds)
    exact Or.inl (by rwa [← slot_eq, ← q_eq])
  · exact Or.inr (kept.symm.trans holds)

/-- What has been read grows. -/
theorem consumed_mono {e : Forwarder.Event} {f' : Forwarder}
    (fires : l.forwarder.step cfg l.rdmaChannelTail e = some f') (f) :
    l.forwarder.consumed f ≤ f'.consumed f := by
  have progress := Forwarder.progress fires
  rw [Forwarder.consumed, Forwarder.consumed]
  split_ifs with unread unread' unread'
  · exact le_rfl
  · exact Nat.zero_le _
  · exact absurd unread' (progress.recvCount f unread)
  · exact max_le_max_left 1 (progress.head f)

theorem read_le_of_step {e : Event} (fires : l.step cfg t own i e = some l') (f) :
    l.read t k f ≤ l'.read t k f := by
  cases e with
  | sender e =>
      simp only [Link.step, Option.map_eq_some_iff] at fires
      obtain ⟨s, -, rfl⟩ := fires
      exact le_rfl
  | forwarder e =>
      simp only [Link.step, Option.map_eq_some_iff] at fires
      obtain ⟨f', fires, rfl⟩ := fires
      exact Nat.add_le_add_left (consumed_mono fires f) _
  | landTail j =>
      simp only [Link.step, Option.map_eq_some_iff] at fires
      obtain ⟨n, -, rfl⟩ := fires
      exact le_rfl
  | landCredit j =>
      simp only [Link.step, Option.map_eq_some_iff] at fires
      obtain ⟨n, -, rfl⟩ := fires
      exact le_rfl

/-- **Every step on a ring keeps what it holds.** -/
theorem RingInv.step {backward : Bool} {e : Event} (ring : l.RingInv cfg t own i k)
    (inv : l.Inv cfg t i k)
    (phase : cfg.numMaxRdmaChunkedRecvTokens ∣ 2 ^ 32 ∨ t.base i < 2 ^ 32)
    (waited : backward = false → ∀ f, t.base i ≤ l.read t k f)
    (orderly : l.Orderly cfg t backward i k e) (fires : l.step cfg t own i e = some l') :
    l'.RingInv cfg t own i k := by
  cases e with
  | sender e =>
      simp only [Link.step, Option.map_eq_some_iff] at fires
      obtain ⟨s, fires, rfl⟩ := fires
      have progress := Sender.progress fires
      have fits := fits_of_step inv ring phase waited orderly fires
      refine ⟨fun prev read => ?_, fun slot q holds => ?_, fun slot q holds => ?_,
        fun slot q holds => ?_⟩
      · rcases progress.coordPrev with same | ⟨rfl, new⟩
        · exact ring.coordPrev prev (same.symm.trans read)
        · rw [← Option.some.inj (new.symm.trans read)]
          exact inv.sender.before orderly
      · rcases putAll_cases holds with new | old
        · exact (fits _ new).slot
        · exact ring.slot slot q old
      · rcases putAll_cases holds with new | old
        · exact put_of_mem fires new
        · exact put_mono progress (ring.put slot q old)
      · rcases putAll_cases holds with new | old
        · exact (fits _ new).room
        · exact ring.room slot q old
  | forwarder e =>
      have grows := read_le_of_step (t := t) (k := k) fires
      simp only [Link.step, Option.map_eq_some_iff] at fires
      obtain ⟨f', fires, rfl⟩ := fires
      refine ⟨ring.coordPrev, ring.slot, ring.put, fun slot q holds f => ?_⟩
      exact (ring.room slot q holds f).trans_le (Nat.add_le_add_right (grows f) _)
  | landTail j =>
      simp only [Link.step, Option.map_eq_some_iff] at fires
      obtain ⟨n, -, rfl⟩ := fires
      exact ⟨ring.coordPrev, ring.slot, ring.put, ring.room⟩
  | landCredit j =>
      simp only [Link.step, Option.map_eq_some_iff] at fires
      obtain ⟨n, -, rfl⟩ := fires
      exact ⟨ring.coordPrev, ring.slot, ring.put, ring.room⟩

theorem Inv.read_le_next (inv : l.Inv cfg t i k) (f) : l.read t k f ≤ t.base (k + 1) := by
  have head := inv.forwarder.head_le f
  have succ := t.base_succ k
  rw [read, Forwarder.consumed]
  split_ifs <;> omega

theorem RingInv.nextSender (ring : l.RingInv cfg t own i k) (inv : l.Inv cfg t i k)
    (done : l.sender.Done t i) : l.nextSender.RingInv cfg t own (i + 1) k where
  coordPrev _ read := by cases read
  slot := ring.slot
  put slot q holds := by
    left
    have succ := t.base_succ i
    rcases ring.put slot q holds with before | ⟨rfl, -⟩ | ⟨j, rfl, put⟩
    · omega
    · omega
    · have lt : j < t.numTokens i := by
        split_ifs at put
        · exact (inv.sender.staged j put).1
        · exact put.trans_eq done.2.2
      omega
  room := ring.room

theorem RingInv.nextForwarder (ring : l.RingInv cfg t own i k) (inv : l.Inv cfg t i k) :
    l.nextForwarder.RingInv cfg t own i (k + 1) where
  coordPrev := ring.coordPrev
  slot := ring.slot
  put := ring.put
  room slot q holds f :=
    (ring.room slot q holds f).trans_le (Nat.add_le_add_right (inv.read_le_next f) _)

end Link

/-! ### All rings -/

variable {n : ℕ} {work : Workload n}

namespace Links

/-- The conditions on a step: those for the counters, and those on the coordinator. -/
def Orderly (cfg : Config) (work : Workload n) (s : Links n) (e : Event n) : Prop :=
  s.Regular work e ∧
    match e with
    | .link v w e => (s.link v w).Orderly cfg (work.traffic v w) (work.backward (s.iter v))
        (s.iter v) (s.iter w) e
    | .next _ => True

/-- What a ring holds; and a dispatch has waited for its destination. -/
structure RingsInv (cfg : Config) (work : Workload n) (own : Bool) (t : Traffic) (i k : ℕ)
    (l : Link) : Prop where
  inv : l.Inv cfg t i k
  ring : l.RingInv cfg t own i k
  waited : work.backward i = false → ∀ f, t.base i ≤ l.read t k f
  started : i < work.count

theorem start_rings (cfg : Config) (work : Workload n) (own : Bool) (t : Traffic) :
    RingsInv cfg work own t 0 0 .start where
  inv := Link.start_inv
  ring :=
    { coordPrev := fun _ read => by cases read
      slot := fun _ _ holds => by cases holds
      put := fun _ _ holds => by cases holds
      room := fun _ _ holds => by cases holds }
  waited _ _ := Nat.zero_le _
  started := work.count_pos

section Phase

variable (phase : cfg.numMaxRdmaChunkedRecvTokens ∣ 2 ^ 32 ∨
  ∀ v w, ∀ i < work.count, (work.traffic v w).base i < 2 ^ 32)

include phase

theorem step_rings {s s' : Links n} {e : Event n}
    (inv : ∀ a b, RingsInv cfg work (decide (a = b)) (work.traffic a b) (s.iter a) (s.iter b)
      (s.link a b))
    (orderly : s.Orderly cfg work e) (fires : s.step cfg work e = some s') (a b : Fin n) :
    RingsInv cfg work (decide (a = b)) (work.traffic a b) (s'.iter a) (s'.iter b)
      (s'.link a b) := by
  cases e with
  | link v w e =>
      simp only [step, Option.map_eq_some_iff] at fires
      obtain ⟨l, fires, rfl⟩ := fires
      have old := inv v w
      have near := phase.imp_right fun all => all v w _ old.started
      refine link_rule (P := fun a b l => RingsInv cfg work (decide (a = b)) (work.traffic a b)
        (s.iter a) (s.iter b) l) inv ?_ a b
      refine ⟨Link.step_inv old.inv orderly.1 fires,
        old.ring.step old.inv near old.waited orderly.2 fires, fun forward f => ?_, old.started⟩
      exact (old.waited forward f).trans (Link.read_le_of_step fires f)
  | next v =>
      simp only [step, Option.ite_none_right_eq_some, Option.some.injEq] at fires
      obtain ⟨⟨ended, more, synced⟩, rfl⟩ := fires
      refine next_rule (P := fun a b i k l => RingsInv cfg work (decide (a = b))
        (work.traffic a b) i k l) inv (fun b => ?_) (fun a i l same old => ?_) a b
      · have old := inv v b
        refine ⟨old.inv.nextSender (ended b).1, old.ring.nextSender old.inv (ended b).1,
          fun forward f => ?_, more⟩
        -- the metadata kernel has waited for node `b`
        rcases synced forward b with later | ⟨same, through⟩
        · exact ((work.traffic v b).base_mono later).trans (Nat.le_add_right _ _)
        · have drained := old.inv.drained (through v).2 f
          have behind := old.inv.forwarder.head_le_consumed f
          rw [Iterations.base_succ, ← same, ← drained]
          exact Nat.add_le_add_left behind _
      · have done : l.forwarder.Done := same ▸ (ended a).2
        refine ⟨old.inv.nextForwarder done, old.ring.nextForwarder old.inv,
          fun forward f => ?_, old.started⟩
        exact (old.waited forward f).trans (old.inv.read_le_next f)

end Phase

end Links

/-- **A put overwrites only what has been drained**, in every run that meets the
conditions. -/
theorem puts_safe (cfg : Config) (work : Workload n)
    (phase : cfg.numMaxRdmaChunkedRecvTokens ∣ 2 ^ 32 ∨
      ∀ v w, ∀ i < work.count, (work.traffic v w).base i < 2 ^ 32)
    {s s' : Links n} (reach : (dispatchLinks cfg work).ReachableUnder (Links.Orderly cfg work) s)
    {v w : Fin n} {e : Sender.Event} (orderly : s.Orderly cfg work (.link v w (.sender e)))
    (fires : (dispatchLinks cfg work).step s (.link v w (.sender e)) = some s') :
    (s.link v w).PutSafe cfg (work.traffic v w) (decide (v = w)) (s.iter v) (s.iter w) e := by
  have inv : ∀ a b, Links.RingsInv cfg work (decide (a = b)) (work.traffic a b) (s.iter a)
      (s.iter b) (s.link a b) :=
    reach.invariant (fun a b => Links.start_rings cfg work _ _) fun s e s' inv orderly fires =>
      Links.step_rings phase inv orderly fires
  simp only [dispatchLinks, Links.step, Link.step, Option.map_eq_some_iff] at fires
  obtain ⟨_, ⟨_, fires, -⟩, -⟩ := fires
  have here := inv v w
  have near := phase.imp_right fun all => all v w _ here.started
  intro put mem q holds f
  exact (Link.fits_of_step here.inv here.ring near here.waited orderly.2 fires put mem).safe
    here.inv here.ring holds f

/-! ### A full ring, and a dispatch_grads -/

section Example

open Links

instance (b : Bool) (l : Link) : (e : Link.Event) → Decidable (l.Orderly cfg t b i k e)
  | .sender .coordReadPrev => inferInstanceAs (Decidable (∀ w, l.sender.wroteHead w = false))
  | .sender .header => inferInstanceAs (Decidable (b = true →
      ∀ f, t.base i < l.read t k f + cfg.numMaxRdmaChunkedRecvTokens))
  | .sender (.readPrev _) | .sender (.look _) | .sender (.stage ..) | .sender (.release ..)
  | .sender (.writeback _) | .sender .issue | .forwarder _ | .landTail _ | .landCredit _ =>
      isTrue trivial

instance (s : Links n) : (e : Links.Event n) → Decidable (s.Orderly cfg work e)
  | .link v w e => inferInstanceAs (Decidable (s.Regular work (.link v w e) ∧
      (s.link v w).Orderly cfg (work.traffic v w) (work.backward (s.iter v)) (s.iter v)
        (s.iter w) e))
  | .next v => inferInstanceAs (Decidable (s.Regular work (.next v) ∧ True))

/-- All that the first node has to do in its first kernel. -/
def firstKernel : List (Links.Event 2) :=
  sends firstNode secondNode ++ sends firstNode firstNode ++ drains firstNode firstNode ++
    sends secondNode firstNode ++ drains secondNode firstNode

/-- The first node starts its dispatch_grads, up to the header. -/
def secondKernel : List (Links.Event 2) :=
  [.next firstNode, .link firstNode secondNode (.sender .coordReadPrev)]

theorem oneToken_phase : tightConfig.numMaxRdmaChunkedRecvTokens ∣ 2 ^ 32 ∨
    ∀ v w, ∀ i < oneToken.count, (oneToken.traffic v w).base i < 2 ^ 32 :=
  Or.inl (Dvd.intro (2 ^ 31) (by decide))

/-- When the second node has drained its token, the header of the dispatch_grads goes to the
slot of the first header. -/
theorem oneToken_safe : ∃ s s',
    (dispatchLinks tightConfig oneToken).ReachableUnder (Orderly tightConfig oneToken) s ∧
      (dispatchLinks tightConfig oneToken).step s (.link 0 1 (.sender .header)) = some s' ∧
      (s.link 0 1).ring 0 = some 0 ∧
      (0, 2) ∈ (s.link 0 1).sender.puts tightConfig (oneToken.traffic 0 1) false 1 .header ∧
      (s.link 0 1).PutSafe tightConfig (oneToken.traffic 0 1) (decide ((0 : Fin 2) = 1))
        (s.iter 0) (s.iter 1) .header := by
  have replays : ((dispatchLinks tightConfig oneToken).runUnder (Orderly tightConfig oneToken)
      (dispatchLinks tightConfig oneToken).init (firstKernel ++ drains 0 1 ++ secondKernel)).any
      (fun s => decide (((dispatchLinks tightConfig oneToken).step s
          (.link 0 1 (.sender .header))).isSome = true ∧
        s.Orderly tightConfig oneToken (.link 0 1 (.sender .header)) ∧
        (s.link 0 1).ring 0 = some 0 ∧
        (0, 2) ∈ (s.link 0 1).sender.puts tightConfig (oneToken.traffic 0 1) false 1 .header))
      = true := by
    decide +kernel
  obtain ⟨s, replay, facts⟩ := (Option.any_eq_true _ _).1 replays
  obtain ⟨enabled, orderly, holds, mem⟩ := of_decide_eq_true facts
  obtain ⟨s', fires⟩ := Option.isSome_iff_exists.1 enabled
  have reach := TransitionSystem.ReachableUnder.init.run replay
  exact ⟨s, s', reach, fires, holds, mem,
    puts_safe tightConfig oneToken oneToken_phase reach orderly fires⟩

/-- When it has not, the header overwrites it. -/
theorem backToBack_overwrites :
    ¬∀ s s', (dispatchLinks tightConfig oneToken).Reachable s → ∀ v w e,
      (dispatchLinks tightConfig oneToken).step s (.link v w (.sender e)) = some s' →
        (s.link v w).PutSafe tightConfig (oneToken.traffic v w) (decide (v = w)) (s.iter v)
          (s.iter w) e := by
  intro safe
  have replays : ((dispatchLinks tightConfig oneToken).run
      (dispatchLinks tightConfig oneToken).init (firstKernel ++ secondKernel)).any
      (fun s => decide (((dispatchLinks tightConfig oneToken).step s
          (.link 0 1 (.sender .header))).isSome = true ∧
        (s.link 0 1).ring 0 = some 0 ∧
        (0, 2) ∈ (s.link 0 1).sender.puts tightConfig (oneToken.traffic 0 1)
          (decide ((0 : Fin 2) = 1)) (s.iter 0) .header ∧
        (s.link 0 1).read (oneToken.traffic 0 1) (s.iter 1) 0 = 0)) = true := by
    decide +kernel
  obtain ⟨s, replay, facts⟩ := (Option.any_eq_true _ _).1 replays
  obtain ⟨enabled, holds, mem, unread⟩ := of_decide_eq_true facts
  obtain ⟨s', fires⟩ := Option.isSome_iff_exists.1 enabled
  have read := safe s s' (TransitionSystem.Reachable.init.run replay) 0 1 .header fires _ mem 0
    holds 0
  rw [unread] at read
  exact lt_irrefl 0 read

end Example

end StreamEP.Internode
