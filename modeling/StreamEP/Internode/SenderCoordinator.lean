import Mathlib.Algebra.BigOperators.Fin
import StreamEP.Config
import StreamEP.Lib.TransitionSystem
import StreamEP.Lib.Store

/-!
# The coordinator of the RDMA senders

In a channel of dispatch one warp issues what the sender warps have staged.  As long as a node
has tokens left it goes round all nodes; for each it reads how many tokens are staged, and
issues a chunk of them when the chunk is full or the last one.  A put to another node is cut at
the physical end of the ring, what is left of it is issued on a later round.

The sender warps publish their progress at any time between two steps of the coordinator.

**The system.**  A step of the coordinator is the head of its loop or one visit to a node, and
`CoordinatorPc` says which comes next.  What it has issued is kept as a list of chunks for every
node (`Chunk`), each with its first position and length, and for a put its first slot; a copy
within the node has none.

**A visit.**  All that a visit can do is said once, in `visit_cases`: nothing, or issue a chunk
that follows what has been issued, is staged, and whose put stays inside the ring
(`ChunkFits`).  The invariant has the books of every lane (`LaneInv`) and a property of every
chunk that was issued (`ChunkOk`), and both are kept by any chunk that fits.

**Progress.**  When everything is staged, a visit issues something for a node that has tokens
left (`visit_allStaged`).  So a pass over the nodes ends with fewer tokens than it started with
(`pass`), and the coordinator leaves its loop (`leads_exited_of_loop`), by induction on the
tokens left.

`coordinator_issues_once`: at any time the chunks of a node are its first tokens in order, all of
them staged, and when the coordinator has left its loop they are all the tokens.
-/

namespace StreamEP.Internode

open Function Finset

/-- What a coordinator finds when it starts. -/
structure SendPlan (n : ℕ) where
  cfg : Config
  channelId : ℕ
  rdmaRank : Fin n
  /-- The tokens of the channel for each node, from `rdma_channel_prefix_matrix`. -/
  numTokens : Fin n → ℕ
  /-- `coord_phase_base` -/
  coordPhaseBase : Fin n → ℕ

/-- What the coordinator issues at once. -/
structure Chunk where
  /-- `synced_last_issued_tail`: the position of the first token. -/
  first : ℕ
  /-- `num_tokens_to_issue` -/
  len : ℕ
  /-- `dst_slot_idx` of the put; there is none to the own node. -/
  slot : Option ℕ
  deriving DecidableEq

/-- The positions of a chunk. -/
def Chunk.positions (c : Chunk) : List ℕ := List.range' c.first c.len

/-- Where the coordinator is. -/
inductive CoordinatorPc where
  /-- At the condition of the outer loop. -/
  | loop
  /-- At the start of round `i` of the inner loop. -/
  | visit (i : ℕ)
  | exited
  /-- A device assertion has failed. -/
  | trapped
  deriving DecidableEq

/-- The coordinator, and the tails it reads. -/
structure SenderCoordinator (n : ℕ) where
  /-- `rdma_send_channel_tail` -/
  rdmaSendChannelTail : Fin n → ℕ
  pc : CoordinatorPc
  /-- `last_issued_tail` of each lane -/
  lastIssuedTail : Fin n → ℕ
  /-- `num_tokens_to_send` of each lane -/
  numTokensToSend : Fin n → ℤ
  /-- What has been issued for each node, first to last. -/
  chunks : Fin n → List Chunk

namespace SenderCoordinator

variable {n : ℕ} (plan : SendPlan n)

/-- The start of the loop. -/
def start : SenderCoordinator n where
  rdmaSendChannelTail _ := 0
  pc := .loop
  lastIssuedTail _ := 0
  numTokensToSend d := plan.numTokens d
  chunks _ := []

inductive Event (n : ℕ) where
  /-- The sender warps have staged the first `tail` tokens for a node. -/
  | publish (d : Fin n) (tail : ℕ)
  /-- The coordinator goes on. -/
  | advance

/-- `dst_rdma_rank` of round `i` -/
def dstRdmaRank (i : ℕ) : Fin n :=
  ⟨(i + plan.channelId + plan.rdmaRank) % n, Nat.mod_lt _ plan.rdmaRank.pos⟩

/-- The slot of a token position. -/
def tokenSlot (d : Fin n) (j : ℕ) : ℕ :=
  (j + 1 + plan.coordPhaseBase d) % plan.cfg.numMaxRdmaChunkedRecvTokens

/-- Issue `numTokensToIssue` tokens to a node. -/
def issue (s : SenderCoordinator n) (d : Fin n) (numTokensToIssue : ℕ) (slot : Option ℕ) :
    SenderCoordinator n :=
  { s with
    lastIssuedTail := update s.lastIssuedTail d (s.lastIssuedTail d + numTokensToIssue)
    numTokensToSend := update s.numTokensToSend d (s.numTokensToSend d - numTokensToIssue)
    chunks :=
      update s.chunks d (s.chunks d ++ [⟨s.lastIssuedTail d, numTokensToIssue, slot⟩]) }

/-- The body of the inner loop. -/
def visit (s : SenderCoordinator n) (d : Fin n) : SenderCoordinator n :=
  if s.numTokensToSend d = 0 then s
  else
    let numTokensProcessed : ℤ := s.rdmaSendChannelTail d - s.lastIssuedTail d
    if numTokensProcessed ≠ s.numTokensToSend d ∧
        numTokensProcessed < plan.cfg.numMaxRdmaChunkedSendTokens then s
    else
      let numTokensToIssue := min numTokensProcessed plan.cfg.numMaxRdmaChunkedSendTokens
      if ¬(0 ≤ numTokensToIssue ∧ numTokensToIssue ≤ s.numTokensToSend d) then
        { s with pc := .trapped }
      else if d ≠ plan.rdmaRank then
        let dstSlotIdx := tokenSlot plan d (s.lastIssuedTail d)
        -- never over the end of the ring
        s.issue d
          (min numTokensToIssue.toNat (plan.cfg.numMaxRdmaChunkedRecvTokens - dstSlotIdx))
          (some dstSlotIdx)
      else s.issue d numTokensToIssue.toNat none

/-- A step.  What is staged for a node only grows, up to the tokens there are. -/
def step (s : SenderCoordinator n) : Event n → Option (SenderCoordinator n)
  | .publish d tail =>
      if s.rdmaSendChannelTail d < tail ∧ tail ≤ plan.numTokens d then
        some { s with rdmaSendChannelTail := update s.rdmaSendChannelTail d tail }
      else none
  | .advance =>
      match s.pc with
      | .loop =>
          if ∃ d, 0 < s.numTokensToSend d then some { s with pc := .visit 0 }
          else some { s with pc := .exited }
      | .visit i =>
          if i < n then
            some (visit plan { s with pc := .visit (i + 1) } (dstRdmaRank plan i))
          else some { s with pc := .loop }
      | .exited => none
      | .trapped => none

end SenderCoordinator

/-- The coordinator of a channel and the sender warps. -/
def senderCoordinator {n : ℕ} (plan : SendPlan n) :
    TransitionSystem (SenderCoordinator n) (SenderCoordinator.Event n) where
  init := .start plan
  step := SenderCoordinator.step plan

namespace SenderCoordinator

variable {n : ℕ} {plan : SendPlan n}

/-! ### What a visit does -/

/-- The books of a lane: what is issued is staged, and the rest is counted. -/
structure LaneInv (plan : SendPlan n) (s : SenderCoordinator n) (d : Fin n) : Prop where
  issued_le : s.lastIssuedTail d ≤ s.rdmaSendChannelTail d
  staged_le : s.rdmaSendChannelTail d ≤ plan.numTokens d
  rest : s.numTokensToSend d = (plan.numTokens d : ℤ) - s.lastIssuedTail d

/-- A chunk that follows the issued tokens, is staged, and whose put stays inside the ring. -/
structure ChunkFits (plan : SendPlan n) (s : SenderCoordinator n) (d : Fin n) (len : ℕ)
    (slot : Option ℕ) : Prop where
  len_pos : 0 < len
  staged : s.lastIssuedTail d + len ≤ s.rdmaSendChannelTail d
  own : d = plan.rdmaRank → slot = none
  other : d ≠ plan.rdmaRank →
    slot = some (tokenSlot plan d (s.lastIssuedTail d)) ∧
      tokenSlot plan d (s.lastIssuedTail d) + len ≤ plan.cfg.numMaxRdmaChunkedRecvTokens

theorem tokenSlot_lt (d : Fin n) (j : ℕ) :
    tokenSlot plan d j < plan.cfg.numMaxRdmaChunkedRecvTokens :=
  Nat.mod_lt _ (Nat.zero_lt_of_lt plan.cfg.rdmaSend_lt_recv)

/-- A visit changes nothing, or issues a chunk that fits; when everything is staged it issues
whenever something is left. -/
theorem visit_cases {s : SenderCoordinator n} {d : Fin n} (inv : s.LaneInv plan d) :
    (visit plan s d = s ∧
        (s.numTokensToSend d = 0 ∨ s.rdmaSendChannelTail d ≠ plan.numTokens d)) ∨
      ∃ len slot, visit plan s d = s.issue d len slot ∧ ChunkFits plan s d len slot := by
  obtain ⟨issued_le, staged_le, rest⟩ := inv
  have chunk_pos := plan.cfg.rdmaSend_pos
  have slot_lt : tokenSlot plan d (s.lastIssuedTail d) < _ := tokenSlot_lt d _
  dsimp only [visit]
  split_ifs with through waits fits other
  · exact Or.inl ⟨rfl, Or.inl through⟩
  · refine Or.inl ⟨rfl, Or.inr ?_⟩
    intro all
    rw [all, rest] at waits
    exact waits.1 rfl
  · refine Or.inr ⟨_, _, rfl, ?_, ?_, fun own => absurd own other, fun _ => ⟨rfl, ?_⟩⟩
    · omega
    · omega
    · omega
  · refine Or.inr ⟨_, _, rfl, ?_, ?_, fun _ => rfl, fun different => absurd different other⟩
    · omega
    · omega
  · -- what is staged is at most what is left
    refine absurd ⟨?_, ?_⟩ fits
    · omega
    · exact (min_le_left _ _).trans (by omega)

/-! ### The invariant -/

/-- A chunk that was issued: it is not empty, and a put takes the slots of its tokens, which do
not run over the end of the ring. -/
structure ChunkOk (plan : SendPlan n) (d : Fin n) (c : Chunk) : Prop where
  len_pos : 0 < c.len
  own : d = plan.rdmaRank → c.slot = none
  other : d ≠ plan.rdmaRank → ∃ slot, c.slot = some slot ∧
    slot + c.len ≤ plan.cfg.numMaxRdmaChunkedRecvTokens ∧
    ∀ k < c.len, tokenSlot plan d (c.first + k) = slot + k

/-- What holds whenever the coordinator is between two steps. -/
structure Inv (plan : SendPlan n) (s : SenderCoordinator n) : Prop where
  lanes : ∀ d, s.LaneInv plan d
  inOrder : ∀ d, (s.chunks d).flatMap Chunk.positions = List.range' 0 (s.lastIssuedTail d)
  chunksOk : ∀ d, ∀ c ∈ s.chunks d, ChunkOk plan d c
  round_le : ∀ i, s.pc = .visit i → i ≤ n
  live : s.pc ≠ .trapped
  exited : s.pc = .exited → ∀ d, s.numTokensToSend d = 0

theorem start_inv : (start plan).Inv plan where
  lanes d := ⟨Nat.le_refl 0, Nat.zero_le _, (sub_zero _).symm⟩
  inOrder _ := rfl
  chunksOk _ _ mem := absurd mem List.not_mem_nil
  round_le := by
    intro i here
    cases here
  live := by
    intro trapped
    cases trapped
  exited := by
    intro ended
    cases ended

/-- Slots go up with the tokens as long as the ring does not end. -/
theorem tokenSlot_add {d : Fin n} {j k : ℕ}
    (inside : tokenSlot plan d j + k < plan.cfg.numMaxRdmaChunkedRecvTokens) :
    tokenSlot plan d (j + k) = tokenSlot plan d j + k := by
  unfold tokenSlot at inside ⊢
  rw [show j + k + 1 + plan.coordPhaseBase d = j + 1 + plan.coordPhaseBase d + k by omega,
    Nat.add_mod, Nat.mod_eq_of_lt (a := k) (by omega), Nat.mod_eq_of_lt inside]

variable {s : SenderCoordinator n} {d : Fin n} {len : ℕ} {slot : Option ℕ}

theorem ChunkFits.ok (fits : ChunkFits plan s d len slot) :
    ChunkOk plan d ⟨s.lastIssuedTail d, len, slot⟩ where
  len_pos := fits.len_pos
  own := fits.own
  other := by
    intro different
    obtain ⟨at_slot, inside⟩ := fits.other different
    refine ⟨_, at_slot, inside, ?_⟩
    intro k hk
    exact tokenSlot_add (lt_of_lt_of_le (Nat.add_lt_add_left hk _) inside)

/-- Issuing a chunk that fits keeps the books of every lane. -/
theorem LaneInv.issue {d' : Fin n} (inv : s.LaneInv plan d')
    (fits : ChunkFits plan s d len slot) : (s.issue d len slot).LaneInv plan d' := by
  by_cases same : d' = d
  · subst same
    have staged := fits.staged
    refine ⟨?_, inv.staged_le, ?_⟩
    · show update s.lastIssuedTail d' _ d' ≤ _
      rw [update_self]
      exact staged
    · show update s.numTokensToSend d' _ d' = _ - ((update s.lastIssuedTail d' _ d' : ℕ) : ℤ)
      rw [update_self, update_self, inv.rest]
      push_cast
      omega
  · refine ⟨?_, inv.staged_le, ?_⟩
    · show update s.lastIssuedTail d _ d' ≤ _
      rw [update_of_ne same]
      exact inv.issued_le
    · show update s.numTokensToSend d _ d' = _ - ((update s.lastIssuedTail d _ d' : ℕ) : ℤ)
      rw [update_of_ne same, update_of_ne same]
      exact inv.rest

/-- Issuing a chunk that fits keeps the invariant, wherever the coordinator goes on. -/
theorem Inv.issue (inv : s.Inv plan) (fits : ChunkFits plan s d len slot)
    (going : ∃ i, s.pc = .visit i) : (s.issue d len slot).Inv plan where
  lanes d' := (inv.lanes d').issue fits
  inOrder := by
    intro d'
    show (update s.chunks d _ d').flatMap _ = List.range' 0 (update s.lastIssuedTail d _ d')
    by_cases same : d' = d
    · subst same
      rw [update_self, update_self, List.flatMap_append, inv.inOrder, List.flatMap_singleton]
      show List.range' 0 _ ++ List.range' _ _ = _
      rw [← List.range'_append_1, Nat.zero_add]
    · rw [update_of_ne same, update_of_ne same, inv.inOrder]
  chunksOk := by
    intro d' c mem
    change c ∈ update s.chunks d _ d' at mem
    by_cases same : d' = d
    · subst same
      rw [update_self, List.mem_append, List.mem_singleton] at mem
      rcases mem with earlier | rfl
      · exact inv.chunksOk d' c earlier
      · exact fits.ok
    · rw [update_of_ne same] at mem
      exact inv.chunksOk d' c mem
  round_le := inv.round_le
  live := inv.live
  exited := by
    obtain ⟨i, here⟩ := going
    intro ended
    change s.pc = .exited at ended
    rw [here] at ended
    cases ended

/-- Moving on within the loops keeps the invariant. -/
theorem Inv.goto (inv : s.Inv plan) {pc : CoordinatorPc}
    (round_le : ∀ i, pc = .visit i → i ≤ n) (live : pc ≠ .trapped)
    (exited : pc = .exited → ∀ d, s.numTokensToSend d = 0) : Inv plan { s with pc := pc } where
  lanes d := ⟨(inv.lanes d).issued_le, (inv.lanes d).staged_le, (inv.lanes d).rest⟩
  inOrder := inv.inOrder
  chunksOk := inv.chunksOk
  round_le := round_le
  live := live
  exited := exited

theorem Inv.publish (inv : s.Inv plan) {tail : ℕ} (more : s.rdmaSendChannelTail d < tail)
    (le : tail ≤ plan.numTokens d) :
    Inv plan { s with rdmaSendChannelTail := update s.rdmaSendChannelTail d tail } where
  lanes := by
    intro d'
    have lane := inv.lanes d'
    by_cases same : d' = d
    · subst same
      refine ⟨?_, ?_, lane.rest⟩
      · show _ ≤ update s.rdmaSendChannelTail d' tail d'
        rw [update_self]
        exact lane.issued_le.trans more.le
      · show update s.rdmaSendChannelTail d' tail d' ≤ _
        rw [update_self]
        exact le
    · refine ⟨?_, ?_, lane.rest⟩
      · show _ ≤ update s.rdmaSendChannelTail d tail d'
        rw [update_of_ne same]
        exact lane.issued_le
      · show update s.rdmaSendChannelTail d tail d' ≤ _
        rw [update_of_ne same]
        exact lane.staged_le
  inOrder := inv.inOrder
  chunksOk := inv.chunksOk
  round_le := inv.round_le
  live := inv.live
  exited := inv.exited

/-- A visit keeps the invariant. -/
theorem Inv.visit (inv : s.Inv plan) (d : Fin n) (going : ∃ i, s.pc = .visit i) :
    (SenderCoordinator.visit plan s d).Inv plan := by
  rcases visit_cases (inv.lanes d) with ⟨same, -⟩ | ⟨len, slot, issued, fits⟩
  · rw [same]
    exact inv
  · rw [issued]
    exact inv.issue fits going

theorem step_inv {e : Event n} {s' : SenderCoordinator n} (inv : s.Inv plan)
    (fires : (senderCoordinator plan).step s e = some s') : s'.Inv plan := by
  change step plan s e = some s' at fires
  cases e with
  | publish d tail =>
    dsimp only [step] at fires
    split_ifs at fires with allowed
    cases fires
    exact inv.publish allowed.1 allowed.2
  | advance =>
    dsimp only [step] at fires
    split at fires
    case h_1 =>
      split_ifs at fires with left
      · cases fires
        refine inv.goto ?_ (fun h => nomatch h) (fun h => nomatch h)
        intro i first
        cases first
        exact Nat.zero_le n
      · cases fires
        refine inv.goto (fun _ h => nomatch h) (fun h => nomatch h) fun _ d => ?_
        -- nothing is left of any lane, and nothing is overdrawn
        have lane := inv.lanes d
        have none : ¬0 < s.numTokensToSend d := fun some => left ⟨d, some⟩
        have issued := lane.issued_le.trans lane.staged_le
        rw [lane.rest] at none ⊢
        omega
    case h_2 i _ =>
      split_ifs at fires with more
      · cases fires
        have moved : Inv plan { s with pc := .visit (i + 1) } := by
          refine inv.goto ?_ (fun h => nomatch h) (fun h => nomatch h)
          intro i' next
          cases next
          exact more
        exact moved.visit _ ⟨i + 1, rfl⟩
      · cases fires
        exact inv.goto (fun _ h => nomatch h) (fun h => nomatch h) (fun h => nomatch h)
    case h_3 => cases fires
    case h_4 => cases fires

theorem inv_of_reachable (reach : (senderCoordinator plan).Reachable s) : s.Inv plan := by
  refine reach.invariant start_inv ?_
  intro before e after inv fires
  exact step_inv inv fires

/-! ### Progress -/

/-- Every token is staged. -/
def AllStaged (plan : SendPlan n) (s : SenderCoordinator n) : Prop :=
  ∀ d, s.rdmaSendChannelTail d = plan.numTokens d

/-- Tokens that are not issued. -/
def left (plan : SendPlan n) (s : SenderCoordinator n) : ℕ :=
  ∑ d, (plan.numTokens d - s.lastIssuedTail d)

/-- The rounds of the inner loop visit every node. -/
theorem exists_dstRdmaRank (d : Fin n) : ∃ i < n, dstRdmaRank plan i = d := by
  have pos : 0 < n := d.pos
  set shift := (plan.channelId + plan.rdmaRank) % n with shift_def
  have shift_lt : shift < n := Nat.mod_lt _ pos
  refine ⟨(d + (n - shift)) % n, Nat.mod_lt _ pos, ?_⟩
  apply Fin.ext
  show ((d + (n - shift)) % n + plan.channelId + plan.rdmaRank) % n = d
  rw [Nat.add_assoc, Nat.add_mod, Nat.mod_mod, ← shift_def, ← Nat.mod_eq_of_lt shift_lt,
    ← Nat.add_mod, Nat.mod_eq_of_lt shift_lt, show (d : ℕ) + (n - shift) + shift = d + n by omega,
    Nat.add_mod_right, Nat.mod_eq_of_lt d.isLt]

/-- Issuing leaves fewer tokens. -/
theorem left_issue (fits : ChunkFits plan s d len slot) (inv : s.LaneInv plan d) :
    left plan (s.issue d len slot) < left plan s := by
  unfold left
  apply Finset.sum_lt_sum
  · intro d' _
    show _ - update s.lastIssuedTail d _ d' ≤ _
    by_cases same : d' = d
    · subst same
      rw [update_self]
      omega
    · rw [update_of_ne same]
  · refine ⟨d, Finset.mem_univ d, ?_⟩
    show _ - update s.lastIssuedTail d _ d < _
    rw [update_self]
    have pos := fits.len_pos
    have staged := fits.staged.trans inv.staged_le
    omega

/-- With everything staged a round issues from the lane it visits, and leaves the others. -/
theorem visit_allStaged (inv : s.Inv plan) (all : s.AllStaged plan) (d : Fin n) :
    (visit plan s d).AllStaged plan ∧ (visit plan s d).pc = s.pc ∧
      (∀ d', d' ≠ d → (visit plan s d).numTokensToSend d' = s.numTokensToSend d') ∧
      left plan (visit plan s d) ≤ left plan s ∧
      (s.numTokensToSend d ≠ 0 → left plan (visit plan s d) < left plan s) := by
  rcases visit_cases (inv.lanes d) with ⟨same, why⟩ | ⟨len, slot, issued, fits⟩
  · rw [same]
    refine ⟨all, rfl, fun _ _ => rfl, le_rfl, ?_⟩
    intro some
    rcases why with none | waits
    · exact absurd none some
    · exact absurd (all d) waits
  · rw [issued]
    have fewer := left_issue fits (inv.lanes d)
    refine ⟨all, rfl, ?_, fewer.le, fun _ => fewer⟩
    intro d' other
    exact update_of_ne other _ _

/-- The rest of a pass over the nodes, with everything staged: what a node still to be visited
has left makes it end with fewer tokens. -/
theorem pass (todo : ℕ) : ∀ {s : SenderCoordinator n} {i : ℕ}, i + todo = n → s.pc = .visit i →
    s.Inv plan → s.AllStaged plan →
    ∃ s', (senderCoordinator plan).Leads s s' ∧ s'.pc = .loop ∧ s'.Inv plan ∧
      s'.AllStaged plan ∧ left plan s' ≤ left plan s ∧
      ((∃ j, i ≤ j ∧ j < n ∧ s.numTokensToSend (dstRdmaRank plan j) ≠ 0) →
        left plan s' < left plan s) := by
  induction todo with
  | zero =>
    intro s i ends here inv all
    have fires : (senderCoordinator plan).step s .advance = some { s with pc := .loop } := by
      show step plan s .advance = _
      simp only [step, here, if_neg (show ¬i < n by omega)]
    refine ⟨_, .single fires, rfl, step_inv inv fires, all, le_rfl, ?_⟩
    rintro ⟨j, low, high, -⟩
    omega
  | succ todo ih =>
    intro s i ends here inv all
    set d := dstRdmaRank plan i with d_def
    set moved : SenderCoordinator n := { s with pc := .visit (i + 1) } with moved_def
    have fires : (senderCoordinator plan).step s .advance = some (visit plan moved d) := by
      show step plan s .advance = _
      simp only [step, here, if_pos (show i < n by omega)]
      rfl
    have movedInv : moved.Inv plan := by
      refine inv.goto ?_ (fun h => nomatch h) (fun h => nomatch h)
      intro i' next
      cases next
      omega
    obtain ⟨all', pc, others, fewer, less⟩ := visit_allStaged movedInv all d
    obtain ⟨s', leads, atLoop, inv', all'', fewer', less'⟩ :=
      ih (show i + 1 + todo = n by omega) pc (step_inv inv fires) all'
    refine ⟨s', (TransitionSystem.Leads.single fires).trans leads, atLoop, inv', all'',
      fewer'.trans fewer, ?_⟩
    rintro ⟨j, low, high, some⟩
    by_cases mine : s.numTokensToSend d = 0
    · -- this round issued nothing, so the tokens are those of a later one
      have later : dstRdmaRank plan j ≠ d := fun same => some (same ▸ mine)
      have next : i + 1 ≤ j := by
        rcases Nat.lt_or_eq_of_le low with after | now
        · exact after
        · exact absurd (by rw [← now]) later
      refine lt_of_lt_of_le (less' ⟨j, next, high, ?_⟩) fewer
      rw [others _ later]
      exact some
    · exact lt_of_le_of_lt fewer' (less mine)

/-- With everything staged the coordinator leaves its loop. -/
theorem leads_exited_of_loop : ∀ {s : SenderCoordinator n}, s.pc = .loop → s.Inv plan →
    s.AllStaged plan → ∃ s', (senderCoordinator plan).Leads s s' ∧ s'.pc = .exited := by
  intro s
  induction count : left plan s using Nat.strong_induction_on generalizing s with
  | _ count' ih =>
    intro here inv all
    by_cases some : ∃ d, 0 < s.numTokensToSend d
    · have fires : (senderCoordinator plan).step s .advance =
          Option.some { s with pc := .visit 0 } := by
        show step plan s .advance = _
        simp only [step, here, if_pos some]
      obtain ⟨s', leads, atLoop, inv', all', -, less⟩ :=
        pass (s := { s with pc := .visit 0 }) n (Nat.zero_add n) rfl (step_inv inv fires) all
      obtain ⟨d, more⟩ := some
      obtain ⟨j, hj, visits⟩ : ∃ j < n, dstRdmaRank plan j = d := exists_dstRdmaRank d
      have fewer : left plan s' < left plan s := by
        refine less ⟨j, Nat.zero_le j, hj, ?_⟩
        rw [visits]
        exact more.ne'
      obtain ⟨s'', leads', exited⟩ := ih _ (count ▸ fewer) rfl atLoop inv' all'
      exact ⟨s'', ((TransitionSystem.Leads.single fires).trans leads).trans leads', exited⟩
    · refine ⟨{ s with pc := .exited }, .single (e := .advance) ?_, rfl⟩
      show step plan s .advance = Option.some { s with pc := .exited }
      simp only [step, here, if_neg some]

theorem leads_exited (inv : s.Inv plan) (all : s.AllStaged plan) :
    ∃ s', (senderCoordinator plan).Leads s s' ∧ s'.pc = .exited := by
  cases here : s.pc with
  | loop => exact leads_exited_of_loop here inv all
  | visit i =>
    have inRange := inv.round_le i here
    obtain ⟨s', leads, atLoop, inv', all', -, -⟩ :=
      pass (n - i) (show i + (n - i) = n by omega) here inv all
    obtain ⟨s'', leads', exited⟩ := leads_exited_of_loop atLoop inv' all'
    exact ⟨s'', leads.trans leads', exited⟩
  | exited => exact ⟨s, .refl s, here⟩
  | trapped => exact absurd here inv.live

/-- The coordinator issues each staged token once.  At any time the chunks of a node are its
first tokens in order, all of them staged, and no put runs over the end of the ring; no
assertion fails; the loop is left only when every node has all its tokens; and it is left once
they are all staged. -/
theorem coordinator_issues_once (reach : (senderCoordinator plan).Reachable s) :
    (∀ d, (s.chunks d).flatMap Chunk.positions = List.range (s.lastIssuedTail d) ∧
      s.rdmaSendChannelTail d ≤ plan.numTokens d ∧
      ∀ c ∈ s.chunks d, (∀ j ∈ c.positions, j < s.rdmaSendChannelTail d) ∧ ChunkOk plan d c) ∧
    s.pc ≠ .trapped ∧
    (s.pc = .exited → ∀ d, s.numTokensToSend d = 0 ∧
      (s.chunks d).flatMap Chunk.positions = List.range (plan.numTokens d)) ∧
    (s.AllStaged plan → ∃ s', (senderCoordinator plan).Leads s s' ∧ s'.pc = .exited) := by
  have inv := inv_of_reachable reach
  have inOrder (d : Fin n) :
      (s.chunks d).flatMap Chunk.positions = List.range (s.lastIssuedTail d) := by
    rw [inv.inOrder, List.range_eq_range']
  refine ⟨?_, inv.live, ?_, leads_exited inv⟩
  · intro d
    refine ⟨inOrder d, (inv.lanes d).staged_le, ?_⟩
    intro c mem
    refine ⟨?_, inv.chunksOk d c mem⟩
    intro j at_j
    have issued : j ∈ (s.chunks d).flatMap Chunk.positions := List.mem_flatMap.2 ⟨c, mem, at_j⟩
    rw [inOrder, List.mem_range] at issued
    exact lt_of_lt_of_le issued (inv.lanes d).issued_le
  · intro exited d
    have none := inv.exited exited d
    have rest := (inv.lanes d).rest
    refine ⟨none, ?_⟩
    rw [inOrder]
    congr 1
    omega

/-- Two tokens for the other node, whose ring has two slots and is at its second position. -/
def twoTokens : SendPlan 2 where
  cfg := tightConfig
  channelId := 0
  rdmaRank := ⟨0, Nat.two_pos⟩
  numTokens := ![0, 2]
  coordPhaseBase := ![0, 1]

/-- Both are staged at once, and go out in two rounds. -/
theorem coordinator_issues_once_twoTokens :
    ∃ s, (senderCoordinator twoTokens).Reachable s ∧ s.pc = .exited ∧
      (s.chunks 1).flatMap Chunk.positions = [0, 1] := by
  obtain ⟨s, replay, exited⟩ : ∃ s, (senderCoordinator twoTokens).run
      (senderCoordinator twoTokens).init (.publish 1 2 :: List.replicate 9 .advance) = some s ∧
      s.pc = .exited := ⟨_, rfl, rfl⟩
  have reach := TransitionSystem.Reachable.init.run replay
  exact ⟨s, reach, exited, ((coordinator_issues_once reach).2.2.1 exited 1).2⟩

end SenderCoordinator

end StreamEP.Internode
