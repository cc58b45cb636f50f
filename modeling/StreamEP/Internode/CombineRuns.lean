import StreamEP.Internode.CombineHeads
import StreamEP.Internode.CombineLink

/-!
# Combine over many iterations

The combine kernels of all nodes, iteration after iteration: `combineNodes` has a ring for
every pair of nodes (and of each node to itself), of one channel and one local rank.  Before
a combine a node runs a dispatch or a dispatch_grads, which ends only when the headers of all
nodes have arrived, so not before they have come to this iteration as well.

**How far nodes are apart.**  That dependence is all that keeps the nodes together: the combine
of an iteration starts at a node when all others have reached the iteration, not when they have
begun to combine.  So nodes may be one step apart, and `Inv.inStep` says that no forwarder runs
ahead of a node that it forwards to.  `next` is the start of an iteration and changes both sides
of all rings of the node.

**What is delivered.**  The receivers of a node take the entries that dispatch recorded for its
own tokens (`CombineWorkload.delivery`): a different routing in every iteration, with tensors that
held anything before.  The theorems about the rings only know a `Delivery`.

`tail_baseline_exact`: the baseline that receivers find is the number of tokens put so far,
although every warp writes back a tail that may still be moving: the warp that reads the
last token of an iteration finds all of them counted when it exits, and the forwarder's next
combine cannot have started.  `Inv.baseline` has it for every state in which no warp has written
back; the words are compared modulo `2 ^ 32`.

The example has 13 tokens in one iteration and 26 in the next, on rings of two chunks of twelve.
-/

namespace StreamEP.Internode

open Function Finset HeadScan QueuePair

/-! ### What is delivered -/

/-- The iterations of one channel: what each node passes to dispatch, and what it finds in
its tensor of heads before. -/
structure CombineWorkload (sh : NodeShape) (Row Weight : Type) where
  channel : ℕ
  channel_lt : channel < sh.numChannels
  inputs : Fin sh.numRdmaRanks → ℕ → DispatchInputs sh.toShape Row Weight
  uninit : Fin sh.numRdmaRanks → ℕ → ℕ → ℤ
  isInt : ∀ w i, (inputs w i).numTokens < 2 ^ 31

section Delivery

variable {sh : NodeShape} {Row Weight : Type}

theorem channelTokens_le (inp : DispatchInputs sh.toShape Row Weight) (lane c : ℕ) :
    channelTokens inp lane c ≤ inp.numTokens :=
  (Nat.sub_le _ _).trans ((Nat.count_le (p := inp.InNode lane)).trans (channelEnd_le _ _ _))

/-- What node `v` forwards to node `w` in iteration `i`: the tokens of `w` that went to `v`. -/
def CombineWorkload.delivery (cfg : Config) (work : CombineWorkload sh Row Weight)
    (v w : Fin sh.numRdmaRanks) (i : ℕ) : Delivery (numRdmaReceivers sh.numRdmaRanks) where
  plan := receiverPlan (work.inputs w i) v work.channel cfg (work.uninit w i)
  numTokens := channelTokens (work.inputs w i) v work.channel
  isInt := (channelTokens_le _ _ _).trans_lt (work.isInt w i)
  sound := (receiver_shares v.isLt work.channel_lt _).sound receiver_endsAt
  entry_lt _ _ taken := (receiver_shares v.isLt work.channel_lt _).entry_lt taken
  covers := ((receiver_shares v.isLt work.channel_lt _).bounded receiver_endsAt
    (tokenStartIdx_le _ _)).covers

end Delivery

/-! ### The kernels of all nodes -/

variable {n K : ℕ}

/-- The iteration that each node is in, whether its combine has started, and the rings. -/
structure CombineNodes (n K : ℕ) where
  iter : Fin n → ℕ
  combining : Fin n → Bool
  link : Fin n → Fin n → CombineLink K

namespace CombineNodes

inductive Event (n K : ℕ) where
  | link (v w : Fin n) (e : CombineLink.Event K)
  | combine (v : Fin n)
  | next (v : Fin n)

section Step

variable (cfg : Config) (d : Fin n → Fin n → ℕ → Delivery K)

/-- The side of the ring that takes the step is in its combine. -/
def Running (s : CombineNodes n K) (v w : Fin n) : CombineLink.Event K → Prop
  | .forwarder _ => s.combining v = true
  | .receivers _ => s.combining w = true
  | _ => True

instance (s : CombineNodes n K) (v w : Fin n) :
    (e : CombineLink.Event K) → Decidable (s.Running v w e)
  | .forwarder _ => inferInstanceAs (Decidable (s.combining v = true))
  | .receivers _ => inferInstanceAs (Decidable (s.combining w = true))
  | .landPacket _ | .landCredit _ => isTrue trivial

/-- The node's combine has ended: all forwarders and all receivers are through. -/
def Ended (s : CombineNodes n K) (v : Fin n) : Prop :=
  ∀ w, (s.link v w).forwarder.Done (d v w (s.iter v)).numTokens ∧ (s.link w v).receivers.Done

instance (s : CombineNodes n K) (v : Fin n) : Decidable (s.Ended d v) := by
  unfold Ended
  infer_instance

/-- The next iteration of a node starts, with its dispatch. -/
def next (s : CombineNodes n K) (v : Fin n) : CombineNodes n K where
  iter := update s.iter v (s.iter v + 1)
  combining := update s.combining v false
  link a b :=
    let l := if a = v then (s.link a b).nextForwarder else s.link a b
    if b = v then l.nextReceivers (d a b (s.iter v + 1)).plan else l

def step (s : CombineNodes n K) : Event n K → Option (CombineNodes n K)
  | .link v w e =>
      if s.Running v w e then
        ((s.link v w).step cfg (d v w) (decide (v = w)) (s.iter v) (s.iter w) e).map fun l =>
          { s with link := update s.link v (update (s.link v) w l) }
      else none
  | .combine v =>
      -- the dispatch has ended, so the headers of all nodes have arrived
      if s.combining v = false ∧ ∀ w, s.iter v ≤ s.iter w then
        some { s with combining := update s.combining v true }
      else none
  | .next v =>
      if s.combining v = true ∧ s.Ended d v then some (s.next d v) else none

def start : CombineNodes n K where
  iter _ := 0
  combining _ := false
  link v w := .start (d v w 0).plan

end Step

end CombineNodes

/-- Combine and combine_grads on all nodes, over the same rings. -/
def combineNodes (cfg : Config) (d : Fin n → Fin n → ℕ → Delivery K) :
    TransitionSystem (CombineNodes n K) (CombineNodes.Event n K) where
  init := .start d
  step := CombineNodes.step cfg d

/-! ### What every run keeps -/

namespace CombineNodes

variable {cfg : Config} {d : Fin n → Fin n → ℕ → Delivery K} {s s' : CombineNodes n K}

/-- A side that is not in its combine has not begun. -/
structure Quiet (source target : Bool) (l : CombineLink K) : Prop where
  source : source = false → l.forwarder = .start
  target : target = false → ∀ f, l.receivers.wrote f = false

/-- The nodes keep together, and the rings their invariants. -/
structure Inv (cfg : Config) (d : Fin n → Fin n → ℕ → Delivery K) (s : CombineNodes n K) :
    Prop where
  near : ∀ v w, s.combining v = true → s.iter v ≤ s.iter w
  lag : ∀ v w, s.iter v ≤ s.iter w + 1
  quiet : ∀ v w, Quiet (s.combining v) (s.combining w) (s.link v w)
  link : ∀ v w, (s.link v w).Inv cfg (d v w) (s.iter v) (s.iter w)

/-- No forwarder runs ahead of a node that it forwards to. -/
theorem Inv.inStep (inv : s.Inv cfg d) (v w : Fin n) :
    (s.link v w).InStep (s.iter v) (s.iter w) := by
  rcases Nat.lt_or_ge (s.iter w) (s.iter v) with ahead | le
  · refine Or.inr ⟨by have := inv.lag v w; omega, ?_⟩
    cases combining : s.combining v with
    | true => exact absurd (inv.near v w combining) ahead.not_ge
    | false =>
        rw [(inv.quiet v w).source combining]
        rfl
  · exact Or.inl le

theorem start_inv (cfg : Config) (d : Fin n → Fin n → ℕ → Delivery K) :
    (start d).Inv cfg d where
  near _ _ _ := le_rfl
  lag _ _ := Nat.zero_le _
  quiet _ _ := ⟨fun _ => rfl, fun _ _ => rfl⟩
  link v w := CombineLink.start_inv cfg (d v w)

theorem quiet_step {v w : Fin n} {i k : ℕ} {own : Bool} {c : ℕ → Delivery K}
    {e : CombineLink.Event K} {l l' : CombineLink K}
    (quiet : Quiet (s.combining v) (s.combining w) l) (running : s.Running v w e)
    (fires : l.step cfg c own i k e = some l') :
    Quiet (s.combining v) (s.combining w) l' := by
  cases e with
  | forwarder e =>
      simp only [CombineLink.step, Option.map_eq_some_iff] at fires
      obtain ⟨f, -, rfl⟩ := fires
      exact ⟨fun idle => Bool.noConfusion (idle.symm.trans running), quiet.target⟩
  | receivers e =>
      simp only [CombineLink.step, Option.map_eq_some_iff] at fires
      obtain ⟨r, -, rfl⟩ := fires
      exact ⟨quiet.source, fun idle => Bool.noConfusion (idle.symm.trans running)⟩
  | landPacket j =>
      simp only [CombineLink.step, Option.bind_eq_some_iff] at fires
      obtain ⟨packet, -, fires⟩ := fires
      cases packet with
      | put first =>
          obtain rfl := Option.some.inj fires
          exact { quiet with }
      | add m =>
          simp only [CombineLink.land, Option.ite_none_right_eq_some, Option.some.injEq] at fires
          obtain ⟨-, rfl⟩ := fires
          exact { quiet with }
  | landCredit j =>
      simp only [CombineLink.step, Option.map_eq_some_iff] at fires
      obtain ⟨credit, -, rfl⟩ := fires
      exact { quiet with }

theorem le_iter_next (s : CombineNodes n K) (v b : Fin n) :
    s.iter b ≤ update s.iter v (s.iter v + 1) b := by
  rw [update_apply]
  split_ifs with here
  · exact here ▸ Nat.le_succ _
  · exact le_rfl

/-- The forwarding side of a ring moves on. -/
theorem next_source (inv : s.Inv cfg d) {v : Fin n} (combining : s.combining v = true)
    (ended : s.Ended d v) (b : Fin n) :
    (s.link v b).nextForwarder.Inv cfg (d v b) (s.iter v + 1) (s.iter b) ∧
      (s.link v b).nextForwarder.InStep (s.iter v + 1) (s.iter b) := by
  refine ⟨(inv.link v b).nextForwarder (ended b).1, ?_⟩
  rcases eq_or_lt_of_le (inv.near v b combining) with same | behind
  · exact Or.inr ⟨congrArg (· + 1) same, rfl⟩
  · exact Or.inl behind

/-- The start of a node's next iteration keeps the invariant. -/
theorem next_inv (inv : s.Inv cfg d) {v : Fin n} (combining : s.combining v = true)
    (ended : s.Ended d v) : (s.next d v).Inv cfg d where
  near a b running := by
    rcases Store.update_cases running with ⟨-, no⟩ | ⟨other, running⟩
    · exact Bool.noConfusion no
    · dsimp only [next]
      rw [update_of_ne other]
      exact (inv.near a b running).trans (le_iter_next s v b)
  lag a b := by
    have later := le_iter_next s v b
    dsimp only [next]
    rw [update_apply s.iter v _ a]
    split_ifs with here
    · exact Nat.succ_le_succ ((inv.near v b combining).trans later)
    · exact (inv.lag a b).trans (Nat.succ_le_succ later)
  quiet a b := by
    have old := inv.quiet a b
    dsimp only [next]
    constructor
    case source =>
      intro idle
      by_cases here : a = v
      · split_ifs <;> rfl
      · rw [update_of_ne here] at idle
        rw [if_neg here]
        split_ifs
        · exact old.source idle
        · exact old.source idle
    case target =>
      intro idle f
      by_cases here : b = v
      · rw [if_pos here]
        rfl
      · rw [update_of_ne here] at idle
        rw [if_neg here]
        split_ifs
        · exact old.target idle f
        · exact old.target idle f
  link a b := by
    -- first the forwarding side of the ring moves on, then the receiving side
    have source : (if a = v then (s.link a b).nextForwarder else s.link a b).Inv cfg (d a b)
        (update s.iter v (s.iter v + 1) a) (s.iter b) ∧
        (if a = v then (s.link a b).nextForwarder else s.link a b).InStep
          (update s.iter v (s.iter v + 1) a) (s.iter b) := by
      split_ifs with here
      · subst here
        rw [update_self]
        exact next_source inv combining ended b
      · rw [update_of_ne here]
        exact ⟨inv.link a b, inv.inStep a b⟩
    have same : (if a = v then (s.link a b).nextForwarder else s.link a b).receivers =
        (s.link a b).receivers := by
      split_ifs <;> rfl
    dsimp only [next]
    by_cases here : b = v
    · subst here
      rw [if_pos rfl, update_self b]
      exact source.1.nextReceivers source.2 (same ▸ (ended a).2)
    · rw [if_neg here, update_of_ne here]
      exact source.1

/-- **Every step keeps the invariant.** -/
theorem step_inv {e : Event n K} (inv : s.Inv cfg d) (fires : s.step cfg d e = some s') :
    s'.Inv cfg d := by
  cases e with
  | link v w e =>
      simp only [step, Option.ite_none_right_eq_some, Option.map_eq_some_iff] at fires
      obtain ⟨running, l, fires, rfl⟩ := fires
      exact { inv with
        quiet := Store.update_update_rule inv.quiet (quiet_step (inv.quiet v w) running fires)
        link := Store.update_update_rule inv.link
          (CombineLink.step_inv (inv.link v w) (inv.inStep v w) fires) }
  | combine v =>
      simp only [step, Option.ite_none_right_eq_some, Option.some.injEq] at fires
      obtain ⟨⟨idle, all⟩, rfl⟩ := fires
      have quieter : ∀ {a}, update s.combining v true a = false → s.combining a = false := by
        intro a still
        rcases Store.update_cases still with ⟨-, no⟩ | ⟨-, still⟩
        · exact Bool.noConfusion no
        · exact still
      refine { inv with near := fun a b running => ?_, quiet := fun a b => ?_ }
      · rcases Store.update_cases running with ⟨rfl, -⟩ | ⟨-, running⟩
        · exact all b
        · exact inv.near a b running
      · exact ⟨fun still => (inv.quiet a b).source (quieter still),
          fun still => (inv.quiet a b).target (quieter still)⟩
  | next v =>
      simp only [step, Option.ite_none_right_eq_some, Option.some.injEq] at fires
      obtain ⟨⟨combining, ended⟩, rfl⟩ := fires
      exact next_inv inv combining ended

theorem inv_of_reachable (reach : (combineNodes cfg d).Reachable s) : s.Inv cfg d :=
  reach.invariant (start_inv cfg d) fun (s : CombineNodes n K) _ s' (inv : s.Inv cfg d) fires =>
    @step_inv _ _ _ _ s s' _ inv fires

/-- A node that is in its combine comes after all that has been put in earlier iterations. -/
theorem Inv.sum_put (inv : s.Inv cfg d) {v w : Fin n} (combining : s.combining w = true) :
    ∑ j ∈ range (s.iter w), (s.link v w).put j = delivered (d v w) (s.iter w) := by
  refine sum_congr rfl fun j hj => ?_
  rw [(inv.link v w).put, if_pos ((mem_range.1 hj).trans_le (inv.near w v combining))]

/-- Until the first of them writes back, receivers find the exact baseline. -/
theorem Inv.baseline (inv : s.Inv cfg d) {v w : Fin n} (combining : s.combining w = true)
    (none : ∀ f, (s.link v w).receivers.wrote f = false) :
    (s.link v w).receivers.readerPrevTail =
      BitVec.ofNat 32 (∑ j ∈ range (s.iter w), (s.link v w).put j) := by
  obtain ⟨x, word⟩ := (inv.link v w).receivers.word
  rw [inv.sum_put combining, word.word, word.first none]

end CombineNodes

/-- **The tail's baseline is exact.**  When the combine of a node starts, the word that its
receivers take as their baseline is the number of tokens put in all earlier iterations, modulo
`2 ^ 32`; and a receiver that sees the tail beyond token `t` of its iteration does so when the
token has been put in this iteration, and no put of it or of an earlier one is under way. -/
theorem tail_baseline_exact {sh : NodeShape} {Row Weight : Type} (cfg : Config)
    (work : CombineWorkload sh Row Weight)
    {s : CombineNodes sh.numRdmaRanks (numRdmaReceivers sh.numRdmaRanks)}
    (reach : (combineNodes cfg (work.delivery cfg)).Reachable s) (v w : Fin sh.numRdmaRanks) :
    (∀ s', (combineNodes cfg (work.delivery cfg)).step s (.combine w) = some s' →
      (s'.link v w).receivers.readerPrevTail =
        BitVec.ofNat 32 (∑ j ∈ range (s'.iter w), (s'.link v w).put j)) ∧
    (s.combining w = true → ∀ f (t : ℕ), (t : ℤ) < (s.link v w).receivers.scan.seen f →
      t < (s.link v w).put (s.iter w) ∧
        ∀ first, .put first ∈ (s.link v w).queue →
          ∑ j ∈ range (s.iter w), (s.link v w).put j + t < first) := by
  refine ⟨fun s' fires => ?_, fun combining f t sees => ?_⟩
  · have inv := CombineNodes.inv_of_reachable (reach.step _ fires)
    have idle := (CombineNodes.inv_of_reachable reach).quiet v w
    simp only [combineNodes, CombineNodes.step, Option.ite_none_right_eq_some,
      Option.some.injEq] at fires
    obtain ⟨⟨stopped, -⟩, rfl⟩ := fires
    exact inv.baseline (update_self _ _ _) (idle.target stopped)
  · have inv := CombineNodes.inv_of_reachable reach
    rw [inv.sum_put combining]
    exact (inv.link v w).arrived (inv.inStep v w) sees

/-! ### Two nodes and two iterations -/

section Example

open CombineNodes

/-- Node 1 has 13 tokens in the first iteration, and 26 later, all of which go to node 0;
node 0 has none. -/
def growing : CombineWorkload twoNodes ℕ ℕ where
  channel := 0
  channel_lt := Nat.one_pos
  inputs w i :=
    if w.val = 0 then allForNode0 0 else if i = 0 then allForNode0 13 else allForNode0 26
  uninit _ _ _ := 7
  isInt w i := by split_ifs <;> exact Nat.le_of_ble_eq_true rfl

/-- What is delivered, and the kernels of both nodes. -/
def growingNodes : TransitionSystem (CombineNodes 2 (numRdmaReceivers 2))
    (CombineNodes.Event 2 (numRdmaReceivers 2)) :=
  combineNodes twoChunkConfig (growing.delivery twoChunkConfig)

abbrev NodeEvent := CombineNodes.Event 2 (numRdmaReceivers 2)

/-- The receiver warp of a token. -/
def warpOf (t : ℕ) : Fin (numRdmaReceivers 2) :=
  ⟨t % numRdmaReceivers 2, Nat.mod_lt _ (numRdmaReceivers_pos Nat.two_pos)⟩

/-- What all receiver warps do. -/
def allWarps (v w : Fin 2)
    (e : Fin (numRdmaReceivers 2) → CombineReceivers.Event (numRdmaReceivers 2)) :
    List NodeEvent :=
  (List.finRange _).map fun f => .link v w (.receivers (e f))

/-- Receiver warps find their baselines, take some entries, and exit. -/
def receive (v w : Fin 2) (entries : List NodeEvent) : List NodeEvent :=
  allWarps v w .readPrev ++ entries ++ allWarps v w (fun f => .scan (.retire f)) ++
    allWarps v w .writeback ++ [.link v w (.receivers .exit)]

/-- Receivers take their entries for some tokens, after a look at the tail. -/
def takes (v w : Fin 2) (tokens : List ℕ) : List NodeEvent :=
  tokens.flatMap fun t =>
    [.receivers (.scan (.take (warpOf t))), .receivers (.look (warpOf t)),
      .receivers (.scan (.finish (warpOf t)))].map (.link v w)

/-- The forwarder at node 0 puts a chunk of `n` tokens to node 1, and it arrives. -/
def forward (first n : ℕ) : List NodeEvent :=
  let stages := (List.range' first n).map fun t => .forwarder (.stage t)
  let events : List (CombineLink.Event (numRdmaReceivers 2)) :=
    [.forwarder .grant] ++ stages ++ [.forwarder .put, .landPacket 0, .landPacket 0]
  events.map (.link firstNode secondNode)

/-- Both nodes start their combine. -/
def bothCombine : List NodeEvent := [.combine firstNode, .combine secondNode]

/-- The first iteration of both nodes; what the receivers of node 1 do with the tokens that come
from node 0 is given. -/
def firstIteration (entries : List NodeEvent) : List NodeEvent :=
  bothCombine ++
    [.link firstNode firstNode (.forwarder .enter), .link firstNode secondNode (.forwarder .enter),
      .link secondNode firstNode (.forwarder .enter),
      .link secondNode secondNode (.forwarder .enter)] ++
    forward 0 12 ++ forward 12 1 ++ receive firstNode firstNode [] ++
    receive secondNode firstNode [] ++
    receive secondNode secondNode (takes secondNode secondNode (List.range 13)) ++
    receive firstNode secondNode entries ++ [.next firstNode, .next secondNode]

/-- The first chunk arrives, and a receiver looks. -/
def firstLook : List NodeEvent :=
  bothCombine ++ [.link firstNode secondNode (.forwarder .enter)] ++ forward 0 12 ++
    [.receivers (.readPrev (warpOf 0)), .receivers (.look (warpOf 0))].map
      (.link firstNode secondNode)

/-- When the second combine of node 1 starts, 13 tokens have been put; and the first token
that one of its receivers sees in the first iteration has been put there. -/
theorem growing_baseline_exact :
    CombineLaunch 2 twoChunkConfig ∧
    (∃ s : CombineNodes 2 (numRdmaReceivers 2), s.iter 1 = 1 ∧
      ∑ j ∈ range (s.iter 1), (s.link 0 1).put j = 13 ∧
      (s.link 0 1).receivers.readerPrevTail =
        BitVec.ofNat 32 (∑ j ∈ range (s.iter 1), (s.link 0 1).put j)) ∧
    ∃ s : CombineNodes 2 (numRdmaReceivers 2), s.iter 1 = 0 ∧ 0 < (s.link 0 1).put (s.iter 1) := by
  refine ⟨twoChunkConfig_launch, ?_, ?_⟩
  · have replays : ((growingNodes.run growingNodes.init
        (firstIteration (takes 0 1 (List.range 13)))).any fun s =>
          (growingNodes.step s (.combine 1)).any fun s' => decide (s'.iter 1 = 1 ∧
            ∑ j ∈ range (s'.iter 1), (s'.link 0 1).put j = 13)) = true := by
      decide +kernel
    obtain ⟨s, replay, then'⟩ := (Option.any_eq_true _ _).1 replays
    obtain ⟨s', fires, facts⟩ := (Option.any_eq_true _ _).1 then'
    obtain ⟨second, put⟩ := of_decide_eq_true facts
    exact ⟨s', second, put, (tail_baseline_exact twoChunkConfig growing
      (TransitionSystem.Reachable.init.run replay) ⟨0, by decide⟩ ⟨1, by decide⟩).1 s' fires⟩
  · have replays : ((growingNodes.run growingNodes.init firstLook).any fun s =>
        decide ((s.iter 1 = 0 ∧ s.combining 1 = true) ∧
          0 < (s.link 0 1).receivers.scan.seen ⟨0, by decide⟩)) = true := by
      decide +kernel
    obtain ⟨s, replay, facts⟩ := (Option.any_eq_true _ _).1 replays
    obtain ⟨⟨first, combining⟩, sees⟩ := of_decide_eq_true facts
    exact ⟨s, first, ((tail_baseline_exact twoChunkConfig growing
      (TransitionSystem.Reachable.init.run replay) ⟨0, by decide⟩ ⟨1, by decide⟩).2 combining
        ⟨0, by decide⟩ 0 sees).1⟩

end Example

end StreamEP.Internode
