import StreamEP.Internode.CreditLink

/-!
# RDMA credits over many iterations

The dispatch kernels of all nodes, iteration after iteration: `dispatchLinks` has a ring for
every pair of nodes (and of each node to itself), of one channel and one local rank.  A
node's next kernel starts when all its warps are through; before a dispatch, unlike before a
dispatch_grads, its metadata kernel waits for the other nodes as well.

**What is under way is counted.**  The invariant of a ring, `Link.Inv`, says that what has been
put is what the tail shows plus what is under way to it, and the same for the head.  Both sides
may be in different iterations, the source ahead by at most the dispatch_grads between two
dispatches, so the sums run over all positions since the first iteration and never start over.

**Regular runs.**  `Regular` has the conditions on a step: no sender warp reads its baseline when
another has written back, or looks at the head when `2 ^ 31` credits are under way, and what is
accepted as a header is one.  `ReachableUnder` are the runs all of whose steps meet them.

`counters_agree`: the counters of both sides agree at the end of every iteration, the
credits returned are one for each position, and no sender warp sees more credit than has
been drained, in every run where no sender warp reads its baseline late.  The barrier before
that read does not keep another warp from writing back, as `lateRead_disagrees` shows.

**Two rules.**  A step is on one ring, or it is the start of a kernel, which changes one side of
every ring of the node.  `link_rule` and `next_rule` say once what that means for a property of
all rings; the invariants of this module and of `CreditPuts` are kept by them.
-/

namespace StreamEP.Internode

open Function Finset

/-! ### One ring -/

/-- Taking an addition out of the network takes it off the sum. -/
theorem sum_eraseIdx {adds : List ℕ} {k n : ℕ} (here : adds[k]? = some n) :
    n + (adds.eraseIdx k).sum = adds.sum := by
  obtain ⟨lt, rfl⟩ := List.getElem?_eq_some_iff.1 here
  exact (List.getElem_cons_eraseIdx_perm lt).sum_eq

section Progress

variable {cfg : Config} {t : Traffic}

/-- What steps of the sender side have in common: what is put is announced, and nothing is
taken back. -/
structure Sender.Progress (cfg : Config) (own : Bool) (s s' : Sender) (e : Sender.Event) :
    Prop where
  sent : s'.sent = s.sent + (s.tailAdds cfg own e).sum
  staged : ∀ j, s.staged j = true → s'.staged j = true
  headerSent : s.headerSent = true → s'.headerSent = true
  lastIssuedTail : s.lastIssuedTail ≤ s'.lastIssuedTail
  coordPrev : s'.coordPrev = s.coordPrev ∨
    e = .coordReadPrev ∧ s'.coordPrev = some s.readerPrevHead

theorem Sender.progress {own : Bool} {i head : ℕ} {s s' : Sender} {e : Sender.Event}
    (fires : s.step cfg t own i head e = some s') : s.Progress cfg own s' e := by
  cases e with
  | readPrev w =>
      simp only [step, Option.ite_none_right_eq_some, Option.some.injEq] at fires
      obtain ⟨-, rfl⟩ := fires
      exact ⟨rfl, fun _ => id, id, le_rfl, Or.inl rfl⟩
  | look w =>
      simp only [step, Option.map_eq_some_iff] at fires
      obtain ⟨prev, -, rfl⟩ := fires
      exact ⟨rfl, fun _ => id, id, le_rfl, Or.inl rfl⟩
  | stage w j =>
      simp only [step, Option.bind_eq_some_iff, Option.ite_none_right_eq_some,
        Option.some.injEq] at fires
      obtain ⟨cached, -, -, rfl⟩ := fires
      refine ⟨rfl, fun k here => ?_, id, le_rfl, Or.inl rfl⟩
      dsimp only
      rw [update_apply, here, ite_self]
  | release w j =>
      simp only [step, Option.ite_none_right_eq_some, Option.map_eq_some_iff] at fires
      obtain ⟨-, window, -, rfl⟩ := fires
      exact ⟨rfl, fun _ => id, id, le_rfl, Or.inl rfl⟩
  | writeback w =>
      simp only [step, Option.bind_eq_some_iff, Option.ite_none_right_eq_some,
        Option.some.injEq] at fires
      obtain ⟨prev, -, -, rfl⟩ := fires
      exact ⟨rfl, fun _ => id, id, le_rfl, Or.inl rfl⟩
  | coordReadPrev =>
      simp only [step, Option.ite_none_right_eq_some, Option.some.injEq] at fires
      obtain ⟨-, rfl⟩ := fires
      exact ⟨rfl, fun _ => id, id, le_rfl, Or.inr ⟨rfl, rfl⟩⟩
  | header =>
      simp only [step, Option.ite_none_right_eq_some, Option.some.injEq] at fires
      obtain ⟨⟨-, unsent⟩, rfl⟩ := fires
      refine ⟨?_, fun _ => id, fun _ => rfl, le_rfl, Or.inl rfl⟩
      rw [Sender.sent, Sender.sent, tailAdds, if_pos rfl, unsent, if_neg Bool.false_ne_true,
        List.sum_singleton]
      dsimp only
      omega
  | issue =>
      simp only [step, Option.bind_eq_some_iff, Option.ite_none_right_eq_some,
        Option.some.injEq] at fires
      obtain ⟨prev, read, -, rfl⟩ := fires
      refine ⟨?_, fun _ => id, id, Nat.le_add_right _ _, Or.inl rfl⟩
      simp only [Sender.sent, tailAdds, read, List.sum_singleton, Nat.add_assoc]

/-- What steps of the forwarder side have in common: what the coordinator adds to the head is
what it returns, and nothing is taken back. -/
structure Forwarder.Progress (s s' : Forwarder) (adds : List ℕ) : Prop where
  returned : s'.returned = s.returned ++ adds
  recvCount : ∀ f, s.recvCount f ≠ none → s'.recvCount f ≠ none
  head : ∀ f, s.forwardChannelHead f ≤ s'.forwardChannelHead f

theorem Forwarder.progress {tail : ℕ} {s s' : Forwarder} {e : Forwarder.Event}
    (fires : s.step cfg tail e = some s') : s.Progress s' (s.credits e) := by
  have nothing : s.returned = s.returned ++ [] := (List.append_nil _).symm
  have raise : ∀ {f n}, s.forwardChannelHead f ≤ n → ∀ f',
      s.forwardChannelHead f' ≤ update s.forwardChannelHead f n f' := fun up f' => by
    rw [update_apply]
    split_ifs with here
    · exact here ▸ up
    · exact le_rfl
  cases e with
  | readPrev f =>
      simp only [step, Option.ite_none_right_eq_some, Option.some.injEq] at fires
      obtain ⟨-, rfl⟩ := fires
      exact ⟨nothing, fun _ => id, fun _ => le_rfl⟩
  | accept f count =>
      simp only [step, Option.bind_eq_some_iff, Option.ite_none_right_eq_some,
        Option.some.injEq] at fires
      obtain ⟨prev, -, -, rfl⟩ := fires
      refine ⟨nothing, fun f' accepted none => ?_, fun _ => le_rfl⟩
      rcases Store.update_cases none with ⟨-, new⟩ | ⟨-, old⟩
      · exact Option.some_ne_none _ new
      · exact accepted old
  | seed f =>
      simp only [step, Option.ite_none_right_eq_some, Option.some.injEq] at fires
      obtain ⟨⟨-, zero⟩, rfl⟩ := fires
      exact ⟨nothing, fun _ => id, raise (zero ▸ Nat.zero_le 1)⟩
  | drain f m =>
      simp only [step, Option.bind_eq_some_iff, Option.ite_none_right_eq_some,
        Option.some.injEq] at fires
      obtain ⟨prev, -, count, -, ⟨⟨-, more⟩, -⟩, rfl⟩ := fires
      exact ⟨nothing, fun _ => id, raise (more.trans (Nat.le_succ m))⟩
  | retire f =>
      simp only [step, Option.bind_eq_some_iff, Option.ite_none_right_eq_some,
        Option.some.injEq] at fires
      obtain ⟨count, -, -, rfl⟩ := fires
      exact ⟨nothing, fun _ => id, fun _ => le_rfl⟩
  | writeback f =>
      simp only [step, Option.bind_eq_some_iff, Option.ite_none_right_eq_some,
        Option.some.injEq] at fires
      obtain ⟨prev, -, count, -, -, rfl⟩ := fires
      exact ⟨nothing, fun _ => id, fun _ => le_rfl⟩
  | flush m =>
      simp only [step, Option.ite_none_right_eq_some, Option.some.injEq] at fires
      obtain ⟨-, rfl⟩ := fires
      exact ⟨rfl, fun _ => id, fun _ => le_rfl⟩
  | exit =>
      simp only [step, Option.ite_none_right_eq_some, Option.some.injEq] at fires
      obtain ⟨-, rfl⟩ := fires
      exact ⟨rfl, fun _ => id, fun _ => le_rfl⟩

end Progress

namespace Link

variable {cfg : Config} {t : Traffic}

/-- The conditions on a step of either side. -/
def Regular (t : Traffic) (i k : ℕ) (l : Link) : Event → Prop
  | .sender e => l.sender.Punctual t i l.rdmaChannelHead e
  | .forwarder e => Forwarder.Genuine t k e
  | _ => True

/-- A ring while its source is in iteration `i` and its destination in iteration `k`: what
has been put and what has been returned is counted or under way. -/
structure Inv (cfg : Config) (t : Traffic) (i k : ℕ) (l : Link) : Prop where
  sender : l.sender.Inv cfg t i l.rdmaChannelHead
  forwarder : l.forwarder.Inv cfg t k l.rdmaChannelTail
  tails : l.rdmaChannelTail + l.tails.sum = t.base i + l.sender.sent
  credits : l.rdmaChannelHead + l.credits.sum = t.base k + l.forwarder.returned.sum

theorem start_inv : Link.start.Inv cfg t 0 0 where
  sender := Sender.start_inv 0 0 rfl
  forwarder := Forwarder.start_inv rfl le_rfl
  tails := rfl
  credits := rfl

/-- **Every step on a ring keeps its invariant.** -/
theorem step_inv {own : Bool} {i k : ℕ} {l l' : Link} {e : Event} (inv : l.Inv cfg t i k)
    (regular : l.Regular t i k e) (fires : l.step cfg t own i e = some l') :
    l'.Inv cfg t i k := by
  cases e with
  | sender e =>
      simp only [step, Option.map_eq_some_iff] at fires
      obtain ⟨s, fires, rfl⟩ := fires
      refine { inv with sender := Sender.step_inv inv.sender regular fires, tails := ?_ }
      dsimp only
      rw [List.sum_append, ← Nat.add_assoc, inv.tails, (Sender.progress fires).sent, Nat.add_assoc]
  | forwarder e =>
      simp only [step, Option.map_eq_some_iff] at fires
      obtain ⟨f, fires, rfl⟩ := fires
      refine { inv with forwarder := Forwarder.step_inv inv.forwarder regular fires, credits := ?_ }
      dsimp only
      rw [List.sum_append, ← Nat.add_assoc, inv.credits, (Forwarder.progress fires).returned,
        List.sum_append, Nat.add_assoc]
  | landTail j =>
      simp only [step, Option.map_eq_some_iff] at fires
      obtain ⟨n, here, rfl⟩ := fires
      refine { inv with forwarder := inv.forwarder.mono (Nat.le_add_right _ _), tails := ?_ }
      dsimp only
      rw [Nat.add_assoc, sum_eraseIdx here, inv.tails]
  | landCredit j =>
      simp only [step, Option.map_eq_some_iff] at fires
      obtain ⟨n, here, rfl⟩ := fires
      refine { inv with sender := inv.sender.mono (Nat.le_add_right _ _), credits := ?_ }
      dsimp only
      rw [Nat.add_assoc, sum_eraseIdx here, inv.credits]

/-- The source's next kernel starts. -/
def nextSender (l : Link) : Link := { l with sender := .start l.sender.readerPrevHead }

/-- The destination's next kernel starts. -/
def nextForwarder (l : Link) : Link :=
  { l with forwarder := .start l.forwarder.readerPrevTail }

theorem Inv.nextSender {i k : ℕ} {l : Link} (inv : l.Inv cfg t i k) (done : l.sender.Done t i) :
    l.nextSender.Inv cfg t (i + 1) k where
  sender := Sender.start_inv _ _ (inv.sender.after 0 (done.1 0))
  forwarder := inv.forwarder
  tails := by
    have sent : l.sender.sent = t.numTokens i + 1 := by
      rw [Sender.sent, if_pos done.2.1, done.2.2, Nat.add_comm]
    exact inv.tails.trans (by rw [sent, ← t.base_succ]; rfl)
  credits := inv.credits

/-- At the end of a kernel every forwarder warp has drained the iteration. -/
theorem Inv.drained {i k : ℕ} {l : Link} (inv : l.Inv cfg t i k) (done : l.forwarder.Done) (f) :
    l.forwarder.forwardChannelHead f = t.numTokens k + 1 :=
  inv.forwarder.retired f (inv.forwarder.wrote f (done.1 f))

theorem Inv.nextForwarder {i k : ℕ} {l : Link} (inv : l.Inv cfg t i k)
    (done : l.forwarder.Done) : l.nextForwarder.Inv cfg t i (k + 1) where
  sender := inv.sender
  forwarder := by
    refine Forwarder.start_inv (inv.forwarder.after 0 (done.1 0)) ?_
    have arrived := inv.forwarder.arrived 0
    rwa [inv.drained done, ← t.base_succ] at arrived
  tails := inv.tails
  credits := by
    have all := (inv.forwarder.exited done.2).1
    exact inv.credits.trans (by rw [all, ← t.base_succ]; rfl)

end Link

/-! ### The kernels of all nodes -/

/-- Iterations of the nodes, which sender node sends which number of tokens to which. -/
structure Workload (n : ℕ) where
  count : ℕ
  count_pos : 0 < count
  /-- The iteration is one of dispatch_grads. -/
  backward : ℕ → Bool
  numTokens : Fin n → Fin n → ℕ → ℕ
  isInt : ∀ v w i, numTokens v w i + 1 < 2 ^ 31
  warpOf : Fin n → Fin n → ℕ → ℕ → Fin numDispatchRdmaSenderWarps

/-- What goes from one node to another. -/
def Workload.traffic {n : ℕ} (work : Workload n) (v w : Fin n) : Traffic where
  count := work.count
  numTokens := work.numTokens v w
  isInt := work.isInt v w
  warpOf := work.warpOf v w

/-- The iteration that each node is in, and the rings. -/
structure Links (n : ℕ) where
  iter : Fin n → ℕ
  link : Fin n → Fin n → Link

namespace Links

variable {n : ℕ}

inductive Event (n : ℕ) where
  | link (v w : Fin n) (e : Link.Event)
  | next (v : Fin n)

section Step

variable (cfg : Config) (work : Workload n)

/-- The node's kernel has ended: all of its senders and all of its forwarders are through. -/
def Ended (s : Links n) (v : Fin n) : Prop :=
  ∀ w, (s.link v w).sender.Done (work.traffic v w) (s.iter v) ∧ (s.link w v).forwarder.Done

instance (s : Links n) (v : Fin n) : Decidable (s.Ended work v) := by
  unfold Ended
  infer_instance

/-- The metadata kernel of the next dispatch does not end before all nodes have come to it. -/
def Synced (s : Links n) (v : Fin n) : Prop :=
  ∀ w, s.iter v < s.iter w ∨ s.iter w = s.iter v ∧ s.Ended work w

instance (s : Links n) (v : Fin n) : Decidable (s.Synced work v) := by
  unfold Synced
  infer_instance

/-- The next kernel of a node starts. -/
def next (s : Links n) (v : Fin n) : Links n where
  iter := update s.iter v (s.iter v + 1)
  link a b :=
    let l := if a = v then (s.link a b).nextSender else s.link a b
    if b = v then l.nextForwarder else l

def step (s : Links n) : Event n → Option (Links n)
  | .link v w e =>
      ((s.link v w).step cfg (work.traffic v w) (decide (v = w)) (s.iter v) e).map fun l =>
        { s with link := update s.link v (update (s.link v) w l) }
  | .next v =>
      if s.Ended work v ∧ s.iter v + 1 < work.count ∧
          (work.backward (s.iter v + 1) = false → s.Synced work v) then
        some (s.next v)
      else none

end Step

/-- The conditions on a step: no sender warp reads its baseline when another has written
back, or looks at the head when `2 ^ 31` credits are under way, and what is accepted as a
header is one. -/
def Regular (work : Workload n) (s : Links n) : Event n → Prop
  | .link v w e => (s.link v w).Regular (work.traffic v w) (s.iter v) (s.iter w) e
  | .next _ => True

end Links

variable {n : ℕ} {cfg : Config} {work : Workload n}

instance (t : Traffic) (i head : ℕ) (s : Sender) :
    (e : Sender.Event) → Decidable (s.Punctual t i head e)
  | .readPrev _ => inferInstanceAs (Decidable (∀ w, s.wroteHead w = false))
  | .look _ => inferInstanceAs (Decidable (t.base i ≤ head + 2 ^ 31))
  | .stage .. | .release .. | .writeback _ | .coordReadPrev | .header | .issue => isTrue trivial

instance (t : Traffic) (i : ℕ) : (e : Forwarder.Event) → Decidable (Forwarder.Genuine t i e)
  | .accept _ count => inferInstanceAs (Decidable (count = t.numTokens i))
  | .readPrev _ | .seed _ | .drain .. | .retire _ | .writeback _ | .flush _ | .exit =>
      isTrue trivial

instance (t : Traffic) (i k : ℕ) (l : Link) : (e : Link.Event) → Decidable (l.Regular t i k e)
  | .sender e => inferInstanceAs (Decidable (l.sender.Punctual t i l.rdmaChannelHead e))
  | .forwarder e => inferInstanceAs (Decidable (Forwarder.Genuine t k e))
  | .landTail _ | .landCredit _ => isTrue trivial

instance (s : Links n) : (e : Links.Event n) → Decidable (s.Regular work e)
  | .link v w e => inferInstanceAs
      (Decidable ((s.link v w).Regular (work.traffic v w) (s.iter v) (s.iter w) e))
  | .next _ => isTrue trivial

/-- Dispatch and dispatch_grads on all nodes, over the same rings. -/
def dispatchLinks (cfg : Config) (work : Workload n) :
    TransitionSystem (Links n) (Links.Event n) where
  init := ⟨fun _ => 0, fun _ _ => .start⟩
  step := Links.step cfg work

namespace Links

/-- When a node's next kernel starts, a property of all rings is kept if it is by the two
changes to one ring. -/
theorem next_rule {P : Fin n → Fin n → ℕ → ℕ → Link → Prop} {s : Links n} {v : Fin n}
    (all : ∀ a b, P a b (s.iter a) (s.iter b) (s.link a b))
    (source : ∀ b, P v b (s.iter v + 1) (s.iter b) (s.link v b).nextSender)
    (target : ∀ a i l, l.forwarder = (s.link a v).forwarder → P a v i (s.iter v) l →
      P a v i (s.iter v + 1) l.nextForwarder) (a b : Fin n) :
    P a b ((s.next v).iter a) ((s.next v).iter b) ((s.next v).link a b) := by
  have before : P a b (update s.iter v (s.iter v + 1) a) (s.iter b)
      (if a = v then (s.link a b).nextSender else s.link a b) := by
    split_ifs with here
    · subst here
      rw [update_self]
      exact source b
    · rw [update_of_ne here]
      exact all a b
  have same : (if a = v then (s.link a b).nextSender else s.link a b).forwarder =
      (s.link a b).forwarder := by
    split_ifs <;> rfl
  dsimp only [next]
  generalize (if a = v then (s.link a b).nextSender else s.link a b) = l at before same
  rcases eq_or_ne b v with rfl | other
  · rw [if_pos rfl, update_self b]
    exact target a _ l same before
  · rw [if_neg other, update_of_ne other]
    exact before

/-- A step on one ring keeps a property of all rings if it keeps it of this one. -/
theorem link_rule {P : Fin n → Fin n → Link → Prop} {s : Links n} {v w : Fin n} {l : Link}
    (all : ∀ a b, P a b (s.link a b)) (here : P v w l) (a b : Fin n) :
    P a b (update s.link v (update (s.link v) w l) a b) :=
  Store.update_update_rule all here a b

/-- The invariant of all rings. -/
def Inv (cfg : Config) (work : Workload n) (s : Links n) : Prop :=
  ∀ a b, (s.link a b).Inv cfg (work.traffic a b) (s.iter a) (s.iter b)

theorem step_inv {s s' : Links n} {e : Event n} (inv : s.Inv cfg work)
    (regular : s.Regular work e) (fires : s.step cfg work e = some s') : s'.Inv cfg work := by
  cases e with
  | link v w e =>
      simp only [step, Option.map_eq_some_iff] at fires
      obtain ⟨l, fires, rfl⟩ := fires
      exact link_rule (P := fun a b l => l.Inv cfg (work.traffic a b) (s.iter a) (s.iter b)) inv
        (Link.step_inv (inv v w) regular fires)
  | next v =>
      simp only [step, Option.ite_none_right_eq_some, Option.some.injEq] at fires
      obtain ⟨⟨ended, -⟩, rfl⟩ := fires
      refine next_rule (P := fun a b i k l => l.Inv cfg (work.traffic a b) i k) inv
        (fun b => (inv v b).nextSender (ended b).1) fun a i l same inv => inv.nextForwarder ?_
      rw [same]
      exact (ended a).2

/-- The invariant in every run that meets the conditions. -/
theorem inv_of_reachable {s : Links n}
    (reach : (dispatchLinks cfg work).ReachableUnder (Regular work) s) : s.Inv cfg work :=
  reach.invariant (fun _ _ => Link.start_inv) fun _ _ _ inv regular fires =>
    step_inv inv regular fires

end Links

/-! ### The counters -/

/-- Positions of iteration `i` that a forwarder warp has drained, while it is in iteration
`k`. -/
def Forwarder.drainedOf (t : Traffic) (i k : ℕ) (s : Forwarder) (f : Fin numMaxNvlPeers) : ℕ :=
  if i < k then t.numTokens i + 1 else if i = k then s.forwardChannelHead f else 0

/-- The counters of a ring agree. -/
structure Links.CountersAgree (work : Workload n) (s : Links n) (v w : Fin n) : Prop where
  /-- At the end of an iteration of the source, -/
  head : (s.link v w).sender.Done (work.traffic v w) (s.iter v) →
    (s.link v w).sender.readerPrevHead =
      BitVec.ofNat 32 (∑ i ∈ range (s.iter v + 1), (1 + work.numTokens v w i))
  /-- and at the end of one of the destination. -/
  tail : (s.link v w).forwarder.Done →
    (s.link v w).forwarder.readerPrevTail =
      BitVec.ofNat 32 (∑ i ∈ range (s.iter w + 1), (1 + work.numTokens v w i))
  returned : (s.link v w).forwarder.exited = true →
    (s.link v w).forwarder.returned.sum = 1 + work.numTokens v w (s.iter w)
  view : ∀ k cached, (s.link v w).sender.cachedHead k = some cached →
    ∀ f, cached ≤ (s.link v w).forwarder.drainedOf (work.traffic v w) (s.iter v) (s.iter w) f

theorem Workload.base_eq (work : Workload n) (v w : Fin n) (i : ℕ) :
    (work.traffic v w).base i = ∑ j ∈ range i, (1 + work.numTokens v w j) :=
  sum_congr rfl fun _ _ => Nat.add_comm _ _

/-- No sender warp sees more credit than has been drained. -/
theorem Link.Inv.view_le {t : Traffic} {i k : ℕ} {l : Link} (inv : l.Inv cfg t i k) {w} {cached : ℤ}
    (look : l.sender.cachedHead w = some cached) (f) :
    cached ≤ l.forwarder.drainedOf t i k f := by
  have seen := inv.sender.cachedHead w cached look
  have returned := inv.forwarder.returned_le f
  have credits := inv.credits
  rw [Forwarder.drainedOf]
  split_ifs with later same
  · -- the whole iteration has been sent, and no more
    have arrived := inv.forwarder.arrived f
    have sent := inv.sender.sent_le
    have tails := inv.tails
    have succ := t.base_succ i
    omega
  · subst same
    omega
  · have le := inv.forwarder.head_le f
    have succ := t.base_succ k
    have mono := t.base_mono (show k + 1 ≤ i by omega)
    omega

/-- **The counters agree** in every run that meets the conditions. -/
theorem counters_agree (cfg : Config) (work : Workload n) {s : Links n}
    (reach : (dispatchLinks cfg work).ReachableUnder (Links.Regular work) s) (v w : Fin n) :
    s.CountersAgree work v w := by
  have inv := Links.inv_of_reachable reach v w
  constructor
  case head =>
    intro done
    rw [← work.base_eq]
    exact inv.sender.after 0 (done.1 0)
  case tail =>
    intro done
    rw [← work.base_eq]
    exact inv.forwarder.after 0 (done.1 0)
  case returned =>
    intro exited
    rw [(inv.forwarder.exited exited).1, Nat.add_comm]
    rfl
  case view => exact fun k cached look f => inv.view_le look f

/-! ### One token from one node to another -/

section Example

open Links

/-- Two nodes; the first one dispatches one token to the second, and nothing comes back.  An
empty dispatch_grads follows. -/
def oneToken : Workload 2 where
  count := 2
  count_pos := Nat.two_pos
  backward i := decide (0 < i)
  numTokens v w i := if v = 0 ∧ w = 1 ∧ i = 0 then 1 else 0
  isInt v w i := by split_ifs <;> exact Nat.le_of_ble_eq_true rfl
  warpOf _ _ _ _ := 0

/-- All sender warps, and all forwarder warps. -/
def senderWarps : List (Fin numDispatchRdmaSenderWarps) := List.finRange _

def forwarderWarps : List (Fin numMaxNvlPeers) := List.finRange _

/-- A node stages and puts its token for another, if there is one. -/
def puts (v w : Fin 2) : List (Event 2) :=
  [.sender .coordReadPrev, .sender .header].map (.link v w) ++
    if oneToken.numTokens v w 0 = 1 then
      [.sender (.look 0), .sender (.stage 0 0), .sender (.release 0 0), .sender .issue].map
        (.link v w)
    else []

/-- The sender side of the first iteration. -/
def sends (v w : Fin 2) : List (Event 2) :=
  (senderWarps.map fun k => .link v w (.sender (.readPrev k))) ++ puts v w ++
    senderWarps.map fun k => .link v w (.sender (.writeback k))

/-- The forwarder side of the first iteration. -/
def drains (v w : Fin 2) : List (Event 2) :=
  let count := oneToken.numTokens v w 0
  let each (e : Fin numMaxNvlPeers → Forwarder.Event) : List (Event 2) :=
    forwarderWarps.map fun f => .link v w (.forwarder (e f))
  List.replicate (count + 1) (.link v w (.landTail 0)) ++
    each .readPrev ++ each (.accept · count) ++ each .seed ++
      (if count = 1 then each (.drain · 1) else []) ++
        each .retire ++ each .writeback ++ [.link v w (.forwarder .exit)]

theorem oneToken_agrees :
    ∃ s, (dispatchLinks tightConfig oneToken).ReachableUnder (Regular oneToken) s ∧
      (s.link 0 1).sender.Done (oneToken.traffic 0 1) 0 ∧ (s.link 0 1).forwarder.Done ∧
        s.CountersAgree oneToken 0 1 := by
  have replays : ((dispatchLinks tightConfig oneToken).runUnder (Regular oneToken)
      (dispatchLinks tightConfig oneToken).init (sends 0 1 ++ drains 0 1)).any (fun s =>
        decide ((s.link 0 1).sender.Done (oneToken.traffic 0 1) 0 ∧ (s.link 0 1).forwarder.Done))
      = true := by
    decide +kernel
  obtain ⟨s, replay, done⟩ := (Option.any_eq_true _ _).1 replays
  have reach := TransitionSystem.ReachableUnder.init.run replay
  exact ⟨s, reach, (of_decide_eq_true done).1, (of_decide_eq_true done).2,
    counters_agree tightConfig oneToken reach 0 1⟩

/-- The second warp reads its baseline when the others have written back. -/
def lateRead : List (Event 2) :=
  let others := senderWarps.filter (· ≠ 1)
  (others.map fun k => .link 0 1 (.sender (.readPrev k))) ++ puts 0 1 ++
    (others.map fun k => .link 0 1 (.sender (.writeback k))) ++
      [.link 0 1 (.sender (.readPrev 1)), .link 0 1 (.sender (.writeback 1))]

/-- Two positions have been sent, and `reader_prev_head` is four. -/
theorem lateRead_disagrees :
    ¬∀ s, (dispatchLinks tightConfig oneToken).Reachable s →
      ∀ v w, s.CountersAgree oneToken v w := by
  intro agree
  have replays : ((dispatchLinks tightConfig oneToken).run
      (dispatchLinks tightConfig oneToken).init lateRead).any (fun s =>
        decide ((s.link 0 1).sender.Done (oneToken.traffic 0 1) (s.iter 0) ∧
          (s.link 0 1).sender.readerPrevHead = 4 ∧
            BitVec.ofNat 32 (∑ i ∈ range (s.iter 0 + 1), (1 + oneToken.numTokens 0 1 i)) = 2))
      = true := by
    decide +kernel
  obtain ⟨s, replay, facts⟩ := (Option.any_eq_true _ _).1 replays
  obtain ⟨done, four, two⟩ := of_decide_eq_true facts
  have head := (agree s (TransitionSystem.Reachable.init.run replay) 0 1).head done
  rw [four, two] at head
  exact absurd head (by decide)

end Example

end StreamEP.Internode
