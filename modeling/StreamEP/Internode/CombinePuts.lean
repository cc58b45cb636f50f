import StreamEP.Internode.CombineRuns
import StreamEP.Lib.ReplayRings

/-!
# Puts into an RDMA ring of combine

The slots of a ring start over with every iteration, so what a forwarder puts there overwrites
tokens of this iteration, a ring behind, or of the last one.  The last one has been read when
the forwarder's combine starts; for the others it waits for credits, which it counts from what
the head holds when its kernel starts.

A credit of the last iteration that arrives later counts as one of this, and then a put
overwrites tokens that nobody has read (`lateCredit_overwrites`).  When none is under way at
that moment, a chunk goes only to slots that the receivers have read (`puts_consumed`).

**The condition.**  `OwnCredit` is about one event, the read of the baseline: no credit of an
earlier iteration is under way to that ring.  `puts_consumed` is about all runs whose steps meet
it.  Nothing in the kernel waits for the credits of its predecessor, so it is a condition on the
network and not on the inputs.

**Three invariants, one on the other.**  `Holds` and `Contents` say which token a slot of either
buffer holds, also slots of earlier iterations.  `Credited` says that what the forwarder has
counted has been returned by receivers of this iteration: what is under way belongs to it, or the
forwarder has not read its baseline.  From both, `Credited.consumed`: the slots of a granted chunk
hold tokens that all their receivers have read.  `Filled` has them for all rings of all nodes, and
a step of one ring leaves the others alone.

**Both buffers.**  For another node a forwarder stages its chunk in the send buffer and puts it
from there; for its own node it stages in the ring itself.  `PutsConsumed` is about both: slots of
the send buffer are free as soon as those of the ring are.

The run of `lateCredit_overwrites` is on rings of two chunks: three chunks are staged while the
receivers have read none of the second combine, and `timelyCredit_consumed` has the same run with
the credit in time.
-/

namespace StreamEP.Internode

open Function Finset HeadScan QueuePair

variable {K : ℕ} {cfg : Config} {d : ℕ → Delivery K} {own : Bool} {i k : ℕ}

/-! ### What the slots hold -/

/-- Every receiver that takes token `t` of iteration `j` has read it. -/
def Consumed (d : ℕ → Delivery K) (k : ℕ) (r : CombineReceivers K) (j t : ℕ) : Prop :=
  j < k ∨ j = k ∧ ∀ f m, m < (d k).plan.count f → (d k).plan.entry f m = t → m < r.scan.done f

/-- The buffer holds tokens of earlier iterations and some of this one, in their slots. -/
def Holds (cfg : Config) (i : ℕ) (here : ℕ → Prop) (buffer : ℕ → Option (ℕ × ℕ)) : Prop :=
  ∀ slot j t, buffer slot = some (j, t) →
    slot = t % cfg.numMaxRdmaChunkedRecvTokens ∧ (j < i ∨ j = i ∧ here t)

namespace Holds

variable {here here' : ℕ → Prop} {buffer : ℕ → Option (ℕ × ℕ)}

theorem empty (cfg : Config) (i : ℕ) (here : ℕ → Prop) : Holds cfg i here fun _ => none :=
  fun _ _ _ holds => by cases holds

theorem mono (holds : Holds cfg i here buffer) (grows : ∀ t, here t → here' t) :
    Holds cfg i here' buffer := fun slot j t content =>
  (holds slot j t content).imp_right fun which => which.imp_right fun now => now.imp_right (grows t)

theorem next (holds : Holds cfg i here buffer) : Holds cfg (i + 1) here' buffer :=
  fun slot j t content => (holds slot j t content).imp_right fun which =>
    Or.inl (which.elim Nat.lt_succ_of_lt fun now => now.1 ▸ Nat.lt_succ_self _)

/-- Tokens are written into their slots. -/
theorem write (holds : Holds cfg i here buffer) {writes : List (ℕ × ℕ)}
    (fits : ∀ w ∈ writes, w.1 = w.2 % cfg.numMaxRdmaChunkedRecvTokens ∧ here w.2) :
    Holds cfg i here (CombineLink.write i writes buffer) := by
  intro slot j t content
  have cases := Store.run_cases (β := fun _ => Option (ℕ × ℕ))
    (writes.map fun w => ⟨w.1, some (i, w.2)⟩) buffer slot
  rcases cases with now | before
  · obtain ⟨w, mem, same⟩ := List.mem_map.1 now
    obtain ⟨rfl, value⟩ := Sigma.mk.inj same
    obtain ⟨rfl, rfl⟩ := Prod.mk.inj (Option.some.inj ((eq_of_heq value).trans content))
    exact ⟨(fits w mem).1, Or.inr ⟨rfl, (fits w mem).2⟩⟩
  · exact holds slot j t (before.symm.trans content)

end Holds

namespace CombineLink

variable {l l' : CombineLink K}

/-- What the two buffers hold. -/
structure Contents (cfg : Config) (own : Bool) (i : ℕ) (l : CombineLink K) : Prop where
  ring : Holds cfg i (fun t => l.forwarder.staged t = true ∧
    (own = false → t < l.forwarder.tokenStartIdx)) l.ring
  sendBuffer : Holds cfg i (fun t => l.forwarder.staged t = true) l.sendBuffer

theorem start_contents (cfg : Config) (own : Bool) (p : Plan K) :
    (start p).Contents cfg own 0 := ⟨Holds.empty cfg 0 _, Holds.empty cfg 0 _⟩

/-- **Every step keeps the slots in order.** -/
theorem step_contents {e : Event K} (inv : l.Inv cfg d i k) (contents : l.Contents cfg own i)
    (fires : l.step cfg d own i k e = some l') : l'.Contents cfg own i := by
  cases e with
  | forwarder e =>
      simp only [step, Option.map_eq_some_iff] at fires
      obtain ⟨f, fires, rfl⟩ := fires
      cases e with
      | enter =>
          simp only [CombineForwarder.step, Option.ite_none_right_eq_some,
            Option.some.injEq] at fires
          obtain ⟨-, rfl⟩ := fires
          exact ⟨contents.ring, contents.sendBuffer⟩
      | grant =>
          simp only [CombineForwarder.step, Option.bind_eq_some_iff,
            Option.ite_none_right_eq_some, Option.some.injEq] at fires
          obtain ⟨prev, -, -, rfl⟩ := fires
          exact ⟨contents.ring, contents.sendBuffer⟩
      | stage t =>
          simp only [CombineForwarder.step, Option.ite_none_right_eq_some,
            Option.some.injEq] at fires
          obtain ⟨-, rfl⟩ := fires
          -- staged in the ring itself on the own node, in the send buffer for another
          have still : ∀ t', l.forwarder.staged t' = true →
              update l.forwarder.staged t true t' = true := fun t' staged => by
            rw [update_apply, staged, ite_self]
          have now : update l.forwarder.staged t true t = true := update_self _ _ _
          have ring : Holds cfg i (fun t' => update l.forwarder.staged t true t' = true ∧
              (own = false → t' < l.forwarder.tokenStartIdx)) l.ring :=
            contents.ring.mono fun t' old => ⟨still t' old.1, old.2⟩
          have sendBuffer := contents.sendBuffer.mono still
          constructor
          case ring =>
            refine ring.write fun w mem => ?_
            cases own with
            | true =>
                obtain rfl := List.mem_singleton.1 mem
                exact ⟨rfl, now, fun no => Bool.noConfusion no⟩
            | false => exact absurd mem List.not_mem_nil
          case sendBuffer =>
            refine sendBuffer.write fun w mem => ?_
            cases own with
            | true => exact absurd mem List.not_mem_nil
            | false =>
                obtain rfl := List.mem_singleton.1 mem
                exact ⟨rfl, now⟩
      | put =>
          simp only [CombineForwarder.step, Option.ite_none_right_eq_some,
            Option.some.injEq] at fires
          obtain ⟨⟨-, staged⟩, rfl⟩ := fires
          refine ⟨?_, contents.sendBuffer⟩
          -- a put copies a chunk all of which has been staged
          refine (contents.ring.mono fun t old =>
            ⟨old.1, fun remote => (old.2 remote).trans_le (Nat.le_add_right _ _)⟩).write
              fun w mem => ?_
          cases own with
          | true => exact absurd mem List.not_mem_nil
          | false =>
              obtain ⟨n, hn, rfl⟩ := List.mem_map.1 mem
              have chunk := List.mem_range.1 hn
              have le : l.forwarder.tokenEndIdx cfg (d i).numTokens ≤
                  l.forwarder.tokenStartIdx + cfg.numMaxRdmaChunkedSendTokens :=
                CombineForwarder.tokenEndIdx_le
              have inside := chunk
              rw [CombineForwarder.numChunkedTokens] at inside
              refine ⟨CombineForwarder.slot_eq inv.forwarder chunk, ?_, fun _ => ?_⟩
              · exact staged _ (by omega) (Nat.le_add_right _ _)
              · dsimp only
                omega
  | receivers e =>
      simp only [step, Option.map_eq_some_iff] at fires
      obtain ⟨r, -, rfl⟩ := fires
      exact ⟨contents.ring, contents.sendBuffer⟩
  | landPacket j =>
      simp only [step, Option.bind_eq_some_iff] at fires
      obtain ⟨packet, -, fires⟩ := fires
      cases packet with
      | put first =>
          obtain rfl := Option.some.inj fires
          exact ⟨contents.ring, contents.sendBuffer⟩
      | add n =>
          simp only [land, Option.ite_none_right_eq_some, Option.some.injEq] at fires
          obtain ⟨-, rfl⟩ := fires
          exact ⟨contents.ring, contents.sendBuffer⟩
  | landCredit j =>
      simp only [step, Option.map_eq_some_iff] at fires
      obtain ⟨c, -, rfl⟩ := fires
      exact ⟨contents.ring, contents.sendBuffer⟩

theorem Contents.nextForwarder (contents : l.Contents cfg own i) :
    l.nextForwarder.Contents cfg own (i + 1) := ⟨contents.ring.next, contents.sendBuffer.next⟩

/-! ### What the forwarder counts -/

/-- How much credit is under way. -/
def underWay (credits : List (ℕ × ℕ)) : ℕ := (credits.map Prod.snd).sum

theorem underWay_append (cs cs' : List (ℕ × ℕ)) :
    underWay (cs ++ cs') = underWay cs + underWay cs' := by
  rw [underWay, List.map_append, List.sum_append]
  rfl

theorem underWay_returned (k : ℕ) (ns : List ℕ) : underWay (ns.map fun n => (k, n)) = ns.sum := by
  rw [underWay, List.map_map]
  exact congrArg List.sum (List.map_id ns)

theorem underWay_eraseIdx {cs : List (ℕ × ℕ)} {c : ℕ × ℕ} {j : ℕ} (here : cs[j]? = some c) :
    c.2 + underWay (cs.eraseIdx j) = underWay cs := by
  obtain ⟨lt, rfl⟩ := List.getElem?_eq_some_iff.1 here
  exact ((List.getElem_cons_eraseIdx_perm lt).map Prod.snd).sum_eq

theorem underWay_le_of_sublist {cs cs' : List (ℕ × ℕ)} (sub : cs.Sublist cs') :
    underWay cs ≤ underWay cs' := (sub.map Prod.snd).sum_le_sum fun _ _ => Nat.zero_le _

/-- A forwarder that starts finds no credit of an earlier iteration under way. -/
def OwnCredit (i : ℕ) (l : CombineLink K) : Event K → Prop
  | .forwarder .enter => ∀ c ∈ l.credits, i ≤ c.1
  | _ => True

instance (i : ℕ) (l : CombineLink K) : (e : Event K) → Decidable (l.OwnCredit i e)
  | .forwarder .enter => inferInstanceAs (Decidable (∀ c ∈ l.credits, i ≤ c.1))
  | .forwarder .grant | .forwarder (.stage _) | .forwarder .put | .receivers _ | .landPacket _
  | .landCredit _ => isTrue trivial

/-- While both sides are in one iteration, what the forwarder has counted as credit has been
returned in it. -/
structure Credited (cfg : Config) (d : ℕ → Delivery K) (i k : ℕ) (l : CombineLink K) : Prop where
  tags : ∀ c ∈ l.credits, c.1 ≤ k
  now : underWay (l.credits.filter fun c => c.1 = k) ≤ l.receivers.scan.returned
  entered : i = k → ∀ prev, l.forwarder.prevHead = some prev → ∃ b, prev = BitVec.ofNat 32 b ∧
    b ≤ l.rdmaChannelHead ∧
      l.rdmaChannelHead + underWay l.credits ≤ b + l.receivers.scan.returned
  granted : i = k → l.forwarder.granted = true →
    l.forwarder.tokenEndIdx cfg (d i).numTokens ≤
      cfg.numMaxRdmaChunkedRecvTokens + l.receivers.scan.returned

theorem start_credited (cfg : Config) (d : ℕ → Delivery K) (p : Plan K) :
    (start p).Credited cfg d 0 0 where
  tags _ none := absurd none List.not_mem_nil
  now := le_rfl
  entered _ _ none := by cases none
  granted _ no := Bool.noConfusion no

/-- **Every step keeps the credit within what has been returned.** -/
theorem step_credited {e : Event K} (inv : l.Inv cfg d i k) (inStep : l.InStep i k)
    (credited : l.Credited cfg d i k) (timely : l.OwnCredit i e)
    (fires : l.step cfg d own i k e = some l') : l'.Credited cfg d i k := by
  cases e with
  | forwarder e =>
      simp only [step, Option.map_eq_some_iff] at fires
      obtain ⟨f, fires, rfl⟩ := fires
      cases e with
      | enter =>
          simp only [CombineForwarder.step, Option.ite_none_right_eq_some,
            Option.some.injEq] at fires
          obtain ⟨-, rfl⟩ := fires
          refine { credited with entered := fun same prev read => ?_ }
          -- all that is under way belongs to this iteration
          have mine : l.credits.filter (fun c => c.1 = k) = l.credits :=
            List.filter_eq_self.2 fun c mem =>
              decide_eq_true (le_antisymm (credited.tags c mem) (same ▸ timely c mem))
          have now := credited.now
          rw [mine] at now
          exact ⟨l.rdmaChannelHead, (Option.some.inj read).symm, le_rfl,
            Nat.add_le_add_left now _⟩
      | grant =>
          simp only [CombineForwarder.step, Option.bind_eq_some_iff,
            Option.ite_none_right_eq_some, Option.some.injEq] at fires
          obtain ⟨prev, read, ⟨-, room⟩, rfl⟩ := fires
          refine { credited with granted := fun same _ => ?_ }
          obtain ⟨b, rfl, le, bound⟩ := credited.entered same prev read
          have view := WrapCounter.diff_le (w := 32) le
          simp only [CombineForwarder.numChunkedTokens] at room
          show l.forwarder.tokenEndIdx cfg (d i).numTokens ≤ _
          dsimp only
          omega
      | stage t =>
          simp only [CombineForwarder.step, Option.ite_none_right_eq_some,
            Option.some.injEq] at fires
          obtain ⟨-, rfl⟩ := fires
          exact { credited with }
      | put =>
          simp only [CombineForwarder.step, Option.ite_none_right_eq_some,
            Option.some.injEq] at fires
          obtain ⟨-, rfl⟩ := fires
          exact { credited with granted := fun _ no => Bool.noConfusion no }
  | receivers e =>
      simp only [step, Option.map_eq_some_iff] at fires
      obtain ⟨r, fires, rfl⟩ := fires
      have returned := (CombineReceivers.step_inv inv.receivers (inv.tail_le inStep) fires).2
      constructor
      case tags =>
        intro c mem
        rcases List.mem_append.1 mem with old | new
        · exact credited.tags c old
        · obtain ⟨n, -, rfl⟩ := List.mem_map.1 new
          exact le_rfl
      case now =>
        have all : ((l.receivers.credits (d k).plan e).map fun n => (k, n)).filter
            (fun c => c.1 = k) = (l.receivers.credits (d k).plan e).map fun n => (k, n) := by
          refine List.filter_eq_self.2 fun c mem => ?_
          obtain ⟨n, -, rfl⟩ := List.mem_map.1 mem
          exact decide_eq_true rfl
        dsimp only
        rw [List.filter_append, underWay_append, all, underWay_returned, returned]
        exact Nat.add_le_add_right credited.now _
      case entered =>
        intro same prev read
        obtain ⟨b, exact_word, le, bound⟩ := credited.entered same prev read
        refine ⟨b, exact_word, le, ?_⟩
        dsimp only
        rw [underWay_append, underWay_returned, returned, ← Nat.add_assoc, ← Nat.add_assoc]
        exact Nat.add_le_add_right bound _
      case granted =>
        intro same granted
        have before := credited.granted same granted
        dsimp only
        rw [returned]
        exact before.trans (Nat.add_le_add_left (Nat.le_add_right _ _) _)
  | landPacket j =>
      simp only [step, Option.bind_eq_some_iff] at fires
      obtain ⟨packet, -, fires⟩ := fires
      cases packet with
      | put first =>
          obtain rfl := Option.some.inj fires
          exact { credited with }
      | add n =>
          simp only [land, Option.ite_none_right_eq_some, Option.some.injEq] at fires
          obtain ⟨-, rfl⟩ := fires
          exact { credited with }
  | landCredit j =>
      simp only [step, Option.map_eq_some_iff] at fires
      obtain ⟨c, here, rfl⟩ := fires
      have fewer := List.eraseIdx_sublist l.credits j
      refine { credited with
        tags := fun c mem => ?_, now := ?_, entered := fun same prev read => ?_ }
      · exact credited.tags c (fewer.subset mem)
      · exact (underWay_le_of_sublist (fewer.filter _)).trans credited.now
      · obtain ⟨b, exact_word, le, bound⟩ := credited.entered same prev read
        refine ⟨b, exact_word, le.trans (Nat.le_add_right _ _), ?_⟩
        dsimp only
        rw [Nat.add_assoc, underWay_eraseIdx here]
        exact bound

/-- A forwarder that has started over has counted nothing. -/
theorem Credited.nextForwarder (credited : l.Credited cfg d i k) :
    l.nextForwarder.Credited cfg d (i + 1) k where
  tags := credited.tags
  now := credited.now
  entered _ _ none := by cases none
  granted _ no := Bool.noConfusion no

/-- Credit that is under way when the receivers start over is of earlier iterations. -/
theorem Credited.nextReceivers (credited : l.Credited cfg d i k) (p : Plan K)
    (idle : i = k + 1 → l.forwarder = .start) :
    (l.nextReceivers p).Credited cfg d i (k + 1) where
  tags c mem := (credited.tags c mem).trans (Nat.le_succ k)
  now := by
    have none : l.credits.filter (fun c => c.1 = k + 1) = [] :=
      List.filter_eq_nil_iff.2 fun c mem later =>
        absurd (of_decide_eq_true later) (Nat.lt_succ_of_le (credited.tags c mem)).ne
    exact (congrArg underWay none).le
  entered same prev read := by
    have none : l.forwarder.prevHead = none := congrArg CombineForwarder.prevHead (idle same)
    exact absurd (none.symm.trans read) (Option.some_ne_none prev).symm
  granted same granted := by
    have no : l.forwarder.granted = false := congrArg CombineForwarder.granted (idle same)
    exact Bool.noConfusion (no.symm.trans granted)

/-! ### Where the forwarder writes -/

/-- **The slots of a granted chunk hold only tokens that have been read.** -/
theorem Credited.consumed (credited : l.Credited cfg d i k) (inv : l.Inv cfg d i k) (le : i ≤ k)
    (granted : l.forwarder.granted = true) {t' : ℕ} (lo : l.forwarder.tokenStartIdx ≤ t')
    (hi : t' < l.forwarder.tokenEndIdx cfg (d i).numTokens) {j t : ℕ}
    (slot : t' % cfg.numMaxRdmaChunkedRecvTokens = t % cfg.numMaxRdmaChunkedRecvTokens)
    (which : j < i ∨ j = i ∧ l.forwarder.staged t = true ∧ t ≠ t') :
    Consumed d k l.receivers j t := by
  rcases which with before | ⟨rfl, staged, other⟩
  · exact Or.inl (before.trans_le le)
  · rcases eq_or_lt_of_le le with rfl | before
    · refine Or.inr ⟨rfl, fun f m taken entry_t => ?_⟩
      -- within a chunk no two tokens share a slot, so `t` is a ring behind
      have chunk : l.forwarder.tokenEndIdx cfg (d j).numTokens ≤
          l.forwarder.tokenStartIdx + cfg.numMaxRdmaChunkedSendTokens :=
        CombineForwarder.tokenEndIdx_le
      have smaller := cfg.rdmaSend_lt_recv
      have behind : t + cfg.numMaxRdmaChunkedRecvTokens ≤ t' := by
        by_contra near
        rcases lt_or_gt_of_ne other with lt | gt
        · exact ReplayRings.mod_ne lt (not_le.1 near) slot.symm
        · have inside := (inv.forwarder.staged t staged (lo.trans gt.le)).2
          exact ReplayRings.mod_ne gt (by omega) slot
      have room := credited.granted rfl granted
      have frees : t < l.receivers.scan.returned := by omega
      by_contra unread
      have needed : Needed (d j).plan l.receivers.scan f m :=
        ⟨not_lt.1 unread, taken, entry_t ▸ Int.natCast_nonneg t⟩
      have le_entry := inv.receivers.scan.lastHead f m needed
      rw [entry_t, ← inv.receivers.scan.returned] at le_entry
      exact frees.not_ge (Int.ofNat_le.1 le_entry)
    · exact Or.inl before

/-- **Tokens are put only into slots that have been read.** -/
theorem Credited.ringWrites_consumed (credited : l.Credited cfg d i k) (inv : l.Inv cfg d i k)
    (contents : l.Contents cfg own i) (le : i ≤ k) {e : CombineForwarder.Event}
    {f : CombineForwarder}
    (fires : l.forwarder.step cfg (d i).numTokens l.rdmaChannelHead e = some f) {slot t' : ℕ}
    (writes : (slot, t') ∈ l.forwarder.ringWrites cfg (d i).numTokens own e) {j t : ℕ}
    (content : l.ring slot = some (j, t)) : Consumed d k l.receivers j t := by
  have ⟨in_slot, which⟩ := contents.ring slot j t content
  cases e with
  | enter | grant => exact absurd writes List.not_mem_nil
  | stage t'' =>
      simp only [CombineForwarder.step, Option.ite_none_right_eq_some] at fires
      obtain ⟨⟨granted, lo, hi, unstaged⟩, -⟩ := fires
      cases own with
      | false => exact absurd writes List.not_mem_nil
      | true =>
          obtain ⟨rfl, rfl⟩ := Prod.mk.inj (List.mem_singleton.1 writes)
          refine credited.consumed inv le granted lo hi in_slot ?_
          refine which.imp_right fun now => ⟨now.1, now.2.1, ?_⟩
          rintro rfl
          exact Bool.noConfusion (unstaged.symm.trans now.2.1)
  | put =>
      simp only [CombineForwarder.step, Option.ite_none_right_eq_some] at fires
      obtain ⟨⟨granted, -⟩, -⟩ := fires
      cases own with
      | true => exact absurd writes List.not_mem_nil
      | false =>
          obtain ⟨n, mem, same⟩ := List.mem_map.1 writes
          obtain ⟨rfl, rfl⟩ := Prod.mk.inj same
          have chunk := List.mem_range.1 mem
          rw [CombineForwarder.slot_eq inv.forwarder chunk] at in_slot
          rw [CombineForwarder.numChunkedTokens] at chunk
          refine credited.consumed inv le granted (Nat.le_add_right _ _) (by omega) in_slot ?_
          refine which.imp_right fun now => ⟨now.1, now.2.1, ?_⟩
          exact ((now.2.2 rfl).trans_le (Nat.le_add_right _ _)).ne

/-- **So it is where they are staged for another node.** -/
theorem Credited.sendWrites_consumed (credited : l.Credited cfg d i k) (inv : l.Inv cfg d i k)
    (contents : l.Contents cfg own i) (le : i ≤ k) {e : CombineForwarder.Event}
    {f : CombineForwarder}
    (fires : l.forwarder.step cfg (d i).numTokens l.rdmaChannelHead e = some f) {slot t' : ℕ}
    (writes : (slot, t') ∈ CombineForwarder.sendWrites cfg own e) {j t : ℕ}
    (content : l.sendBuffer slot = some (j, t)) : Consumed d k l.receivers j t := by
  have ⟨in_slot, which⟩ := contents.sendBuffer slot j t content
  cases e with
  | enter | grant | put => exact absurd writes List.not_mem_nil
  | stage t'' =>
      simp only [CombineForwarder.step, Option.ite_none_right_eq_some] at fires
      obtain ⟨⟨granted, lo, hi, unstaged⟩, -⟩ := fires
      cases own with
      | true => exact absurd writes List.not_mem_nil
      | false =>
          obtain ⟨rfl, rfl⟩ := Prod.mk.inj (List.mem_singleton.1 writes)
          refine credited.consumed inv le granted lo hi in_slot ?_
          refine which.imp_right fun now => ⟨now.1, now.2, ?_⟩
          rintro rfl
          exact Bool.noConfusion (unstaged.symm.trans now.2)

end CombineLink

/-! ### What every run keeps -/

namespace CombineNodes

variable {n : ℕ} {d : Fin n → Fin n → ℕ → Delivery K} {s s' : CombineNodes n K}

/-- When a forwarder starts, all credit of earlier iterations has arrived at its ring. -/
def OwnCredit (s : CombineNodes n K) : Event n K → Prop
  | .link v w e => (s.link v w).OwnCredit (s.iter v) e
  | _ => True

instance (s : CombineNodes n K) : (e : Event n K) → Decidable (s.OwnCredit e)
  | .link v w e => inferInstanceAs (Decidable ((s.link v w).OwnCredit (s.iter v) e))
  | .combine _ | .next _ => isTrue trivial

/-- The rings are in order, and forwarders count only credit of their iteration. -/
structure Filled (cfg : Config) (d : Fin n → Fin n → ℕ → Delivery K) (s : CombineNodes n K) :
    Prop where
  contents : ∀ v w, (s.link v w).Contents cfg (decide (v = w)) (s.iter v)
  credited : ∀ v w, (s.link v w).Credited cfg (d v w) (s.iter v) (s.iter w)

theorem start_filled (cfg : Config) (d : Fin n → Fin n → ℕ → Delivery K) :
    (start d).Filled cfg d where
  contents _ _ := CombineLink.start_contents cfg _ _
  credited v w := CombineLink.start_credited cfg (d v w) _

/-- The start of a node's next iteration keeps the rings in order. -/
theorem next_filled (inv : s.Inv cfg d) (filled : s.Filled cfg d) (v : Fin n) :
    (s.next d v).Filled cfg d where
  contents a b := by
    have source : (if a = v then (s.link a b).nextForwarder else s.link a b).Contents cfg
        (decide (a = b)) (update s.iter v (s.iter v + 1) a) := by
      split_ifs with here
      · subst here
        rw [update_self]
        exact (filled.contents a b).nextForwarder
      · rw [update_of_ne here]
        exact filled.contents a b
    dsimp only [next]
    by_cases here : b = v
    · rw [if_pos here]
      exact ⟨source.ring, source.sendBuffer⟩
    · rw [if_neg here]
      exact source
  credited a b := by
    have source : (if a = v then (s.link a b).nextForwarder else s.link a b).Credited cfg (d a b)
        (update s.iter v (s.iter v + 1) a) (s.iter b) := by
      split_ifs with here
      · subst here
        rw [update_self]
        exact (filled.credited a b).nextForwarder
      · rw [update_of_ne here]
        exact filled.credited a b
    dsimp only [next]
    by_cases here : b = v
    · subst here
      rw [if_pos rfl, update_self b]
      refine source.nextReceivers _ fun ahead => ?_
      by_cases same : a = b
      · rw [if_pos same]
        rfl
      · -- a node that is ahead is not in its combine yet
        rw [update_of_ne same] at ahead
        rw [if_neg same]
        cases combining : s.combining a with
        | true => exact absurd (inv.near a b combining) (ahead ▸ Nat.not_succ_le_self _)
        | false => exact (inv.quiet a b).source combining
    · rw [if_neg here, update_of_ne here]
      exact source

/-- **Every step that meets the condition keeps the rings in order.** -/
theorem step_filled {e : Event n K} (inv : s.Inv cfg d) (filled : s.Filled cfg d)
    (timely : s.OwnCredit e) (fires : s.step cfg d e = some s') : s'.Filled cfg d := by
  cases e with
  | link v w e =>
      simp only [step, Option.ite_none_right_eq_some, Option.map_eq_some_iff] at fires
      obtain ⟨-, l, fires, rfl⟩ := fires
      exact
        { contents := Store.update_update_rule filled.contents
            (CombineLink.step_contents (inv.link v w) (filled.contents v w) fires)
          credited := Store.update_update_rule filled.credited
            (CombineLink.step_credited (inv.link v w) (inv.inStep v w) (filled.credited v w)
              timely fires) }
  | combine v =>
      simp only [step, Option.ite_none_right_eq_some, Option.some.injEq] at fires
      obtain ⟨-, rfl⟩ := fires
      exact { filled with }
  | next v =>
      simp only [step, Option.ite_none_right_eq_some, Option.some.injEq] at fires
      obtain ⟨-, rfl⟩ := fires
      exact next_filled inv filled v

theorem filled_of_reachable (reach : (combineNodes cfg d).ReachableUnder OwnCredit s) :
    s.Filled cfg d := by
  induction reach with
  | init => exact start_filled cfg d
  | step e before timely fires ih =>
      exact step_filled (inv_of_reachable before.reachable) ih timely fires

/-- What a forwarder writes, into a ring or where it stages a chunk for another node, replaces
nothing that has not been read. -/
def PutsConsumed (cfg : Config) (d : Fin n → Fin n → ℕ → Delivery K) (s : CombineNodes n K) :
    Prop :=
  ∀ v w e s', s.step cfg d (.link v w (.forwarder e)) = some s' → ∀ slot t' j t,
    ((slot, t') ∈ (s.link v w).forwarder.ringWrites cfg (d v w (s.iter v)).numTokens
        (decide (v = w)) e → (s.link v w).ring slot = some (j, t) →
      Consumed (d v w) (s.iter w) (s.link v w).receivers j t) ∧
    ((slot, t') ∈ CombineForwarder.sendWrites cfg (decide (v = w)) e →
      (s.link v w).sendBuffer slot = some (j, t) →
        Consumed (d v w) (s.iter w) (s.link v w).receivers j t)

end CombineNodes

/-- **Combine overwrites nothing unread when no credit is late.**  In every run of combine
iterations in which a forwarder finds no credit of earlier iterations under way when it reads
the head for its baseline, a forwarder stages and puts tokens only into slots whose tokens the
receivers have read. -/
theorem puts_consumed {sh : NodeShape} {Row Weight : Type} (cfg : Config)
    (work : CombineWorkload sh Row Weight)
    {s : CombineNodes sh.numRdmaRanks (numRdmaReceivers sh.numRdmaRanks)}
    (reach : (combineNodes cfg (work.delivery cfg)).ReachableUnder CombineNodes.OwnCredit s) :
    s.PutsConsumed cfg (work.delivery cfg) := by
  intro v w e s' fires slot t' j t
  have inv := CombineNodes.inv_of_reachable reach.reachable
  have filled := CombineNodes.filled_of_reachable reach
  simp only [CombineNodes.step, Option.ite_none_right_eq_some, Option.map_eq_some_iff] at fires
  obtain ⟨combining, l, fires, -⟩ := fires
  simp only [CombineLink.step, Option.map_eq_some_iff] at fires
  obtain ⟨f, fires, -⟩ := fires
  have near := inv.near v w combining
  have credited := filled.credited v w
  have contents := filled.contents v w
  exact ⟨fun writes => credited.ringWrites_consumed (inv.link v w) contents near fires writes,
    fun writes => credited.sendWrites_consumed (inv.link v w) contents near fires writes⟩

/-! ### A credit that arrives late -/

section Example

open CombineNodes

/-- What node 0 forwards to node 1. -/
def toNode1 : ℕ → Delivery (numRdmaReceivers 2) :=
  growing.delivery twoChunkConfig ⟨0, Nat.two_pos⟩ ⟨1, Nat.one_lt_two⟩

/-- Receivers read some tokens, others have taken theirs, and the rest exits.  The coordinator
then returns the credit for what lies before the tokens that are still to be read. -/
def returnCredit (read taken : List ℕ) : List NodeEvent :=
  takes firstNode secondNode read ++
    ((taken.map fun t => HeadScan.Event.take (warpOf t)) ++ retireBut (taken.map warpOf) ++
      scanOf (taken.map warpOf)).map fun e => .link firstNode secondNode (.receivers (.scan e))

/-- The first iteration of both nodes: the credit for the first chunk is returned while one
receiver has yet to read the last token, and is still under way at the end. -/
def creditUnderWay : List NodeEvent :=
  firstIteration (returnCredit (List.range 12) [12] ++
    [.receivers (.look (warpOf 12)), .receivers (.scan (.finish (warpOf 12)))].map
      (.link firstNode secondNode))

/-- The combines of the second iteration start, and two chunks are put. -/
def fillRing : List NodeEvent :=
  bothCombine ++ [.link firstNode secondNode (.forwarder .enter)] ++ forward 0 12 ++ forward 12 12

/-- A credit arrives, and the third chunk is staged. -/
def stageThird : List NodeEvent :=
  [.landCredit 0, .forwarder .grant, .forwarder (.stage 24), .forwarder (.stage 25)].map
    (.link firstNode secondNode)

/-- **A late credit makes a forwarder overwrite an unread token.**  The ring has room for two
chunks, and is full; the credit of the first iteration lets the third chunk through to the slots
of the first, although no receiver has begun. -/
theorem lateCredit_overwrites : CombineLaunch 2 twoChunkConfig ∧
    ∃ s, growingNodes.Reachable s ∧
      ¬ s.PutsConsumed twoChunkConfig (growing.delivery twoChunkConfig) := by
  refine ⟨twoChunkConfig_launch, ?_⟩
  have replays : ((growingNodes.run growingNodes.init
      (creditUnderWay ++ fillRing ++ stageThird)).any fun s =>
        (growingNodes.step s (.link 0 1 (.forwarder .put))).any fun _ => decide
          (((0, 24) ∈ (s.link 0 1).forwarder.ringWrites twoChunkConfig
              (toNode1 (s.iter 0)).numTokens false .put ∧ (s.link 0 1).ring 0 = some (1, 0)) ∧
            s.iter 1 = 1 ∧ (s.link 0 1).receivers.scan.done (warpOf 0) = 0)) = true := by
    decide +kernel
  obtain ⟨s, replay, then'⟩ := (Option.any_eq_true _ _).1 replays
  obtain ⟨s', fires, facts⟩ := (Option.any_eq_true _ _).1 then'
  obtain ⟨⟨writes, content⟩, second, unread⟩ := of_decide_eq_true facts
  refine ⟨s, TransitionSystem.Reachable.init.run replay, fun safe => ?_⟩
  have read : Consumed toNode1 (s.iter 1) (s.link 0 1).receivers 1 0 :=
    (safe ⟨0, Nat.two_pos⟩ ⟨1, Nat.one_lt_two⟩ .put s' fires 0 24 1 0).1 writes content
  have first : 0 < (toNode1 1).plan.count (warpOf 0) ∧
      (toNode1 1).plan.entry (warpOf 0) 0 = 0 := by
    decide +kernel
  rw [second] at read
  rcases read with before | ⟨-, all_read⟩
  · exact absurd before (lt_irrefl 1)
  · exact absurd unread (all_read (warpOf 0) 0 first.1 first.2).ne'

/-- In time, the credit does no harm: the third chunk waits until the first has been read. -/
theorem timelyCredit_consumed : ∃ s : CombineNodes 2 (numRdmaReceivers 2),
    (growingNodes.step s (.link 0 1 (.forwarder .put))).isSome = true ∧
      (s.link 0 1).ring 0 = some (1, 0) ∧
        Consumed toNode1 (s.iter 1) (s.link 0 1).receivers 1 0 := by
  have replays : ((growingNodes.runUnder OwnCredit growingNodes.init
      (creditUnderWay ++ [.link 0 1 (.landCredit 0)] ++ fillRing ++ allWarps 0 1 .readPrev ++
        returnCredit (List.range 12 ++ List.range' 16 8) ([24, 25] ++ List.range' 12 4) ++
        stageThird)).any fun s =>
        (growingNodes.step s (.link 0 1 (.forwarder .put))).any fun _ => decide
          ((0, 24) ∈ (s.link 0 1).forwarder.ringWrites twoChunkConfig
              (toNode1 (s.iter 0)).numTokens false .put ∧
            (s.link 0 1).ring 0 = some (1, 0))) = true := by
    decide +kernel
  obtain ⟨s, replay, then'⟩ := (Option.any_eq_true _ _).1 replays
  obtain ⟨s', fires, facts⟩ := (Option.any_eq_true _ _).1 then'
  obtain ⟨writes, content⟩ := of_decide_eq_true facts
  have reach : growingNodes.ReachableUnder OwnCredit s :=
    TransitionSystem.ReachableUnder.init.run replay
  exact ⟨s, Option.isSome_of_mem fires, content,
    (puts_consumed twoChunkConfig growing reach ⟨0, Nat.two_pos⟩ ⟨1, Nat.one_lt_two⟩ .put s' fires
      0 24 1 0).1 writes content⟩

end Example

end StreamEP.Internode
