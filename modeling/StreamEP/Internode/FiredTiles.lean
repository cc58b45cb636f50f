import StreamEP.Internode.DispatchGrads
import StreamEP.Intranode.Arrival

/-!
# Eager firing against firing at the end

The intranode receiver fires its ranges when its stream has ended.  The internode receivers,
forward and backward, fire a range as soon as its source has nothing more for the expert, in
the middle of a mixture of sources.

`eager_firing`: over a run of the warp the tiles get the same additions, each range is fired
once and after its last row, and the backward warp fires what the forward warp fired.

The three lists of additions are all lists of pairs of a tile and an amount: `arrivalAdds` for the
forward warp, `gradArrivalAdds` for the backward warp, and `endOfStreamAdds` for the sources if
each fired its ranges at the end of its stream.  They are compared up to the order, which the
counters do not see.  The reasoning is once per source (`perm_fireAdds`, from what a source
fires over all its packets), and `perm_endOfStreamAdds` puts the sources together for every
mixture; both warps use it, with what is fired after each of their tokens.

That every range is fired after its last row is a statement about the run itself and not about
its end: at whatever place a range is fired, the packets taken so far hold all of its rows
(`written_of_fired`).
-/

namespace StreamEP.Internode

open Finset

variable {sh : NodeShape} {Row Weight Grad : Type}

namespace NodeWorld

variable (w : NodeWorld sh Row Weight) (g c n : ℕ)

/-- The additions for the ranges that are fired after one token of the source on node `s`. -/
def fireAdds (s : ℕ) (fired : List (ℕ × ℕ)) : List (ℕ × ℕ) :=
  fired.flatMap fun r => firePoolBlocks (w.basePoolSubstream g c n s r.1) r.2 sh.tileM

/-- What the forward warp adds to `pool_arrival_count`. -/
def arrivalAdds (batches : List (Batches.Batch (ℕ × StreamEP.Packet Row Weight))) :
    List (ℕ × ℕ) :=
  (w.taken g c n batches).flatMap fun x => w.fireAdds g c n x.1 x.2.fired

/-- What the backward warp adds to `bwd_dispatch_arrival_count`. -/
def gradArrivalAdds (m : PoolMemory Row Weight) (slots : ℕ)
    (batches : List (Batches.Batch (ℕ × Grad))) : List (ℕ × ℕ) :=
  (w.gradsTaken g c n m slots batches).flatMap fun x => w.fireAdds g c n x.1 x.2.fired

/-- What the sources would add if each fired its ranges at the end of its stream. -/
def endOfStreamAdds : List (ℕ × ℕ) :=
  (List.range sh.numRdmaRanks).flatMap fun s =>
    Intranode.pass2 sh.toShape (w.basePoolSubstream g c n s) (w.expected g c n s)

/-- What the eager firing of a forward and a backward run of one warp amounts to. -/
structure EagerFiring (batches : List (Batches.Batch (ℕ × StreamEP.Packet Row Weight)))
    (m : PoolMemory Row Weight) (slots : ℕ) (gradBatches : List (Batches.Batch (ℕ × Grad))) :
    Prop where
  /-- A substream with rows for an expert is fired once, with all of them, and one without is
  not fired. -/
  once : ∀ s < sh.numRdmaRanks, ∀ e < sh.numExpertsPerRank,
    ((Lanes.of s (w.taken g c n batches)).flatMap (·.fired)).filter (·.1 = e) =
      if 0 < substreamPairs w.inputs g e (c * sh.numRanks + srcWorld sh s n) then
        [(e, substreamPairs w.inputs g e (c * sh.numRanks + srcWorld sh s n))] else []
  /-- When a range is fired, its source has written all slots of it. -/
  written : ∀ pre x post, w.taken g c n batches = pre ++ x :: post → ∀ r ∈ x.2.fired,
    ∀ slot : ℕ, w.basePoolSubstream g c n x.1 r.1 ≤ slot →
      slot < w.basePoolSubstream g c n x.1 r.1 + r.2 →
        ∃ y ∈ pre ++ [x], y.1 = x.1 ∧ ∃ k < sh.numTopk, y.2.landed.slot k = (slot : ℤ)
  /-- The additions are those of firing at the end of the streams, -/
  refines : (w.arrivalAdds g c n batches).Perm (w.endOfStreamAdds g c n)
  /-- so a tile gets from every substream what lies in it, -/
  shares : ∀ tile, Store.added (w.arrivalAdds g c n batches) tile =
    ∑ s ∈ range sh.numRdmaRanks, ∑ e ∈ range sh.numExpertsPerRank,
      overlap sh.tileM (w.basePoolSubstream g c n s e)
        (substreamPairs w.inputs g e (c * sh.numRanks + srcWorld sh s n)) tile
  /-- and the backward warp makes the same additions. -/
  backward : (w.gradArrivalAdds g c n m slots gradBatches).Perm (w.arrivalAdds g c n batches)

variable {w g c n} {s : ℕ}

section Warp

variable (hg : g < sh.numRanks) (hc : c < sh.numChannels) (hn : n < sh.numNvlPeers)

include hg hc hn

/-- What the tokens of one source make the warp fire. -/
theorem perm_fired (hs : s < sh.numRdmaRanks) :
    ((List.range (w.messages g c n s).length).flatMap
        (firedAt sh.toShape (w.expected g c n s) (w.localAt g c n s))).Perm
      ((List.range sh.numExpertsPerRank).flatMap fun e =>
        if 0 < w.expected g c n s e then [(e, w.expected g c n s e)] else []) :=
  perm_flatMap_firedAt fun _ he => seenBefore_all hg hc hs hn he

/-- The additions of one source are those of its Pass 2. -/
theorem perm_fireAdds (hs : s < sh.numRdmaRanks) :
    ((List.range (w.messages g c n s).length).flatMap fun j => w.fireAdds g c n s
        (firedAt sh.toShape (w.expected g c n s) (w.localAt g c n s) j)).Perm
      (Intranode.pass2 sh.toShape (w.basePoolSubstream g c n s) (w.expected g c n s)) := by
  have fired := (perm_fired (w := w) hg hc hn hs).flatMap_right fun r =>
    firePoolBlocks (w.basePoolSubstream g c n s r.1) r.2 sh.tileM
  rw [List.flatMap_assoc, List.flatMap_assoc] at fired
  refine fired.trans (List.Perm.of_eq (List.flatMap_congr fun e _ => ?_))
  by_cases none : w.expected g c n s e = 0
  · simp [none]
  · simp [none, Nat.pos_of_ne_zero none]

/-- **A mixture of the sources makes the additions of the ends of their streams**, if what is
fired after each token is what completes there. -/
theorem perm_endOfStreamAdds {α : Type} (fired : α → List (ℕ × ℕ)) {out : ℕ → ℕ → α}
    (eager : ∀ s j, fired (out s j) =
      firedAt sh.toShape (w.expected g c n s) (w.localAt g c n s) j) {taken : List (ℕ × α)}
    (mixed : Lanes.Interleaves sh.numRdmaRanks
      (fun s => (List.range (w.messages g c n s).length).map (out s)) taken) :
    (taken.flatMap fun x => w.fireAdds g c n x.1 (fired x.2)).Perm (w.endOfStreamAdds g c n) := by
  refine (mixed.perm_flatMap fun s a => w.fireAdds g c n s (fired a)).trans ?_
  refine List.Perm.flatMap_left _ fun s hs => ?_
  rw [List.flatMap_map]
  simp only [eager]
  exact perm_fireAdds hg hc hn (List.mem_range.1 hs)

end Warp

/-- What has been fired after a token has been written by then. -/
theorem written_of_fired {taken pre post : List (ℕ × Taken Row Weight)}
    {x : ℕ × Taken Row Weight}
    (mixed : Lanes.Interleaves sh.numRdmaRanks
      (fun s => (List.range (w.messages g c n s).length).map (w.takenAt g c n s)) taken)
    (split : taken = pre ++ x :: post) {r : ℕ × ℕ} (fired : r ∈ x.2.fired) {slot : ℕ}
    (lower : w.basePoolSubstream g c n x.1 r.1 ≤ slot)
    (upper : slot < w.basePoolSubstream g c n x.1 r.1 + r.2) :
    ∃ y ∈ pre ++ [x], y.1 = x.1 ∧ ∃ k < sh.numTopk, y.2.landed.slot k = (slot : ℤ) := by
  rw [split] at mixed
  obtain ⟨-, j, -, before, here⟩ := mixed.at_split
  rw [here] at fired
  obtain ⟨e, completed, rfl⟩ := List.mem_map.1 fired
  obtain ⟨he, completes⟩ := List.mem_filter.1 completed
  obtain ⟨j', le, k, hk, at'⟩ := (of_decide_eq_true completes).exists_slot (List.mem_range.1 he)
    lower upper
  have landed : (w.takenAt g c n x.1 j').landed.slot k = (slot : ℤ) := by
    rw [← at']
    simp [Landed.slot, takenAt, hk]
  refine ⟨(x.1, w.takenAt g c n x.1 j'), ?_, rfl, k, hk, landed⟩
  rcases Nat.lt_or_eq_of_le le with earlier | rfl
  · have mem : w.takenAt g c n x.1 j' ∈ Lanes.of x.1 pre := by
      rw [before]
      exact List.mem_map_of_mem (List.mem_range.2 earlier)
    exact List.mem_append_left _ (Lanes.mem_of.1 mem)
  · rw [← here]
    exact List.mem_append_right _ (List.mem_singleton.2 rfl)

/-- **Eager firing refines firing at the end**, for every mixture of the sources and every
delivery in batches, forward and backward. -/
theorem eager_firing (hg : g < sh.numRanks) (hc : c < sh.numChannels) (hn : n < sh.numNvlPeers)
    {batches : NodeDeliveries Row Weight} (delivers : w.DeliversAll g batches)
    {m : PoolMemory Row Weight} (left : LeftBy sh.numTopk (w.allLanded g batches) m) {slots : ℕ}
    {dLdy : ℕ → ℕ → Grad} {gradBatches : List (Batches.Batch (ℕ × Grad))}
    (deliversGrads : w.GradsDelivered g c n slots dLdy gradBatches) :
    EagerFiring w g c n (batches c n) m slots gradBatches := by
  have maps := PoolPlan.inverseMap_of_left (left.perm (allLanded_perm hg delivers))
  have mixed := taken_interleaves hg hc hn (delivers c hc n hn)
  have refines : (w.arrivalAdds g c n (batches c n)).Perm (w.endOfStreamAdds g c n) :=
    perm_endOfStreamAdds hg hc hn Taken.fired (fun _ _ => rfl) mixed
  have gradsMixed := gradsTaken_interleaves hg hc hn maps deliversGrads
  have backward : (w.gradArrivalAdds g c n m slots gradBatches).Perm (w.endOfStreamAdds g c n) :=
    perm_endOfStreamAdds hg hc hn GradTaken.fired (fun _ _ => rfl) gradsMixed
  refine ⟨?_, ?_, refines, ?_, backward.trans refines.symm⟩
  · intro s hs e he
    rw [mixed.streams s hs, List.flatMap_map, ← expected_eq hg hc hs hn he]
    have total := seenBefore_all (w := w) hg hc hs hn he
    refine (filter_flatMap_firedAt he (w.messages g c n s).length).trans ?_
    simp only [exists_completesAt_iff total]
  · intro pre x post split r fired slot lower upper
    exact written_of_fired mixed split fired lower upper
  · intro tile
    rw [Store.added_perm refines, endOfStreamAdds, Store.added_flatMap_range]
    refine sum_congr rfl fun s hs => ?_
    rw [Intranode.added_pass2]
    refine sum_congr rfl fun e he => ?_
    rw [expected_eq hg hc (mem_range.1 hs) hn (mem_range.1 he)]

/-! ### An instance -/

/-- Gradients whose sources take turns, one packet a batch. -/
def inTurnGrads (w : NodeWorld sh Row Weight) (g c n : ℕ) (dLdy : ℕ → ℕ → Grad) :
    List (Batches.Batch (ℕ × Grad)) :=
  Batches.oneByOne (Lanes.inTurn sh.numRdmaRanks (w.gradMessages g c n dLdy))

theorem eager_firing_inTurn :
    EagerFiring exampleNodeWorld 3 0 0 (exampleNodeWorld.inTurnBatches 3 0 0)
      (leftInOrder exampleNodes.numTopk
        (exampleNodeWorld.allLanded 3 (exampleNodeWorld.inTurnBatches 3))) 2
      (exampleNodeWorld.inTurnGrads 3 0 0 (· + ·)) :=
  eager_firing (by decide) (by decide) (by decide) (delivers_inTurnBatches _ _)
    (leftBy_leftInOrder _ _) ⟨_, Lanes.interleaves_inTurn _ _, Batches.delivers_oneByOne _ _⟩

end NodeWorld

end StreamEP.Internode
