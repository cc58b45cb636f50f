import StreamEP.Internode.DispatchGrads
import StreamEP.Intranode.DispatchGrads

/-!
# Dispatch of gradients, over either transport

A forward run leaves its maps in memory and a backward run reads them.  Neither depends on
the other for its timing: each may cut its streams into batches, and on the internode rings
mix its sources, in any way.

**Two runs, one plan.**  What connects the two runs is not a common history but the routing.
Both are proved against the same closed description of what happens to the tokens of one source,
the forward run by its layout theorem and the backward run by the theorems of the two modules
`DispatchGrads`, one for each topology.  `PoolPlan.gradsLanded` then glues them; it has no
knowledge of rings, batches or mixtures.

**What has to be persisted.**  The backward receiver looks up the slots of a token in
`recv_token_to_slots` and, between nodes, the expert of a slot in `tile_id_to_expert`.  Both are
kept from the forward run, and the former is what its stores left, in whatever order they came.

`dispatchGrads_sameToken` has one half for each topology.  The example after it has both: a
two-rank node, and four ranks on two nodes with the sources taken in turn.
-/

namespace StreamEP

variable {Row Weight Grad : Type}

/-- **Every gradient lands where the activation of its token went.**  For any run of dispatch and
any run of dispatch of gradients at a rank, intranode and internode: the receivers derive the
ids of the forward run, and every real slot is written once, with the gradient of the token
whose activation it holds. -/
theorem dispatchGrads_sameToken [Zero Weight] (dLdy : ℕ → ℕ → Grad) :
    (∀ (sh : Shape) (w : Intranode.World sh Row Weight) (g : ℕ)
      (batches : Intranode.World.Deliveries Row Weight) (m : PoolMemory Row Weight) (slots : ℕ)
      (gradBatches : ℕ → ℕ → List (Batches.Batch Grad))
      (stores : List (Store.Write fun _ : ℕ => Grad)),
      g < sh.numRanks → sh.numExpertsPerRank ≤ Intranode.numThreadsPerRank sh →
      w.DeliversAll g batches → LeftBy sh.numTopk (w.allLanded g batches) m →
      w.DeliversGrads g slots dLdy gradBatches →
      stores.Perm (allGradStores sh m (w.landedGrads g slots gradBatches)) →
        GradsLanded w.inputs (w.plan g).RealSlot dLdy (w.landed g batches)
          (w.landedGrads g slots gradBatches) m stores) ∧
    ∀ (sh : NodeShape) (w : Internode.NodeWorld sh Row Weight) (g : ℕ) (hg : g < sh.numRanks)
      (batches : Internode.NodeWorld.NodeDeliveries Row Weight) (m : PoolMemory Row Weight)
      (slots : ℕ) (gradBatches : Internode.NodeWorld.GradDeliveries Grad)
      (stores : List (Store.Write fun _ : ℕ => Grad)),
      w.DeliversAll g batches → LeftBy sh.numTopk (w.allLanded g batches) m →
      w.DeliversAllGrads g slots dLdy gradBatches →
      stores.Perm (w.allGradStores g m slots gradBatches) →
        GradsLanded w.inputs (w.plan hg).RealSlot dLdy (w.landed g batches)
          (w.landedGrads g m slots gradBatches) m stores := by
  refine ⟨?_, ?_⟩
  · intro sh w g batches m slots gradBatches stores hg cleared delivers left deliversGrads all
    exact w.dispatchGrads_lands hg cleared delivers left deliversGrads all
  · intro sh w g hg batches m slots gradBatches stores delivers left deliversGrads all
    exact w.dispatchGrads_lands hg delivers left deliversGrads all

/-! ### An instance -/

/-- Gradients that tell the tokens apart. -/
def exampleGrads (src t : ℕ) : ℕ := 100 * src + t

/-- One packet a batch, at rank 0. -/
def exampleGradBatches (c src : ℕ) : List (Batches.Batch ℕ) :=
  Batches.oneByOne
    (Intranode.gradSubstream (Intranode.World.exampleWorld.inputs src) 0 (exampleGrads src) c)

/-- The sources in turn and one packet a batch, at rank 3. -/
def exampleNodeGradBatches : Internode.NodeWorld.GradDeliveries ℕ := fun c n =>
  Batches.oneByOne (Lanes.inTurn Internode.exampleNodes.numRdmaRanks
    (Internode.NodeWorld.exampleNodeWorld.gradMessages 3 c n exampleGrads))

/-- The activations of rank 0, one packet a batch. -/
def exampleActivations : Intranode.World.Deliveries ℕ ℕ := fun c src =>
  Batches.oneByOne (Intranode.substream (Intranode.World.exampleWorld.inputs src) 0 c)

/-- What they leave. -/
def exampleLeft : PoolMemory ℕ ℕ :=
  leftInOrder Intranode.World.exampleShape.numTopk
    (Intranode.World.exampleWorld.allLanded 0 exampleActivations)

/-- What rank 3 of the internode example holds. -/
def exampleNodeLeft : PoolMemory ℕ ℕ :=
  leftInOrder Internode.exampleNodes.numTopk (Internode.NodeWorld.exampleNodeWorld.allLanded 3
    (Internode.NodeWorld.exampleNodeWorld.inTurnBatches 3))

theorem three_lt_numRanks : 3 < Internode.exampleNodes.numRanks := by decide

open Intranode.World Internode.NodeWorld in
theorem dispatchGrads_sameToken_examples :
    GradsLanded exampleWorld.inputs (exampleWorld.plan 0).RealSlot exampleGrads
      (exampleWorld.landed 0 exampleActivations)
      (exampleWorld.landedGrads 0 2 exampleGradBatches) exampleLeft
      (allGradStores exampleShape exampleLeft
        (exampleWorld.landedGrads 0 2 exampleGradBatches)) ∧
    GradsLanded exampleNodeWorld.inputs (exampleNodeWorld.plan three_lt_numRanks).RealSlot
      exampleGrads (exampleNodeWorld.landed 3 (exampleNodeWorld.inTurnBatches 3))
      (exampleNodeWorld.landedGrads 3 exampleNodeLeft 2 exampleNodeGradBatches) exampleNodeLeft
      (exampleNodeWorld.allGradStores 3 exampleNodeLeft 2 exampleNodeGradBatches) := by
  refine ⟨?_, ?_⟩
  · exact (dispatchGrads_sameToken exampleGrads).1 _ exampleWorld 0 exampleActivations exampleLeft
      2 exampleGradBatches _ (by decide) (by decide)
      (fun _ _ _ _ => Batches.delivers_oneByOne _ _) (leftBy_leftInOrder _ _)
      (fun _ _ _ _ => Batches.delivers_oneByOne _ _) (List.Perm.refl _)
  · exact (dispatchGrads_sameToken exampleGrads).2 _ exampleNodeWorld 3 three_lt_numRanks
      (exampleNodeWorld.inTurnBatches 3) exampleNodeLeft 2 exampleNodeGradBatches _
      (delivers_inTurnBatches _ _) (leftBy_leftInOrder _ _)
      (fun _ _ _ _ => ⟨_, Lanes.interleaves_inTurn _ _, Batches.delivers_oneByOne _ _⟩)
      (List.Perm.refl _)

end StreamEP
