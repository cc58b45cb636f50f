import StreamEP.GradLanding
import StreamEP.Intranode.Layout
import StreamEP.Lib.Batches

/-!
# Intranode dispatch of gradients

The backward pass sends the gradient of every token to the ranks its activation went to.  The
sender walks its channel as in the forward pass, with rows only.  The receiver counts ids from
the offsets the sender announces, and stores each row in the slots that the forward run
recorded for the id.

`dispatchGrads_lands`: whatever the batches of the two runs, every real slot gets the gradient
of the token whose activation it holds.

The two runs have nothing in common but the routing and the memory in between.  The rows of a
substream are those of the tokens of the forward substream, in the same order
(`gradSubstream_eq`), and its ids are derived from the same offsets, however it is split into
batches: batches are landed one behind the other, as one (`landBatch_append`).  So
`landedGrads_eq` has the ids of the forward run, and the rest is about what that run left for an
id.
-/

namespace StreamEP.Intranode

open Finset Loop

variable {sh : Shape} {Row Weight Grad : Type}

/-! ### The sender -/

section Walk

variable (inp : DispatchInputs sh Row Weight) (dst : ℕ) (dLdy : ℕ → Grad)

/-- One token of the inner loop: the tail of the ring and what has been sent. -/
def sendGrad (t : ℕ) (s : ℕ × List Grad) : ℕ × List Grad :=
  if inp.InRank dst t then (s.1 + 1, s.2 ++ [dLdy t]) else s

/-- The rows that the sender pushes into the ring of channel `c`. -/
def gradSubstream (c : ℕ) : List Grad :=
  let tokenStartIdx := channelStart inp.numTokens sh.numChannels c
  let tokenEndIdx := channelEnd inp.numTokens sh.numChannels c
  (for' (tokenEndIdx - tokenStartIdx)
    (fun s i => sendGrad inp dst dLdy (tokenStartIdx + i) s) (0, [])).2

variable {inp dst dLdy}

/-- The tokens are those of the forward substream, in the same order. -/
theorem gradSubstream_eq (c : ℕ) :
    gradSubstream inp dst dLdy c = (selected inp dst c).map dLdy := by
  have start_le := channelStart_le_end inp.numTokens sh.numChannels c
  have walked := for_invariant
    (f := fun s i => sendGrad inp dst dLdy (channelStart inp.numTokens sh.numChannels c + i) s)
    (s := ((0, []) : ℕ × List Grad))
    (fun i s => s.2 = (selectedBelow inp dst c
      (channelStart inp.numTokens sh.numChannels c + i)).map dLdy)
    (n := channelEnd inp.numTokens sh.numChannels c -
      channelStart inp.numTokens sh.numChannels c)
    (by simp [selectedBelow]) (fun i _ s inv => by
      rw [← Nat.add_assoc, selectedBelow_succ (Nat.le_add_right _ _), List.map_append, ← inv,
        sendGrad]
      split_ifs
      · rfl
      · exact (List.append_nil _).symm)
  rw [Nat.add_sub_cancel' start_le] at walked
  exact walked

end Walk

/-! ### The receiver -/

/-- A batch: every row gets the next id.  The registers are `total_offset` and what has been
landed. -/
def landBatch (regs : ℕ × List (LandedGrad Grad)) (rows : List Grad) :
    ℕ × List (LandedGrad Grad) :=
  (regs.1 + rows.length,
    regs.2 ++ rows.mapIdx fun chunkIdx row => ⟨regs.1 + chunkIdx, row⟩)

theorem landBatch_nil (regs : ℕ × List (LandedGrad Grad)) : landBatch regs [] = regs := by
  rw [landBatch, List.mapIdx_nil, List.append_nil, List.length_nil, Nat.add_zero]

/-- Two batches are landed as one. -/
theorem landBatch_append (regs : ℕ × List (LandedGrad Grad)) (rows rows' : List Grad) :
    landBatch regs (rows ++ rows') = landBatch (landBatch regs rows) rows' := by
  rw [landBatch, landBatch, landBatch, List.mapIdx_append, List.length_append]
  simp only [Nat.add_assoc, Nat.add_comm rows.length, List.append_assoc]

namespace World

variable (w : World sh Row Weight) (g c src : ℕ)

/-- `num_tokens_to_recv`, from the counts that the sender announces. -/
def numGradsToRecv : ℤ := -endOffset (w.inputs src) g c - 1 - w.recvChannelPrefix g c src

/-- `total_offset` before the first batch. -/
def firstGradId : ℕ := (w.recvChannelPrefix g c src).toNat + w.rankOffset g src

/-- The receiver of (channel, source) after its last batch, with rings of `slots` slots. -/
def gradReceiver (slots : ℕ) (batches : List (Batches.Batch Grad)) :
    Batches.Consumer (ℕ × List (LandedGrad Grad)) :=
  Batches.drain slots landBatch batches
    ⟨0, w.numGradsToRecv g c src, (w.firstGradId g c src, [])⟩

/-- What it lands. -/
def landedGrads (slots : ℕ) (batches : ℕ → ℕ → List (Batches.Batch Grad)) (c src : ℕ) :
    List (LandedGrad Grad) := (w.gradReceiver g c src slots (batches c src)).regs.2

/-- Every substream of gradients is delivered. -/
def DeliversGrads (slots : ℕ) (dLdy : ℕ → ℕ → Grad)
    (batches : ℕ → ℕ → List (Batches.Batch Grad)) : Prop :=
  ∀ c < sh.numChannels, ∀ src < sh.numRanks,
    Batches.Delivers slots (gradSubstream (w.inputs src) g (dLdy src) c) 0 (batches c src)

variable {w g c src} {slots : ℕ} {dLdy : ℕ → ℕ → Grad}

/-- **The receiver derives the ids of the forward run**, for every delivery. -/
theorem landedGrads_eq (hg : g < sh.numRanks) (hsrc : src < sh.numRanks)
    {batches : ℕ → ℕ → List (Batches.Batch Grad)} (delivers : Batches.Delivers slots
      (gradSubstream (w.inputs src) g (dLdy src) c) 0 (batches c src)) :
    w.landedGrads g slots batches c src = PoolPlan.gradsOf w.inputs g dLdy c src := by
  have all : w.numGradsToRecv g c src =
      ((gradSubstream (w.inputs src) g (dLdy src) c).length : ℤ) - (0 : ℕ) := by
    have mono := Nat.count_monotone ((w.inputs src).InRank g)
      (channelStart_le_end (w.inputs src).numTokens sh.numChannels c)
    rw [gradSubstream_eq, List.length_map, length_selected, DispatchInputs.tokensIn,
      Nat.cast_sub mono, numGradsToRecv, recvChannelPrefix_eq, endOffset, endCount_eq]
    omega
  have drained : (w.gradReceiver g c src slots (batches c src)).regs = landBatch
      (w.firstGradId g c src, []) ((gradSubstream (w.inputs src) g (dLdy src) c).drop 0) :=
    Batches.drain_regs landBatch_nil landBatch_append delivers all
  rw [landedGrads, drained, List.drop_zero, gradSubstream_eq, landBatch, List.nil_append,
    PoolPlan.gradsOf]
  refine List.ext_getElem (by simp) fun j hj hj' => ?_
  have hj : j < (selected (w.inputs src) g c).length := by simpa using hj'
  have id := firstId_add_ringPos hg hsrc (List.getElem_mem hj)
  rw [ringPos_selected hj] at id
  rw [List.getElem_mapIdx, List.getElem_map, List.getElem_map, ← id]
  rfl

variable [Zero Weight] {batches : Deliveries Row Weight} {m : PoolMemory Row Weight}
  {gradBatches : ℕ → ℕ → List (Batches.Batch Grad)}
  {stores : List (Store.Write fun _ : ℕ => Grad)}

/-- **Gradients land where the activations of their tokens went**, for any batches of either
run and any order of the stores. -/
theorem dispatchGrads_lands (hg : g < sh.numRanks)
    (cleared : sh.numExpertsPerRank ≤ numThreadsPerRank sh) (delivers : w.DeliversAll g batches)
    (left : LeftBy sh.numTopk (w.allLanded g batches) m)
    (deliversGrads : w.DeliversGrads g slots dLdy gradBatches)
    (all : stores.Perm (allGradStores sh m (w.landedGrads g slots gradBatches))) :
    GradsLanded w.inputs (w.plan g).RealSlot dLdy (w.landed g batches)
      (w.landedGrads g slots gradBatches) m stores := by
  rw [allLanded_eq hg cleared delivers] at left
  refine PoolPlan.gradsLanded hg left (fun _ _ => ⟨rfl, rfl⟩) ?_ ?_ all
  · intro c hc src hsrc
    exact landed_eq hg cleared delivers hc hsrc
  · intro c hc src hsrc
    exact landedGrads_eq hg hsrc (deliversGrads c hc src hsrc)

end World

end StreamEP.Intranode
