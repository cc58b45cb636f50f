import StreamEP.Internode.PoolReceiver

/-!
# The layout internode dispatch leaves at a rank

The receivers of a rank land the tokens of every source with the ids and slots that the
routing and the rank's `PoolPlan` determine, whatever mixtures of the sources their rings
deliver (`allLanded_perm`).  So the maps they leave in memory are those of the routing.

From one warp to the rank there are two steps.  What the warp lands of one source is what the
plan says (`landed_substream`), from the invariant of its lane; a warp's sources are mixed, so
what it lands altogether is only a permutation of theirs (`taken_perm`).  Then the warps of the
rank, by peer and channel, are brought into the order of the plan, by channel and source.  The
results about memory do not see the order, and so the permutation is enough.

`NodeDeliveries` are batches for every ring of the rank, and `DeliversAll` says that every ring
delivers a mixture of its substreams.  In the example the sources take turns, one packet a batch.
-/

namespace StreamEP.Internode

open Finset

variable {sh : NodeShape} {Row Weight : Type}

namespace NodeWorld

variable (w : NodeWorld sh Row Weight) (g : ℕ)

/-- Batches for every (channel, peer) ring of rank `g`. -/
abbrev NodeDeliveries (Row Weight : Type) : Type :=
  ℕ → ℕ → List (Batches.Batch (ℕ × StreamEP.Packet Row Weight))

/-- Every ring of rank `g` delivers a mixture of its substreams. -/
def DeliversAll (batches : NodeDeliveries Row Weight) : Prop :=
  ∀ c < sh.numChannels, ∀ n < sh.numNvlPeers, w.Delivered g c n (batches c n)

/-- What all receivers of the rank land, by peer, then channel. -/
def allLanded (batches : NodeDeliveries Row Weight) : List (Landed Row Weight) :=
  (List.range sh.numNvlPeers).flatMap fun n =>
    (List.range sh.numChannels).flatMap fun c =>
      (w.taken g c n (batches c n)).map (·.2.landed)

/-- What is landed of channel `c` and source rank `src`. -/
def landed (batches : NodeDeliveries Row Weight) (c src : ℕ) : List (Landed Row Weight) :=
  (Lanes.of (sh.rdmaRank src)
    (w.taken g c (sh.nvlRank src) (batches c (sh.nvlRank src)))).map (·.landed)

variable {w g} {c n s t : ℕ} {batches : NodeDeliveries Row Weight}

/-! ### Closed forms -/

section Substream

variable (hg : g < sh.numRanks) (hc : c < sh.numChannels) (hs : s < sh.numRdmaRanks)
  (hn : n < sh.numNvlPeers)

include hg hc hs hn

/-- The ids of a substream start where its offsets put them. -/
theorem totalOffset_add_ringPos (ht : t ∈ selected (w.inputs (srcWorld sh s n)) g c) :
    w.totalOffset g c n s + ringPos (w.inputs (srcWorld sh s n)) g c t =
      recvTokenId w.inputs g (srcWorld sh s n) t := by
  obtain ⟨⟨lo, -⟩, -⟩ := mem_selected.1 ht
  have mono := Nat.count_monotone ((w.inputs (srcWorld sh s n)).InRank g) lo
  have before : (if 0 < srcWorld sh s n then
        recvGblRankPrefixSum w.inputs w.slabs g (srcWorld sh s n - 1) else 0) =
      ∑ src ∈ range (srcWorld sh s n), numRouted w.inputs g src := by
    have inside := srcWorld_lt hs hn
    split_ifs with first
    · rw [recvGblRankPrefixSum_apply hg (by omega), Nat.sub_add_cancel first]
    · rw [Nat.eq_zero_of_not_pos first, sum_range_zero]
  rw [totalOffset, before, startOffset_eq hg hc, ringPos, Stream.pos, recvTokenId]
  omega

/-- **A token is landed as the plan says**, at its position of its substream. -/
theorem takenAt_landed (ht : t ∈ selected (w.inputs (srcWorld sh s n)) g c) :
    (w.takenAt g c n s (ringPos (w.inputs (srcWorld sh s n)) g c t)).landed =
      (w.plan hg).landedOf (w.localMessage g) c (srcWorld sh s n) t := by
  have packet : w.localAt g c n s (ringPos (w.inputs (srcWorld sh s n)) g c t) =
      w.localMessage g (srcWorld sh s n) t := by
    rw [localAt, List.getD_eq_getElem?_getD, getElem?_selected ht]
    rfl
  have slots : ∀ k ∈ List.range sh.numTopk,
      slotAt sh.toShape (w.basePoolSubstream g c n s) (w.localAt g c n s)
          (ringPos (w.inputs (srcWorld sh s n)) g c t * sh.numTopk + k) =
        (w.plan hg).pairSlot c (srcWorld sh s n) (t * sh.numTopk + k) := by
    intro k hk
    refine carriesExperts.slotAt_ringPos hg (w.plan hg) ?_ ht (List.mem_range.1 hk)
    intro e he
    rfl
  rw [takenAt, PoolPlan.landedOf]
  simp only [totalOffset_add_ringPos hg hc hs hn ht, packet, List.map_congr_left slots]

/-- The substream of one source, as it is landed. -/
theorem landed_substream :
    (List.range (w.messages g c n s).length).map (fun j => (w.takenAt g c n s j).landed) =
      (selected (w.inputs (srcWorld sh s n)) g c).map
        ((w.plan hg).landedOf (w.localMessage g) c (srcWorld sh s n)) := by
  refine List.ext_getElem (by simp [messages]) fun j hj hj' => ?_
  have hj : j < (selected (w.inputs (srcWorld sh s n)) g c).length := by simpa using hj'
  rw [List.getElem_map, List.getElem_map, List.getElem_range,
    ← takenAt_landed hg hc hs hn (List.getElem_mem hj), ringPos_selected hj]

end Substream

/-! ### All receivers of the rank -/

section Rank

variable (hg : g < sh.numRanks) (delivers : w.DeliversAll g batches)

include delivers

/-- The tokens of a source are landed in the order of the source. -/
theorem landed_eq {src : ℕ} (hc : c < sh.numChannels) (hsrc : src < sh.numRanks) :
    w.landed g batches c src =
      (selected (w.inputs src) g c).map ((w.plan hg).landedOf (w.localMessage g) c src) := by
  have hs := NodeShape.rdmaRank_lt hsrc
  have hn : sh.nvlRank src < sh.numNvlPeers := NodeShape.nvlRank_lt src
  have same : srcWorld sh (sh.rdmaRank src) (sh.nvlRank src) = src := NodeShape.rank_eq src
  have lane := (taken_interleaves hg hc hn (delivers c hc _ hn)).streams _ hs
  have substream := landed_substream (w := w) hg hc hs hn
  rw [same] at substream
  rw [landed, lane, List.map_map, ← substream]
  rfl

/-- What one warp lands is, up to the order, what the plan says of its sources. -/
theorem taken_perm (hc : c < sh.numChannels) (hn : n < sh.numNvlPeers) :
    ((w.taken g c n (batches c n)).map (·.2.landed)).Perm
      ((List.range sh.numRdmaRanks).flatMap fun s =>
        (selected (w.inputs (srcWorld sh s n)) g c).map
          ((w.plan hg).landedOf (w.localMessage g) c (srcWorld sh s n))) := by
  have mixed := ((taken_interleaves hg hc hn (delivers c hc n hn)).perm.map (·.2.landed))
  have bySource : ∀ s ∈ List.range sh.numRdmaRanks,
      (((List.range (w.messages g c n s).length).map (w.takenAt g c n s)).map (s, ·)).map
          (fun x : ℕ × Taken Row Weight => x.2.landed) =
        (selected (w.inputs (srcWorld sh s n)) g c).map
          ((w.plan hg).landedOf (w.localMessage g) c (srcWorld sh s n)) := by
    intro s hs
    rw [← landed_substream hg hc (List.mem_range.1 hs) hn, List.map_map, List.map_map]
    rfl
  rw [Lanes.inTurn, List.map_flatMap, List.flatMap_congr bySource] at mixed
  exact mixed

/-- **Together the receivers land what the plan says.** -/
theorem allLanded_perm :
    (w.allLanded g batches).Perm ((w.plan hg).landedTokens (w.localMessage g)) := by
  have warps : (w.allLanded g batches).Perm
      ((List.range sh.numNvlPeers).flatMap fun n => (List.range sh.numChannels).flatMap fun c =>
        (List.range sh.numRdmaRanks).flatMap fun s =>
          (selected (w.inputs (s * sh.numNvlPeers + n)) g c).map
            ((w.plan hg).landedOf (w.localMessage g) c (s * sh.numNvlPeers + n))) := by
    refine List.Perm.flatMap_left _ fun n hn => List.Perm.flatMap_left _ fun c hc => ?_
    exact taken_perm hg delivers (List.mem_range.1 hc) (List.mem_range.1 hn)
  refine warps.trans ?_
  rw [PoolPlan.landedTokens, sh.numRanks_eq]
  exact PrefixSum.perm_flatMap_flat _ _ _ fun src c => (selected (w.inputs src) g c).map
    ((w.plan hg).landedOf (w.localMessage g) c src)

end Rank

/-! ### An instance -/

/-- The delivery in which the sources take turns and every packet comes by itself. -/
def inTurnBatches (w : NodeWorld sh Row Weight) (g : ℕ) : NodeDeliveries Row Weight :=
  fun c n => Batches.oneByOne (Lanes.inTurn sh.numRdmaRanks (w.messages g c n))

theorem delivers_inTurnBatches (w : NodeWorld sh Row Weight) (g : ℕ) :
    w.DeliversAll g (w.inTurnBatches g) := fun _ _ _ _ =>
  ⟨_, Lanes.interleaves_inTurn _ _, Batches.delivers_oneByOne _ _⟩

/-- A dispatch of the example inputs over rings of two slots. -/
def exampleNodeWorld : NodeWorld exampleNodes ℕ ℕ where
  inputs := exampleNodesInputs
  slabs := exampleSlabs
  uninitPool _ _ := 7
  numMaxNvlChunkedRecvTokens := 2
  uninitSlot _ := 7

end NodeWorld

end StreamEP.Internode
