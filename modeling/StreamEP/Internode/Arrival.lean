import StreamEP.Internode.FiredTiles
import StreamEP.Lib.FencedRounds
import StreamEP.PairSums

/-!
# Tile readiness between nodes

The receivers of a rank run concurrently, one warp for each channel and peer, and fire a range
of slots as soon as its source has nothing more for the expert.  So a tile may be at its target
with most of the dispatch still to come, and a warp that has fired goes on with other tokens.

`eager_readiness` says that the counts are sound and complete signals all the same: at the
target, everything that belongs to the tokens of the tile's slots is in memory, and the counts
reach their targets when the warps are done, which every run reaches.

**Rounds.**  A token is a round of its warp: the warp issues the stores of the token, and after
them it fires what the token has completed.  A store may reach memory long after it was issued,
also after later stores, and only the fence before a firing waits for those before it.
`FencedRounds` is that system, over any number of warps; the receivers of a rank are an instance
of it (`arrivalSystem`).

**Vouchers.**  Why the count of a tile says something about a particular row is not obvious,
since the range of an expert is fired by the warp's last token for it, which need not be the
token of the row.  `exists_voucher` has the argument: the row's own warp fires the range of the
row's expert in a round that is not before the row's, and that firing reaches the tile of the
row.  The count can only be full when every share is in, so also this one, and the fence in front
of it covers the row.

**What is promised.**  `TileReadiness` has the bound, the readiness of a full tile for all maps,
rows and weights of a slot (`Written`), completeness of the memory when all counts are full, and
progress.  The consumers take it from there and never look at a receiver.
-/

namespace StreamEP.Internode

open Finset PoolPlan

variable {sh : NodeShape} {Row Weight : Type}

namespace NodeWorld

/-! ### The rounds of a warp -/

section Rounds

variable {α κ : Type} {β : κ → Type}

/-- A token a round: its stores, and what is fired after it. -/
def rounds (w : NodeWorld sh Row Weight) (g c n : ℕ) (stores : α → List (Store.Write β))
    (fired : α → List (ℕ × ℕ)) (taken : List (ℕ × α)) : List (FencedRounds.Round β ℕ) :=
  taken.map fun x => ⟨stores x.2, w.fireAdds g c n x.1 (fired x.2)⟩

variable {w : NodeWorld sh Row Weight} {g c n : ℕ} (stores : α → List (Store.Write β))
  (fired : α → List (ℕ × ℕ)) {taken : List (ℕ × α)} {out : ℕ → ℕ → α}
  (hg : g < sh.numRanks) (hc : c < sh.numChannels) (hn : n < sh.numNvlPeers)
  (mixed : Lanes.Interleaves sh.numRdmaRanks
    (fun s => (List.range (w.messages g c n s).length).map (out s)) taken)
  (eager : ∀ s j, fired (out s j) =
    firedAt sh.toShape (w.expected g c n s) (w.localAt g c n s) j)

include hg hc hn mixed eager

/-- The warp's share in a tile is that of its substreams. -/
theorem added_rounds (tile : ℕ) :
    Store.added ((w.rounds g c n stores fired taken).flatMap FencedRounds.Round.adds) tile =
      ∑ s ∈ range sh.numRdmaRanks,
        (w.plan hg).share tile (c * sh.numRanks + srcWorld sh s n) := by
  have adds : (w.rounds g c n stores fired taken).flatMap FencedRounds.Round.adds =
      taken.flatMap fun x => w.fireAdds g c n x.1 (fired x.2) :=
    List.flatMap_map _ _ _
  rw [adds, Store.added_perm (perm_endOfStreamAdds hg hc hn fired eager mixed), endOfStreamAdds,
    Store.added_flatMap_range]
  refine sum_congr rfl fun s hs => ?_
  rw [Intranode.added_pass2, share]
  refine sum_congr rfl fun e he => ?_
  rw [expected_eq hg hc (mem_range.1 hs) hn (mem_range.1 he)]
  rfl

/-- **A token's stores are vouched for in the tiles of its slots**: the expert's range is fired
after the token. -/
theorem exists_voucher {s : ℕ} (hs : s < sh.numRdmaRanks) {t k slot : ℕ}
    (pair : (w.plan hg).PairAt (srcWorld sh s n) c t k slot) :
    ∃ pre r post, w.rounds g c n stores fired taken = pre ++ r :: post ∧
      0 < Store.added r.adds (slot / sh.tileM) ∧
        ∃ r' ∈ pre ++ [r],
          r'.stores = stores (out s (ringPos (w.inputs (srcWorld sh s n)) g c t)) := by
  obtain ⟨e, he, routed⟩ := pair.here.routed
  have key := (transformIdx_eq_iff he).2 routed
  have isPair := isPair_of_selected pair.channel pair.source pair.token pair.choice key he
  obtain ⟨lower, upper⟩ := pairSlot_range isPair pair.slot
  rw [← expected_eq hg hc hs hn he] at upper
  have nonempty : 0 < w.expected g c n s e := by
    by_contra none
    rw [Nat.eq_zero_of_not_pos none] at upper
    exact absurd lower (not_le.2 upper)
  -- the expert is completed, and not before the token
  have total := seenBefore_all (w := w) hg hc hs hn he
  obtain ⟨j', hj', completes⟩ := exists_completesAt nonempty total
  set j := ringPos (w.inputs (srcWorld sh s n)) g c t with hj
  have inside : j < (w.messages g c n s).length := by
    rw [messages, List.length_map, hj]
    exact (List.getElem?_eq_some_iff.1 (getElem?_selected pair.token)).1
  have touched : pairKey sh.toShape (w.localAt g c n s) (j * sh.numTopk + k) = e :=
    (carriesExperts.pairKey_ringPos pair.token pair.choice).trans key
  have le : j ≤ j' := by
    by_contra later
    exact completes.untouched total (not_le.1 later) inside pair.choice touched
  have stream := mixed.streams s hs
  have here : (Lanes.of s taken)[j']? = some (out s j') := by
    rw [stream, List.getElem?_map, List.getElem?_range hj', Option.map_some]
  obtain ⟨pre, post, rfl, before⟩ := Lanes.exists_split here
  refine ⟨_, _, _, List.map_append.trans (congrArg _ List.map_cons), ?_, ?_⟩
  · -- what is fired with it covers the slot
    have mem : (e, w.expected g c n s e) ∈ fired (out s j') := by
      rw [eager]
      exact List.mem_map_of_mem
        (List.mem_filter.2 ⟨List.mem_range.2 he, decide_eq_true completes⟩)
    obtain ⟨l, l', split⟩ := List.append_of_mem mem
    rw [fireAdds, split, List.flatMap_append, List.flatMap_cons, Store.added_append,
      Store.added_append, added_firePoolBlocks sh.tileM_pos nonempty]
    have covers := overlap_pos sh.tileM_pos lower upper rfl
    exact Nat.add_pos_right _ (Nat.add_pos_left covers _)
  · rcases Nat.lt_or_eq_of_le le with earlier | rfl
    · have mem : out s j ∈ Lanes.of s pre := by
        rw [before, stream, ← List.map_take, List.take_range, Nat.min_eq_left hj'.le]
        exact List.mem_map_of_mem (List.mem_range.2 earlier)
      exact ⟨_, List.mem_append_left _ (List.mem_map_of_mem (Lanes.mem_of.1 mem)), rfl⟩
    · exact ⟨_, List.mem_append_right _ (List.mem_singleton.2 rfl), rfl⟩

end Rounds

/-- The warps of a rank have, together, the shares of all substreams. -/
theorem sum_warps {w : NodeWorld sh Row Weight} {g : ℕ} (hg : g < sh.numRanks) {tile : ℕ}
    (htile : tile < (w.plan hg).totalTiles) :
    ∑ i : Fin (sh.numChannels * sh.numNvlPeers), ∑ s ∈ range sh.numRdmaRanks,
        (w.plan hg).share tile (i / sh.numNvlPeers * sh.numRanks +
          srcWorld sh s (i % sh.numNvlPeers)) =
      (w.plan hg).arrivalTarget tile := by
  rw [← sum_share htile, csTotal, Fin.sum_univ_eq_sum_range (fun i => ∑ s ∈ range sh.numRdmaRanks,
    (w.plan hg).share tile (i / sh.numNvlPeers * sh.numRanks +
      srcWorld sh s (i % sh.numNvlPeers))), PrefixSum.sum_range_mul, PrefixSum.sum_range_mul]
  refine sum_congr rfl fun c _ => ?_
  rw [sh.numRanks_eq, PrefixSum.sum_range_mul, sum_comm]
  refine sum_congr rfl fun s _ => sum_congr rfl fun n hn => ?_
  rw [PrefixSum.flat_div (mem_range.1 hn), PrefixSum.flat_mod (mem_range.1 hn), srcWorld]

/-! ### The receivers of a rank -/

section Arrival

variable (w : NodeWorld sh Row Weight) (g : ℕ) (batches : NodeDeliveries Row Weight)

/-- The rounds of warp `c * num_nvl_peers + n`. -/
def receiverRounds (i : Fin (sh.numChannels * sh.numNvlPeers)) :
    List (FencedRounds.Round (Cell.Val Row Weight) ℕ) :=
  let c := i / sh.numNvlPeers
  let n := i % sh.numNvlPeers
  w.rounds g c n (fun x => x.landed.stores sh.numTopk) Taken.fired (w.taken g c n (batches c n))

/-- The receivers of rank `g`, on top of freshly allocated outputs. -/
def arrivalSystem (init : PoolMemory Row Weight) :
    TransitionSystem
      (FencedRounds.State (Fin (sh.numChannels * sh.numNvlPeers)) (Cell.Val Row Weight) ℕ)
      (FencedRounds.Event (Fin (sh.numChannels * sh.numNvlPeers))) :=
  FencedRounds.system (w.receiverRounds g batches) init

/-- The memory holds choice `k` of token `t` of rank `src` at slot `s`. -/
structure Written (src t k s : ℕ) (m : PoolMemory Row Weight) : Prop where
  row : m (.pool s) = (w.inputs src).x t
  weight : m (.poolTopkWeight s) = (w.inputs src).topkWeights (t * sh.numTopk + k)
  recvToken : m (.poolRecvToken s) = (recvTokenId w.inputs g src t : ℤ)
  kSlot : m (.poolKSlot s) = (k : ℤ)
  inverse : m (.recvTokenToSlots (recvTokenId w.inputs g src t * sh.numTopk + k)) = (s : ℤ)
  /-- The slots of the token are counted, for kernel Y and for the backward pass. -/
  remaining : m (.kLocalRemaining (recvTokenId w.inputs g src t)) =
    (List.range sh.numTopk).countP ((w.inputs src).LocalAt g t ·)
  total : m (.kLocalTotal (recvTokenId w.inputs g src t)) =
    (List.range sh.numTopk).countP ((w.inputs src).LocalAt g t ·)

variable {g}

/-- The channel and the peer of a warp. -/
theorem warp_lt (i : Fin (sh.numChannels * sh.numNvlPeers)) :
    i / sh.numNvlPeers < sh.numChannels ∧ i % sh.numNvlPeers < sh.numNvlPeers :=
  ⟨Nat.div_lt_of_lt_mul (i.isLt.trans_eq (Nat.mul_comm _ _)),
    Nat.mod_lt _ (Nat.pos_of_lt_mul_left i.isLt)⟩

/-- What a consumer of the tiles may rely on. -/
structure TileReadiness (hg : g < sh.numRanks)
    (st : FencedRounds.State (Fin (sh.numChannels * sh.numNvlPeers)) (Cell.Val Row Weight) ℕ) :
    Prop where
  /-- No count passes its target. -/
  bounded : ∀ tile < (w.plan hg).totalTiles, st.count tile ≤ (w.plan hg).arrivalTarget tile
  /-- At the target, every real slot of the tile has been written. -/
  ready : ∀ tile < (w.plan hg).totalTiles, st.count tile = (w.plan hg).arrivalTarget tile →
    ∀ s, s / sh.tileM = tile → (w.plan hg).RealSlot s →
      ∃ src c t k, (w.plan hg).PairAt src c t k s ∧ w.Written g src t k s st.memory
  /-- When the warps are done, every count is at its target. -/
  complete : FencedRounds.Finished st →
    ∀ tile < (w.plan hg).totalTiles, st.count tile = (w.plan hg).arrivalTarget tile
  /-- Until they are done, some warp can go on, -/
  live : FencedRounds.Finished st ∨ ∃ e st', FencedRounds.step st e = some st'
  /-- and every step brings the end nearer. -/
  shrinks : ∀ e st', FencedRounds.step st e = some st' →
    FencedRounds.remaining st' + 1 = FencedRounds.remaining st

variable {w batches} (hg : g < sh.numRanks) (delivers : w.DeliversAll g batches)

include hg delivers

/-- A warp's share in a tile. -/
theorem receiverShare_eq (i : Fin (sh.numChannels * sh.numNvlPeers)) (tile : ℕ) :
    FencedRounds.share (w.receiverRounds g batches) tile i =
      ∑ s ∈ range sh.numRdmaRanks, (w.plan hg).share tile
        (i / sh.numNvlPeers * sh.numRanks + srcWorld sh s (i % sh.numNvlPeers)) := by
  obtain ⟨channel, peer⟩ := warp_lt i
  exact added_rounds (fun x : Taken Row Weight => x.landed.stores sh.numTopk) Taken.fired hg channel
    peer (taken_interleaves hg channel peer (delivers _ channel _ peer)) (fun _ _ => rfl) tile

theorem receiverTotal_eq {tile : ℕ} (htile : tile < (w.plan hg).totalTiles) :
    FencedRounds.total (w.receiverRounds g batches) tile = (w.plan hg).arrivalTarget tile := by
  rw [FencedRounds.total, ← sum_warps hg htile]
  exact sum_congr rfl fun i _ => receiverShare_eq hg delivers i tile

omit hg delivers in
/-- The stores of the warps are those of all tokens that are landed. -/
theorem mem_receiverRounds {v : Store.Write (Cell.Val Row Weight)} :
    (∃ i, v ∈ FencedRounds.storesOf (w.receiverRounds g batches) i) ↔
      v ∈ allStores sh.numTopk (w.allLanded g batches) := by
  simp only [FencedRounds.storesOf, receiverRounds, rounds, allStores, allLanded, List.mem_flatMap,
    List.mem_map, List.mem_range]
  constructor
  · rintro ⟨i, -, ⟨x, mem, rfl⟩, store⟩
    obtain ⟨channel, peer⟩ := warp_lt i
    exact ⟨_, ⟨_, peer, _, channel, x, mem, rfl⟩, store⟩
  · rintro ⟨-, ⟨n, hn, c, hc, x, mem, rfl⟩, store⟩
    refine ⟨⟨c * sh.numNvlPeers + n, PrefixSum.flat_lt hc hn⟩, _, ⟨x, ?_, rfl⟩, store⟩
    rw [PrefixSum.flat_div hn, PrefixSum.flat_mod hn]
    exact mem

/-- No two stores disagree. -/
theorem receiverRounds_agree : FencedRounds.Agree (w.receiverRounds g batches) := by
  have all : ∀ i, ∀ v ∈ FencedRounds.storesOf (w.receiverRounds g batches) i,
      v ∈ allStores sh.numTopk ((w.plan hg).landedTokens (w.localMessage g)) := fun i v mem =>
    ((allLanded_perm hg delivers).flatMap_right _).mem_iff.1 (mem_receiverRounds.1 ⟨i, mem⟩)
  exact fun i i' v mem v' mem' same =>
    allStores_agree placed_landedTokens (all i v mem) (all i' v' mem') same

section Reached

variable {init : PoolMemory Row Weight}
  {st : FencedRounds.State (Fin (sh.numChannels * sh.numNvlPeers)) (Cell.Val Row Weight) ℕ}
  (reach : (w.arrivalSystem g batches init).Reachable st)

include reach

/-- **At the target of a tile, the tokens of its slots are written whole.** -/
theorem token_stored {src c t k s : ℕ} (pair : (w.plan hg).PairAt src c t k s)
    (full : st.count (s / sh.tileM) = (w.plan hg).arrivalTarget (s / sh.tileM))
    {v : Store.Write (Cell.Val Row Weight)}
    (store : v ∈ ((w.plan hg).landedOf (w.localMessage g) c src t).stores sh.numTopk) :
    st.memory v.1 = v.2 := by
  have htile : s / sh.tileM < (w.plan hg).totalTiles :=
    (Nat.div_lt_iff_lt_mul sh.tileM_pos).2 (pair.real hg).lt
  have hs := NodeShape.rdmaRank_lt pair.source
  have hn : sh.nvlRank src < sh.numNvlPeers := NodeShape.nvlRank_lt src
  have self : srcWorld sh (sh.rdmaRank src) (sh.nvlRank src) = src := NodeShape.rank_eq src
  rw [← receiverTotal_eq hg delivers htile] at full
  have mixed := taken_interleaves hg pair.channel hn (delivers c pair.channel _ hn)
  have pair' : (w.plan hg).PairAt (srcWorld sh (sh.rdmaRank src) (sh.nvlRank src)) c t k s :=
    self.symm ▸ pair
  -- the token's stores are performed before its expert is fired
  obtain ⟨pre, r, post, split, shared, r', before, stores⟩ :=
    exists_voucher (fun x : Taken Row Weight => x.landed.stores sh.numTopk) Taken.fired hg
      pair.channel hn mixed (fun _ _ => rfl) hs pair'
  have landed := takenAt_landed hg pair.channel hs hn pair'.token
  have mine : w.receiverRounds g batches
      ⟨c * sh.numNvlPeers + sh.nvlRank src, PrefixSum.flat_lt pair.channel hn⟩ =
        pre ++ r :: post := by
    rw [← split, receiverRounds, PrefixSum.flat_div hn, PrefixSum.flat_mod hn]
  refine FencedRounds.memory_of_count_eq reach (receiverRounds_agree hg delivers) full mine shared
    before ?_
  rw [stores, landed, self]
  exact store

/-- So the slot of a pair is written. -/
theorem written_of_full {src c t k s : ℕ} (pair : (w.plan hg).PairAt src c t k s)
    (full : st.count (s / sh.tileM) = (w.plan hg).arrivalTarget (s / sh.tileM)) :
    w.Written g src t k s st.memory := by
  have slot : ((w.plan hg).landedOf (w.localMessage g) c src t).slot k = s :=
    (landedOf_slot pair.choice).trans pair.slot
  have nonneg : 0 ≤ ((w.plan hg).landedOf (w.localMessage g) c src t).slot k := by
    rw [slot]
    exact Int.natCast_nonneg s
  have read : ∀ v ∈ ((w.plan hg).landedOf (w.localMessage g) c src t).slotStores k,
      st.memory v.1 = v.2 := fun v mem => token_stored hg delivers reach pair full
    (Landed.mem_stores.2 (Or.inr (Or.inl ⟨k, pair.choice, nonneg, mem⟩)))
  have counted : ∀ v ∈ ((w.plan hg).landedOf (w.localMessage g) c src t).counterStores,
      st.memory v.1 = v.2 := fun v mem => token_stored hg delivers reach pair full
    (Landed.mem_stores.2 (Or.inr (Or.inr
      ⟨kLocalTotalVal_pos hg pair.channel pair.source pair.token, mem⟩)))
  have count := landedOf_kLocalTotalVal (w.plan hg) (w.localMessage g) pair.channel pair.source
    pair.token
  have inverse := token_stored hg delivers reach pair full
    (Landed.mem_stores.2 (Or.inl ⟨k, pair.choice, rfl⟩))
  have here : (((w.plan hg).landedOf (w.localMessage g) c src t).slot k).toNat = s := by
    rw [slot, Int.toNat_natCast]
  simp only [Landed.slotStores, Landed.counterStores, List.forall_mem_cons] at read counted
  obtain ⟨row, weight, token, kSlot, -⟩ := read
  obtain ⟨remaining, total, -⟩ := counted
  subst here
  exact ⟨row, weight, token, kSlot, inverse.trans slot, remaining.trans count,
    total.trans count⟩

/-- When all tiles are at their targets, memory is what the dispatch leaves. -/
theorem left_of_full (fresh : ∀ s, init (.poolRecvToken s) = -1)
    (full : ∀ tile < (w.plan hg).totalTiles, st.count tile = (w.plan hg).arrivalTarget tile) :
    LeftBy sh.numTopk ((w.plan hg).landedTokens (w.localMessage g)) st.memory := by
  refine ⟨init, allStores sh.numTopk (w.allLanded g batches), fresh,
    (allLanded_perm hg delivers).flatMap_right _, ?_⟩
  refine (FencedRounds.memory_eq_run reach (receiverRounds_agree hg delivers) (fun i v mem => ?_)
    fun v => mem_receiverRounds.symm).symm
  -- every token has a slot
  have all := ((allLanded_perm hg delivers).flatMap_right _).mem_iff.1
    (mem_receiverRounds.1 ⟨i, mem⟩)
  obtain ⟨l, hl, store⟩ := List.mem_flatMap.1 all
  obtain ⟨src, hsrc, c, hc, t, ht, rfl⟩ := mem_landedTokens.1 hl
  obtain ⟨k, hk, s, slot⟩ : ∃ k < sh.numTopk, ∃ s : ℕ,
      (w.plan hg).pairSlot c src (t * sh.numTopk + k) = s := exists_slot hg hsrc hc ht
  have pair : (w.plan hg).PairAt src c t k s := .of_slot hsrc hc ht hk slot
  have htile : s / sh.tileM < (w.plan hg).totalTiles :=
    (Nat.div_lt_iff_lt_mul sh.tileM_pos).2 (pair.real hg).lt
  exact token_stored hg delivers reach pair (full _ htile) store

/-- **Tile readiness is exact between nodes**, in every state of every run of the warps. -/
theorem eager_readiness : w.TileReadiness hg st where
  bounded tile htile := by
    rw [← receiverTotal_eq hg delivers htile]
    exact FencedRounds.count_le_total reach tile
  ready tile htile full s inTile real := by
    subst inTile
    obtain ⟨src, c, t, k, pair⟩ := (realSlot_iff_pairAt hg).1 real
    exact ⟨src, c, t, k, pair, written_of_full hg delivers reach pair full⟩
  complete finished tile htile := by
    rw [← receiverTotal_eq hg delivers htile]
    exact FencedRounds.count_eq_total reach finished tile
  live := by
    by_cases finished : FencedRounds.Finished st
    · exact Or.inl finished
    · exact Or.inr (FencedRounds.exists_step finished)
  shrinks _ _ fires := FencedRounds.step_remaining fires

end Reached

end Arrival

theorem three_lt_four : 3 < exampleNodes.numRanks := Nat.lt_succ_self 3

/-- The example dispatch between nodes has a run that finishes, and it ends ready. -/
theorem exampleNodeWorld_readiness :
    ∃ st, (exampleNodeWorld.arrivalSystem 3 (exampleNodeWorld.inTurnBatches 3)
        (freshMemory 0 0)).Reachable st ∧ FencedRounds.Finished st ∧
      exampleNodeWorld.TileReadiness three_lt_four st := by
  obtain ⟨st, reach, finished⟩ := FencedRounds.exists_finished
    (exampleNodeWorld.receiverRounds 3 (exampleNodeWorld.inTurnBatches 3)) (freshMemory 0 0)
  exact ⟨st, reach, finished,
    eager_readiness three_lt_four (delivers_inTurnBatches _ _) reach⟩

end NodeWorld

end StreamEP.Internode
