import StreamEP.Internode.PoolLayout
import StreamEP.Intranode.Layout
import StreamEP.PoolContents
import StreamEP.StreamMoe.RecvPoolCompress

/-!
# The pools that dispatch leaves can be compressed

The maps and rows that a dispatch leaves are a `RecvPool`: slots of one token hold the row of
this token, and every token that reaches a rank has a slot there, because it goes to the rank
for the sake of a local expert.  Both transports leave such a pool, whatever the order in which
packets arrive and stores reach memory (`compress_reexpand`).

A `DispatchedPool` is the pool as a tensor of elements over what dispatch left in memory: real
slots hold copies of the rows, and the others may hold anything.  The result for it uses the
plan of the rank and the inverse of its maps, so it is the same for both transports
(`roundTrips`), and `compress_reexpand` joins it with what each of them leaves.
-/

namespace StreamEP.StreamMoe

open Finset PoolPlan

variable {Row Weight Val : Type}

/-- A pool and the map of its slots, as the wrappers get them after a dispatch that left `m`.
The rows in real slots are the copies that the dispatch made; padding holds anything. -/
structure DispatchedPool {sh : Shape} {inputs : ℕ → DispatchInputs sh Row Weight} {g : ℕ}
    (plan : PoolPlan sh inputs g) (m : PoolMemory Row Weight) (elem : Row → ℕ → Val)
    (pool : RowTensor Val) (poolRecvToken : SlotTokens) : Prop where
  rows : pool.rows = plan.totalTiles * sh.tileM
  size : poolRecvToken.size = pool.rows
  token : ∀ s < pool.rows, poolRecvToken.token s = m (.poolRecvToken s)
  copies : ∀ s, plan.RealSlot s → ∀ h < pool.cols,
    pool.data ((s * pool.cols + h : ℕ) : ℤ) = elem (m (.pool s)) h

section Plan

variable {sh : Shape} {inputs : ℕ → DispatchInputs sh Row Weight} {g : ℕ}
  {plan : PoolPlan sh inputs g} {packet : ℕ → ℕ → Packet Row Weight}
  {m : PoolMemory Row Weight} {elem : Row → ℕ → Val} {pool : RowTensor Val}
  {poolRecvToken : SlotTokens}

/-- The rows of the tokens that reach rank `g`, by recv-token id. -/
def RowsById (inputs : ℕ → DispatchInputs sh Row Weight) (g : ℕ) (elem : Row → ℕ → Val)
    (x : ℕ → ℕ → Val) : Prop :=
  ∀ src < sh.numRanks, ∀ t < (inputs src).numTokens, (inputs src).InRank g t →
    x (recvTokenId inputs g src t) = elem ((inputs src).x t)

/-- **Dispatch establishes what the round trip needs.** -/
theorem DispatchedPool.recvPool (hg : g < sh.numRanks)
    (left : LeftBy sh.numTopk (plan.landedTokens packet) m)
    (carries : ∀ src t, (packet src t).x = (inputs src).x t)
    (dispatched : DispatchedPool plan m elem pool poolRecvToken)
    (small : pool.rows * pool.cols < int32Max) {x : ℕ → ℕ → Val}
    (byId : RowsById inputs g elem x) :
    RecvPool pool poolRecvToken (∑ src ∈ range sh.numRanks, numRouted inputs g src) x where
  size := dispatched.size
  small := small
  token_lt s hs := by
    rw [dispatched.token s hs]
    by_cases real : plan.RealSlot s
    · obtain ⟨src, hsrc, c, hc, t, ht, k, hk, slot⟩ := (realSlot_iff hg).1 real
      rw [(left_pair left hsrc hc ht hk slot).2.2.1]
      exact_mod_cast recvTokenId_lt hsrc ht
    · refine lt_of_eq_of_lt (left_padding left hg real) ?_
      exact (Int.negSucc_lt_zero 0).trans_le (Int.natCast_nonneg _)
  covered r hr := by
    obtain ⟨l, mem, rfl⟩ : ∃ l ∈ plan.landedTokens packet, l.recvTokenId = r :=
      exists_landedTokens_id hr
    obtain ⟨src, hsrc, c, hc, t, ht, rfl⟩ := mem_landedTokens.1 mem
    obtain ⟨k, hk, s, slot⟩ : ∃ k < sh.numTopk, ∃ s : ℕ,
        plan.pairSlot c src (t * sh.numTopk + k) = s := exists_slot hg hsrc hc ht
    have real : plan.RealSlot s := (realSlot_iff hg).2 ⟨src, hsrc, c, hc, t, ht, k, hk, slot⟩
    have inside : s < pool.rows := dispatched.rows ▸ real.lt
    refine ⟨s, inside, ?_⟩
    rw [dispatched.token s inside]
    exact (left_pair left hsrc hc ht hk slot).2.2.1
  copies s hs r hr token h hh := by
    have real : plan.RealSlot s := by
      rw [left_real_iff left hg, ← dispatched.token s hs, token]
      exact Int.natCast_nonneg r
    obtain ⟨src, hsrc, c, hc, t, ht, k, hk, slot⟩ := (realSlot_iff hg).1 real
    obtain ⟨row, -, named, -⟩ := left_pair left hsrc hc ht hk slot
    obtain rfl : r = recvTokenId inputs g src t := by
      rw [dispatched.token s hs] at token
      exact Int.ofNat_inj.1 (token.symm.trans named)
    obtain ⟨⟨-, hi⟩, goes⟩ := mem_selected.1 ht
    rw [dispatched.copies s real h hh, row, carries,
      byId src hsrc t (hi.trans_le (channelEnd_le _ _ _)) goes]

theorem DispatchedPool.roundTrips [Zero Val] (hg : g < sh.numRanks)
    (left : LeftBy sh.numTopk (plan.landedTokens packet) m)
    (carries : ∀ src t, (packet src t).x = (inputs src).x t)
    (dispatched : DispatchedPool plan m elem pool poolRecvToken)
    (small : pool.rows * pool.cols < int32Max) {x : ℕ → ℕ → Val}
    (byId : RowsById inputs g elem x) {blockH : ℕ} (dvd : blockH ∣ 2 ^ 31) :
    RoundTrips pool poolRecvToken (∑ src ∈ range sh.numRanks, numRouted inputs g src) x
      plan.RealSlot blockH := by
  refine (dispatched.recvPool hg left carries small byId).roundTrips dvd ?_
  intro s hs
  rw [dispatched.token s hs]
  exact left_real_iff left hg

end Plan

/-- **Compressing a receive pool and expanding it again loses nothing.**  After every intranode
and every internode dispatch, whatever the arrivals and the order of the stores, compressing
writes the row of every received token, and expanding gives back every real slot and zero in the
padding, whatever the order of the row-copy programs. -/
theorem compress_reexpand [Zero Weight] [Zero Val] (elem : Row → ℕ → Val) {blockH : ℕ}
    (dvd : blockH ∣ 2 ^ 31) :
    (∀ (sh : Shape) (w : Intranode.World sh Row Weight) (g : ℕ)
      (batches : Intranode.World.Deliveries Row Weight) (m : PoolMemory Row Weight)
      (pool : RowTensor Val) (poolRecvToken : SlotTokens) (x : ℕ → ℕ → Val),
      g < sh.numRanks → sh.numExpertsPerRank ≤ Intranode.numThreadsPerRank sh →
      w.DeliversAll g batches → LeftBy sh.numTopk (w.allLanded g batches) m →
      DispatchedPool (w.plan g) m elem pool poolRecvToken →
      pool.rows * pool.cols < int32Max → RowsById w.inputs g elem x →
        RoundTrips pool poolRecvToken (Intranode.numRecvTokens sh (w.uIn g)) x
          (w.plan g).RealSlot blockH) ∧
    ∀ (sh : NodeShape) (w : Internode.NodeWorld sh Row Weight) (g : ℕ)
      (hg : g < sh.numRanks) (batches : Internode.NodeWorld.NodeDeliveries Row Weight)
      (m : PoolMemory Row Weight) (pool : RowTensor Val) (poolRecvToken : SlotTokens)
      (x : ℕ → ℕ → Val),
      w.DeliversAll g batches → LeftBy sh.numTopk (w.allLanded g batches) m →
      DispatchedPool (w.plan hg) m elem pool poolRecvToken →
      pool.rows * pool.cols < int32Max → RowsById w.inputs g elem x →
        RoundTrips pool poolRecvToken
          (Internode.recvGblRankPrefixSum w.inputs w.slabs g (sh.numRanks - 1)) x
          (w.plan hg).RealSlot blockH := by
  refine ⟨?_, ?_⟩
  · intro sh w g batches m pool poolRecvToken x hg cleared delivers left dispatched small byId
    rw [Intranode.numRecvTokens, Intranode.World.cumSrc_eq hg le_rfl]
    rw [Intranode.World.allLanded_eq hg cleared delivers] at left
    exact dispatched.roundTrips hg left (fun _ _ => rfl) small byId dvd
  · intro sh w g hg batches m pool poolRecvToken x delivers left dispatched small byId
    have last : sh.numRanks - 1 < sh.numRanks := Nat.sub_lt sh.numRanks_pos Nat.one_pos
    rw [Internode.recvGblRankPrefixSum_apply hg last, Nat.sub_add_cancel sh.numRanks_pos]
    exact dispatched.roundTrips hg (left.perm (Internode.NodeWorld.allLanded_perm hg delivers))
      (fun _ _ => rfl) small byId dvd

/-! ### An instance -/

/-- Ids tell tokens apart, so the rows can be listed by id. -/
theorem exists_rowsById {sh : Shape} [Zero Val] (inputs : ℕ → DispatchInputs sh Row Weight)
    (g : ℕ) (elem : Row → ℕ → Val) : ∃ x, RowsById inputs g elem x := by
  have byId : ∀ r, ∃ row : ℕ → Val, ∀ src t, t < (inputs src).numTokens →
      (inputs src).InRank g t → recvTokenId inputs g src t = r →
        row = elem ((inputs src).x t) := by
    intro r
    by_cases landed : ∃ src t, t < (inputs src).numTokens ∧ (inputs src).InRank g t ∧
        recvTokenId inputs g src t = r
    · obtain ⟨src, t, inside, goes, id⟩ := landed
      refine ⟨elem ((inputs src).x t), ?_⟩
      intro src' t' inside' goes' id'
      obtain ⟨rfl, rfl⟩ := recvTokenId_inj inside inside' goes goes' (id.trans id'.symm)
      rfl
    · refine ⟨fun _ => 0, ?_⟩
      intro src t inside goes id
      exact absurd ⟨src, t, inside, goes, id⟩ landed
  choose x rows using byId
  exact ⟨x, fun src _ t inside goes => rows _ src t inside goes rfl⟩

/-- A pool over what a dispatch left. -/
def poolOf (elem : Row → ℕ → Val) (m : PoolMemory Row Weight) (rows cols : ℕ) :
    RowTensor Val where
  rows := rows
  cols := cols
  data a := elem (m (.pool (a.toNat / cols))) (a.toNat % cols)

/-- Its map. -/
def slotTokensOf (m : PoolMemory Row Weight) (rows : ℕ) : SlotTokens where
  size := rows
  token s := m (.poolRecvToken s)

theorem dispatchedPool_poolOf {sh : Shape} {inputs : ℕ → DispatchInputs sh Row Weight} {g : ℕ}
    (plan : PoolPlan sh inputs g) (m : PoolMemory Row Weight) (elem : Row → ℕ → Val) (cols : ℕ) :
    DispatchedPool plan m elem (poolOf elem m (plan.totalTiles * sh.tileM) cols)
      (slotTokensOf m (plan.totalTiles * sh.tileM)) where
  rows := rfl
  size := rfl
  token _ _ := rfl
  copies s _ h hh := by
    have hh : h < cols := hh
    show elem (m (.pool (((s * cols + h : ℕ) : ℤ).toNat / cols)))
      (((s * cols + h : ℕ) : ℤ).toNat % cols) = _
    rw [Int.toNat_natCast, PrefixSum.flat_div hh, PrefixSum.flat_mod hh]

open Intranode.World in
/-- What rank 0 of the intranode example holds. -/
def intranodeMemory : PoolMemory ℕ ℕ :=
  Store.run (allStores exampleShape.numTopk (exampleWorld.allLanded 0 fun c src =>
    Batches.oneByOne (Intranode.substream (exampleWorld.inputs src) 0 c))) (freshMemory 0 0)

open Internode.NodeWorld in
/-- What rank 3 of the internode example holds. -/
def internodeMemory : PoolMemory ℕ ℕ :=
  Store.run (allStores Internode.exampleNodes.numTopk
    (exampleNodeWorld.allLanded 3 (inTurnBatches exampleNodeWorld 3))) (freshMemory 0 0)

theorem three_lt : 3 < Internode.exampleNodes.numRanks := by decide

open Intranode.World Internode.NodeWorld in
theorem compress_reexpand_examples :
    (∃ x, RowsById exampleWorld.inputs 0 (· + ·) x ∧
      RoundTrips (poolOf (· + ·) intranodeMemory ((exampleWorld.plan 0).totalTiles * 2) 2)
        (slotTokensOf intranodeMemory ((exampleWorld.plan 0).totalTiles * 2))
        (Intranode.numRecvTokens exampleShape (exampleWorld.uIn 0)) x
        (exampleWorld.plan 0).RealSlot 512) ∧
    ∃ x, RowsById exampleNodeWorld.inputs 3 (· + ·) x ∧
      RoundTrips
        (poolOf (· + ·) internodeMemory ((exampleNodeWorld.plan three_lt).totalTiles * 2) 2)
        (slotTokensOf internodeMemory ((exampleNodeWorld.plan three_lt).totalTiles * 2))
        (Internode.recvGblRankPrefixSum exampleNodeWorld.inputs exampleNodeWorld.slabs 3 3) x
        (exampleNodeWorld.plan three_lt).RealSlot 512 := by
  obtain ⟨x, byId⟩ := exists_rowsById exampleWorld.inputs 0 (· + ·)
  obtain ⟨y, byId'⟩ := exists_rowsById exampleNodeWorld.inputs 3 (· + ·)
  refine ⟨⟨x, byId, ?_⟩, ⟨y, byId', ?_⟩⟩
  · exact (compress_reexpand (· + ·) (by decide)).1 exampleShape exampleWorld 0 _ intranodeMemory
      _ _ x (by decide) (by decide) (fun _ _ _ _ => Batches.delivers_oneByOne _ _)
      ⟨_, _, fun _ => rfl, List.Perm.refl _, rfl⟩ (dispatchedPool_poolOf _ _ _ _)
      (by decide +kernel) byId
  · exact (compress_reexpand (· + ·) (by decide)).2 Internode.exampleNodes exampleNodeWorld 3
      three_lt _ internodeMemory _ _ y (delivers_inTurnBatches _ _)
      ⟨_, _, fun _ => rfl, List.Perm.refl _, rfl⟩ (dispatchedPool_poolOf _ _ _ _)
      (by decide +kernel) byId'

end StreamEP.StreamMoe
