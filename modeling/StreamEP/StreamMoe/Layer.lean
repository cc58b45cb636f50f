import Mathlib.Algebra.BigOperators.Ring.Finset
import StreamEP.StreamMoe.ExpertDropout
import StreamEP.StreamMoe.PoolLaunch
import StreamEP.StreamMoe.ScatterSum

/-!
# The experts of one rank

`MoeLayer.moe` is what the layer is for: every rank applies its experts to the tokens that chose
them, and a token's result is the weighted sum over its experts.  Scalars are those of any
commutative semiring, so roundings are left out and sums have no order.

Between dispatch and combine a rank does not know tokens.  Kernel A runs on the slots of the
pool, kernel Y adds the weighted rows of the slots into the rows of the recv tokens.
`oRow_eq_part` says that the row of a recv token that is stamped is the rank's part of the
token's result, provided that every tile had arrived when kernel A read it.

**From tokens to slots.**  Everything a kernel does with a slot is a statement about a pair of a
token and a choice, if the slot is that of a pair (`PairAt`): the slot lies in the interval of
the pair's expert (`PairAt.place`), the scheduler gives it to this expert (`PairAt.expertOf`),
and dispatch has left the pair's weight and slot in the maps (`PairAt.weight`,
`PairAt.inverse`).  A stamped row is a sum over slots, and so a sum over the choices of the
token that are at the rank (`oRow_eq_sum`).

**Runs.**  A `KernelARun` has the memory that each CTA read its rows from, which may differ from
CTA to CTA, and the stores of all CTAs in the order in which they took effect.  Of the memories
it is only known that the tile had arrived (`TileArrived`).  The rows of `oRow` are those of the
scatter kernel, with kernel Y's row of a slot as the value that is added (`kernelYValue`).

**Tiles.**  The rows of both kernels are cut as dispatch cut the pool; how the columns are cut
is told apart, `ATiles` for kernel A and `YTiles` for kernel Y, whose clusters divide its
columns.  Nothing but the forward pass asks for the latter.
-/

namespace StreamEP.StreamMoe

open Finset

/-! ### What the layer computes -/

/-- Expert dropout of all ranks. -/
structure Dropout (S : Type) where
  /-- `draw_seed`, by rank. -/
  seed : ℕ → ℤ
  threshold : ℤ
  scale : S

/-- The sizes, the weights and the activation of a layer. -/
structure MoeLayer (S : Type) where
  /-- `H`, the length of a row. -/
  hidden : ℕ
  /-- `I`, the length of a post-activation. -/
  inter : ℕ
  /-- `act_fn(gate, up)`. -/
  actFn : S → S → S
  /-- `w1_local` of each rank, of shape `[E_local, 2I, H]`. -/
  w1 : ℕ → ℕ → ℕ → ℕ → S
  /-- `w2_local` of each rank, of shape `[E_local, H, I]`. -/
  w2 : ℕ → ℕ → ℕ → ℕ → S
  dropout : Option (Dropout S)
  hidden_pos : 0 < hidden

namespace MoeLayer

variable {S : Type} [CommSemiring S] (layer : MoeLayer S) {sh : Shape}

/-- The mask of expert dropout, at pool row `slot` and column `i`. -/
def masked (r slot i : ℕ) (a : S) : S :=
  match layer.dropout with
  | none => a
  | some d => a * ExpertDropout.keepScale (d.seed r) slot i d.threshold d.scale

/-- `x @ W1[e].T`, gate and up in adjacent columns. -/
def preact (r e : ℕ) (x : ℕ → S) (j : ℕ) : S := ∑ h ∈ range layer.hidden, x h * layer.w1 r e j h

/-- The masked activation. -/
def postact (r e : ℕ) (x : ℕ → S) (slot i : ℕ) : S :=
  layer.masked r slot i (layer.actFn (layer.preact r e x (2 * i)) (layer.preact r e x (2 * i + 1)))

/-- `postact @ W2[e].T`. -/
def expertOut (r e : ℕ) (x : ℕ → S) (slot n : ℕ) : S :=
  ∑ i ∈ range layer.inter, layer.postact r e x slot i * layer.w2 r e n i

section Reference

variable (inputs : ℕ → DispatchInputs sh (ℕ → S) S) (recvTokenToSlots : ℕ → ℕ → ℤ)

/-- What rank `r` contributes to token `t` of rank `g`.  The mask of a pair is that of its slot. -/
def part (r g t n : ℕ) : S :=
  ∑ e ∈ range sh.numExpertsPerRank,
    ∑ k ∈ (range sh.numTopk).filter fun k => (inputs g).RoutedTo r e (t * sh.numTopk + k),
      (inputs g).topkWeights (t * sh.numTopk + k) *
        layer.expertOut r e ((inputs g).x t)
          (recvTokenToSlots r (recvTokenId inputs r g t * sh.numTopk + k)).toNat n

/-- `moe`: the output of the layer for token `t` of rank `g`. -/
def moe (g t n : ℕ) : S :=
  ∑ r ∈ range sh.numRanks, layer.part inputs recvTokenToSlots r g t n

end Reference

/-- The elements that kernel A writes are those that its registers hold. -/
theorem postactA_eq_postact {tile : ExpertDropout.Tile} {tDcD : ℕ → ℕ × ℕ} {size : ℕ}
    (gated : ExpertDropout.Gated tile tDcD size) (r e : ℕ) (rows : ℕ → ℕ → S) {tRS_rD : ℕ → S}
    (holds : ExpertDropout.Holds tile tDcD size
      (fun crd => layer.preact r e (rows crd.1) crd.2) tRS_rD) {i row column : ℕ}
    (held : 2 * i + 1 < size)
    (unit : ExpertDropout.maskUnitA tile tDcD i = (row, column)) (d : Dropout S) :
    ExpertDropout.postactA (layer.dropout.map (·.seed r))
        (layer.dropout.getD d).threshold (layer.dropout.getD d).scale tile tDcD tRS_rD i
        layer.actFn =
      layer.postact r e (rows row) row column := by
  cases active : layer.dropout with
  | none =>
      obtain ⟨gateAt, upAt⟩ := ExpertDropout.maskUnitA_spec gated held
      rw [postact, masked, active, Option.map_none, ExpertDropout.postactA,
        holds (2 * i) (by omega), holds (2 * i + 1) held, gateAt, upAt, unit]
  | some d' =>
      rw [postact, masked, active, Option.map_some, Option.getD_some,
        ExpertDropout.postactA_eq gated holds layer.actFn _ _ _ held unit]

end MoeLayer

end StreamEP.StreamMoe

namespace StreamEP

open Finset StreamMoe

variable {sh : Shape} {S : Type} [CommSemiring S]

/-! ### The kernels -/

/-- What the packets to a rank carry of the tokens. -/
structure Carries {Row Weight : Type} (inputs : ℕ → DispatchInputs sh Row Weight) (g : ℕ)
    (packet : ℕ → ℕ → Packet Row Weight) : Prop where
  x : ∀ src t, (packet src t).x = (inputs src).x t
  weight : ∀ src t, ∀ k < sh.numTopk, (inputs src).LocalAt g t k →
    (packet src t).topkWeights k = (inputs src).topkWeights (t * sh.numTopk + k)

namespace PoolPlan

section Experts

variable {Row Weight : Type} {inputs : ℕ → DispatchInputs sh Row Weight} {g : ℕ}
  (plan : PoolPlan sh inputs g) (packet : ℕ → ℕ → Packet Row Weight)

/-- The rows of a tile's pairs have arrived in memory. -/
def TileArrived (tile : ℕ) (m : PoolMemory Row Weight) : Prop :=
  ∀ src c t k s, plan.PairAt src c t k s → s / sh.tileM = tile →
    m (.pool s) = (packet src t).x

/-- The local expert that the `k`-th choice of a token is, if it is one of rank `g`. -/
def localExpert (inp : DispatchInputs sh Row Weight) (g t k : ℕ) : ℕ :=
  (inp.topkIdx (t * sh.numTopk + k) - g * sh.numExpertsPerRank).toNat

variable {plan} {src c t k s : ℕ}

/-- A choice is of one local expert, or of none. -/
theorem routedTo_iff_localExpert {inp : DispatchInputs sh Row Weight} {e : ℕ}
    (he : e < sh.numExpertsPerRank) :
    inp.RoutedTo g e (t * sh.numTopk + k) ↔ inp.LocalAt g t k ∧ localExpert inp g t k = e := by
  unfold DispatchInputs.RoutedTo DispatchInputs.LocalAt localExpert
  push_cast
  constructor
  · intro routed
    rw [routed, add_mul, one_mul]
    omega
  · rintro ⟨⟨lower, -⟩, rfl⟩
    omega

/-- A choice has one expert at the rank, or none. -/
theorem sum_choice {M : Type} [AddCommMonoid M] (inp : DispatchInputs sh Row Weight) (g t k : ℕ)
    (f : ℕ → M) :
    (∑ e ∈ range sh.numExpertsPerRank,
        if inp.RoutedTo g e (t * sh.numTopk + k) then f e else 0) =
      if inp.LocalAt g t k then f (localExpert inp g t k) else 0 := by
  by_cases here : inp.LocalAt g t k
  · obtain ⟨e, he, routed⟩ := here.routed
    have expert : localExpert inp g t k = e := ((routedTo_iff_localExpert he).1 routed).2
    rw [if_pos here, expert, sum_eq_single e, if_pos routed]
    · intro e' he' other
      refine if_neg fun routed' => other ?_
      exact ((routedTo_iff_localExpert (mem_range.1 he')).1 routed').2.symm.trans expert
    · exact fun outside => absurd (mem_range.2 he) outside
  · rw [if_neg here]
    refine sum_eq_zero fun e he => if_neg fun routed => here ?_
    exact ((routedTo_iff_localExpert (mem_range.1 he)).1 routed).1

/-- A sum over the experts and their choices is one over the choices. -/
theorem sum_routed {M : Type} [AddCommMonoid M] (inp : DispatchInputs sh Row Weight) (g t : ℕ)
    (f : ℕ → ℕ → M) :
    ∑ e ∈ range sh.numExpertsPerRank,
        ∑ k ∈ (range sh.numTopk).filter fun k => inp.RoutedTo g e (t * sh.numTopk + k), f e k =
      ∑ k ∈ (range sh.numTopk).filter (inp.LocalAt g t), f (localExpert inp g t k) k := by
  simp only [sum_filter]
  rw [sum_comm]
  exact sum_congr rfl fun k _ => sum_choice inp g t k fun e => f e k

/-- A pair's slot lies in the interval of its expert. -/
theorem PairAt.place (pair : plan.PairAt src c t k s) :
    ∃ e < sh.numExpertsPerRank, localExpert (inputs src) g t k = e ∧
      ∃ q < plan.expertFrequency e, s = plan.expertPoolBlockOffset e * sh.tileM + q := by
  obtain ⟨e, he, routed⟩ := pair.here.routed
  have key := (transformIdx_eq_iff he).2 routed
  have isPair := isPair_of_selected pair.channel pair.source pair.token pair.choice key he
  refine ⟨e, he, ((routedTo_iff_localExpert he).1 routed).2, _, pairIndex_lt isPair, ?_⟩
  exact Int.ofNat_inj.1 (pair.slot.symm.trans (pairSlot_of_isPair isPair))

/-- The scheduler gives the slot of a pair to the pair's expert. -/
theorem PairAt.expertOf (pair : plan.PairAt src c t k s) (fit : plan.Schedulable) (width : ℕ)
    (tiles : ColumnTiles) :
    (plan.schedulerArguments fit width tiles).nMatchedTotal (s / sh.tileM) - 1 =
      localExpert (inputs src) g t k := by
  obtain ⟨e, he, expert, q, hq, rfl⟩ := pair.place
  rw [expert]
  exact expertOf_slot fit width tiles he hq

/-- The claim that computes an element of a pair's row is one of the pair's tile and expert. -/
theorem PairAt.claim (pair : plan.PairAt src c t k s) (hg : g < sh.numRanks)
    (fit : plan.Schedulable) (width : ℕ) (tiles : ColumnTiles) {tileN columns i : ℕ}
    (tileN_pos : 0 < tileN)
    (covers : columns ≤ (plan.schedulerArguments fit width tiles).numPidN *
      (plan.schedulerArguments fit width tiles).clusterN * tileN) (hi : i < columns) :
    let args := plan.schedulerArguments fit width tiles
    let workIdx := args.claimOf sh.tileM tileN s i
    workIdx < args.totalWork ∧ workIdx / args.numPidN = s / sh.tileM ∧
      args.expertOf workIdx = localExpert (inputs src) g t k := by
  intro args workIdx
  obtain ⟨group, inRange⟩ :=
    SchedulerArguments.claimOf_lt sh.tileM_pos tileN_pos covers (pair.real hg).lt hi
  have tile : workIdx / args.numPidN = s / sh.tileM := PrefixSum.flat_div group
  refine ⟨inRange, tile, ?_⟩
  show args.nMatchedTotal (workIdx / args.numPidN) - 1 = _
  rw [tile]
  exact pair.expertOf fit width tiles

/-- A row that is stamped is the sum over the experts of the token that are at the rank. -/
theorem oRow_eq_sum {M : Type} [AddCommMonoid M] {hidden : ℕ} {hidden_pos : 0 < hidden}
    {hg : g < sh.numRanks} {fit : plan.Schedulable} {packet : ℕ → ℕ → Packet Row Weight}
    {m : PoolMemory Row Weight} {left : LeftBy sh.numTopk (plan.landedTokens packet) m}
    {remaining : ℕ → ℕ} {counts : plan.CountsSlots m remaining}
    {tiles : ScatterTiles sh.tileM hidden} (whole : tiles.clusterN ∣ hidden / tiles.tileN)
    {combineSeq : ℤ}
    {st : (scatterLaunch hidden_pos hg fit left counts tiles combineSeq).KernelState}
    (reach : (scatterLaunch hidden_pos hg fit left counts tiles combineSeq).kernelSystem.Reachable
      st)
    (hsrc : src < sh.numRanks) (hc : c < sh.numChannels) (ht : t ∈ selected (inputs src) g c)
    (stamped : 0 < st.tasks.stamps ⟨recvTokenId inputs g src t, recvTokenId_lt hsrc ht⟩)
    {value : ℕ → ℕ → M} {n : ℕ} (hn : n < hidden) :
    st.oRow value (recvTokenId inputs g src t) n =
      ∑ k ∈ (range sh.numTopk).filter ((inputs src).LocalAt g t),
        value (plan.pairSlot c src (t * sh.numTopk + k)).toNat n := by
  refine (ScatterLaunch.oRow_of_stamped value reach whole
    ⟨recvTokenId inputs g src t, recvTokenId_lt hsrc ht⟩ stamped hn).trans ?_
  exact sum_token_slots left hg hsrc hc ht _

/-- What dispatch leaves for a pair: its weight, -/
theorem PairAt.weight {packet : ℕ → ℕ → Packet Row Weight} {m : PoolMemory Row Weight}
    (pair : plan.PairAt src c t k s) (left : LeftBy sh.numTopk (plan.landedTokens packet) m)
    (carries : Carries inputs g packet) :
    m (.poolTopkWeight s) = (inputs src).topkWeights (t * sh.numTopk + k) :=
  (left_pair left pair.source pair.channel pair.token pair.choice pair.slot).2.1.trans
    (carries.weight src t k pair.choice pair.here)

/-- and its slot. -/
theorem PairAt.inverse {packet : ℕ → ℕ → Packet Row Weight} {m : PoolMemory Row Weight}
    (pair : plan.PairAt src c t k s) (left : LeftBy sh.numTopk (plan.landedTokens packet) m) :
    (m (.recvTokenToSlots (recvTokenId inputs g src t * sh.numTopk + k)) : ℤ) = s :=
  (inverseMap_of_left left src pair.source c pair.channel t pair.token k pair.choice).trans
    pair.slot

end Experts

/-! ### Kernel A and kernel Y of one rank -/

variable {inputs : ℕ → DispatchInputs sh (ℕ → S) S} {g : ℕ}

/-- How kernel A cuts its product of `2I` columns, whose post-activation half it stores. -/
structure ATiles extends ColumnTiles where
  /-- Gate and up of a unit are in one tile. -/
  even : 2 ∣ toColumnTiles.tileN

/-- How kernel Y cuts its product of `H` columns. -/
structure YTiles (layer : MoeLayer S) (tileM : ℕ) extends ScatterTiles tileM layer.hidden where
  /-- The clusters are whole.  The launch does not ask for that, and without it a row can be
  released before it is complete. -/
  whole : toScatterTiles.clusterN ∣ layer.hidden / toScatterTiles.tileN

/-- A run of kernel A at rank `g`: the memory that each CTA read its rows from, and the stores
of all CTAs in the order in which they happened. -/
structure KernelARun (layer : MoeLayer S) (plan : PoolPlan sh inputs g)
    (packet : ℕ → ℕ → Packet (ℕ → S) S) (fit : plan.Schedulable) (tiles : ColumnTiles) where
  view : ℕ → ℕ → PoolMemory (ℕ → S) S
  stores : List (Store.Write fun _ : ℕ × ℕ => S)
  init : (a : ℕ × ℕ) → S
  /-- The scheduler warp waits for the tile. -/
  waits : ∀ workIdx < (plan.schedulerArguments fit (2 * layer.inter) tiles).totalWork, ∀ j,
    plan.TileArrived packet
      (workIdx / (plan.schedulerArguments fit (2 * layer.inter) tiles).numPidN) (view workIdx j)
  all : stores.Perm
    ((plan.schedulerArguments fit (2 * layer.inter) tiles).allTileStores sh.tileM
      (tiles.tileN / 2) layer.inter fun workIdx j row column =>
        layer.postact g ((plan.schedulerArguments fit (2 * layer.inter) tiles).expertOf workIdx)
          (view workIdx j (.pool row)) row column)

variable {layer : MoeLayer S} {plan : PoolPlan sh inputs g}
  {packet : ℕ → ℕ → Packet (ℕ → S) S} {fit : plan.Schedulable}

/-- `postact_a`. -/
def KernelARun.postactA {tiles : ColumnTiles}
    (run : KernelARun layer plan packet fit tiles) : ℕ → ℕ → S :=
  fun slot i => Store.run run.stores run.init (slot, i)

/-- The row that kernel Y adds for a slot: `postact_a @ W2[e].T`, times the weight. -/
def kernelYValue (layer : MoeLayer S) (plan : PoolPlan sh inputs g) (fit : plan.Schedulable)
    (tiles : ColumnTiles) (m : PoolMemory (ℕ → S) S) (postactA : ℕ → ℕ → S) (slot n : ℕ) : S :=
  let e := (plan.schedulerArguments fit layer.hidden tiles).nMatchedTotal (slot / sh.tileM) - 1
  (∑ i ∈ range layer.inter, postactA slot i * layer.w2 g e n i) * m (.poolTopkWeight slot)

section Pair

variable {src c t k s : ℕ} (pair : plan.PairAt src c t k s)

include pair

/-- Kernel A stores the post-activation of the pair at its slot. -/
theorem postactA_pair (hg : g < sh.numRanks) (carries : Carries inputs g packet)
    {tiles : ColumnTiles} (even : 2 ∣ tiles.tileN)
    (run : KernelARun layer plan packet fit tiles) {i : ℕ} (hi : i < layer.inter) :
    run.postactA s i =
      layer.postact g (localExpert (inputs src) g t k) ((inputs src).x t) s i := by
  set args := plan.schedulerArguments fit (2 * layer.inter) tiles with hargs
  have half_pos : 0 < tiles.tileN / 2 := by
    have pos := tiles.tileN_pos
    omega
  have covers : layer.inter ≤ args.numPidN * args.clusterN * (tiles.tileN / 2) := by
    have whole : 2 * layer.inter ≤ args.numPidN * args.clusterN * tiles.tileN :=
      width_le fit (2 * layer.inter) tiles
    rw [← Nat.div_mul_cancel even, ← Nat.mul_assoc] at whole
    omega
  obtain ⟨inRange, tile, expert⟩ := pair.claim hg fit (2 * layer.inter) tiles half_pos covers hi
  have row := run.waits _ inRange (args.peerOf (tiles.tileN / 2) i) src c t k s pair tile.symm
  rw [KernelARun.postactA, SchedulerArguments.run_tiles sh.tileM_pos half_pos covers run.all
    (pair.real hg).lt hi, expert, row, carries.x]

/-- The row that kernel Y adds for the slot of a pair. -/
theorem kernelYValue_pair (hg : g < sh.numRanks) (carries : Carries inputs g packet)
    {m : PoolMemory (ℕ → S) S} (left : LeftBy sh.numTopk (plan.landedTokens packet) m)
    {tilesA : ATiles} (run : KernelARun layer plan packet fit tilesA.toColumnTiles)
    (tilesY : ColumnTiles) (n : ℕ) :
    kernelYValue layer plan fit tilesY m run.postactA s n =
      (inputs src).topkWeights (t * sh.numTopk + k) *
        layer.expertOut g (localExpert (inputs src) g t k) ((inputs src).x t) s n := by
  have weight := pair.weight left carries
  have expert := pair.expertOf fit layer.hidden tilesY
  have sum : ∑ i ∈ range layer.inter, run.postactA s i *
      layer.w2 g (localExpert (inputs src) g t k) n i =
        layer.expertOut g (localExpert (inputs src) g t k) ((inputs src).x t) s n := by
    refine sum_congr rfl fun i hi => ?_
    rw [postactA_pair pair hg carries tilesA.even run (mem_range.1 hi)]
  simp only [kernelYValue, expert, sum, weight]
  exact mul_comm _ _

end Pair

/-- **The stamped row of a recv token is the rank's part of the token's result.** -/
theorem oRow_eq_part (hg : g < sh.numRanks) (carries : Carries inputs g packet)
    {m : PoolMemory (ℕ → S) S} (left : LeftBy sh.numTopk (plan.landedTokens packet) m)
    {tilesA : ATiles} (run : KernelARun layer plan packet fit tilesA.toColumnTiles)
    (tilesY : YTiles layer sh.tileM) {combineSeq : ℤ}
    {st : (scatterLaunch layer.hidden_pos hg fit left (countsSlots_remaining hg left)
      tilesY.toScatterTiles combineSeq).KernelState}
    (reach : (scatterLaunch layer.hidden_pos hg fit left (countsSlots_remaining hg left)
      tilesY.toScatterTiles combineSeq).kernelSystem.Reachable st)
    {src c t : ℕ} (hsrc : src < sh.numRanks) (hc : c < sh.numChannels)
    (ht : t ∈ selected (inputs src) g c)
    (stamped : 0 < st.tasks.stamps ⟨recvTokenId inputs g src t, recvTokenId_lt hsrc ht⟩)
    {n : ℕ} (hn : n < layer.hidden) :
    st.oRow (kernelYValue layer plan fit tilesY.toColumnTiles m run.postactA)
        (recvTokenId inputs g src t) n =
      layer.part inputs (fun _ idx => m (.recvTokenToSlots idx)) g src t n := by
  rw [oRow_eq_sum tilesY.whole reach hsrc hc ht stamped hn, MoeLayer.part, sum_routed]
  refine sum_congr rfl fun k mem => ?_
  obtain ⟨hk, here⟩ := mem_filter.1 mem
  obtain ⟨s, pair⟩ := exists_pairAt plan hsrc hc ht (mem_range.1 hk) here
  rw [pair.slot, pair.inverse left, Int.toNat_natCast]
  exact kernelYValue_pair pair hg carries left run tilesY.toColumnTiles n

end PoolPlan

end StreamEP
