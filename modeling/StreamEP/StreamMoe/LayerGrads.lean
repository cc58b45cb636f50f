import StreamEP.StreamMoe.Layer
import StreamEP.StreamMoe.RecvPool

/-!
# The gradients of one rank's experts

The backward pass works on the slots that the forward pass assigned.  Kernel Y bwd turns the
gradient rows of a tile into gradients of the pre-activations, into the weighted
post-activations that `dW2` is computed from, and into one number for every slot, the gradient
of its weight.  Kernel A bwd adds up the gradients of a token over its slots, and two grouped
products over the slots of an expert give the gradients of its matrices.

The formulas come first, pair by pair; the results say that the kernels compute their sums,
whichever checkpoint level the pre-activations come from.

**Formulas.**  `MoeLayer.dW2`, `MoeLayer.dTopkWeight`, `ActGrad.dx` and `ActGrad.dW1` are sums
over pairs of what one pair contributes, with the activation's derivative as a parameter
(`ActGrad`). Over a semiring they are formulas and no more; what they have to do with
derivatives is said over the real numbers.

**Checkpoints.**  `Restored` has a constructor for every level: both tensors kept; the pool kept
and the product repeated by a plain one; or the pool expanded from the rows of the tokens as
well, with the stores of both copying kernels in any order.  `Restored.savedRows` says that all
of them give back the same in the slots of pairs.  What stands in padding may differ, and does
not matter: kernel Y bwd makes zero of it (`element_padding`).

**Kernels.**  At the slot of a pair kernel Y bwd leaves the three values of the pair
(`element_pair`). For the weight it adds up partial sums of all stripes.  The row that kernel A
bwd adds is the pair's contribution to the gradient of its token (`kernelABwdValue_pair`), and a
product over the slots of an expert is a sum over the pairs routed to it
(`groupedK_eq_sumPairs`), padding being zero.
-/

namespace StreamEP.StreamMoe

open Finset

variable {S : Type} [CommSemiring S]

/-! ### The formulas -/

namespace MoeLayer

variable (layer : MoeLayer S)

/-- `dL_do @ W2[e]`. -/
def gradOut (r e : ℕ) (dy : ℕ → S) (i : ℕ) : S :=
  ∑ n ∈ range layer.hidden, dy n * layer.w2 r e n i

/-- The gradient of a pair's weight. -/
def dWeight (r e : ℕ) (x dy : ℕ → S) (slot : ℕ) : S :=
  ∑ i ∈ range layer.inter, layer.gradOut r e dy i * layer.postact r e x slot i

section Reference

variable {sh : Shape} (inputs : ℕ → DispatchInputs sh (ℕ → S) S)
  (recvTokenToSlots : ℕ → ℕ → ℤ) (dLdy : ℕ → ℕ → ℕ → S)

/-- The slot at rank `r` of the `k`-th choice of token `t` of rank `g`. -/
def slotOf (r g t k : ℕ) : ℕ :=
  (recvTokenToSlots r (recvTokenId inputs r g t * sh.numTopk + k)).toNat

/-- The sum over the pairs that all ranks route to an expert. -/
def sumPairs (r e : ℕ) (f : ℕ → ℕ → ℕ → S) : S :=
  ∑ g ∈ range sh.numRanks, ∑ t ∈ range (inputs g).numTokens,
    ∑ k ∈ (range sh.numTopk).filter fun k => (inputs g).RoutedTo r e (t * sh.numTopk + k),
      f g t k

/-- The gradient of `topk_weights`. -/
def dTopkWeight (g t k : ℕ) : S :=
  ∑ r ∈ range sh.numRanks, ∑ e ∈ range sh.numExpertsPerRank,
    if (inputs g).RoutedTo r e (t * sh.numTopk + k) then
      layer.dWeight r e ((inputs g).x t) (dLdy g t) (slotOf inputs recvTokenToSlots r g t k)
    else 0

/-- The gradient of `w2_local` of rank `r`. -/
def dW2 (r e n i : ℕ) : S :=
  sumPairs inputs r e fun g t k =>
    dLdy g t n * (layer.postact r e ((inputs g).x t) (slotOf inputs recvTokenToSlots r g t k) i *
      (inputs g).topkWeights (t * sh.numTopk + k))

end Reference

end MoeLayer

/-- The derivative of a layer's activation. -/
structure ActGrad (layer : MoeLayer S) where
  /-- `dswiglu(gate, up, dout)`: the gradients of gate and up, and the activation. -/
  dactFn : S → S → S → S × S × S
  dactFn_postact : ∀ gate up dout, (dactFn gate up dout).2.2 = layer.actFn gate up

/-- What `epi_visit_subtile` of kernel Y bwd makes of one element. -/
structure Visited (S : Type) where
  /-- The gradients of gate and up, packed. -/
  dXY : S × S
  /-- The term of the row's sum. -/
  term : S
  postact : S

namespace ActGrad

open MoeLayer

variable {layer : MoeLayer S} (grad : ActGrad layer)

/-- The masked activation is what was fed forward, so the incoming gradient is masked as well. -/
def dact (r slot i : ℕ) (gate up g : S) : S × S × S :=
  let out := grad.dactFn gate up (layer.masked r slot i g)
  (out.1, out.2.1, layer.masked r slot i out.2.2)

/-- One element of `epi_visit_subtile`: row `slot`, column `i`. -/
def epiVisitSubtile (r slot i : ℕ) (recvToken : ℤ) (weight gate up g : S) : Visited S :=
  let out := grad.dact r slot i gate up g
  -- a padding row holds garbage
  let isActive := 0 ≤ recvToken
  let g := if isActive then g else 0
  let postact := if isActive then out.2.2 else 0
  let dgate := if isActive then out.1 else 0
  let dup := if isActive then out.2.1 else 0
  { dXY := (dgate * weight, dup * weight)
    term := g * postact
    postact := postact * weight }

/-- Nothing of a padding row gets through. -/
theorem epiVisitSubtile_padding {r slot i : ℕ} {recvToken : ℤ} (padding : recvToken < 0)
    (weight gate up g : S) :
    grad.epiVisitSubtile r slot i recvToken weight gate up g = ⟨(0, 0), 0, 0⟩ := by
  simp only [epiVisitSubtile, if_neg (not_le.2 padding), zero_mul]

section Pair

variable (r e : ℕ) (x dy : ℕ → S) (weight : S) (slot : ℕ)

/-- The gradients of gate and up of one unit, before the weight, and its activation. -/
def unit (i : ℕ) : S × S × S :=
  grad.dact r slot i (layer.preact r e x (2 * i)) (layer.preact r e x (2 * i + 1))
    (layer.gradOut r e dy i)

/-- The gradient of the pre-activation. -/
def dPreact (j : ℕ) : S :=
  (if j % 2 = 0 then (grad.unit r e x dy slot (j / 2)).1
    else (grad.unit r e x dy slot (j / 2)).2.1) * weight

/-- The gradient of the row. -/
def dRow (h : ℕ) : S :=
  ∑ j ∈ range (2 * layer.inter), grad.dPreact r e x dy weight slot j * layer.w1 r e j h

theorem unit_postact (i : ℕ) : (grad.unit r e x dy slot i).2.2 = layer.postact r e x slot i :=
  congrArg (layer.masked r slot i) (grad.dactFn_postact _ _ _)

end Pair

section Reference

variable {sh : Shape} (inputs : ℕ → DispatchInputs sh (ℕ → S) S)
  (recvTokenToSlots : ℕ → ℕ → ℤ) (dLdy : ℕ → ℕ → ℕ → S)

/-- What rank `r` contributes to the gradient of the row of token `t` of rank `g`. -/
def dxPart (r g t h : ℕ) : S :=
  ∑ e ∈ range sh.numExpertsPerRank,
    ∑ k ∈ (range sh.numTopk).filter fun k => (inputs g).RoutedTo r e (t * sh.numTopk + k),
      grad.dRow r e ((inputs g).x t) (dLdy g t) ((inputs g).topkWeights (t * sh.numTopk + k))
        (slotOf inputs recvTokenToSlots r g t k) h

/-- The gradient of `x`. -/
def dx (g t h : ℕ) : S :=
  ∑ r ∈ range sh.numRanks, grad.dxPart inputs recvTokenToSlots dLdy r g t h

/-- The gradient of `w1_local` of rank `r`. -/
def dW1 (r e j h : ℕ) : S :=
  sumPairs inputs r e fun g t k =>
    grad.dPreact r e ((inputs g).x t) (dLdy g t) ((inputs g).topkWeights (t * sh.numTopk + k))
      (slotOf inputs recvTokenToSlots r g t k) j * (inputs g).x t h

end Reference

/-- The elements that kernel Y bwd works on are those that its registers hold. -/
theorem dswigluYBwd_eq_dact {tile : ExpertDropout.Tile} {tDcD : ℕ → ℕ × ℕ} {size : ℕ} (r : ℕ)
    {preact g : ℕ × ℕ → S} {tRS_rD tRS_rXY : ℕ → S}
    (holds : ExpertDropout.Holds tile tDcD size g tRS_rD)
    (pairs : ExpertDropout.HoldsPairs tile tDcD size preact tRS_rXY) {k row column : ℕ}
    (held : k < size) (unit : ExpertDropout.maskUnitYBwd tile tDcD k = (row, column))
    (d : Dropout S) :
    ExpertDropout.dswigluYBwd (layer.dropout.map (·.seed r))
        (layer.dropout.getD d).threshold (layer.dropout.getD d).scale tile tDcD tRS_rD k tRS_rXY
        grad.dactFn =
      grad.dact r row column (preact (row, 2 * column)) (preact (row, 2 * column + 1))
        (g (row, column)) := by
  have element : tile.element (tDcD k) = (row, column) := unit
  cases active : layer.dropout with
  | none =>
      obtain ⟨gateAt, upAt⟩ := pairs k held
      rw [element] at gateAt upAt
      simp only [dact, MoeLayer.masked, active, Option.map_none, ExpertDropout.dswigluYBwd,
        holds k held, gateAt, upAt, element]
  | some d' =>
      rw [Option.map_some, Option.getD_some,
        ExpertDropout.dswigluYBwd_eq holds pairs grad.dactFn _ _ _ held unit]
      simp only [dact, MoeLayer.masked, active]

end ActGrad

end StreamEP.StreamMoe

namespace StreamEP

open Finset StreamMoe MoeLayer

variable {sh : Shape} {S : Type} [CommSemiring S]

namespace PoolPlan

/-! ### What the backward pass finds -/

/-- The gradients of a tile's pairs have arrived in `dL_do_pool`. -/
def GradArrived {Row Weight Grad : Type} {inputs : ℕ → DispatchInputs sh Row Weight} {g : ℕ}
    (plan : PoolPlan sh inputs g) (dLdy : ℕ → ℕ → Grad) (tile : ℕ) (dLdoPool : ℕ → Grad) : Prop :=
  ∀ src c t k s, plan.PairAt src c t k s → s / sh.tileM = tile → dLdoPool s = dLdy src t

variable {inputs : ℕ → DispatchInputs sh (ℕ → S) S} {g : ℕ}

/-- The pool and the pre-activations hold what belongs to the pairs in their slots. -/
structure SavedRows (layer : MoeLayer S) (plan : PoolPlan sh inputs g)
    (pool preactA : ℕ → ℕ → S) : Prop where
  pool : ∀ src c t k s, plan.PairAt src c t k s → ∀ h < layer.hidden,
    pool s h = (inputs src).x t h
  preactA : ∀ src c t k s, plan.PairAt src c t k s → ∀ j < 2 * layer.inter,
    preactA s j = layer.preact g (localExpert (inputs src) g t k) ((inputs src).x t) j

/-- The rows of a tensor. -/
def rowsOf (tensor : RowTensor S) (s h : ℕ) : S := tensor.data ((s * tensor.cols + h : ℕ) : ℤ)

/-- The accumulators that kernel A stores at level 0. -/
def preactStores {layer : MoeLayer S} {plan : PoolPlan sh inputs g}
    {packet : ℕ → ℕ → Packet (ℕ → S) S} {fit : plan.Schedulable} {tiles : ColumnTiles}
    (run : KernelARun layer plan packet fit tiles) : List (Store.Write fun _ : ℕ × ℕ => S) :=
  let args := plan.schedulerArguments fit (2 * layer.inter) tiles
  args.allTileStores sh.tileM tiles.tileN (2 * layer.inter) fun workIdx j row column =>
    layer.preact g (args.expertOf workIdx) (run.view workIdx j (.pool row)) column

/-- Where the backward pass has the pool and the pre-activations from, by
`activation_checkpoint_level`; `m` is what dispatch left. -/
inductive Restored (layer : MoeLayer S) (plan : PoolPlan sh inputs g)
    (packet : ℕ → ℕ → Packet (ℕ → S) S) (m : PoolMemory (ℕ → S) S) (fit : plan.Schedulable)
    (tiles : ColumnTiles) : ℕ → (ℕ → ℕ → S) → (ℕ → ℕ → S) → Prop
  /-- Nothing is recomputed where there are no tiles. -/
  | empty {level : ℕ} {pool preactA : ℕ → ℕ → S} (none : plan.totalTiles = 0) :
      Restored layer plan packet m fit tiles level pool preactA
  /-- Both were kept. -/
  | saved (run : KernelARun layer plan packet fit tiles)
      (stores : List (Store.Write fun _ : ℕ × ℕ => S)) (init : (a : ℕ × ℕ) → S)
      (all : stores.Perm (preactStores run)) :
      Restored layer plan packet m fit tiles 0 (fun s => m (.pool s))
        fun s j => Store.run stores init (s, j)
  /-- The pool was kept, kernel A's product is repeated by a plain one. -/
  | recomputed {preactA : ℕ → ℕ → S}
      (gemm : GroupedM sh.numExpertsPerRank (fun e => plan.expertPoolBlockOffset e * sh.tileM)
        (2 * layer.inter) layer.hidden (fun s => m (.pool s)) (layer.w1 g) preactA) :
      Restored layer plan packet m fit tiles 1 (fun s => m (.pool s)) preactA
  /-- The rows of the tokens were kept, the pool is expanded from them. -/
  | reexpanded {preactA : ℕ → ℕ → S} {pool xRecv out : RowTensor S}
      {poolRecvToken : SlotTokens} {blockH : ℕ} {compacted expanded ws ws' : List (RowStore S)}
      (dispatched : DispatchedPool plan m (fun row : ℕ → S => row) pool poolRecvToken)
      (cols : pool.cols = layer.hidden) (xRecv_rows : xRecv.rows = tRecv inputs g)
      (xRecv_cols : xRecv.cols = pool.cols) (out_rows : out.rows = pool.rows)
      (out_cols : out.cols = pool.cols) (dvd : blockH ∣ 2 ^ 31)
      (compact : compressPoolToRecv pool poolRecvToken xRecv blockH = some compacted)
      (allCompacted : ws.Perm compacted)
      (expand : reexpandRecvToPool (xRecv.after ws) poolRecvToken out blockH = some expanded)
      (allExpanded : ws'.Perm expanded)
      (gemm : GroupedM sh.numExpertsPerRank (fun e => plan.expertPoolBlockOffset e * sh.tileM)
        (2 * layer.inter) layer.hidden (rowsOf (out.after ws')) (layer.w1 g) preactA) :
      Restored layer plan packet m fit tiles 2 (rowsOf (out.after ws')) preactA

section Restored

variable {layer : MoeLayer S} {plan : PoolPlan sh inputs g}
  {packet : ℕ → ℕ → Packet (ℕ → S) S} {m : PoolMemory (ℕ → S) S} {fit : plan.Schedulable}
  {tiles : ColumnTiles}

/-- A plain product gives the pre-activations of the pairs. -/
theorem savedRows_of_groupedM {pool preactA : ℕ → ℕ → S}
    (held : ∀ src c t k s, plan.PairAt src c t k s → ∀ h < layer.hidden,
      pool s h = (inputs src).x t h)
    (gemm : GroupedM sh.numExpertsPerRank (fun e => plan.expertPoolBlockOffset e * sh.tileM)
      (2 * layer.inter) layer.hidden pool (layer.w1 g) preactA) :
    SavedRows layer plan pool preactA where
  pool := held
  preactA src c t k s pair j hj := by
    have rows := held src c t k s pair
    obtain ⟨e, he, expert, q, hq, rfl⟩ := pair.place
    have block := expert_block_le plan e
    rw [gemm e he _ (Nat.le_add_right _ q)
      ((Nat.add_lt_add_left hq _).trans_le block) j hj, expert, preact]
    exact sum_congr rfl fun h hh => by rw [rows h (mem_range.1 hh)]

/-- The wrapper has checked that the offsets fit. -/
theorem small_of_compact {pool xRecv : RowTensor S} {poolRecvToken : SlotTokens} {blockH : ℕ}
    {programs : List (RowStore S)}
    (compact : compressPoolToRecv pool poolRecvToken xRecv blockH = some programs) :
    pool.rows * pool.cols < int32Max := by
  unfold compressPoolToRecv check at compact
  split_ifs at compact with checked
  · exact checked.2.2
  · simp at compact

/-- **Every checkpoint level gives back the same**, in the slots of pairs. -/
theorem Restored.savedRows (hg : g < sh.numRanks) (carries : Carries inputs g packet)
    (left : LeftBy sh.numTopk (plan.landedTokens packet) m) {level : ℕ}
    {pool preactA : ℕ → ℕ → S}
    (restored : Restored layer plan packet m fit tiles level pool preactA) :
    SavedRows layer plan pool preactA := by
  have kept : ∀ src c t k s, plan.PairAt src c t k s → ∀ h < layer.hidden,
      m (.pool s) h = (inputs src).x t h := by
    intro src c t k s pair h _
    rw [← carries.x src t]
    exact congrFun
      (left_pair left pair.source pair.channel pair.token pair.choice pair.slot).1 h
  cases restored with
  | empty none =>
      have vacant : ∀ src c t k s, ¬plan.PairAt src c t k s := by
        intro src c t k s pair
        have inside := (pair.real hg).lt
        rw [none, Nat.zero_mul] at inside
        exact Nat.not_lt_zero s inside
      exact ⟨fun src c t k s pair => absurd pair (vacant src c t k s),
        fun src c t k s pair => absurd pair (vacant src c t k s)⟩
  | saved run stores init all =>
      refine ⟨kept, fun src c t k s pair j hj => ?_⟩
      have covers := width_le fit (2 * layer.inter) tiles
      obtain ⟨inRange, tile, expert⟩ :=
        pair.claim hg fit (2 * layer.inter) tiles tiles.tileN_pos covers hj
      have row := run.waits _ inRange
        ((plan.schedulerArguments fit (2 * layer.inter) tiles).peerOf tiles.tileN j)
        src c t k s pair tile.symm
      rw [SchedulerArguments.run_tiles sh.tileM_pos tiles.tileN_pos covers all (pair.real hg).lt hj,
        expert, row, carries.x]
  | recomputed gemm => exact savedRows_of_groupedM kept gemm
  | @reexpanded preactA' poolTensor xRecv out poolRecvToken blockH compacted expanded ws ws'
      dispatched cols xRecv_rows xRecv_cols out_rows out_cols dvd compact allCompacted expand
      allExpanded gemm =>
      refine savedRows_of_groupedM (fun src c t k s pair h hh => ?_) gemm
      obtain ⟨x, byId⟩ := exists_rowsById inputs g (fun row : ℕ → S => row)
      have real := pair.real hg
      have inside : s < poolTensor.rows := dispatched.rows ▸ real.lt
      have column : h < poolTensor.cols := cols ▸ hh
      obtain ⟨compacted', compact', compacts⟩ := dispatched.roundTrips hg left carries.x
        (small_of_compact compact) byId dvd xRecv xRecv_rows xRecv_cols
      obtain rfl := Option.some.inj (compact.symm.trans compact')
      obtain ⟨-, expands⟩ := compacts ws allCompacted
      obtain ⟨expanded', expand', exact'⟩ := expands out out_rows out_cols
      obtain rfl := Option.some.inj (expand.symm.trans expand')
      have copied := (exact' ws' allExpanded s inside h column).1 real
      have width : (out.after ws').cols = poolTensor.cols := out_cols
      rw [rowsOf, width, copied, dispatched.copies s real h column]
      exact kept src c t k s pair h hh

/-- **Every level has a run**: the wrapper's check is all that level 2 can fail on. -/
theorem exists_restored (run : KernelARun layer plan packet fit tiles) {level : ℕ}
    (known : level ≤ 2)
    (small : level = 2 → plan.totalTiles * sh.tileM * layer.hidden < int32Max) :
    ∃ pool preactA, Restored layer plan packet m fit tiles level pool preactA := by
  have mono : Monotone fun e => plan.expertPoolBlockOffset e * sh.tileM :=
    fun e e' le => Nat.mul_le_mul_right _ (plan.offsets.mono le)
  have product : ∀ pool, ∃ preactA, GroupedM sh.numExpertsPerRank
      (fun e => plan.expertPoolBlockOffset e * sh.tileM) (2 * layer.inter) layer.hidden pool
      (layer.w1 g) preactA := fun pool => exists_groupedM mono _ _ _ pool _
  obtain zero | one | two : level = 0 ∨ level = 1 ∨ level = 2 := by omega
  · subst zero
    exact ⟨_, _, Restored.saved run _ (fun _ => 0) (List.Perm.refl _)⟩
  · subst one
    obtain ⟨preactA, gemm⟩ := product fun s => m (.pool s)
    exact ⟨_, _, Restored.recomputed gemm⟩
  · subst two
    set rows := plan.totalTiles * sh.tileM with hrows
    let xRecv : RowTensor S := ⟨tRecv inputs g, layer.hidden, fun _ => 0⟩
    let out : RowTensor S := ⟨rows, layer.hidden, fun _ => 0⟩
    have checked : check (poolOf (fun row : ℕ → S => row) m rows layer.hidden) xRecv
        (slotTokensOf m rows) = some (rows, layer.hidden) := if_pos ⟨rfl, rfl, small rfl⟩
    obtain ⟨compacted, compact⟩ : ∃ programs, compressPoolToRecv
        (poolOf (fun row : ℕ → S => row) m rows layer.hidden) (slotTokensOf m rows) xRecv 512 =
          some programs := ⟨_, by rw [compressPoolToRecv, checked, Option.map_some]⟩
    have rechecked : check out (xRecv.after compacted) (slotTokensOf m rows) =
        some (rows, layer.hidden) := if_pos ⟨rfl, rfl, small rfl⟩
    obtain ⟨expanded, expand⟩ : ∃ programs, reexpandRecvToPool (xRecv.after compacted)
        (slotTokensOf m rows) out 512 = some programs :=
      ⟨_, by rw [reexpandRecvToPool, rechecked, Option.map_some]⟩
    obtain ⟨preactA, gemm⟩ := product (rowsOf (out.after expanded))
    have dispatched := dispatchedPool_poolOf plan m (fun row : ℕ → S => row) layer.hidden
    refine ⟨_, _, Restored.reexpanded dispatched rfl ?_ ?_ ?_ ?_ ?_ compact (List.Perm.refl _)
      expand (List.Perm.refl _) gemm⟩
    exacts [rfl, rfl, rfl, rfl, Nat.pow_dvd_pow 2 (Nat.le_add_right 9 22)]

end Restored

/-! ### Kernel Y bwd -/

/-- How kernel Y bwd cuts its `I` columns. -/
structure YBwdTiles (inter : ℕ) extends ColumnTiles where
  /-- `assert I % tile_n == 0`. -/
  tileN_dvd : toColumnTiles.tileN ∣ inter
  /-- Its clusters are whole. -/
  whole : toColumnTiles.clusterN ∣ inter / toColumnTiles.tileN

/-- What it tells its scheduler. -/
abbrev YBwdTiles.args {plan : PoolPlan sh inputs g} {inter : ℕ} (tiles : YBwdTiles inter)
    (fit : plan.Schedulable) : SchedulerArguments :=
  plan.schedulerArguments fit inter tiles.toColumnTiles

omit [CommSemiring S] in
/-- Its stripes are the columns. -/
theorem YBwdTiles.covers {plan : PoolPlan sh inputs g} {inter : ℕ} (tiles : YBwdTiles inter)
    (fit : plan.Schedulable) :
    (tiles.args fit).numPidN * (tiles.args fit).clusterN * tiles.tileN = inter :=
  width_eq fit tiles.tileN_dvd tiles.whole

section KernelYBwd

variable {layer : MoeLayer S}

/-- What a CTA of kernel Y bwd computes at an element of its tile. -/
def visit (grad : ActGrad layer) (plan : PoolPlan sh inputs g) (fit : plan.Schedulable)
    (tiles : YBwdTiles layer.inter) (m : PoolMemory (ℕ → S) S) (preactA dLdoPool : ℕ → ℕ → S)
    (workIdx row column : ℕ) : Visited S :=
  grad.epiVisitSubtile g row column (m (.poolRecvToken row)) (m (.poolTopkWeight row))
    (preactA row (2 * column)) (preactA row (2 * column + 1))
    (layer.gradOut g ((tiles.args fit).expertOf workIdx) (dLdoPool row) column)

/-- A run of kernel Y bwd: what each CTA read of `dL_do_pool`, and the stores and additions of
all CTAs in the order in which they happened. -/
structure KernelYBwdRun (grad : ActGrad layer) (plan : PoolPlan sh inputs g)
    (dLdy : ℕ → ℕ → ℕ → S) (m : PoolMemory (ℕ → S) S) (preactA : ℕ → ℕ → S)
    (fit : plan.Schedulable) (tiles : YBwdTiles layer.inter) where
  view : ℕ → ℕ → ℕ → ℕ → S
  storesXY : List (Store.Write fun _ : ℕ × ℕ => S × S)
  storesPostact : List (Store.Write fun _ : ℕ × ℕ => S)
  addsWeight : List (ℕ × S)
  initXY : (a : ℕ × ℕ) → S × S
  initPostact : (a : ℕ × ℕ) → S
  /-- The scheduler warp waits for the tile's gradients. -/
  waits : ∀ workIdx < (tiles.args fit).totalWork, ∀ j,
    plan.GradArrived dLdy (workIdx / (tiles.args fit).numPidN) (view workIdx j)
  allXY : storesXY.Perm ((tiles.args fit).allTileStores sh.tileM tiles.tileN layer.inter
    fun workIdx j row column =>
      (visit grad plan fit tiles m preactA (view workIdx j) workIdx row column).dXY)
  allPostact : storesPostact.Perm ((tiles.args fit).allTileStores sh.tileM tiles.tileN layer.inter
    fun workIdx j row column =>
      (visit grad plan fit tiles m preactA (view workIdx j) workIdx row column).postact)
  allWeight : addsWeight.Perm ((tiles.args fit).allRowSums sh.tileM tiles.tileN
    fun workIdx j row column =>
      (visit grad plan fit tiles m preactA (view workIdx j) workIdx row column).term)

namespace KernelYBwdRun

variable {grad : ActGrad layer} {plan : PoolPlan sh inputs g} {dLdy : ℕ → ℕ → ℕ → S}
  {m : PoolMemory (ℕ → S) S} {preactA : ℕ → ℕ → S} {fit : plan.Schedulable}
  {tiles : YBwdTiles layer.inter} (run : KernelYBwdRun grad plan dLdy m preactA fit tiles)

/-- `dL_dswiglu_in`, with the pairs unpacked. -/
def dLdswigluIn (slot j : ℕ) : S :=
  let packed : S × S := Store.run run.storesXY run.initXY (slot, j / 2)
  if j % 2 = 0 then packed.1 else packed.2

/-- `postact_a_for_dW2`. -/
def postactAForDW2 (slot i : ℕ) : S := Store.run run.storesPostact run.initPostact (slot, i)

/-- `dL_dweight`, which starts at zero. -/
def dLdweight : ℕ → S := Store.addAll run.addsWeight fun _ => 0

/-- What is computed at an element by the CTA that owns it. -/
def element (s i : ℕ) : Visited S :=
  let workIdx := (tiles.args fit).claimOf sh.tileM tiles.tileN s i
  visit grad plan fit tiles m preactA (run.view workIdx ((tiles.args fit).peerOf tiles.tileN i))
    workIdx s i

section Outputs

variable {s : ℕ} (hs : s < plan.totalTiles * sh.tileM)

include hs

theorem dLdswigluIn_eq {j : ℕ} (hj : j < 2 * layer.inter) :
    run.dLdswigluIn s j =
      if j % 2 = 0 then (run.element s (j / 2)).dXY.1 else (run.element s (j / 2)).dXY.2 := by
  have half : j / 2 < layer.inter := by omega
  rw [dLdswigluIn, SchedulerArguments.run_tiles sh.tileM_pos tiles.tileN_pos
    (tiles.covers fit).ge run.allXY hs half]
  rfl

theorem postactAForDW2_eq {i : ℕ} (hi : i < layer.inter) :
    run.postactAForDW2 s i = (run.element s i).postact :=
  SchedulerArguments.run_tiles sh.tileM_pos tiles.tileN_pos (tiles.covers fit).ge run.allPostact
    hs hi _

/-- The partial sums of all stripes add up. -/
theorem dLdweight_eq : run.dLdweight s = ∑ i ∈ range layer.inter, (run.element s i).term := by
  rw [dLdweight, Store.addAll_apply, zero_add, Store.added_perm run.allWeight,
    SchedulerArguments.added_allRowSums sh.tileM_pos _ hs, tiles.covers fit]
  rfl

end Outputs

/-- A padding row is zero, whatever the pools hold there. -/
theorem element_padding (hg : g < sh.numRanks) {packet : ℕ → ℕ → Packet (ℕ → S) S}
    (left : LeftBy sh.numTopk (plan.landedTokens packet) m) {s : ℕ} (padding : ¬plan.RealSlot s)
    (i : ℕ) : run.element s i = ⟨(0, 0), 0, 0⟩ := by
  refine grad.epiVisitSubtile_padding ?_ _ _ _ _
  rw [left_padding left hg padding]
  exact Int.negSucc_lt_zero 0

/-- At the slot of a pair stand the gradients of the pair. -/
theorem element_pair (hg : g < sh.numRanks) {packet : ℕ → ℕ → Packet (ℕ → S) S}
    (left : LeftBy sh.numTopk (plan.landedTokens packet) m) (carries : Carries inputs g packet)
    {pool : ℕ → ℕ → S} (saved : SavedRows layer plan pool preactA) {src c t k s : ℕ}
    (pair : plan.PairAt src c t k s) {i : ℕ} (hi : i < layer.inter) :
    let e := localExpert (inputs src) g t k
    let x := (inputs src).x t
    let w := (inputs src).topkWeights (t * sh.numTopk + k)
    let unit := grad.unit g e x (dLdy src t) s i
    run.element s i = ⟨(unit.1 * w, unit.2.1 * w),
      layer.gradOut g e (dLdy src t) i * layer.postact g e x s i, layer.postact g e x s i * w⟩ := by
  intro e x w unit
  obtain ⟨inRange, tile, expert⟩ :=
    pair.claim hg fit layer.inter tiles.toColumnTiles tiles.tileN_pos (tiles.covers fit).ge hi
  have row := run.waits _ inRange ((tiles.args fit).peerOf tiles.tileN i) src c t k s pair
    tile.symm
  have active : (0 : ℤ) ≤ m (.poolRecvToken s) := (left_real_iff left hg).1 (pair.real hg)
  have gate := saved.preactA src c t k s pair (2 * i) (by omega)
  have up := saved.preactA src c t k s pair (2 * i + 1) (by omega)
  have postact : unit.2.2 = layer.postact g e x s i := grad.unit_postact g e x (dLdy src t) s i
  rw [← postact]
  unfold element visit ActGrad.epiVisitSubtile
  simp only [if_pos active, gate, up, expert, row, pair.weight left carries]
  rfl

end KernelYBwdRun

end KernelYBwd

/-! ### The gradients of one rank -/

/-- The row that kernel A bwd adds for a slot: `dL_dswiglu_in @ W1[e]`. -/
def kernelABwdValue (layer : MoeLayer S) (plan : PoolPlan sh inputs g) (fit : plan.Schedulable)
    (tiles : ColumnTiles) (dLdswigluIn : ℕ → ℕ → S) (slot n : ℕ) : S :=
  let e := (plan.schedulerArguments fit layer.hidden tiles).nMatchedTotal (slot / sh.tileM) - 1
  ∑ j ∈ range (2 * layer.inter), dLdswigluIn slot j * layer.w1 g e j n

section Gradients

variable {layer : MoeLayer S} {grad : ActGrad layer} {plan : PoolPlan sh inputs g}
  {dLdy : ℕ → ℕ → ℕ → S} {m : PoolMemory (ℕ → S) S} {pool preactA : ℕ → ℕ → S}
  {fit : plan.Schedulable} {tiles : YBwdTiles layer.inter}
  (run : KernelYBwdRun grad plan dLdy m preactA fit tiles) (hg : g < sh.numRanks)
  {packet : ℕ → ℕ → Packet (ℕ → S) S} (left : LeftBy sh.numTopk (plan.landedTokens packet) m)
  (carries : Carries inputs g packet) (saved : SavedRows layer plan pool preactA)

include hg left carries saved

section Pair

variable {src c t k s : ℕ} (pair : plan.PairAt src c t k s)

include pair

/-- What kernel Y bwd leaves for a pair: the gradient of its pre-activation, -/
theorem dLdswigluIn_pair {j : ℕ} (hj : j < 2 * layer.inter) :
    run.dLdswigluIn s j =
      grad.dPreact g (localExpert (inputs src) g t k) ((inputs src).x t) (dLdy src t)
        ((inputs src).topkWeights (t * sh.numTopk + k)) s j := by
  have half : j / 2 < layer.inter := by omega
  rw [run.dLdswigluIn_eq (pair.real hg).lt hj,
    run.element_pair hg left carries saved pair half, ActGrad.dPreact, ite_mul]

/-- its weighted post-activation, -/
theorem postactAForDW2_pair {i : ℕ} (hi : i < layer.inter) :
    run.postactAForDW2 s i =
      layer.postact g (localExpert (inputs src) g t k) ((inputs src).x t) s i *
        (inputs src).topkWeights (t * sh.numTopk + k) := by
  rw [run.postactAForDW2_eq (pair.real hg).lt hi, run.element_pair hg left carries saved pair hi]

/-- and the gradient of its weight. -/
theorem dLdweight_pair :
    run.dLdweight s =
      layer.dWeight g (localExpert (inputs src) g t k) ((inputs src).x t) (dLdy src t) s := by
  rw [run.dLdweight_eq (pair.real hg).lt]
  refine sum_congr rfl fun i hi => ?_
  rw [run.element_pair hg left carries saved pair (mem_range.1 hi)]

/-- The row that kernel A bwd adds for the slot of a pair. -/
theorem kernelABwdValue_pair (tilesABwd : ColumnTiles) (h : ℕ) :
    kernelABwdValue layer plan fit tilesABwd run.dLdswigluIn s h =
      grad.dRow g (localExpert (inputs src) g t k) ((inputs src).x t) (dLdy src t)
        ((inputs src).topkWeights (t * sh.numTopk + k)) s h := by
  rw [kernelABwdValue, pair.expertOf fit layer.hidden tilesABwd]
  refine sum_congr rfl fun j hj => ?_
  rw [dLdswigluIn_pair run hg left carries saved pair (mem_range.1 hj)]

end Pair

/-- **The stamped gradient of a recv token is the rank's part of the token's gradient.** -/
theorem oRow_eq_dxPart {tilesABwd : ScatterTiles sh.tileM layer.hidden}
    (whole : tilesABwd.clusterN ∣ layer.hidden / tilesABwd.tileN) {dispatchSeq : ℤ}
    {st : (scatterLaunch layer.hidden_pos hg fit left (countsSlots_total hg left) tilesABwd
      dispatchSeq).KernelState}
    (reach : (scatterLaunch layer.hidden_pos hg fit left (countsSlots_total hg left) tilesABwd
      dispatchSeq).kernelSystem.Reachable st)
    {src c t : ℕ} (hsrc : src < sh.numRanks) (hc : c < sh.numChannels)
    (ht : t ∈ selected (inputs src) g c)
    (stamped : 0 < st.tasks.stamps ⟨recvTokenId inputs g src t, recvTokenId_lt hsrc ht⟩)
    {h : ℕ} (hh : h < layer.hidden) :
    st.oRow (kernelABwdValue layer plan fit tilesABwd.toColumnTiles run.dLdswigluIn)
        (recvTokenId inputs g src t) h =
      grad.dxPart inputs (fun _ idx => m (.recvTokenToSlots idx)) dLdy g src t h := by
  rw [oRow_eq_sum whole reach hsrc hc ht stamped hh, ActGrad.dxPart, sum_routed]
  refine sum_congr rfl fun k mem => ?_
  obtain ⟨hk, here⟩ := mem_filter.1 mem
  obtain ⟨s, pair⟩ := exists_pairAt plan hsrc hc ht (mem_range.1 hk) here
  rw [slotOf, pair.slot, pair.inverse left, Int.toNat_natCast]
  exact kernelABwdValue_pair run hg left carries saved pair tilesABwd.toColumnTiles h

end Gradients

/-! ### The matrices of an expert -/

/-- A product over the slots of an expert is a sum over the pairs that are routed to it. -/
theorem groupedK_eq_sumPairs {plan : PoolPlan sh inputs g} (hg : g < sh.numRanks)
    {M N : ℕ} {a b : ℕ → ℕ → S} {d : ℕ → ℕ → ℕ → S}
    (gemm : GroupedK sh.numExpertsPerRank (fun e => plan.expertPoolBlockOffset e * sh.tileM)
      plan.expertFrequency M N a b d) {e : ℕ} (he : e < sh.numExpertsPerRank) {i j : ℕ}
    (hi : i < M) (hj : j < N) {f : ℕ → ℕ → ℕ → S}
    (term : ∀ src c t k s, plan.PairAt src c t k s → localExpert (inputs src) g t k = e →
      a s i * b s j = f src t k) :
    d e i j = sumPairs inputs g e f := by
  rw [gemm e he i hi j hj]
  rw [sum_expert_slots hg he fun s => a s i * b s j]
  refine sum_congr rfl fun src hsrc => sum_congr rfl fun t ht => sum_congr rfl fun k mem => ?_
  obtain ⟨hk, routed⟩ := mem_filter.1 mem
  have hk := mem_range.1 hk
  have ht := mem_range.1 ht
  obtain ⟨here, expert⟩ := (routedTo_iff_localExpert he).1 routed
  obtain ⟨s, pair⟩ := exists_pairAt plan (mem_range.1 hsrc) (channelOf_lt ht)
    (mem_selected_channelOf ht ((inputs src).inRank_of_routedTo ht hk hg he routed)) hk here
  rw [pair.slot, Int.toNat_natCast]
  exact term src _ t k s pair expert

/-- The last two products of the backward pass, at one rank; where there are no tiles, the
gradients are set to zero. -/
structure WeightGemms (layer : MoeLayer S) (plan : PoolPlan sh inputs g)
    (dLdswigluIn postactAForDW2 dLdoPool pool : ℕ → ℕ → S) (dW1Local dW2Local : ℕ → ℕ → ℕ → S) :
    Prop where
  dW2 : 0 < plan.totalTiles → GroupedK sh.numExpertsPerRank
    (fun e => plan.expertPoolBlockOffset e * sh.tileM) plan.expertFrequency layer.hidden
    layer.inter dLdoPool postactAForDW2 dW2Local
  dW1 : 0 < plan.totalTiles → GroupedK sh.numExpertsPerRank
    (fun e => plan.expertPoolBlockOffset e * sh.tileM) plan.expertFrequency (2 * layer.inter)
    layer.hidden dLdswigluIn pool dW1Local
  zero : plan.totalTiles = 0 → ∀ e i j, dW1Local e i j = 0 ∧ dW2Local e i j = 0

namespace WeightGemms

variable {layer : MoeLayer S} {plan : PoolPlan sh inputs g}
  {dLdswigluIn postactAForDW2 dLdoPool pool : ℕ → ℕ → S} {dW1Local dW2Local : ℕ → ℕ → ℕ → S}

/-- Zero is the product where there are no tiles. -/
theorem grouped (gemms : WeightGemms layer plan dLdswigluIn postactAForDW2 dLdoPool pool dW1Local
      dW2Local) :
    GroupedK sh.numExpertsPerRank (fun e => plan.expertPoolBlockOffset e * sh.tileM)
        plan.expertFrequency layer.hidden layer.inter dLdoPool postactAForDW2 dW2Local ∧
      GroupedK sh.numExpertsPerRank (fun e => plan.expertPoolBlockOffset e * sh.tileM)
        plan.expertFrequency (2 * layer.inter) layer.hidden dLdswigluIn pool dW1Local := by
  rcases Nat.eq_zero_or_pos plan.totalTiles with none | some
  · have vacant : ∀ e < sh.numExpertsPerRank, plan.expertFrequency e = 0 := by
      intro e he
      have block : plan.expertPoolBlockOffset e * sh.tileM + plan.expertFrequency e ≤
          plan.totalTiles * sh.tileM := expert_block_le_totalTiles he
      rw [none, Nat.zero_mul] at block
      omega
    refine ⟨fun e he i _ j _ => ?_, fun e he i _ j _ => ?_⟩
    · rw [(gemms.zero none e i j).2, vacant e he]
      rfl
    · rw [(gemms.zero none e i j).1, vacant e he]
      rfl
  · exact ⟨gemms.dW2 some, gemms.dW1 some⟩

end WeightGemms

/-- The products can be formed. -/
theorem exists_weightGemms (layer : MoeLayer S) (plan : PoolPlan sh inputs g)
    (dLdswigluIn postactAForDW2 dLdoPool pool : ℕ → ℕ → S) :
    ∃ dW1Local dW2Local,
      WeightGemms layer plan dLdswigluIn postactAForDW2 dLdoPool pool dW1Local dW2Local := by
  rcases Nat.eq_zero_or_pos plan.totalTiles with none | some
  · refine ⟨fun _ _ _ => 0, fun _ _ _ => 0, fun pos => ?_, fun pos => ?_, fun _ _ _ _ => ⟨rfl, rfl⟩⟩
    · omega
    · omega
  · refine ⟨_, _, fun _ _ _ _ _ _ _ => rfl, fun _ _ _ _ _ _ _ => rfl, fun zero => ?_⟩
    omega

/-- **The gradients of the matrices**, from what kernel Y bwd left and the rows as they were
kept. -/
theorem weightGemms_eq {layer : MoeLayer S} {grad : ActGrad layer} {plan : PoolPlan sh inputs g}
    {dLdy : ℕ → ℕ → ℕ → S} {m : PoolMemory (ℕ → S) S} {pool preactA : ℕ → ℕ → S}
    {fit : plan.Schedulable} {tiles : YBwdTiles layer.inter}
    (run : KernelYBwdRun grad plan dLdy m preactA fit tiles) (hg : g < sh.numRanks)
    {packet : ℕ → ℕ → Packet (ℕ → S) S} (left : LeftBy sh.numTopk (plan.landedTokens packet) m)
    (carries : Carries inputs g packet) (saved : SavedRows layer plan pool preactA)
    {dLdoPool : ℕ → ℕ → S}
    (arrived : ∀ src c t k s, plan.PairAt src c t k s → dLdoPool s = dLdy src t)
    {dW1Local dW2Local : ℕ → ℕ → ℕ → S}
    (gemms : WeightGemms layer plan run.dLdswigluIn run.postactAForDW2 dLdoPool pool dW1Local
      dW2Local)
    {slots : ℕ → ℕ → ℤ} (persisted : ∀ idx, slots g idx = m (.recvTokenToSlots idx)) {e : ℕ}
    (he : e < sh.numExpertsPerRank) :
    (∀ j < 2 * layer.inter, ∀ h < layer.hidden,
      dW1Local e j h = grad.dW1 inputs slots dLdy g e j h) ∧
    ∀ n < layer.hidden, ∀ i < layer.inter,
      dW2Local e n i = layer.dW2 inputs slots dLdy g e n i := by
  obtain ⟨dW2, dW1⟩ := gemms.grouped
  have slot : ∀ {src c t k s : ℕ}, plan.PairAt src c t k s → slotOf inputs slots g src t k = s := by
    intro src c t k s pair
    rw [slotOf, persisted, pair.inverse left, Int.toNat_natCast]
  refine ⟨fun j hj h hh => ?_, fun n hn i hi => ?_⟩
  · refine groupedK_eq_sumPairs hg dW1 he hj hh fun src c t k s pair expert => ?_
    rw [dLdswigluIn_pair run hg left carries saved pair hj, saved.pool src c t k s pair h hh,
      expert, slot pair]
  · refine groupedK_eq_sumPairs hg dW2 he hn hi fun src c t k s pair expert => ?_
    rw [postactAForDW2_pair run hg left carries saved pair hi, arrived src c t k s pair, expert,
      slot pair]

end PoolPlan

end StreamEP
