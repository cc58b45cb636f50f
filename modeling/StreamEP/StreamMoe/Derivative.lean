import Mathlib.Analysis.Calculus.Deriv.Comp
import Mathlib.Analysis.Calculus.Deriv.Mul
import Mathlib.Analysis.Calculus.Deriv.Prod
import Mathlib.Analysis.SpecialFunctions.Sigmoid
import StreamEP.Intranode.Layout
import StreamEP.StreamMoe.LayerGrads

/-!
# The gradients are derivatives

The formulas that the backward kernels sum up are those of `ActGrad`.  Over the real numbers,
`loss_hasDerivAt` says what they are: for any gradient `dLdy` of the outputs, and in any direction
of rows, weights and matrices together, the layer's outputs paired with `dLdy` change by the
formulas paired with the direction.  Routing and the slots of the pairs stay as they are, and
with the slots the mask of expert dropout.

**One pair.**  A direction moves everything at a constant pace (`Direction`, `MoeLayer.along`).
The derivatives of pre-activation, post-activation and output follow one from the other, with
the mask as a factor (`exists_mask`); then the pairing with the gradient is turned round, from
the side of the outputs to that of the parameters (`sum_gradOut`, `sum_dirPostact`).
`pairLoss_hasDerivAt` says that the formulas of one pair are its derivatives.

**All pairs.**  The loss is a sum over the pairs of all experts (`loss_eq`), and so are the
gradients of the matrices; those of rows and weights are indexed by token.  `sumExperts_eq`
brings one form into the other, and `sumExperts_pairPairing` collects what a direction gains
pair by pair.

Whether the activation's derivative is right is a property of its own (`ActGrad.IsDeriv`), which
`swigluGrad_isDeriv` has for the formula of the kernels.
-/

namespace StreamEP.StreamMoe

open Finset MoeLayer

/-! ### Derivatives of activations -/

/-- `dactFn` is the derivative of the activation, times the incoming gradient. -/
structure ActGrad.IsDeriv {layer : MoeLayer ℝ} (grad : ActGrad layer) : Prop where
  hasFDerivAt : ∀ gate up, HasFDerivAt (fun p : ℝ × ℝ => layer.actFn p.1 p.2)
    ((grad.dactFn gate up 1).1 • ContinuousLinearMap.fst ℝ ℝ ℝ +
      (grad.dactFn gate up 1).2.1 • ContinuousLinearMap.snd ℝ ℝ ℝ) (gate, up)
  gate : ∀ gate up dout, (grad.dactFn gate up dout).1 = dout * (grad.dactFn gate up 1).1
  up : ∀ gate up dout, (grad.dactFn gate up dout).2.1 = dout * (grad.dactFn gate up 1).2.1

/-- `silu(gate) * up`. -/
noncomputable def swiglu (gate up : ℝ) : ℝ := gate * Real.sigmoid gate * up

/-- `dswiglu`. -/
noncomputable def dswiglu (gate up dout : ℝ) : ℝ × ℝ × ℝ :=
  (dout * (Real.sigmoid gate * (1 + gate * (1 - Real.sigmoid gate)) * up),
    dout * (gate * Real.sigmoid gate), swiglu gate up)

/-- The derivative of a layer with this activation. -/
noncomputable def swigluGrad {layer : MoeLayer ℝ} (act : layer.actFn = swiglu) :
    ActGrad layer where
  dactFn := dswiglu
  dactFn_postact _ _ _ := act ▸ rfl

theorem swigluGrad_isDeriv {layer : MoeLayer ℝ} (act : layer.actFn = swiglu) :
    (swigluGrad act).IsDeriv where
  hasFDerivAt gate up := by
    have silu : HasDerivAt (fun gate => gate * Real.sigmoid gate)
        (1 * Real.sigmoid gate + gate * (Real.sigmoid gate * (1 - Real.sigmoid gate))) gate :=
      (hasDerivAt_id gate).mul (Real.hasDerivAt_sigmoid gate)
    have fst : HasFDerivAt (fun p : ℝ × ℝ => p.1) (.fst ℝ ℝ ℝ) (gate, up) := hasFDerivAt_fst
    have snd : HasFDerivAt (fun p : ℝ × ℝ => p.2) (.snd ℝ ℝ ℝ) (gate, up) := hasFDerivAt_snd
    have both := (silu.comp_hasFDerivAt (gate, up) fst).mul snd
    rw [act]
    refine both.congr_fderiv (ContinuousLinearMap.ext fun v => ?_)
    simp [swigluGrad, dswiglu]
    ring
  gate _ _ _ := by simp [swigluGrad, dswiglu]
  up _ _ _ := by simp [swigluGrad, dswiglu]

/-! ### One pair -/

/-- A direction in which rows, weights and matrices vary, by rank. -/
structure Direction where
  x : ℕ → ℕ → ℕ → ℝ
  topkWeights : ℕ → ℕ → ℝ
  w1 : ℕ → ℕ → ℕ → ℕ → ℝ
  w2 : ℕ → ℕ → ℕ → ℕ → ℝ

/-- The layer, `s` steps in a direction. -/
def MoeLayer.along (layer : MoeLayer ℝ) (d : Direction) (s : ℝ) : MoeLayer ℝ :=
  { layer with
    w1 := fun r e j h => layer.w1 r e j h + s * d.w1 r e j h
    w2 := fun r e n i => layer.w2 r e n i + s * d.w2 r e n i }

/-- A value that moves at a constant pace. -/
theorem hasDerivAt_line (a b : ℝ) : HasDerivAt (fun s : ℝ => a + s * b) b 0 := by
  simpa using ((hasDerivAt_id (0 : ℝ)).mul_const b).const_add a

section Pair

variable (layer : MoeLayer ℝ) (d : Direction) (r e : ℕ) (x dx : ℕ → ℝ)

/-- How the pre-activation moves. -/
def dirPreact (j : ℕ) : ℝ :=
  ∑ h ∈ range layer.hidden, (dx h * layer.w1 r e j h + x h * d.w1 r e j h)

theorem preact_hasDerivAt (j : ℕ) :
    HasDerivAt (fun s => (layer.along d s).preact r e (fun h => x h + s * dx h) j)
      (dirPreact layer d r e x dx j) 0 := by
  have term : ∀ h ∈ range layer.hidden, HasDerivAt
      (fun s => (x h + s * dx h) * (layer.w1 r e j h + s * d.w1 r e j h))
        (dx h * layer.w1 r e j h + x h * d.w1 r e j h) 0 := by
    intro h _
    refine ((hasDerivAt_line (x h) (dx h)).fun_mul
      (hasDerivAt_line (layer.w1 r e j h) (d.w1 r e j h))).congr_deriv ?_
    rw [zero_mul, zero_mul, add_zero, add_zero]
  exact HasDerivAt.fun_sum term

/-- The mask is a factor. -/
theorem exists_mask (slot i : ℕ) : ∃ mask, ∀ a, layer.masked r slot i a = a * mask := by
  unfold masked
  cases layer.dropout with
  | none => exact ⟨1, fun a => (mul_one a).symm⟩
  | some drop => exact ⟨_, fun _ => rfl⟩

variable {layer} {grad : ActGrad layer} (isDeriv : grad.IsDeriv) (slot : ℕ)

/-- How the post-activation moves. -/
def dirPostact (grad : ActGrad layer) (i : ℕ) : ℝ :=
  layer.masked r slot i
    ((grad.dactFn (layer.preact r e x (2 * i)) (layer.preact r e x (2 * i + 1)) 1).1 *
        dirPreact layer d r e x dx (2 * i) +
      (grad.dactFn (layer.preact r e x (2 * i)) (layer.preact r e x (2 * i + 1)) 1).2.1 *
        dirPreact layer d r e x dx (2 * i + 1))

include isDeriv

theorem postact_hasDerivAt (i : ℕ) :
    HasDerivAt (fun s => (layer.along d s).postact r e (fun h => x h + s * dx h) slot i)
      (dirPostact d r e x dx slot grad i) 0 := by
  obtain ⟨mask, masked_eq⟩ := exists_mask layer r slot i
  have gate := preact_hasDerivAt layer d r e x dx (2 * i)
  have up := preact_hasDerivAt layer d r e x dx (2 * i + 1)
  have start : ∀ j, (layer.along d 0).preact r e (fun h => x h + 0 * dx h) j =
      layer.preact r e x j := by
    intro j
    simp [MoeLayer.preact, MoeLayer.along]
  have act := isDeriv.hasFDerivAt (layer.preact r e x (2 * i)) (layer.preact r e x (2 * i + 1))
  rw [← start (2 * i), ← start (2 * i + 1)] at act
  have moved := (act.comp_hasDerivAt 0 (gate.prodMk up)).mul_const mask
  simp only [start] at moved
  rw [dirPostact, masked_eq]
  refine moved.congr_deriv ?_ |>.congr_of_eventuallyEq ?_
  · simp
  · refine Filter.Eventually.of_forall fun s => ?_
    exact masked_eq _

/-- How a row of the output moves. -/
def dirOut (grad : ActGrad layer) (n : ℕ) : ℝ :=
  ∑ i ∈ range layer.inter, (dirPostact d r e x dx slot grad i * layer.w2 r e n i +
    layer.postact r e x slot i * d.w2 r e n i)

theorem expertOut_hasDerivAt (n : ℕ) :
    HasDerivAt (fun s => (layer.along d s).expertOut r e (fun h => x h + s * dx h) slot n)
      (dirOut d r e x dx slot grad n) 0 := by
  have term : ∀ i ∈ range layer.inter, HasDerivAt
      (fun s => (layer.along d s).postact r e (fun h => x h + s * dx h) slot i *
        (layer.w2 r e n i + s * d.w2 r e n i))
      (dirPostact d r e x dx slot grad i * layer.w2 r e n i +
        layer.postact r e x slot i * d.w2 r e n i) 0 := by
    intro i _
    refine ((postact_hasDerivAt d r e x dx isDeriv slot i).fun_mul
      (hasDerivAt_line (layer.w2 r e n i) (d.w2 r e n i))).congr_deriv ?_
    simp [MoeLayer.along, MoeLayer.postact, MoeLayer.preact, MoeLayer.masked]
  exact HasDerivAt.fun_sum term

omit isDeriv in
/-- The output paired with a gradient, from the other side. -/
theorem sum_gradOut (dy q : ℕ → ℝ) :
    ∑ n ∈ range layer.hidden, dy n * ∑ i ∈ range layer.inter, q i * layer.w2 r e n i =
      ∑ i ∈ range layer.inter, layer.gradOut r e dy i * q i := by
  simp only [mul_sum, gradOut, sum_mul]
  rw [sum_comm]
  exact sum_congr rfl fun i _ => sum_congr rfl fun n _ => by ring

/-- The post-activations paired with their gradients, through the activation. -/
theorem sum_dirPostact (dy : ℕ → ℝ) (weight : ℝ) :
    ∑ i ∈ range layer.inter,
        weight * (layer.gradOut r e dy i * dirPostact d r e x dx slot grad i) =
      ∑ j ∈ range (2 * layer.inter),
        grad.dPreact r e x dy weight slot j * dirPreact layer d r e x dx j := by
  rw [Nat.mul_comm 2, PrefixSum.sum_range_mul]
  refine sum_congr rfl fun i _ => ?_
  obtain ⟨mask, masked_eq⟩ := exists_mask layer r slot i
  have even : (i * 2 + 0) % 2 = 0 ∧ (i * 2 + 0) / 2 = i := by omega
  have odd : (i * 2 + 1) % 2 ≠ 0 ∧ (i * 2 + 1) / 2 = i := by omega
  rw [sum_range_succ, sum_range_one, ActGrad.dPreact, ActGrad.dPreact, if_pos even.1,
    if_neg odd.1, even.2, odd.2, Nat.add_zero, Nat.mul_comm i 2]
  simp only [ActGrad.unit, ActGrad.dact, masked_eq, dirPostact]
  rw [isDeriv.gate _ _ (layer.gradOut r e dy i * mask),
    isDeriv.up _ _ (layer.gradOut r e dy i * mask)]
  ring

/-- What a pair contributes to the outputs, paired with their gradient. -/
def pairLoss (layer : MoeLayer ℝ) (r e : ℕ) (x dy : ℕ → ℝ) (weight : ℝ) (slot : ℕ) : ℝ :=
  ∑ n ∈ range layer.hidden, dy n * (weight * layer.expertOut r e x slot n)

/-- **The formulas of one pair are its derivatives.** -/
theorem pairLoss_hasDerivAt (dy : ℕ → ℝ) (weight dWeight : ℝ) :
    HasDerivAt (fun s => pairLoss (layer.along d s) r e (fun h => x h + s * dx h) dy
        (weight + s * dWeight) slot)
      (∑ h ∈ range layer.hidden, grad.dRow r e x dy weight slot h * dx h +
        layer.dWeight r e x dy slot * dWeight +
        ∑ j ∈ range (2 * layer.inter), ∑ h ∈ range layer.hidden,
          grad.dPreact r e x dy weight slot j * x h * d.w1 r e j h +
        ∑ n ∈ range layer.hidden, ∑ i ∈ range layer.inter,
          dy n * (layer.postact r e x slot i * weight) * d.w2 r e n i) 0 := by
  have term : ∀ n ∈ range layer.hidden, HasDerivAt
      (fun s => dy n * ((weight + s * dWeight) *
        (layer.along d s).expertOut r e (fun h => x h + s * dx h) slot n))
      (dy n * (dWeight * layer.expertOut r e x slot n + weight * dirOut d r e x dx slot grad n))
      0 := by
    intro n _
    refine (((hasDerivAt_line weight dWeight).fun_mul
      (expertOut_hasDerivAt d r e x dx isDeriv slot n)).const_mul (dy n)).congr_deriv ?_
    simp [MoeLayer.along, MoeLayer.expertOut, MoeLayer.postact, MoeLayer.preact, MoeLayer.masked]
  refine (HasDerivAt.fun_sum term).congr_deriv ?_
  -- the rows and `w1` move the pre-activations
  have inner : ∑ j ∈ range (2 * layer.inter),
      grad.dPreact r e x dy weight slot j * dirPreact layer d r e x dx j =
        ∑ h ∈ range layer.hidden, grad.dRow r e x dy weight slot h * dx h +
          ∑ j ∈ range (2 * layer.inter), ∑ h ∈ range layer.hidden,
            grad.dPreact r e x dy weight slot j * x h * d.w1 r e j h := by
    simp only [dirPreact, ActGrad.dRow, sum_mul, mul_sum]
    rw [sum_comm (s := range layer.hidden), ← sum_add_distrib]
    refine sum_congr rfl fun j _ => ?_
    rw [← sum_add_distrib]
    exact sum_congr rfl fun h _ => by ring
  -- the weight and `w2` move the output behind them
  have outer : ∑ n ∈ range layer.hidden, dy n *
      (dWeight * layer.expertOut r e x slot n + weight * dirOut d r e x dx slot grad n) =
        layer.dWeight r e x dy slot * dWeight +
        ∑ i ∈ range layer.inter,
          weight * (layer.gradOut r e dy i * dirPostact d r e x dx slot grad i) +
        ∑ n ∈ range layer.hidden, ∑ i ∈ range layer.inter,
          dy n * (layer.postact r e x slot i * weight) * d.w2 r e n i := by
    rw [← mul_sum, ← sum_gradOut, MoeLayer.dWeight, ← sum_gradOut, sum_mul, mul_sum,
      ← sum_add_distrib, ← sum_add_distrib]
    refine sum_congr rfl fun n _ => ?_
    simp only [dirOut, MoeLayer.expertOut, sum_add_distrib, mul_add, mul_sum, sum_mul]
    have last : ∀ i ∈ range layer.inter, dy n * (weight * (layer.postact r e x slot i *
        d.w2 r e n i)) = dy n * (layer.postact r e x slot i * weight) * d.w2 r e n i :=
      fun i _ => by ring
    rw [sum_congr rfl last, ← add_assoc]
    congr 1
    congr 1
    · exact sum_congr rfl fun i _ => by ring
    · exact sum_congr rfl fun i _ => by ring
  rw [outer, sum_dirPostact d r e x dx isDeriv slot dy weight, inner]
  ring

end Pair

/-! ### All pairs -/

section Layer

variable {sh : Shape} (layer : MoeLayer ℝ) (inputs : ℕ → DispatchInputs sh (ℕ → ℝ) ℝ)
  (slots : ℕ → ℕ → ℤ) (dLdy : ℕ → ℕ → ℕ → ℝ) (d : Direction)

/-- The inputs of the ranks, `s` steps in a direction. -/
def inputsAlong (s : ℝ) (g : ℕ) : DispatchInputs sh (ℕ → ℝ) ℝ :=
  { inputs g with
    x := fun t h => (inputs g).x t h + s * d.x g t h
    topkWeights := fun idx => (inputs g).topkWeights idx + s * d.topkWeights g idx }

/-- The outputs of the layer for all tokens, paired with their gradients. -/
def loss : ℝ :=
  ∑ g ∈ range sh.numRanks, ∑ t ∈ range (inputs g).numTokens, ∑ n ∈ range layer.hidden,
    dLdy g t n * layer.moe inputs slots g t n

/-- The sum over the pairs of all experts. -/
def sumExperts (f : ℕ → ℕ → ℕ → ℕ → ℕ → ℝ) : ℝ :=
  ∑ r ∈ range sh.numRanks, ∑ e ∈ range sh.numExpertsPerRank, sumPairs inputs r e (f r e)

/-- Token by token, the same. -/
theorem sumExperts_eq (f : ℕ → ℕ → ℕ → ℕ → ℕ → ℝ) :
    sumExperts inputs f =
      ∑ g ∈ range sh.numRanks, ∑ t ∈ range (inputs g).numTokens, ∑ r ∈ range sh.numRanks,
        ∑ e ∈ range sh.numExpertsPerRank,
          ∑ k ∈ (range sh.numTopk).filter fun k =>
            (inputs g).RoutedTo r e (t * sh.numTopk + k), f r e g t k := by
  have outward : ∀ (C : Finset ℕ) (F : ℕ → ℕ → ℕ → ℝ),
      ∑ r ∈ range sh.numRanks, ∑ e ∈ range sh.numExpertsPerRank, ∑ c ∈ C, F r e c =
        ∑ c ∈ C, ∑ r ∈ range sh.numRanks, ∑ e ∈ range sh.numExpertsPerRank, F r e c := by
    intro C F
    rw [sum_congr rfl fun r _ => sum_comm, sum_comm]
  simp only [sumExperts, sumPairs]
  rw [outward]
  exact sum_congr rfl fun g _ => outward _ _

theorem sumExperts_add (f f' : ℕ → ℕ → ℕ → ℕ → ℕ → ℝ) :
    sumExperts inputs (fun r e g t k => f r e g t k + f' r e g t k) =
      sumExperts inputs f + sumExperts inputs f' := by
  simp only [sumExperts, sumPairs, sum_add_distrib]

/-- The loss, pair by pair. -/
theorem loss_eq :
    loss layer inputs slots dLdy = sumExperts inputs fun r e g t k =>
      pairLoss layer r e ((inputs g).x t) (dLdy g t)
        ((inputs g).topkWeights (t * sh.numTopk + k)) (slotOf inputs slots r g t k) := by
  rw [sumExperts_eq]
  refine sum_congr rfl fun g _ => sum_congr rfl fun t _ => ?_
  simp only [moe, part, mul_sum, pairLoss, slotOf]
  rw [sum_comm]
  refine sum_congr rfl fun r _ => ?_
  rw [sum_comm]
  refine sum_congr rfl fun e _ => ?_
  rw [sum_comm]

/-- The gradients of all rows, weights and matrices, paired with a direction. -/
def pairing (grad : ActGrad layer) : ℝ :=
  ∑ g ∈ range sh.numRanks, ∑ t ∈ range (inputs g).numTokens,
      (∑ h ∈ range layer.hidden, grad.dx inputs slots dLdy g t h * d.x g t h +
        ∑ k ∈ range sh.numTopk,
          layer.dTopkWeight inputs slots dLdy g t k * d.topkWeights g (t * sh.numTopk + k)) +
    ∑ r ∈ range sh.numRanks, ∑ e ∈ range sh.numExpertsPerRank,
      (∑ j ∈ range (2 * layer.inter), ∑ h ∈ range layer.hidden,
          grad.dW1 inputs slots dLdy r e j h * d.w1 r e j h +
        ∑ n ∈ range layer.hidden, ∑ i ∈ range layer.inter,
          layer.dW2 inputs slots dLdy r e n i * d.w2 r e n i)

theorem sumPairs_sum (r e : ℕ) (C : Finset ℕ) (f : ℕ → ℕ → ℕ → ℕ → ℝ) :
    sumPairs inputs r e (fun g t k => ∑ c ∈ C, f c g t k) =
      ∑ c ∈ C, sumPairs inputs r e (f c) := by
  simp only [sumPairs]
  rw [sum_comm]
  refine sum_congr rfl fun g _ => ?_
  rw [sum_comm]
  refine sum_congr rfl fun t _ => ?_
  rw [sum_comm]

/-- A sum over pairs, paired with a direction of a matrix. -/
theorem sumPairs_matrix (r e M N : ℕ) (F : ℕ → ℕ → ℕ → ℕ → ℕ → ℝ) (v : ℕ → ℕ → ℝ) :
    sumPairs inputs r e (fun g t k => ∑ j ∈ range M, ∑ h ∈ range N, F j h g t k * v j h) =
      ∑ j ∈ range M, ∑ h ∈ range N, sumPairs inputs r e (F j h) * v j h := by
  rw [sumPairs_sum]
  refine sum_congr rfl fun j _ => ?_
  rw [sumPairs_sum]
  refine sum_congr rfl fun h _ => ?_
  simp only [sumPairs, sum_mul]

/-- The rows' gradients. -/
theorem sumExperts_rows (grad : ActGrad layer) :
    (sumExperts inputs fun r e g t k => ∑ h ∈ range layer.hidden,
        grad.dRow r e ((inputs g).x t) (dLdy g t) ((inputs g).topkWeights (t * sh.numTopk + k))
          (slotOf inputs slots r g t k) h * d.x g t h) =
      ∑ g ∈ range sh.numRanks, ∑ t ∈ range (inputs g).numTokens,
        ∑ h ∈ range layer.hidden, grad.dx inputs slots dLdy g t h * d.x g t h := by
  rw [sumExperts_eq]
  refine sum_congr rfl fun g _ => sum_congr rfl fun t _ => ?_
  simp only [ActGrad.dx, ActGrad.dxPart, sum_mul]
  rw [sum_comm (s := range layer.hidden)]
  refine sum_congr rfl fun r _ => ?_
  rw [sum_comm (s := range layer.hidden)]
  refine sum_congr rfl fun e _ => ?_
  rw [sum_comm]

/-- The weights' gradients. -/
theorem sumExperts_weights :
    (sumExperts inputs fun r e g t k =>
        layer.dWeight r e ((inputs g).x t) (dLdy g t) (slotOf inputs slots r g t k) *
          d.topkWeights g (t * sh.numTopk + k)) =
      ∑ g ∈ range sh.numRanks, ∑ t ∈ range (inputs g).numTokens, ∑ k ∈ range sh.numTopk,
        layer.dTopkWeight inputs slots dLdy g t k * d.topkWeights g (t * sh.numTopk + k) := by
  rw [sumExperts_eq]
  refine sum_congr rfl fun g _ => sum_congr rfl fun t _ => ?_
  simp only [dTopkWeight, sum_mul, sum_filter, ite_mul, zero_mul]
  rw [sum_comm (s := range sh.numTopk)]
  refine sum_congr rfl fun r _ => ?_
  rw [sum_comm (s := range sh.numTopk)]

/-- The gradients of the matrices. -/
theorem sumExperts_matrix (M N : ℕ) (F : ℕ → ℕ → ℕ → ℕ → ℕ → ℕ → ℕ → ℝ)
    (v : ℕ → ℕ → ℕ → ℕ → ℝ) :
    (sumExperts inputs fun r e g t k =>
        ∑ j ∈ range M, ∑ h ∈ range N, F r e j h g t k * v r e j h) =
      ∑ r ∈ range sh.numRanks, ∑ e ∈ range sh.numExpertsPerRank,
        ∑ j ∈ range M, ∑ h ∈ range N, sumPairs inputs r e (F r e j h) * v r e j h :=
  sum_congr rfl fun _ _ => sum_congr rfl fun _ _ => sumPairs_matrix inputs _ _ _ _ _ _

/-- What a pair's contribution gains along a direction. -/
def pairPairing (grad : ActGrad layer) (r e g t k : ℕ) : ℝ :=
  let x := (inputs g).x t
  let weight := (inputs g).topkWeights (t * sh.numTopk + k)
  let slot := slotOf inputs slots r g t k
  ∑ h ∈ range layer.hidden, grad.dRow r e x (dLdy g t) weight slot h * d.x g t h +
    layer.dWeight r e x (dLdy g t) slot * d.topkWeights g (t * sh.numTopk + k) +
    ∑ j ∈ range (2 * layer.inter), ∑ h ∈ range layer.hidden,
      grad.dPreact r e x (dLdy g t) weight slot j * x h * d.w1 r e j h +
    ∑ n ∈ range layer.hidden, ∑ i ∈ range layer.inter,
      dLdy g t n * (layer.postact r e x slot i * weight) * d.w2 r e n i

/-- The derivative of the loss, pair by pair, -/
theorem hasDerivAt_sumExperts (grad : ActGrad layer) (isDeriv : grad.IsDeriv) :
    HasDerivAt (fun s => loss (layer.along d s) (inputsAlong inputs d s) slots dLdy)
      (sumExperts inputs (pairPairing layer inputs slots dLdy d grad)) 0 := by
  have pairs : ∀ r e g t k, HasDerivAt
      (fun s => pairLoss (layer.along d s) r e (fun h => (inputs g).x t h + s * d.x g t h)
        (dLdy g t) ((inputs g).topkWeights (t * sh.numTopk + k) +
          s * d.topkWeights g (t * sh.numTopk + k)) (slotOf inputs slots r g t k))
      (pairPairing layer inputs slots dLdy d grad r e g t k) 0 :=
    fun r e g t k => pairLoss_hasDerivAt d r e ((inputs g).x t) (d.x g t) isDeriv
      (slotOf inputs slots r g t k) (dLdy g t) ((inputs g).topkWeights (t * sh.numTopk + k))
      (d.topkWeights g (t * sh.numTopk + k))
  have whole : HasDerivAt
      (fun s => sumExperts inputs fun r e g t k =>
        pairLoss (layer.along d s) r e (fun h => (inputs g).x t h + s * d.x g t h)
        (dLdy g t) ((inputs g).topkWeights (t * sh.numTopk + k) +
          s * d.topkWeights g (t * sh.numTopk + k)) (slotOf inputs slots r g t k))
      (sumExperts inputs (pairPairing layer inputs slots dLdy d grad)) 0 :=
    HasDerivAt.fun_sum fun r _ => HasDerivAt.fun_sum fun e _ => HasDerivAt.fun_sum fun g _ =>
      HasDerivAt.fun_sum fun t _ => HasDerivAt.fun_sum fun k _ => pairs r e g t k
  refine whole.congr_of_eventuallyEq (Filter.Eventually.of_forall fun s => ?_)
  exact loss_eq (layer.along d s) (inputsAlong inputs d s) slots dLdy

/-- and collected by rows, weights and matrices. -/
theorem sumExperts_pairPairing (grad : ActGrad layer) :
    sumExperts inputs (pairPairing layer inputs slots dLdy d grad) =
      pairing layer inputs slots dLdy d grad := by
  unfold pairPairing
  rw [sumExperts_add, sumExperts_add, sumExperts_add, sumExperts_rows, sumExperts_weights,
    sumExperts_matrix, sumExperts_matrix, add_assoc]
  simp only [pairing, sum_add_distrib, add_assoc]
  rfl

/-- **The gradients that the backward pass computes are the derivatives of the layer**, in any
direction of rows, weights and matrices. -/
theorem loss_hasDerivAt (grad : ActGrad layer) (isDeriv : grad.IsDeriv) :
    HasDerivAt (fun s => loss (layer.along d s) (inputsAlong inputs d s) slots dLdy)
      (pairing layer inputs slots dLdy d grad) 0 :=
  (hasDerivAt_sumExperts layer inputs slots dLdy d grad isDeriv).congr_deriv
    (sumExperts_pairPairing layer inputs slots dLdy d grad)

end Layer

/-- A layer of two hidden columns and one unit. -/
noncomputable def exampleSwiglu : MoeLayer ℝ where
  hidden := 2
  inter := 1
  actFn := swiglu
  w1 r e j h := r + e + j + h
  w2 r e n i := r + e + n + i
  dropout := none
  hidden_pos := Nat.two_pos

/-- Two ranks with real rows and weights. -/
noncomputable def exampleRealInputs (g : ℕ) :
    DispatchInputs Intranode.World.exampleShape (ℕ → ℝ) ℝ :=
  { Intranode.World.exampleWorld.inputs g with
    x := fun t h => g + t + h
    topkWeights := fun idx => g + idx }

/-- Every choice in the direction of its own index. -/
noncomputable def exampleDirection : Direction where
  x g t h := g + t - h
  topkWeights g idx := g - idx
  w1 r e j h := r - e + j - h
  w2 r e n i := r - e + n - i

theorem exampleSwiglu_hasDerivAt :
    HasDerivAt (fun s => loss (exampleSwiglu.along exampleDirection s)
        (inputsAlong exampleRealInputs exampleDirection s) (fun _ _ => 0) fun _ _ _ => 1)
      (pairing exampleSwiglu exampleRealInputs (fun _ _ => 0) (fun _ _ _ => 1) exampleDirection
        (swigluGrad rfl)) 0 :=
  loss_hasDerivAt exampleSwiglu exampleRealInputs _ _ exampleDirection (swigluGrad rfl)
    (swigluGrad_isDeriv rfl)

end StreamEP.StreamMoe
