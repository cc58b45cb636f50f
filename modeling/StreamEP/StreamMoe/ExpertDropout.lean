import Mathlib.Data.BitVec
import Mathlib.Data.Int.Bitwise
import Mathlib.Data.Rat.Floor
import Mathlib.Tactic.Linarith
import Mathlib.Tactic.Ring
import StreamEP.Lib.CheckedWord
import StreamEP.StreamMoe.TileConfig

/-!
# Expert dropout

The mask of expert dropout is never stored.  It is a hash of the seed, the pool row and the
post-activation column, computed by `keep_scale` in 32-bit registers and mirrored by
`keep_scale_ref` in signed 64-bit tensors, where every 32-bit product is split so that its
parts stay in range.

**One hash.**  `hashRef` is in `Option`, since a product, shift or sum that leaves the signed
range has no defined value; `hashRef_eq` says that it has a value for all rows and columns of 32
bits, and that this is the hash of the device.  The key is the split product: its parts are in
range, and its low half is the product of the low halves (`mul32_eq`).

**One mask.**  Kernel A evaluates it on an accumulator tile whose columns alternate gate and up,
the backward of kernel Y on a tile of post-activation columns.  Which element of the output a
register holds is the business of the layout, a parameter here (`tDcD`); of kernel A's it is
assumed that registers come in pairs of gate and up (`Gated`).  Both kernels then mask a unit
with the hash of its row and column in the whole output (`maskUnitA_spec`, `maskUnitYBwd_eq`).

`expertDropout_one_mask` has both together, for all coordinates and every threshold of the
unsigned type.
-/

namespace StreamEP.StreamMoe.ExpertDropout

open CheckedWord

/-! ### The constants -/

/-- `_ROW_MUL` -/
def rowMul : ℕ := 0x9E3779B1

/-- `_COL_MUL` -/
def colMul : ℕ := 0x85EBCA77

/-- `_FMIX_A` -/
def fmixA : ℕ := 0x85EBCA6B

/-- `_FMIX_B` -/
def fmixB : ℕ := 0xC2B2AE35

/-- `_U32` -/
def u32 : ℕ := 0xFFFFFFFF

/-! ### The keep threshold -/

/-- `round`: to the nearest integer, a tie to the even one -/
def roundHalfEven (x : ℚ) : ℤ :=
  if Int.fract x < 1 / 2 then ⌊x⌋
  else if 1 / 2 < Int.fract x then ⌊x⌋ + 1
  else if ⌊x⌋ % 2 = 0 then ⌊x⌋ else ⌊x⌋ + 1

/-- `keep_threshold`; a float is a rational and its product with `2 ** 32` is exact -/
def keepThreshold (p : ℚ) : Except PyError ℤ :=
  if 0 ≤ p ∧ p < 1 then .ok (min (roundHalfEven (p * 2 ^ 32)) u32)
  else .error (.valueError "expert dropout p must be in [0, 1)")

/-! ### The device -/

/-- `Uint32` of an integer -/
def uint32 (n : ℤ) : BitVec 32 := BitVec.ofInt 32 n

/-- The hash of `keep_scale`. -/
def hash (seed row col : ℤ) : BitVec 32 :=
  let h := (uint32 row * uint32 rowMul) ^^^ uint32 seed
  let h := (h ^^^ (h >>> 16)) * uint32 fmixA
  let h := (h ^^^ (h >>> 13)) * uint32 fmixB
  let h := h ^^^ (h >>> 16)
  let h := h ^^^ (uint32 col * uint32 colMul)
  let h := (h ^^^ (h >>> 16)) * uint32 fmixA
  (h ^^^ (h >>> 13)) * uint32 fmixB

/-- `keep_scale` -/
def keepScale {α : Type} [Zero α] (seed row col threshold : ℤ) (scale : α) : α :=
  if uint32 threshold ≤ hash seed row col then scale else 0

/-! ### The reference -/

/-- An integer as an element of an `int64` tensor. -/
def int64 (n : ℤ) : BitVec 64 := BitVec.ofInt 64 n

/-- `_mul32`, with no result where a product, the shift or the sum leaves the signed range -/
def mul32 (a : BitVec 64) (c : ℕ) : Option (BitVec 64) := do
  let low ← mul a (int64 (c &&& 0xFFFF : ℕ))
  let high ← mul a (int64 (c >>> 16 : ℕ))
  let shifted ← shiftLeft (high &&& int64 0xFFFF) 16
  let sum ← add low shifted
  return sum &&& int64 u32

/-- The hash of `keep_scale_ref`; `>>` is the arithmetic shift of a signed word -/
def hashRef (seed row col : ℤ) : Option (BitVec 64) := do
  let h := (← mul32 (int64 row) rowMul) ^^^ int64 (Int.land seed u32)
  let h ← mul32 (h ^^^ h.sshiftRight 16) fmixA
  let h ← mul32 (h ^^^ h.sshiftRight 13) fmixB
  let h := h ^^^ h.sshiftRight 16
  let h := h ^^^ (← mul32 (int64 col) colMul)
  let h ← mul32 (h ^^^ h.sshiftRight 16) fmixA
  mul32 (h ^^^ h.sshiftRight 13) fmixB

/-- `keep_scale_ref` at one row and one column, for a threshold of `keep_threshold` -/
def keepScaleRef {α : Type} [Zero α] (seed row col threshold : ℤ) (scale : α) : Option α := do
  let h ← hashRef seed row col
  return if threshold ≤ h.toInt then scale else 0

/-! ### The reference hashes as the device does -/

/-- Masking a Python integer keeps its remainder, for a negative one too. -/
theorem land_u32 (n : ℤ) : Int.land n u32 = n % 2 ^ 32 := by
  have mask : u32 = 2 ^ 32 - 1 := rfl
  cases n with
  | ofNat m =>
    show ((m &&& u32 : ℕ) : ℤ) = _
    rw [mask, Nat.and_two_pow_sub_one_eq_mod]
    exact Int.natCast_mod m (2 ^ 32)
  | negSucc m =>
    show ((Nat.ldiff u32 m : ℕ) : ℤ) = _
    have low : m % 2 ^ 32 < 2 ^ 32 := Nat.mod_lt m (by decide)
    have rest : Nat.ldiff u32 m = 2 ^ 32 - (m % 2 ^ 32 + 1) := by
      apply Nat.eq_of_testBit_eq
      intro i
      rw [Nat.testBit_ldiff, Nat.testBit_two_pow_sub_succ low, Nat.testBit_mod_two_pow, mask,
        Nat.testBit_two_pow_sub_one]
      cases decide (i < 32) <;> rfl
    rw [rest]
    omega

/-- A value of the signed or of the unsigned 32-bit type. -/
def In32 (n : ℤ) : Prop := -2 ^ 31 ≤ n ∧ n < 2 ^ 32

instance (n : ℤ) : Decidable (In32 n) := inferInstanceAs (Decidable (_ ∧ _))

theorem toInt_int64 {n : ℤ} (low : -2 ^ 63 ≤ n) (high : n < 2 ^ 63) : (int64 n).toInt = n := by
  unfold int64
  rw [BitVec.toInt_ofInt, Int.bmod_eq_of_le] <;> omega

theorem setWidth_int64 (n : ℤ) : (int64 n).setWidth 32 = uint32 n := by
  apply BitVec.eq_of_toNat_eq
  unfold int64 uint32
  rw [BitVec.toNat_setWidth, BitVec.toNat_ofInt, BitVec.toNat_ofInt]
  omega

/-- The product by a constant, from the products by its two halves. -/
theorem mul_halves (x : BitVec 32) (c : ℕ) :
    x * uint32 (c &&& 0xFFFF : ℕ) + (x * uint32 (c >>> 16 : ℕ)) <<< 16 = x * uint32 c := by
  have parts : (c >>> 16) * 2 ^ 16 + (c &&& 0xFFFF) = c := by
    rw [show 0xFFFF = 2 ^ 16 - 1 from rfl, Nat.and_two_pow_sub_one_eq_mod,
      Nat.shiftRight_eq_div_pow]
    exact Nat.div_add_mod' c (2 ^ 16)
  have constant : uint32 c =
      uint32 (c >>> 16 : ℕ) * BitVec.twoPow 32 16 + uint32 (c &&& 0xFFFF : ℕ) := by
    conv_lhs => rw [← parts]
    unfold uint32
    push_cast
    rw [BitVec.ofInt_add, BitVec.ofInt_mul]
    rfl
  rw [constant, BitVec.shiftLeft_eq_mul_twoPow]
  ring

/-- The product of a 32-bit value with half of a constant stays below `2 ^ 48`. -/
theorem mul_half {a : BitVec 64} {half : ℕ} (inRange : In32 a.toInt) (short : half < 2 ^ 16) :
    mul a (int64 half) = some (a * int64 half) ∧
      -2 ^ 47 ≤ (a * int64 half).toInt ∧ (a * int64 half).toInt < 2 ^ 48 := by
  obtain ⟨least, greatest⟩ := inRange
  have value : (int64 half).toInt = half := toInt_int64 (by omega) (by omega)
  have low : -2 ^ 47 ≤ a.toInt * (int64 half).toInt := by
    rw [value]
    nlinarith
  have high : a.toInt * (int64 half).toInt < 2 ^ 48 := by
    rw [value]
    nlinarith
  rw [toInt_mul (by omega) (by omega)]
  exact ⟨mul_eq_some (by omega) (by omega), low, high⟩

/-- Shifted by half a word, only the low half of a word counts. -/
theorem low_half_shiftLeft (z : BitVec 32) :
    (z.setWidth 16).setWidth 32 <<< 16 = z <<< 16 := by
  apply BitVec.eq_of_toNat_eq
  simp only [BitVec.toNat_shiftLeft, BitVec.toNat_setWidth, Nat.shiftLeft_eq]
  omega

/-- A half word shifted up by its length stays an unsigned 32-bit value. -/
theorem shiftLeft_half (half : BitVec 16) :
    shiftLeft (half.setWidth 64) 16 = some ((half.setWidth 32 <<< 16).setWidth 64) := by
  have value : (half.setWidth 64).toInt = half.toNat := toInt_setWidth half (by decide)
  have bound : half.toNat < 2 ^ 16 := half.isLt
  rw [shiftLeft_eq_some (by omega) (by omega)]
  congr 1
  apply BitVec.eq_of_toNat_eq
  simp only [BitVec.toNat_shiftLeft, BitVec.toNat_setWidth, Nat.shiftLeft_eq]
  omega

/-- The split product is the product of the low halves, and all its parts are in range. -/
theorem mul32_eq {a : BitVec 64} {c : ℕ} (inRange : In32 a.toInt) (held : c < 2 ^ 32) :
    mul32 a c = some ((a.setWidth 32 * uint32 c).setWidth 64) := by
  have lowHalf : (c &&& 0xFFFF) < 2 ^ 16 := by
    rw [show 0xFFFF = 2 ^ 16 - 1 from rfl, Nat.and_two_pow_sub_one_eq_mod]
    exact Nat.mod_lt c (by decide)
  have highHalf : c >>> 16 < 2 ^ 16 := by
    rw [Nat.shiftRight_eq_div_pow]
    omega
  obtain ⟨lowEq, lowLeast, lowGreatest⟩ := mul_half inRange lowHalf
  obtain ⟨highEq, -, -⟩ := mul_half inRange highHalf
  have masked (z : BitVec 64) : z &&& int64 0xFFFF = (z.setWidth 16).setWidth 64 :=
    and_mask (n := 16) z (by decide)
  have masked32 (z : BitVec 64) : z &&& int64 u32 = (z.setWidth 32).setWidth 64 :=
    and_mask (n := 32) z (by decide)
  set kept := (a * int64 (c >>> 16 : ℕ)).setWidth 16 with kept_def
  have shifted := toInt_setWidth (w := 64) (kept.setWidth 32 <<< 16) (by decide)
  have shiftedBound : (kept.setWidth 32 <<< 16).toNat < 2 ^ 32 := (kept.setWidth 32 <<< 16).isLt
  have result : (a * int64 (c &&& 0xFFFF : ℕ) + (kept.setWidth 32 <<< 16).setWidth 64).setWidth 32 =
      a.setWidth 32 * uint32 c := by
    have keptLow : kept = ((a * int64 (c >>> 16 : ℕ)).setWidth 32).setWidth 16 := by
      rw [BitVec.setWidth_setWidth_of_le _ (by decide)]
    rw [BitVec.setWidth_add _ _ (by decide), BitVec.setWidth_mul _ _ (by decide),
      BitVec.setWidth_setWidth (by decide), BitVec.setWidth_eq, keptLow, low_half_shiftLeft,
      BitVec.setWidth_mul _ _ (by decide), setWidth_int64, setWidth_int64, mul_halves]
  unfold mul32
  simp only [lowEq, highEq, masked, masked32, shiftLeft_half, Option.bind_eq_bind,
    Option.bind_some, ← kept_def, Option.pure_def]
  rw [add_eq_some (by omega) (by omega), Option.bind_some, result]

/-- On an unsigned 32-bit value the split product is the product of the device. -/
theorem mul32_setWidth (x : BitVec 32) {c : ℕ} (held : c < 2 ^ 32) :
    mul32 (x.setWidth 64) c = some ((x * uint32 c).setWidth 64) := by
  have value := toInt_setWidth (w := 64) x (by decide)
  have bound : x.toNat < 2 ^ 32 := x.isLt
  rw [mul32_eq ⟨by omega, by omega⟩ held, BitVec.setWidth_setWidth (by decide), BitVec.setWidth_eq]

theorem mul32_int64 {n : ℤ} (inRange : In32 n) {c : ℕ} (held : c < 2 ^ 32) :
    mul32 (int64 n) c = some ((uint32 n * uint32 c).setWidth 64) := by
  have value : (int64 n).toInt = n := by
    obtain ⟨least, greatest⟩ := inRange
    exact toInt_int64 (by omega) (by omega)
  rw [mul32_eq (by rwa [value]) held, setWidth_int64]

theorem int64_land_u32 (n : ℤ) : int64 (Int.land n u32) = (uint32 n).setWidth 64 := by
  rw [land_u32]
  apply BitVec.eq_of_toNat_eq
  unfold int64 uint32
  rw [BitVec.toNat_setWidth, BitVec.toNat_ofInt, BitVec.toNat_ofInt]
  omega

/-- The two rounds of the reference are the two rounds of the device. -/
theorem rounds_bind {α : Type} (x : BitVec 32) (next : BitVec 64 → Option α) :
    ((mul32 (x.setWidth 64 ^^^ (x.setWidth 64).sshiftRight 16) fmixA).bind fun h =>
      (mul32 (h ^^^ h.sshiftRight 13) fmixB).bind next) =
    next (BitVec.setWidth 64
      (let h := (x ^^^ (x >>> 16)) * uint32 fmixA
       (h ^^^ (h >>> 13)) * uint32 fmixB)) := by
  have heldA : fmixA < 2 ^ 32 := by decide
  have heldB : fmixB < 2 ^ 32 := by decide
  rw [sshiftRight_setWidth x (by decide), ← BitVec.setWidth_xor, mul32_setWidth _ heldA,
    Option.bind_some, sshiftRight_setWidth _ (by decide), ← BitVec.setWidth_xor,
    mul32_setWidth _ heldB, Option.bind_some]

/-- The reference computes the hash of the device, and nothing in it leaves the range. -/
theorem hashRef_eq {seed row col : ℤ} (rowRange : In32 row) (colRange : In32 col) :
    hashRef seed row col = some ((hash seed row col).setWidth 64) := by
  have rowHeld : rowMul < 2 ^ 32 := by decide
  have colHeld : colMul < 2 ^ 32 := by decide
  unfold hashRef hash
  simp only [Option.bind_eq_bind]
  rw [mul32_int64 rowRange rowHeld, int64_land_u32, Option.bind_some, ← BitVec.setWidth_xor,
    rounds_bind]
  generalize uint32 row * uint32 rowMul ^^^ uint32 seed = mixed
  dsimp only
  generalize ((mixed ^^^ mixed >>> 16) * uint32 fmixA ^^^
    ((mixed ^^^ mixed >>> 16) * uint32 fmixA) >>> 13) * uint32 fmixB = rowHash
  rw [mul32_int64 colRange colHeld, Option.bind_some, sshiftRight_setWidth _ (by decide),
    ← BitVec.setWidth_xor, ← BitVec.setWidth_xor]
  generalize rowHash ^^^ rowHash >>> 16 ^^^ uint32 col * uint32 colMul = unitHash
  simpa only [Option.bind_fun_some] using rounds_bind unitHash some

/-- The comparison with a threshold of the unsigned type. -/
theorem threshold_le_iff (h : BitVec 32) {threshold : ℤ} (low : 0 ≤ threshold)
    (high : threshold ≤ u32) : threshold ≤ (h.setWidth 64).toInt ↔ uint32 threshold ≤ h := by
  have value : (uint32 threshold).toNat = threshold := by
    unfold uint32 u32 at *
    rw [BitVec.toNat_ofInt]
    omega
  rw [toInt_setWidth h (by decide), BitVec.le_def]
  omega

/-- The reference decides as the device does. -/
theorem keepScaleRef_eq {α : Type} [Zero α] {seed row col threshold : ℤ} (rowRange : In32 row)
    (colRange : In32 col) (low : 0 ≤ threshold) (high : threshold ≤ u32) (scale : α) :
    keepScaleRef seed row col threshold scale =
      some (keepScale seed row col threshold scale) := by
  unfold keepScaleRef keepScale
  rw [hashRef_eq rowRange colRange, Option.bind_eq_bind, Option.bind_some]
  simp only [threshold_le_iff _ low high, Option.pure_def]

/-- Every threshold of `keep_threshold` is a value of the unsigned type. -/
theorem keepThreshold_bounds {p : ℚ} {threshold : ℤ} (chosen : keepThreshold p = .ok threshold) :
    0 ≤ threshold ∧ threshold ≤ u32 := by
  unfold keepThreshold at chosen
  split at chosen
  · rename_i probability
    cases chosen
    have scaled : 0 ≤ ⌊p * 2 ^ 32⌋ := Int.floor_nonneg.mpr (by linarith [probability.1])
    have rounded : 0 ≤ roundHalfEven (p * 2 ^ 32) := by
      unfold roundHalfEven
      split_ifs <;> omega
    exact ⟨le_min rounded (by decide), min_le_right _ _⟩
  · cases chosen

/-! ### The coordinates of the mask

The coordinate tensor of a tile is built by the epilogue of the matrix multiplication, which
is not part of the program.  Here it is a parameter: `tDcD k` is the row and the column in the
tile of register `k`. -/

/-- What `DropoutSeed.begin` reads of a tile; `cuSeqlensM` is the entry of its expert, where
rows are packed by expert. -/
structure Tile where
  tileM : ℕ
  tileN : ℕ
  pidM : ℕ
  pidN : ℕ
  cuSeqlensM : Option ℕ

namespace Tile

variable (tile : Tile)

/-- The row of the tile's origin. -/
def row0 : ℕ :=
  match tile.cuSeqlensM with
  | none => tile.pidM * tile.tileM
  | some first => tile.pidM * tile.tileM + first

/-- The column of the tile's origin. -/
def col0 : ℕ := tile.pidN * tile.tileN

/-- The row and the column in the whole output of the register at a coordinate of the tile. -/
def element (crd : ℕ × ℕ) : ℕ × ℕ := (tile.row0 + crd.1, tile.col0 + crd.2)

end Tile

/-- Where kernel A evaluates the mask for result `i`. -/
def maskUnitA (tile : Tile) (tDcD : ℕ → ℕ × ℕ) (i : ℕ) : ℕ × ℕ :=
  let crd := tDcD (2 * i)
  (tile.row0 + crd.1, (tile.col0 + crd.2) >>> 1)

/-- Where the backward of kernel Y evaluates the mask for register `i`. -/
def maskUnitYBwd (tile : Tile) (tDcD : ℕ → ℕ × ℕ) (i : ℕ) : ℕ × ℕ :=
  let crd := tDcD i
  (tile.row0 + crd.1, tile.col0 + crd.2)

section

variable {α : Type} [Mul α] [Zero α] (dropoutSeed : Option ℤ) (threshold : ℤ) (scale : α)
  (tile : Tile) (tDcD : ℕ → ℕ × ℕ) (tRS_rD : ℕ → α) (i : ℕ)

/-- `epi_visit_subtile` of kernel A: result `i` of the post-activation -/
def postactA (actFn : α → α → α) : α :=
  let aux := actFn (tRS_rD (2 * i)) (tRS_rD (2 * i + 1))
  match dropoutSeed with
  | none => aux
  | some seed =>
    let unit := maskUnitA tile tDcD i
    aux * keepScale seed unit.1 unit.2 threshold scale

/-- Step 2 of `epi_visit_subtile` of the backward of kernel Y: the gradients of gate and up and
the post-activation of register `i` -/
def dswigluYBwd (tRS_rXY : ℕ → α) (dswiglu : α → α → α → α × α × α) : α × α × α :=
  match dropoutSeed with
  | none => dswiglu (tRS_rXY (2 * i)) (tRS_rXY (2 * i + 1)) (tRS_rD i)
  | some seed =>
    let unit := maskUnitYBwd tile tDcD i
    let d := keepScale seed unit.1 unit.2 threshold scale
    let out := dswiglu (tRS_rXY (2 * i)) (tRS_rXY (2 * i + 1)) (tRS_rD i * d)
    (out.1, out.2.1, out.2.2 * d)

end

/-- The accumulator layout of a gated tile: an even number of columns, and registers in pairs,
an even column and the next one of the same row. -/
structure Gated (tile : Tile) (tDcD : ℕ → ℕ × ℕ) (size : ℕ) : Prop where
  halves : 2 ∣ tile.tileN
  gate : ∀ i, 2 * i + 1 < size → 2 ∣ (tDcD (2 * i)).2
  up : ∀ i, 2 * i + 1 < size → tDcD (2 * i + 1) = ((tDcD (2 * i)).1, (tDcD (2 * i)).2 + 1)

/-- The registers hold the elements of a matrix that the coordinate tensor names. -/
def Holds {α : Type} (tile : Tile) (tDcD : ℕ → ℕ × ℕ) (size : ℕ) (matrix : ℕ × ℕ → α)
    (registers : ℕ → α) : Prop :=
  ∀ k < size, registers k = matrix (tile.element (tDcD k))

variable {tile : Tile} {tDcD : ℕ → ℕ × ℕ} {size : ℕ}

/-- A pair of accumulator registers is gate and up of the unit kernel A masks. -/
theorem maskUnitA_spec (gated : Gated tile tDcD size) {i : ℕ} (held : 2 * i + 1 < size) :
    tile.element (tDcD (2 * i)) =
      ((maskUnitA tile tDcD i).1, 2 * (maskUnitA tile tDcD i).2) ∧
    tile.element (tDcD (2 * i + 1)) =
      ((maskUnitA tile tDcD i).1, 2 * (maskUnitA tile tDcD i).2 + 1) := by
  have even : 2 ∣ tile.col0 + (tDcD (2 * i)).2 :=
    Nat.dvd_add (Dvd.dvd.mul_left gated.halves _) (gated.gate i held)
  have half : 2 * ((tile.col0 + (tDcD (2 * i)).2) >>> 1) = tile.col0 + (tDcD (2 * i)).2 := by
    rw [Nat.shiftRight_one]
    exact Nat.mul_div_cancel' even
  unfold Tile.element maskUnitA
  rw [gated.up i held]
  dsimp only
  rw [half]
  exact ⟨rfl, rfl⟩

/-- The backward of kernel Y masks the element of the register. -/
theorem maskUnitYBwd_eq (tile : Tile) (tDcD : ℕ → ℕ × ℕ) (k : ℕ) :
    maskUnitYBwd tile tDcD k = tile.element (tDcD k) := rfl

/-- The packed pre-activation of a tile of post-activation columns: register `k` comes with gate
and up of its own element. -/
def HoldsPairs {α : Type} (tile : Tile) (tDcD : ℕ → ℕ × ℕ) (size : ℕ) (matrix : ℕ × ℕ → α)
    (registers : ℕ → α) : Prop :=
  ∀ k < size,
    registers (2 * k) =
        matrix ((tile.element (tDcD k)).1, 2 * (tile.element (tDcD k)).2) ∧
      registers (2 * k + 1) =
        matrix ((tile.element (tDcD k)).1, 2 * (tile.element (tDcD k)).2 + 1)

variable {α : Type} [Mul α] [Zero α]

/-- A result of kernel A is the post-activation of a unit, masked at that unit. -/
theorem postactA_eq (gated : Gated tile tDcD size) {preact : ℕ × ℕ → α} {tRS_rD : ℕ → α}
    (holds : Holds tile tDcD size preact tRS_rD) (actFn : α → α → α) (seed threshold : ℤ)
    (scale : α) {i row col : ℕ} (held : 2 * i + 1 < size)
    (unit : maskUnitA tile tDcD i = (row, col)) :
    postactA (some seed) threshold scale tile tDcD tRS_rD i actFn =
      actFn (preact (row, 2 * col)) (preact (row, 2 * col + 1)) *
        keepScale seed row col threshold scale := by
  obtain ⟨gateAt, upAt⟩ := maskUnitA_spec gated held
  unfold postactA
  rw [holds (2 * i) (by omega), holds (2 * i + 1) held, gateAt, upAt, unit]

/-- A step of the backward of kernel Y uses the unit of its register, masked at that unit. -/
theorem dswigluYBwd_eq {preact grad : ℕ × ℕ → α} {tRS_rD tRS_rXY : ℕ → α}
    (holds : Holds tile tDcD size grad tRS_rD) (pairs : HoldsPairs tile tDcD size preact tRS_rXY)
    (dswiglu : α → α → α → α × α × α) (seed threshold : ℤ) (scale : α) {k row col : ℕ}
    (held : k < size) (unit : maskUnitYBwd tile tDcD k = (row, col)) :
    dswigluYBwd (some seed) threshold scale tile tDcD tRS_rD k tRS_rXY dswiglu =
      let d := keepScale seed row col threshold scale
      let out := dswiglu (preact (row, 2 * col)) (preact (row, 2 * col + 1)) (grad (row, col) * d)
      (out.1, out.2.1, out.2.2 * d) := by
  have at_k : tile.element (tDcD k) = (row, col) := unit
  obtain ⟨gateEq, upEq⟩ := pairs k held
  rw [at_k] at gateEq upEq
  unfold dswigluYBwd
  rw [holds k held, gateEq, upEq, at_k, unit]

/-- Expert dropout applies one mask.  The reference and the device agree at every row and column,
and every result of kernel A and every register of the backward of kernel Y uses the mask of the
element it holds. -/
theorem expertDropout_one_mask (seed threshold : ℤ) (scale : α) (low : 0 ≤ threshold)
    (high : threshold ≤ u32) :
    (∀ row col : ℤ, In32 row → In32 col →
      hashRef seed row col = some ((hash seed row col).setWidth 64) ∧
        keepScaleRef seed row col threshold scale =
          some (keepScale seed row col threshold scale)) ∧
    ∀ (fwd bwd : Tile) (fwdCrd bwdCrd : ℕ → ℕ × ℕ) (fwdSize bwdSize : ℕ)
      (preact grad : ℕ × ℕ → α) (accA accY xyY : ℕ → α) (actFn : α → α → α)
      (dswiglu : α → α → α → α × α × α),
      Gated fwd fwdCrd fwdSize → Holds fwd fwdCrd fwdSize preact accA →
      Holds bwd bwdCrd bwdSize grad accY → HoldsPairs bwd bwdCrd bwdSize preact xyY →
      (∀ i, 2 * i + 1 < fwdSize → ∃ row col,
        fwd.element (fwdCrd (2 * i)) = (row, 2 * col) ∧
        fwd.element (fwdCrd (2 * i + 1)) = (row, 2 * col + 1) ∧
        maskUnitA fwd fwdCrd i = (row, col) ∧
        postactA (some seed) threshold scale fwd fwdCrd accA i actFn =
          actFn (preact (row, 2 * col)) (preact (row, 2 * col + 1)) *
            keepScale seed row col threshold scale) ∧
      ∀ k < bwdSize, ∃ row col,
        bwd.element (bwdCrd k) = (row, col) ∧
        maskUnitYBwd bwd bwdCrd k = (row, col) ∧
        dswigluYBwd (some seed) threshold scale bwd bwdCrd accY k xyY dswiglu =
          let d := keepScale seed row col threshold scale
          let out :=
            dswiglu (preact (row, 2 * col)) (preact (row, 2 * col + 1)) (grad (row, col) * d)
          (out.1, out.2.1, out.2.2 * d) := by
  constructor
  · intro row col rowRange colRange
    exact ⟨hashRef_eq rowRange colRange, keepScaleRef_eq rowRange colRange low high scale⟩
  · intro fwd bwd fwdCrd bwdCrd fwdSize bwdSize preact grad accA accY xyY actFn dswiglu gated
      holdsA holdsY pairs
    constructor
    · intro i held
      obtain ⟨gateAt, upAt⟩ := maskUnitA_spec gated held
      exact ⟨_, _, gateAt, upAt, rfl, postactA_eq gated holdsA actFn seed threshold scale held rfl⟩
    · intro k held
      exact ⟨_, _, rfl, rfl, dswigluYBwd_eq holdsY pairs dswiglu seed threshold scale held rfl⟩

/-- A tile with two registers, in its first row. -/
def pairTile : Tile := ⟨1, 2, 0, 3, some 128⟩

theorem pairTile_gated : Gated pairTile (fun k => (0, k)) 2 where
  halves := ⟨1, rfl⟩
  gate := by
    intro i held
    have first : i = 0 := by omega
    subst first
    exact ⟨0, rfl⟩
  up := by
    intro i held
    have first : i = 0 := by omega
    subst first
    rfl

/-- The third tile of an expert that starts at row 128: unit 3 of that row, in both kernels. -/
theorem expertDropout_one_mask_pairTile :
    keepScaleRef 1234 128 3 858993459 (5 : ℤ) =
      some (keepScale 1234 128 3 858993459 (5 : ℤ)) ∧
    ∃ row col, pairTile.element (0, 0) = (row, 2 * col) ∧
      maskUnitA pairTile (fun k => (0, k)) 0 = (row, col) := by
  obtain ⟨agrees, kernels⟩ :=
    expertDropout_one_mask 1234 858993459 (5 : ℤ) (by decide) (by decide)
  obtain ⟨forward, -⟩ := kernels pairTile pairTile (fun k => (0, k)) (fun k => (0, k)) 2 0
    (fun _ => 0) (fun _ => 0) (fun _ => 0) (fun _ => 0) (fun _ => 0) (fun a _ => a)
    (fun a b _ => (a, b, 0)) pairTile_gated (fun _ _ => rfl) (fun _ _ => rfl)
    (fun _ _ => ⟨rfl, rfl⟩)
  obtain ⟨row, col, gateAt, -, unit, -⟩ := forward 0 (by decide)
  exact ⟨(agrees 128 3 (by decide) (by decide)).2, row, col, gateAt, unit⟩

end StreamEP.StreamMoe.ExpertDropout
