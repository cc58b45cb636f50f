import Mathlib.Data.Finset.Card
import StreamEP.Lib.CInt
import StreamEP.Lib.Store
import StreamEP.Routing

/-!
# Compressing a receive pool

With activation checkpoints of level 2 the forward pass keeps one row for each received token
instead of the pool, in which a row repeats in every slot of its token, and the backward pass
expands the rows again.  One kernel does both: its program for a slot and a block of columns
copies from the slot to the row of the slot's token, or the other way.

The programs run concurrently.  Compressing, those of the slots of one token store to the same
addresses, and only because the slots hold the same row does it not matter who is last
(`run_compress`).

**Offsets.**  Rows and columns are multiplied in 32-bit integers, and the wrappers assert that the
number of elements stays below `2 ^ 31`.  A launch covers the columns by blocks of a power of two,
the last of which may reach beyond the row but not beyond the integers (`column_lt`).

**Stores.**  `mem_launchPrograms` says what a whole launch stores, slot by slot and column by
column. What it leaves is a question about a list of stores in any order: every row is stored
to, and only with the row of its token; expanding, every slot is stored to once in each column
(`run_reexpand`), and padding gets zeros.
-/

namespace StreamEP.StreamMoe

open CInt Finset

variable {Val : Type}

/-- A contiguous tensor of two dimensions, by offset from its data pointer. -/
structure RowTensor (Val : Type) where
  rows : ℕ
  cols : ℕ
  data : ℤ → Val

/-- `pool_recv_token` -/
structure SlotTokens where
  size : ℕ
  token : ℕ → ℤ

/-- `_INT32_MAX` -/
def int32Max : ℕ := 2 ^ 31

/-! ### The kernel -/

/-- A store of a kernel to the tensor at `out_ptr`. -/
abbrev RowStore (Val : Type) : Type := Store.Write fun _ : ℤ => Val

section Kernel

variable [Zero Val] (gather : Bool) (inp : ℤ → Val) (idx : ℕ → ℤ) (H : ℕ)

/-- What a program for slot `row` does at column `h`. -/
def copyElement (row : ℕ) (h : ℤ) : Option (RowStore Val) :=
  let hmask := h < H
  let tok := idx row
  let valid := 0 ≤ tok
  let tokc := max tok 0
  if gather = true then
    let v := if hmask ∧ valid then inp (wrap32 (tokc * H + h)) else 0
    if hmask then some ⟨wrap32 (row * H + h), v⟩ else none
  else
    let v := inp (wrap32 (row * H + h))
    if hmask ∧ valid then some ⟨wrap32 (tokc * H + h), v⟩ else none

/-- One program of `_index_copy_rows`. -/
def indexCopyRows (blockH row block : ℕ) : List (RowStore Val) :=
  (List.range blockH).filterMap fun lane =>
    copyElement gather inp idx H row (wrap32 (block * blockH + lane : ℕ))

/-- All programs of a launch with a grid of slots and column blocks. -/
def launchPrograms (tkPadded blockH : ℕ) : List (RowStore Val) :=
  (List.range tkPadded).flatMap fun row =>
    (List.range (ceilDiv H blockH)).flatMap (indexCopyRows gather inp idx H blockH row)

end Kernel

/-- The assertions of `_check`, and what it returns. -/
def check (pool xRecv : RowTensor Val) (poolRecvToken : SlotTokens) : Option (ℕ × ℕ) :=
  if poolRecvToken.size = pool.rows ∧ xRecv.cols = pool.cols ∧
      pool.rows * pool.cols < int32Max then some (pool.rows, pool.cols)
  else none

section Wrappers

variable [Zero Val]

/-- The stores to `out`. -/
def compressPoolToRecv (pool : RowTensor Val) (poolRecvToken : SlotTokens)
    (out : RowTensor Val) (blockH : ℕ) : Option (List (RowStore Val)) :=
  (check pool out poolRecvToken).map fun (tkPadded, H) =>
    launchPrograms false pool.data poolRecvToken.token H tkPadded blockH

/-- The stores to `out`. -/
def reexpandRecvToPool (xRecv : RowTensor Val) (poolRecvToken : SlotTokens)
    (out : RowTensor Val) (blockH : ℕ) : Option (List (RowStore Val)) :=
  (check out xRecv poolRecvToken).map fun (tkPadded, H) =>
    launchPrograms true xRecv.data poolRecvToken.token H tkPadded blockH

end Wrappers

/-- A tensor after the stores of a launch. -/
def RowTensor.after (t : RowTensor Val) (ws : List (RowStore Val)) : RowTensor Val :=
  { t with data := Store.run ws t.data }

/-! ### The columns of a launch -/

section Launch

variable [Zero Val] {gather : Bool} {inp : ℤ → Val} {idx : ℕ → ℤ} {H tkPadded blockH : ℕ}

/-- Blocks of a power of two columns do not reach beyond the integers of 32 bits. -/
theorem column_lt (dvd : blockH ∣ 2 ^ 31) (small : H ≤ 2 ^ 31) {block lane : ℕ}
    (hblock : block < ceilDiv H blockH) (hlane : lane < blockH) :
    block * blockH + lane < 2 ^ 31 := by
  obtain ⟨q, whole⟩ := dvd
  have pos : 0 < blockH := Nat.zero_lt_of_lt hlane
  have blocks : ceilDiv H blockH ≤ q := by
    have bound := ceilDiv_mul_lt pos H
    rw [whole, Nat.mul_comm blockH] at small
    have lt : ceilDiv H blockH * blockH < (q + 1) * blockH := by
      rw [Nat.succ_mul]
      omega
    exact Nat.lt_succ_iff.1 (Nat.lt_of_mul_lt_mul_right lt)
  rw [whole, Nat.mul_comm blockH]
  exact PrefixSum.flat_lt (hblock.trans_le blocks) hlane

/-- Together the programs of a launch go over all slots and columns. -/
theorem mem_launchPrograms (dvd : blockH ∣ 2 ^ 31) (small : H ≤ 2 ^ 31) {w : RowStore Val} :
    w ∈ launchPrograms gather inp idx H tkPadded blockH ↔
      ∃ row < tkPadded, ∃ h < H, copyElement gather inp idx H row (h : ℕ) = some w := by
  have pos : 0 < blockH := Nat.pos_of_dvd_of_pos dvd (by decide)
  simp only [launchPrograms, indexCopyRows, List.mem_flatMap, List.mem_filterMap, List.mem_range]
  constructor
  · rintro ⟨row, hrow, block, hblock, lane, hlane, stored⟩
    rw [wrap32_of_lt (column_lt dvd small hblock hlane)] at stored
    refine ⟨row, hrow, _, ?_, stored⟩
    by_contra outside
    have masked : ¬((block * blockH + lane : ℕ) : ℤ) < H := by omega
    simp only [copyElement, masked, false_and, if_false, ite_self, reduceCtorEq] at stored
  · rintro ⟨row, hrow, h, hh, stored⟩
    have inside : h / blockH < ceilDiv H blockH := by
      rw [Nat.div_lt_iff_lt_mul pos]
      exact hh.trans_le (le_ceilDiv_mul pos H)
    have lane := Nat.mod_lt h pos
    refine ⟨row, hrow, h / blockH, inside, h % blockH, lane, ?_⟩
    rw [wrap32_of_lt (column_lt dvd small inside lane), Nat.div_add_mod']
    exact stored

/-- Compressing, a slot of token `r` is copied to row `r`. -/
theorem copyElement_compress {row r h : ℕ} (hh : h < H) (token : idx row = (r : ℕ))
    (from_lt : row * H + h < 2 ^ 31) (to_lt : r * H + h < 2 ^ 31) :
    copyElement false inp idx H row (h : ℕ) =
      some ⟨((r * H + h : ℕ) : ℤ), inp ((row * H + h : ℕ) : ℤ)⟩ := by
  have source : wrap32 ((row : ℤ) * H + h) = ((row * H + h : ℕ) : ℤ) := by
    rw [← wrap32_of_lt from_lt]
    push_cast
    rfl
  have target : wrap32 ((r : ℤ) * H + h) = ((r * H + h : ℕ) : ℤ) := by
    rw [← wrap32_of_lt to_lt]
    push_cast
    rfl
  have masked : (h : ℤ) < H ∧ (0 : ℤ) ≤ r := ⟨by omega, by omega⟩
  dsimp only [copyElement]
  rw [if_neg Bool.false_ne_true, token, if_pos masked, max_eq_left masked.2, source, target]

/-- A padding slot is skipped. -/
theorem copyElement_compress_padding {row : ℕ} {h : ℤ} (padding : idx row < 0) :
    copyElement false inp idx H row h = none := by
  dsimp only [copyElement]
  rw [if_neg Bool.false_ne_true, if_neg fun masked => absurd masked.2 (not_le.2 padding)]

/-- Expanding, row `r` is copied to every slot of token `r`, -/
theorem copyElement_reexpand {row r h : ℕ} (hh : h < H) (token : idx row = (r : ℕ))
    (from_lt : r * H + h < 2 ^ 31) (to_lt : row * H + h < 2 ^ 31) :
    copyElement true inp idx H row (h : ℕ) =
      some ⟨((row * H + h : ℕ) : ℤ), inp ((r * H + h : ℕ) : ℤ)⟩ := by
  have source : wrap32 ((r : ℤ) * H + h) = ((r * H + h : ℕ) : ℤ) := by
    rw [← wrap32_of_lt from_lt]
    push_cast
    rfl
  have target : wrap32 ((row : ℤ) * H + h) = ((row * H + h : ℕ) : ℤ) := by
    rw [← wrap32_of_lt to_lt]
    push_cast
    rfl
  have inside : (h : ℤ) < H := by omega
  have valid : (0 : ℤ) ≤ r := by omega
  dsimp only [copyElement]
  rw [if_pos rfl, token, if_pos inside, if_pos ⟨inside, valid⟩, max_eq_left valid, source, target]

/-- and zero to a padding slot. -/
theorem copyElement_reexpand_padding {row h : ℕ} (hh : h < H) (padding : idx row < 0)
    (to_lt : row * H + h < 2 ^ 31) :
    copyElement true inp idx H row (h : ℕ) = some ⟨((row * H + h : ℕ) : ℤ), 0⟩ := by
  have target : wrap32 ((row : ℤ) * H + h) = ((row * H + h : ℕ) : ℤ) := by
    rw [← wrap32_of_lt to_lt]
    push_cast
    rfl
  have inside : (h : ℤ) < H := by omega
  dsimp only [copyElement]
  rw [if_pos rfl, if_pos inside, if_neg fun masked => absurd masked.2 (not_le.2 padding), target]

end Launch

/-! ### The round trip -/

/-- What the round trip needs of a pool: its slots hold the rows of tokens, and every token
has a slot. -/
structure RecvPool (pool : RowTensor Val) (poolRecvToken : SlotTokens) (tRecv : ℕ)
    (x : ℕ → ℕ → Val) : Prop where
  size : poolRecvToken.size = pool.rows
  small : pool.rows * pool.cols < int32Max
  token_lt : ∀ s < pool.rows, poolRecvToken.token s < tRecv
  covered : ∀ r < tRecv, ∃ s < pool.rows, poolRecvToken.token s = r
  copies : ∀ s < pool.rows, ∀ r < tRecv, poolRecvToken.token s = (r : ℕ) → ∀ h < pool.cols,
    pool.data ((s * pool.cols + h : ℕ) : ℤ) = x r h

namespace RecvPool

variable {pool : RowTensor Val} {poolRecvToken : SlotTokens} {tRecv : ℕ} {x : ℕ → ℕ → Val}
  (recvPool : RecvPool pool poolRecvToken tRecv x)

include recvPool

/-- There are no more tokens than slots, so what `_check` asserts of the pool holds of the
compressed rows as well. -/
theorem tRecv_le : tRecv ≤ pool.rows := by
  have covers : Set.SurjOn (fun s => (poolRecvToken.token s).toNat)
      (range pool.rows : Set ℕ) (range tRecv : Set ℕ) := by
    intro r hr
    obtain ⟨s, hs, token⟩ := recvPool.covered r (mem_range.1 hr)
    refine ⟨s, mem_coe.2 (mem_range.2 hs), ?_⟩
    show (poolRecvToken.token s).toNat = r
    rw [token, Int.toNat_natCast]
  have cards := card_le_card_of_surjOn _ covers
  rwa [card_range, card_range] at cards

theorem slot_lt {s h : ℕ} (hs : s < pool.rows) (hh : h < pool.cols) :
    s * pool.cols + h < 2 ^ 31 :=
  (PrefixSum.flat_lt hs hh).trans recvPool.small

theorem row_lt {r h : ℕ} (hr : r < tRecv) (hh : h < pool.cols) : r * pool.cols + h < 2 ^ 31 :=
  recvPool.slot_lt (hr.trans_le recvPool.tRecv_le) hh

/-- Tokens of slots are padding or received tokens. -/
theorem token_cases {s : ℕ} (hs : s < pool.rows) :
    poolRecvToken.token s < 0 ∨ ∃ r < tRecv, poolRecvToken.token s = (r : ℕ) := by
  rcases lt_or_ge (poolRecvToken.token s) 0 with padding | valid
  · exact Or.inl padding
  · obtain ⟨r, token⟩ := Int.eq_ofNat_of_zero_le valid
    have below := recvPool.token_lt s hs
    exact Or.inr ⟨r, by omega, token⟩

theorem cols_le {s : ℕ} (hs : s < pool.rows) : pool.cols ≤ 2 ^ 31 :=
  (Nat.le_mul_of_pos_left _ (Nat.zero_lt_of_lt hs)).trans recvPool.small.le

variable [Zero Val] {blockH : ℕ} (dvd : blockH ∣ 2 ^ 31) {ws : List (RowStore Val)}

include dvd

/-- **Whoever is last stores the same**: every row is stored to, and only with the row of its
token. -/
theorem run_compress (all : ws.Perm (launchPrograms false pool.data poolRecvToken.token
      pool.cols pool.rows blockH)) (m : ℤ → Val) {r h : ℕ} (hr : r < tRecv)
    (hh : h < pool.cols) :
    (∃ v, (⟨((r * pool.cols + h : ℕ) : ℤ), v⟩ : RowStore Val) ∈ ws) ∧
      Store.run ws m ((r * pool.cols + h : ℕ) : ℤ) = x r h := by
  obtain ⟨s, hs, token⟩ := recvPool.covered r hr
  have small := recvPool.cols_le hs
  have stored : (⟨((r * pool.cols + h : ℕ) : ℤ), x r h⟩ : RowStore Val) ∈ ws := by
    refine all.mem_iff.2 ((mem_launchPrograms dvd small).2 ⟨s, hs, h, hh, ?_⟩)
    rw [copyElement_compress hh token (recvPool.slot_lt hs hh) (recvPool.row_lt hr hh),
      recvPool.copies s hs r hr token h hh]
  refine ⟨⟨_, stored⟩, Store.run_of_agree stored ?_ m⟩
  intro w mem same
  obtain ⟨s', hs', h', hh', copied⟩ := (mem_launchPrograms dvd small).1 (all.mem_iff.1 mem)
  rcases recvPool.token_cases hs' with padding | ⟨r', hr', token'⟩
  · rw [copyElement_compress_padding padding] at copied
    cases copied
  · rw [copyElement_compress hh' token' (recvPool.slot_lt hs' hh') (recvPool.row_lt hr' hh'),
      recvPool.copies s' hs' r' hr' token' h' hh'] at copied
    cases copied
    -- the address determines the token and the column
    obtain ⟨rfl, rfl⟩ := (PrefixSum.flat_inj hh' hh).1 (Int.ofNat_inj.1 same)
    rfl

/-- Expanding, every slot is stored to once in each column. -/
theorem run_reexpand {inp : ℤ → Val} (all : ws.Perm (launchPrograms true inp
      poolRecvToken.token pool.cols pool.rows blockH)) (m : ℤ → Val) {s h : ℕ}
    (hs : s < pool.rows) (hh : h < pool.cols) :
    Store.run ws m ((s * pool.cols + h : ℕ) : ℤ) =
      if poolRecvToken.token s < 0 then 0
      else inp (((poolRecvToken.token s).toNat * pool.cols + h : ℕ) : ℤ) := by
  have small := recvPool.cols_le hs
  have copied : ∀ s' < pool.rows, ∀ h' < pool.cols,
      copyElement true inp poolRecvToken.token pool.cols s' (h' : ℕ) =
        some ⟨((s' * pool.cols + h' : ℕ) : ℤ), if poolRecvToken.token s' < 0 then 0
          else inp (((poolRecvToken.token s').toNat * pool.cols + h' : ℕ) : ℤ)⟩ := by
    intro s' hs' h' hh'
    rcases recvPool.token_cases hs' with padding | ⟨r, hr, token⟩
    · rw [copyElement_reexpand_padding hh' padding (recvPool.slot_lt hs' hh'), if_pos padding]
    · rw [copyElement_reexpand hh' token (recvPool.row_lt hr hh') (recvPool.slot_lt hs' hh'),
        token, if_neg (by omega), Int.toNat_natCast]
  refine Store.run_of_agree
    (all.mem_iff.2 ((mem_launchPrograms dvd small).2 ⟨s, hs, h, hh, copied s hs h hh⟩)) ?_ m
  intro w mem same
  obtain ⟨s', hs', h', hh', stored⟩ := (mem_launchPrograms dvd small).1 (all.mem_iff.1 mem)
  rw [copied s' hs' h' hh'] at stored
  cases stored
  obtain ⟨rfl, rfl⟩ := (PrefixSum.flat_inj hh' hh).1 (Int.ofNat_inj.1 same)
  rfl

end RecvPool

/-- Compressing writes every row `x r` of a received token, expanding gives back every slot
that is `real` and zero elsewhere, in whatever order the programs of the two launches run. -/
def RoundTrips [Zero Val] (pool : RowTensor Val) (poolRecvToken : SlotTokens) (tRecv : ℕ)
    (x : ℕ → ℕ → Val) (real : ℕ → Prop) (blockH : ℕ) : Prop :=
  ∀ xRecv : RowTensor Val, xRecv.rows = tRecv → xRecv.cols = pool.cols →
    ∃ programs, compressPoolToRecv pool poolRecvToken xRecv blockH = some programs ∧
      ∀ ws, ws.Perm programs →
        (∀ r < tRecv, ∀ h < pool.cols,
          (∃ v, (⟨((r * pool.cols + h : ℕ) : ℤ), v⟩ : RowStore Val) ∈ ws) ∧
            (xRecv.after ws).data ((r * pool.cols + h : ℕ) : ℤ) = x r h) ∧
        ∀ out : RowTensor Val, out.rows = pool.rows → out.cols = pool.cols →
          ∃ programs', reexpandRecvToPool (xRecv.after ws) poolRecvToken out blockH =
              some programs' ∧
            ∀ ws', ws'.Perm programs' → ∀ s < pool.rows, ∀ h < pool.cols,
              (real s → (out.after ws').data ((s * pool.cols + h : ℕ) : ℤ) =
                pool.data ((s * pool.cols + h : ℕ) : ℤ)) ∧
              (¬real s → (out.after ws').data ((s * pool.cols + h : ℕ) : ℤ) = 0)

theorem RecvPool.roundTrips [Zero Val] {pool : RowTensor Val} {poolRecvToken : SlotTokens}
    {tRecv blockH : ℕ} {x : ℕ → ℕ → Val} {real : ℕ → Prop}
    (recvPool : RecvPool pool poolRecvToken tRecv x) (dvd : blockH ∣ 2 ^ 31)
    (real_iff : ∀ s < pool.rows, real s ↔ 0 ≤ poolRecvToken.token s) :
    RoundTrips pool poolRecvToken tRecv x real blockH := by
  intro xRecv rows cols
  have checked : check pool xRecv poolRecvToken = some (pool.rows, pool.cols) :=
    if_pos ⟨recvPool.size, cols, recvPool.small⟩
  refine ⟨_, by rw [compressPoolToRecv, checked]; rfl, ?_⟩
  intro ws all
  have compressed := fun {r h : ℕ} (hr : r < tRecv) (hh : h < pool.cols) =>
    recvPool.run_compress dvd all xRecv.data hr hh
  refine ⟨fun r hr h hh => compressed hr hh, ?_⟩
  intro out outRows outCols
  have checked' : check out (xRecv.after ws) poolRecvToken = some (pool.rows, pool.cols) := by
    rw [check, outRows, outCols]
    exact if_pos ⟨recvPool.size, cols, recvPool.small⟩
  refine ⟨_, by rw [reexpandRecvToPool, checked']; rfl, ?_⟩
  intro ws' all' s hs h hh
  have expanded := recvPool.run_reexpand dvd all' out.data hs hh
  constructor
  · intro realSlot
    have valid := (real_iff s hs).1 realSlot
    rcases recvPool.token_cases hs with padding | ⟨r, hr, token⟩
    · exact absurd valid (not_le.2 padding)
    · rw [token, if_neg (by omega), Int.toNat_natCast] at expanded
      rw [recvPool.copies s hs r hr token h hh, ← (compressed hr hh).2]
      exact expanded
  · intro padding
    rw [if_pos (not_le.1 fun valid => padding ((real_iff s hs).2 valid))] at expanded
    exact expanded

end StreamEP.StreamMoe
