import Mathlib.Algebra.Order.Ring.Int
import Mathlib.Data.Nat.Prime.Basic
import Mathlib.Tactic.Linarith

/-!
# Default tile configurations

`default_tile_config` picks the tile sizes of the four output GEMMs from the weight shapes:
a tuned size where it divides the output, otherwise the largest power of two that does, up to
a cap.  `TileConfig.validate` checks divisibility on its own.

The defaults always pass that check.  The other rule, that a tile has a multiple of 16
columns, is about the power-of-two part of the sizes: `default_legal_iff`.

Sizes are integers, as the functions take them, so the remainders are those of Python, and a
division by zero is an error (`PyError`).  `TileOf` is what is common to all the tiles that are
picked: a tile divides its size, and is as even as the size is, up to 16.  Each `pick` gives one,
the tuned size because it is a multiple of 16, and the power of two because it is the largest
(`tileOf_pick`); `tile_n_a` has to divide two sizes, and needs an argument of its own
(`tileOf_pickTileNA`).
-/

namespace StreamEP.StreamMoe

/-- What the functions raise. -/
inductive PyError where
  | zeroDivisionError
  | valueError (message : String)
  deriving DecidableEq

/-- `n % d` -/
def pyMod (n d : ℤ) : Except PyError ℤ :=
  if d = 0 then .error .zeroDivisionError else .ok (n.fmod d)

/-- The loop of `_largest_pow2_divisor` from `t` on. -/
def halveUntilDivides (x : ℤ) : ℕ → ℕ → ℕ
  | 0, t => t
  | fuel + 1, t => if 1 < t ∧ x.fmod t ≠ 0 then halveUntilDivides x fuel (t / 2) else t

/-- `_largest_pow2_divisor`; halving `cap` that often would reach zero. -/
def largestPow2Divisor (x : ℤ) (cap : ℕ) : ℕ := halveUntilDivides x cap cap

/-- `TileConfig` -/
structure TileConfig where
  tileM : Option ℤ
  tileNA : Option ℤ
  tileNY : Option ℤ
  tileNYBwd : Option ℤ
  tileNABwd : Option ℤ
  tileMDW1 : Option ℤ
  tileNDW1 : Option ℤ
  tileMDW2 : Option ℤ
  tileNDW2 : Option ℤ
  clusterMDW1 : Option ℤ
  clusterNDW1 : Option ℤ
  clusterMDW2 : Option ℤ
  clusterNDW2 : Option ℤ
  pingpongDW1 : Option Bool
  pingpongDW2 : Option Bool
  swizzleDW1 : Option ℤ
  swizzleDW2 : Option ℤ
  numSmsA : Option ℤ
  numSmsY : Option ℤ
  numSmsABwd : Option ℤ
  numSmsYBwd : Option ℤ
  deriving DecidableEq

/-! ### `TileConfig.validate` -/

/-- Whether a size leaves a rest in one of the dimensions; the first rest ends the search. -/
def leavesRest (v : ℤ) : List ℤ → Except PyError Bool
  | [] => .ok false
  | n :: ns => do if (← pyMod n v) ≠ 0 then return true else leavesRest v ns

/-- The check of one output tile. -/
def checkTileN (tile : Option ℤ) (dims : List ℤ) (message : ℤ → String) :
    Except PyError (List String) :=
  match tile with
  | none => .ok []
  | some v => do if ← leavesRest v dims then return [message v] else return []

namespace TileConfig

variable (self : TileConfig) (I H : ℤ)

/-- `over`: the tiles that `tile_m=192` does not allow. -/
def overTiles : List String :=
  [("tile_n_a", self.tileNA), ("tile_n_y", self.tileNY), ("tile_n_y_bwd", self.tileNYBwd),
    ("tile_n_a_bwd", self.tileNABwd), ("tile_n_dW1", self.tileNDW1),
    ("tile_n_dW2", self.tileNDW2)].filterMap fun (name, v) =>
      match v with
      | none => none
      | some v => if v > 128 then some (name ++ "=" ++ toString v) else none

/-- The errors of `tile_m`. -/
def tileMErrors : List String :=
  if self.tileM = some 320 then
    ["tile_m=320 forces quack atom_layout_n=2 unconditionally; the " ++
      "streaming backward GEMMs (kernel_y_bwd / kernel_a_bwd) cannot " ++
      "codegen the N-split. Use tile_m in \x7b64, 128, 256\x7d."]
  else if self.tileM = some 192 then
    if self.overTiles = [] then []
    else
      ["tile_m=192 requires every tile_n <= 128 (else quack " ++
        "atom_layout_n=2, which the streaming backward GEMMs cannot " ++
        "codegen); tile_n > 128: " ++ ", ".intercalate self.overTiles]
  else []

/-- `validate` -/
def validate : Except PyError Unit := do
  let a ← checkTileN self.tileNA [2 * I, I] fun v =>
    "tile_n_a=" ++ toString v ++ " must divide both 2*I=" ++ toString (2 * I) ++ " and " ++
      "I=" ++ toString I ++ " (fwd kernel A out N=2I; kernel_a also asserts " ++
      "I % tile_n_a == 0)"
  let y ← checkTileN self.tileNY [H] fun v =>
    "tile_n_y=" ++ toString v ++ " must divide H=" ++ toString H ++ " (fwd kernel Y out N=H)"
  let yBwd ← checkTileN self.tileNYBwd [I] fun v =>
    "tile_n_y_bwd=" ++ toString v ++ " must divide I=" ++ toString I ++ " (bwd kernel Y out N=I)"
  let aBwd ← checkTileN self.tileNABwd [H] fun v =>
    "tile_n_a_bwd=" ++ toString v ++ " must divide H=" ++ toString H ++ " (bwd kernel A out N=H)"
  let errs := self.tileMErrors ++ a ++ y ++ yBwd ++ aBwd
  if errs = [] then return ()
  else throw (.valueError ("TileConfig invalid for (I=" ++ toString I ++ ", H=" ++ toString H ++
    "): " ++ "; ".intercalate errs))

end TileConfig

/-! ### The defaults -/

/-- `pick` -/
def pick (default : ℕ) (constraint : ℤ) (cap : ℕ) : ℕ :=
  if constraint.fmod default = 0 then default else largestPow2Divisor constraint cap

/-- `tile_n_a`, which also has to divide `I`. -/
def pickTileNA (I : ℤ) : ℕ :=
  let tileNA := pick 192 (2 * I) 256
  if I.fmod tileNA ≠ 0 then largestPow2Divisor I 256 else tileNA

/-- `default_tile_config` -/
def defaultTileConfig (I H : ℤ) : TileConfig where
  tileM := some 128
  tileNA := some (pickTileNA I)
  tileNY := some (pick 256 H 256)
  tileNYBwd := some (pick 192 I 128)
  tileNABwd := some (pick 256 H 256)
  tileMDW1 := none
  tileNDW1 := some 256
  tileMDW2 := none
  tileNDW2 := none
  clusterMDW1 := some 2
  clusterNDW1 := some 2
  clusterMDW2 := some 1
  clusterNDW2 := some 1
  pingpongDW1 := some false
  pingpongDW2 := some false
  swizzleDW1 := some 8
  swizzleDW2 := some 8
  numSmsA := none
  numSmsY := none
  numSmsABwd := none
  numSmsYBwd := none

/-- `replace(cfg, **overrides)` with the fields of a caller's config that are not `None`. -/
def TileConfig.overlay (o cfg : TileConfig) : TileConfig where
  tileM := o.tileM <|> cfg.tileM
  tileNA := o.tileNA <|> cfg.tileNA
  tileNY := o.tileNY <|> cfg.tileNY
  tileNYBwd := o.tileNYBwd <|> cfg.tileNYBwd
  tileNABwd := o.tileNABwd <|> cfg.tileNABwd
  tileMDW1 := o.tileMDW1 <|> cfg.tileMDW1
  tileNDW1 := o.tileNDW1 <|> cfg.tileNDW1
  tileMDW2 := o.tileMDW2 <|> cfg.tileMDW2
  tileNDW2 := o.tileNDW2 <|> cfg.tileNDW2
  clusterMDW1 := o.clusterMDW1 <|> cfg.clusterMDW1
  clusterNDW1 := o.clusterNDW1 <|> cfg.clusterNDW1
  clusterMDW2 := o.clusterMDW2 <|> cfg.clusterMDW2
  clusterNDW2 := o.clusterNDW2 <|> cfg.clusterNDW2
  pingpongDW1 := o.pingpongDW1 <|> cfg.pingpongDW1
  pingpongDW2 := o.pingpongDW2 <|> cfg.pingpongDW2
  swizzleDW1 := o.swizzleDW1 <|> cfg.swizzleDW1
  swizzleDW2 := o.swizzleDW2 <|> cfg.swizzleDW2
  numSmsA := o.numSmsA <|> cfg.numSmsA
  numSmsY := o.numSmsY <|> cfg.numSmsY
  numSmsABwd := o.numSmsABwd <|> cfg.numSmsABwd
  numSmsYBwd := o.numSmsYBwd <|> cfg.numSmsYBwd

/-- `_resolve_tile_config` -/
def resolveTileConfig (tileConfig : Option TileConfig) (I H : ℤ) : Except PyError TileConfig := do
  let cfg := match tileConfig with
    | none => defaultTileConfig I H
    | some o => o.overlay (defaultTileConfig I H)
  cfg.validate I H
  return cfg

/-! ### What `validate` accepts -/

theorem leavesRest_eq_false_iff {v : ℤ} {dims : List ℤ} (some : dims ≠ []) :
    leavesRest v dims = .ok false ↔ v ≠ 0 ∧ ∀ n ∈ dims, v ∣ n := by
  induction dims with
  | nil => exact absurd rfl some
  | cons n ns ih =>
      by_cases zero : v = 0
      · simp [leavesRest, pyMod, zero, bind, Except.bind]
      · by_cases rest : n.fmod v = 0
        · have divides : v ∣ n := Int.dvd_of_fmod_eq_zero rest
          have tail : leavesRest v (n :: ns) = leavesRest v ns := by
            simp [leavesRest, pyMod, zero, rest, bind, Except.bind]
          rw [tail]
          cases ns with
          | nil => simp [leavesRest, zero, divides]
          | cons n' ns =>
              rw [ih (List.cons_ne_nil _ _)]
              constructor
              · rintro ⟨nonzero, all⟩
                exact ⟨nonzero, List.forall_mem_cons.2 ⟨divides, all⟩⟩
              · rintro ⟨nonzero, all⟩
                exact ⟨nonzero, (List.forall_mem_cons.1 all).2⟩
        · have divides : ¬ v ∣ n := fun d => rest (Int.fmod_eq_zero_of_dvd d)
          simp [leavesRest, pyMod, zero, rest, divides, bind, Except.bind, pure, Except.pure]

/-- A tile that divides its dimensions passes. -/
theorem checkTileN_of_dvd {v : ℤ} {dims : List ℤ} (message : ℤ → String) (some : dims ≠ [])
    (nonzero : v ≠ 0) (divides : ∀ n ∈ dims, v ∣ n) :
    checkTileN (.some v) dims message = .ok [] := by
  have none := (leavesRest_eq_false_iff some).2 ⟨nonzero, divides⟩
  simp [checkTileN, none, bind, Except.bind, pure, Except.pure]

/-! ### Powers of two -/

/-- `t` is the greatest of the powers of two up to `2 ^ k` that divide `x`. -/
def IsLargestPow2 (x : ℤ) (k t : ℕ) : Prop :=
  ∃ j ≤ k, t = 2 ^ j ∧ (2 ^ j : ℤ) ∣ x ∧ ∀ i ≤ k, (2 ^ i : ℤ) ∣ x → i ≤ j

theorem halveUntilDivides_spec (x : ℤ) {k fuel : ℕ} (enough : k ≤ fuel) :
    IsLargestPow2 x k (halveUntilDivides x fuel (2 ^ k)) := by
  induction k generalizing fuel with
  | zero =>
      refine ⟨0, le_rfl, ?_, by simp, fun i hi _ => hi⟩
      cases fuel <;> simp [halveUntilDivides]
  | succ k ih =>
      have left : fuel ≠ 0 := by omega
      obtain ⟨fuel, rfl⟩ := Nat.exists_eq_succ_of_ne_zero left
      have cast : ((2 ^ (k + 1) : ℕ) : ℤ) = 2 ^ (k + 1) := by push_cast; rfl
      have half : 2 ^ (k + 1) / 2 = 2 ^ k := by rw [pow_succ, Nat.mul_div_cancel _ Nat.two_pos]
      rw [halveUntilDivides]
      by_cases divides : (2 ^ (k + 1) : ℤ) ∣ x
      · rw [if_neg (by rw [cast, Int.fmod_eq_zero_of_dvd divides]; simp)]
        exact ⟨k + 1, le_rfl, rfl, divides, fun i hi _ => hi⟩
      · have rest : x.fmod ((2 ^ (k + 1) : ℕ) : ℤ) ≠ 0 := by
          rw [cast]
          exact fun none => divides (Int.dvd_of_fmod_eq_zero none)
        rw [if_pos ⟨Nat.one_lt_two_pow (Nat.succ_ne_zero k), rest⟩, half]
        obtain ⟨j, hj, value, dvd, greatest⟩ := @ih fuel (by omega)
        refine ⟨j, hj.trans (Nat.le_succ k), value, dvd, fun i hi here => ?_⟩
        rcases Nat.lt_succ_iff_lt_or_eq.1 (Nat.lt_succ_of_le hi) with less | rfl
        · exact greatest i (by omega) here
        · exact absurd here divides

theorem largestPow2Divisor_spec (x : ℤ) (k : ℕ) :
    IsLargestPow2 x k (largestPow2Divisor x (2 ^ k)) :=
  halveUntilDivides_spec x Nat.lt_two_pow_self.le

/-! ### Tiles that are picked -/

/-- A tile that divides a size, and is as even as the size is, up to 16. -/
structure TileOf (x : ℤ) (t : ℕ) : Prop where
  pos : 0 < t
  dvd : (t : ℤ) ∣ x
  le : t ≤ 256
  sixteen_dvd_iff : (16 : ℤ) ∣ t ↔ (16 : ℤ) ∣ x

theorem tileOf_largestPow2 {x : ℤ} {k t : ℕ} (largest : IsLargestPow2 x k t) (low : 4 ≤ k)
    (high : k ≤ 8) : TileOf x t := by
  obtain ⟨j, hj, rfl, dvd, greatest⟩ := largest
  refine ⟨Nat.two_pow_pos j, by exact_mod_cast dvd,
    Nat.pow_le_pow_right Nat.two_pos (hj.trans high), fun even => ?_, fun even => ?_⟩
  · exact even.trans (by exact_mod_cast dvd)
  · have four : 4 ≤ j := greatest 4 low (by simpa using even)
    exact_mod_cast pow_dvd_pow 2 four

theorem tileOf_multiple {x : ℤ} {t : ℕ} (pos : 0 < t) (even : 16 ∣ t) (le : t ≤ 256)
    (dvd : (t : ℤ) ∣ x) : TileOf x t := by
  have even : (16 : ℤ) ∣ t := by exact_mod_cast even
  exact ⟨pos, dvd, le, fun _ => even.trans dvd, fun _ => even⟩

theorem pick_eq (default : ℕ) (x : ℤ) (cap : ℕ) :
    ((default : ℤ) ∣ x ∧ pick default x cap = default) ∨
      pick default x cap = largestPow2Divisor x cap := by
  rw [pick]
  split_ifs with rest
  · exact .inl ⟨Int.dvd_of_fmod_eq_zero rest, rfl⟩
  · exact .inr rfl

theorem tileOf_pick {default k : ℕ} (x : ℤ) (pos : 0 < default) (even : 16 ∣ default)
    (le : default ≤ 256) (low : 4 ≤ k) (high : k ≤ 8) : TileOf x (pick default x (2 ^ k)) := by
  rcases pick_eq default x (2 ^ k) with ⟨dvd, picked⟩ | picked
  · rw [picked]
    exact tileOf_multiple pos even le dvd
  · rw [picked]
    exact tileOf_largestPow2 (largestPow2Divisor_spec x k) low high

/-- Twice the size has more room for powers of two, but a tile of it that divides the size is
a tile of the size. -/
theorem tileOf_pickTileNA (I : ℤ) : TileOf I (pickTileNA I) := by
  rw [pickTileNA]
  split_ifs with rest
  · exact tileOf_largestPow2 (largestPow2Divisor_spec I 8) (by decide) le_rfl
  · have dvd : ((pick 192 (2 * I) 256 : ℕ) : ℤ) ∣ I :=
      Int.dvd_of_fmod_eq_zero (not_not.1 rest)
    have double := @tileOf_pick 192 8 (2 * I) (by decide) (by decide) (by decide) (by decide) le_rfl
    refine ⟨double.pos, dvd, double.le, fun even => even.trans dvd, fun even => ?_⟩
    exact double.sixteen_dvd_iff.2 (even.mul_left 2)

theorem tileOf_pick256 (H : ℤ) : TileOf H (pick 256 H 256) :=
  @tileOf_pick 256 8 H (by decide) (by decide) le_rfl (by decide) le_rfl

theorem tileOf_pickBwd (I : ℤ) : TileOf I (pick 192 I 128) :=
  @tileOf_pick 192 7 I (by decide) (by decide) (by decide) (by decide) (by decide)

theorem pick_bwd_le (I : ℤ) : pick 192 I 128 ≤ 192 := by
  rcases pick_eq 192 I 128 with ⟨-, picked⟩ | picked
  · exact picked.le
  · obtain ⟨j, hj, value, -⟩ := largestPow2Divisor_spec I 7
    have small : (2 : ℕ) ^ j ≤ 2 ^ 7 := Nat.pow_le_pow_right Nat.two_pos hj
    rw [picked, show (128 : ℕ) = 2 ^ 7 from rfl, value]
    omega

/-- The defaults pass `validate`, whatever the sizes are. -/
theorem validate_default (I H : ℤ) : (defaultTileConfig I H).validate I H = .ok () := by
  have a := tileOf_pickTileNA I
  have nonzero : ∀ {x : ℤ} {t : ℕ}, TileOf x t → (t : ℤ) ≠ 0 := fun tile =>
    Int.natCast_ne_zero.2 tile.pos.ne'
  have passes : ∀ {x : ℤ} {t : ℕ}, TileOf x t → ∀ message,
      checkTileN (some (t : ℤ)) [x] message = .ok [] := fun tile message =>
    checkTileN_of_dvd message (List.cons_ne_nil _ _) (nonzero tile) fun n mem => by
      rw [List.mem_singleton.1 mem]
      exact tile.dvd
  have passesA : ∀ message,
      checkTileN (some (pickTileNA I : ℤ)) [2 * I, I] message = .ok [] := fun message =>
    checkTileN_of_dvd message (List.cons_ne_nil _ _) (nonzero a) fun n mem => by
      rcases List.mem_cons.1 mem with rfl | mem
      · exact a.dvd.mul_left 2
      · rw [List.mem_singleton.1 mem]
        exact a.dvd
  have tileM : (defaultTileConfig I H).tileMErrors = [] := rfl
  rw [TileConfig.validate, tileM]
  simp only [defaultTileConfig]
  rw [passesA, passes (tileOf_pick256 H), passes (tileOf_pickBwd I), passes (tileOf_pick256 H)]
  rfl

/-- The rule for the columns of a tile: `% 16` and at most 256. -/
def CtaNRule (t : ℤ) : Prop := 16 ∣ t ∧ t ≤ 256

/-- What is expected of a config with all four output tiles. -/
structure Legal (I H : ℤ) (cfg : TileConfig) : Prop where
  valid : cfg.validate I H = .ok ()
  tileNA : ∃ t, cfg.tileNA = some t ∧ t ∣ I ∧ t ∣ 2 * I ∧ CtaNRule t
  tileNY : ∃ t, cfg.tileNY = some t ∧ t ∣ H ∧ CtaNRule t
  tileNYBwd : ∃ t, cfg.tileNYBwd = some t ∧ t ∣ I ∧ t ≤ 192 ∧ CtaNRule t
  tileNABwd : ∃ t, cfg.tileNABwd = some t ∧ t ∣ H ∧ CtaNRule t

theorem TileOf.rule_iff {x : ℤ} {t : ℕ} (tile : TileOf x t) : CtaNRule t ↔ (16 : ℤ) ∣ x :=
  ⟨fun rule => tile.sixteen_dvd_iff.1 rule.1,
    fun even => ⟨tile.sixteen_dvd_iff.2 even, by exact_mod_cast tile.le⟩⟩

/-- **When the defaults are legal.**  They always resolve, and the tiles divide what they have
to; they are all tiles the GEMM accepts exactly if both sizes are multiples of 16. -/
theorem default_legal_iff (I H : ℤ) :
    (∃ cfg, resolveTileConfig none I H = .ok cfg ∧ cfg = defaultTileConfig I H ∧
      Legal I H cfg) ↔ 16 ∣ I ∧ 16 ∣ H := by
  have valid := validate_default I H
  constructor
  · rintro ⟨_, -, rfl, legal⟩
    obtain ⟨_, picked, -, -, ruleI⟩ := legal.tileNA
    obtain ⟨_, picked', -, ruleH⟩ := legal.tileNY
    cases picked
    cases picked'
    exact ⟨(tileOf_pickTileNA I).rule_iff.1 ruleI, (tileOf_pick256 H).rule_iff.1 ruleH⟩
  · rintro ⟨evenI, evenH⟩
    have a := tileOf_pickTileNA I
    have y := tileOf_pick256 H
    have yBwd := tileOf_pickBwd I
    refine ⟨_, ?_, rfl, valid, ?_, ?_, ?_, ?_⟩
    · simp only [resolveTileConfig, valid]
      rfl
    · exact ⟨_, rfl, a.dvd, a.dvd.mul_left 2, a.rule_iff.2 evenI⟩
    · exact ⟨_, rfl, y.dvd, y.rule_iff.2 evenH⟩
    · exact ⟨_, rfl, yBwd.dvd, by exact_mod_cast pick_bwd_le I, yBwd.rule_iff.2 evenI⟩
    · exact ⟨_, rfl, y.dvd, y.rule_iff.2 evenH⟩

/-- An intermediate size with a small power of two: the tile of kernel A has 8 columns. -/
theorem default_1032_not_legal :
    ¬ ∃ cfg, resolveTileConfig none 1032 2048 = .ok cfg ∧ cfg = defaultTileConfig 1032 2048 ∧
      Legal 1032 2048 cfg := by
  rintro ⟨_, -, rfl, legal⟩
  have eight : (defaultTileConfig 1032 2048).tileNA = some 8 := by decide
  obtain ⟨t, picked, -, -, rule⟩ := legal.tileNA
  rw [eight, Option.some_inj] at picked
  rw [← picked] at rule
  exact absurd rule.1 (by decide)

end StreamEP.StreamMoe
