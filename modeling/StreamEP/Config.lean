import StreamEP.Routing

/-!
# Ring configuration

The sizes of the rings and of the chunks that senders push into them.

**Validity is a field.**  A `Config` can only be built through the checks of its constructor,
which `Config.new` performs on raw arguments; the fields of `Config` that are propositions are
those checks.  A result over all configs is thus a result over all that the program can hold, and
no theorem repeats the checks as hypotheses.

**A slip of the constructor.**  Its parameters shadow the members.  The last two assertions
therefore see the size of the RDMA ring as it was passed, before it is rounded up to a multiple
of the chunk; the fields say it the same way.  The rounding is done in `int`, so `Config.new` has
no value where it would overflow.

**The tables.**  `combineConfigMap` is the table of recommended configs of combine.  The
recommendation for dispatch is not here, since no modelled function reads it.

Two small configs serve as examples throughout.  `tightConfig` is the smallest one there is and
is only used where a kernel's launch puts no further condition on its config; `twoChunkConfig` is
one that the launch of combine between nodes accepts as well.
-/

namespace StreamEP

/-- `align_up`. -/
def alignUp (a b : ℕ) : ℕ := ceilDiv a b * b

/-- `Config` after its constructor ran. -/
structure Config where
  numSms : ℕ
  numMaxNvlChunkedSendTokens : ℕ
  numMaxNvlChunkedRecvTokens : ℕ
  numMaxRdmaChunkedSendTokens : ℕ
  numMaxRdmaChunkedRecvTokens : ℕ
  nvlSend_pos : 0 < numMaxNvlChunkedSendTokens
  nvlSend_lt_recv : numMaxNvlChunkedSendTokens < numMaxNvlChunkedRecvTokens
  rdmaSend_pos : 0 < numMaxRdmaChunkedSendTokens
  rdmaSend_lt_recv : numMaxRdmaChunkedSendTokens < numMaxRdmaChunkedRecvTokens
  /-- The check that is there for the lazy head update of the RDMA rings. -/
  rdmaSend_le_half : numMaxRdmaChunkedSendTokens ≤ numMaxRdmaChunkedRecvTokens / 2
  /-- RDMA rings are rounded up to whole chunks. -/
  rdmaRecv_aligned : numMaxRdmaChunkedSendTokens ∣ numMaxRdmaChunkedRecvTokens

/-- Rounding up does not make smaller. -/
theorem le_alignUp {a b : ℕ} (pos : 0 < b) : a ≤ alignUp a b := le_ceilDiv_mul pos a

/-- The constructor: `none` when one of its assertions fails, or when `align_up<int>` overflows.
The parameters shadow the members, so the last two assertions see the size of the RDMA ring before
it is rounded. -/
def Config.new (numSms nvlSend nvlRecv rdmaSend rdmaRecv : ℤ) : Option Config :=
  if checks : 0 ≤ numSms ∧ (0 < nvlSend ∧ 0 < nvlRecv) ∧ nvlSend < nvlRecv ∧
      (0 < rdmaSend ∧ 0 < rdmaRecv) ∧ rdmaRecv + rdmaSend - 1 < 2 ^ 31 ∧
        rdmaSend < rdmaRecv ∧ rdmaSend ≤ rdmaRecv / 2 then
    have pos : 0 < rdmaSend.toNat := by omega
    have rounded : rdmaRecv.toNat ≤ alignUp rdmaRecv.toNat rdmaSend.toNat := le_alignUp pos
    some
      { numSms := numSms.toNat
        numMaxNvlChunkedSendTokens := nvlSend.toNat
        numMaxNvlChunkedRecvTokens := nvlRecv.toNat
        numMaxRdmaChunkedSendTokens := rdmaSend.toNat
        numMaxRdmaChunkedRecvTokens := alignUp rdmaRecv.toNat rdmaSend.toNat
        nvlSend_pos := by omega
        nvlSend_lt_recv := by omega
        rdmaSend_pos := pos
        rdmaSend_lt_recv := by omega
        rdmaSend_le_half := by omega
        rdmaRecv_aligned := Dvd.intro_left _ rfl }
  else none

/-- The constructor takes its arguments as they are, but for the size of the RDMA ring. -/
theorem Config.eq_of_new {numSms nvlSend nvlRecv rdmaSend rdmaRecv : ℤ} {cfg : Config}
    (new : Config.new numSms nvlSend nvlRecv rdmaSend rdmaRecv = some cfg) :
    cfg.numMaxNvlChunkedSendTokens = nvlSend.toNat ∧
      cfg.numMaxNvlChunkedRecvTokens = nvlRecv.toNat ∧
      cfg.numMaxRdmaChunkedSendTokens = rdmaSend.toNat := by
  unfold Config.new at new
  split_ifs at new
  cases new
  exact ⟨rfl, rfl, rfl⟩

/-- `config_map` of `get_combine_config`: the chunks and rings by number of ranks. -/
def combineConfigMap : List (ℕ × ℤ × ℤ × ℤ × ℤ) :=
  [(2, 10, 256, 6, 128), (4, 9, 256, 6, 128), (8, 4, 256, 6, 128), (16, 1, 288, 12, 256),
    (24, 1, 288, 8, 128), (32, 1, 288, 8, 256), (48, 1, 288, 8, 128), (64, 1, 288, 8, 128),
    (96, 1, 480, 8, 128), (128, 1, 560, 8, 128), (144, 2, 720, 8, 128), (160, 2, 720, 8, 128)]

/-- `get_combine_config`, for `Buffer.num_sms`: `none` when the number of ranks is not
supported. -/
def getCombineConfig (numSms : ℤ) (numRanks : ℕ) : Option Config :=
  match combineConfigMap.lookup numRanks with
  | some (nvlSend, nvlRecv, rdmaSend, rdmaRecv) =>
    Config.new numSms nvlSend nvlRecv rdmaSend rdmaRecv
  | none => none

/-- A recommended config has the chunks and rings of its row. -/
theorem getCombineConfig_mem {numSms : ℤ} {numRanks : ℕ} {cfg : Config}
    (table : getCombineConfig numSms numRanks = some cfg) :
    ∃ row ∈ combineConfigMap, row.1 = numRanks ∧
      cfg.numMaxNvlChunkedSendTokens = row.2.1.toNat ∧
      cfg.numMaxNvlChunkedRecvTokens = row.2.2.1.toNat ∧
      cfg.numMaxRdmaChunkedSendTokens = row.2.2.2.1.toNat := by
  unfold getCombineConfig at table
  split at table
  case h_1 nvlSend nvlRecv rdmaSend rdmaRecv found =>
    obtain ⟨before, behind, split, -⟩ := List.lookup_eq_some_iff.1 found
    have mem : (numRanks, nvlSend, nvlRecv, rdmaSend, rdmaRecv) ∈ combineConfigMap := by
      rw [split]
      exact List.mem_append_right _ (List.mem_cons_self ..)
    exact ⟨_, mem, rfl, Config.eq_of_new table⟩
  case h_2 => cases table

/-- Rings of two slots and chunks of one packet. -/
def tightConfig : Config where
  numSms := 4
  numMaxNvlChunkedSendTokens := 1
  numMaxNvlChunkedRecvTokens := 2
  numMaxRdmaChunkedSendTokens := 1
  numMaxRdmaChunkedRecvTokens := 2
  nvlSend_pos := Nat.one_pos
  nvlSend_lt_recv := Nat.one_lt_two
  rdmaSend_pos := Nat.one_pos
  rdmaSend_lt_recv := Nat.one_lt_two
  rdmaSend_le_half := le_rfl
  rdmaRecv_aligned := one_dvd 2

theorem two_le_tightConfig_numSms : 2 ≤ tightConfig.numSms := Nat.le_of_ble_eq_true rfl

theorem tightConfig_numSms_even : tightConfig.numSms % 2 = 0 := rfl

/-- One channel, the NVL rings of `getCombineConfig` for two nodes, and RDMA rings of two chunks
of twelve tokens. -/
def twoChunkConfig : Config where
  numSms := 2
  numMaxNvlChunkedSendTokens := 1
  numMaxNvlChunkedRecvTokens := 288
  numMaxRdmaChunkedSendTokens := 12
  numMaxRdmaChunkedRecvTokens := 24
  nvlSend_pos := Nat.one_pos
  nvlSend_lt_recv := Nat.le_of_ble_eq_true rfl
  rdmaSend_pos := Nat.succ_pos _
  rdmaSend_lt_recv := Nat.le_of_ble_eq_true rfl
  rdmaSend_le_half := le_rfl
  rdmaRecv_aligned := ⟨2, rfl⟩

/-- What the reverse scans of dispatch leave where no position follows. -/
def kReverseScanSentinel : ℕ := 2 ^ 25

end StreamEP
