import Mathlib.Data.Int.ModEq
import StreamEP.Internode.Forwarder
import StreamEP.Lib.Loop

/-!
# The tag of an NVLink slot

The forwarder puts a tag into each slot of the NVLink ring, and the receiver waits for it.
The tag is seven bits of the generation number and nine bits of the position, and each
generation starts at position zero.  So what the receiver may take for the packet of
position `p` is the slot's previous occupant: the packet of one ring before, or, on the
first round, whatever an earlier generation left there last.

The two tags are equal exactly if the numbers agree modulo 128 and the positions modulo 512
(`nvlSlotTag_eq_iff`).  Positions on one slot differ by multiples of the capacity, so
whether that can happen depends on the capacity and, across generations, on how often an
earlier generation went round.

**Occupants.**  `Generations` lists the kernels that use the ring, with their numbers and how
many packets each brings.  A packet is named by its generation and position; `ringAfter` is the
ring when a generation starts, with nothing in a slot that has never been used, and `previous`
the occupant that a packet replaces.  `ringAfter_eq_some` and `previous_eq_some_of_lt` describe
it without the recursion: the last generation that used the slot (`Reuses`), and in it the last
position that falls on the slot (`rounds`).

`tagsFence_iff`: the tag of every position differs from that of the slot's previous occupant
exactly under `Apart`, which speaks of the capacity, the numbers and the lengths alone.  A ring of
512 slots is accepted by the configuration and fails after one round.
-/

namespace StreamEP.Internode

open Function Loop

/-- The tag is injective in what it keeps. -/
theorem nvlSlotTag_eq_iff {seq pos seq' pos' : ℕ} :
    nvlSlotTag seq pos = nvlSlotTag seq' pos' ↔
      seq % 128 = seq' % 128 ∧ pos % 512 = pos' % 512 := by
  have number : ∀ s p, nvlSlotTag s p = s % 128 * 512 + p % 512 := by
    intro s p
    have low : p &&& 0x1FF = p % 512 := Nat.and_two_pow_sub_one_eq_mod p 9
    have high : s &&& 0x7F = s % 128 := Nat.and_two_pow_sub_one_eq_mod s 7
    have less : p % 512 < 2 ^ 9 := Nat.mod_lt _ (by decide)
    rw [nvlSlotTag, low, high, ← Nat.shiftLeft_add_eq_or_of_lt less, Nat.shiftLeft_eq]
  rw [number, number]
  omega

/-- The kernels that use one NVLink ring, one after the other. -/
structure Generations where
  /-- Their generation numbers, `dispatch_seq << 1` with the phase in the lowest bit, -/
  nvlSeq : ℕ → ℕ
  /-- and the number of packets the forwarder puts on the ring. -/
  numTokens : ℕ → ℕ

namespace Generations

variable (gens : Generations) (cfg : Config)

/-- The ring after the first `n` packets of generation `i`.  A slot is given by the
generation and the position of its occupant. -/
def fill (i n : ℕ) (ring : ℕ → Option (ℕ × ℕ)) : ℕ → Option (ℕ × ℕ) :=
  for' n (fun ring pos => update ring (pos % cfg.numMaxNvlChunkedRecvTokens) (some (i, pos))) ring

/-- The ring when generation `i` starts. -/
def ringAfter : ℕ → ℕ → Option (ℕ × ℕ)
  | 0 => fun _ => none
  | i + 1 => fill cfg i (gens.numTokens i) (ringAfter i)

/-- The previous occupant of the slot of a position. -/
def previous (i pos : ℕ) : Option (ℕ × ℕ) :=
  fill cfg i pos (gens.ringAfter cfg i) (pos % cfg.numMaxNvlChunkedRecvTokens)

/-- The tag that the forwarder writes and the receiver waits for. -/
def tag (o : ℕ × ℕ) : ℕ := nvlSlotTag (gens.nvlSeq o.1) o.2

/-- The receiver never takes the previous occupant for the packet it waits for. -/
def TagsFence : Prop :=
  ∀ i, ∀ pos < gens.numTokens i, ∀ o, gens.previous cfg i pos = some o →
    gens.tag o ≠ gens.tag (i, pos)

/-- The rounds that a generation of `n` packets has gone on slot `r` before the last. -/
def rounds (n r : ℕ) : ℕ := (n - 1 - r) / cfg.numMaxNvlChunkedRecvTokens

/-- Slot `r` is used by generation `i'` and then by `i`, and not in between. -/
structure Reuses (i' i r : ℕ) : Prop where
  before : i' < i
  slot : r < cfg.numMaxNvlChunkedRecvTokens
  earlier : r < gens.numTokens i'
  later : r < gens.numTokens i
  unused : ∀ k, i' < k → k < i → gens.numTokens k ≤ r

/-- When tags are enough: a ring that is filled has a capacity that is not a multiple of 512,
and where two generations have numbers that agree modulo 128, the earlier one leaves slots to
the later one after a number of rounds that does not come to a multiple of 512 positions. -/
structure Apart : Prop where
  within : ∀ i, cfg.numMaxNvlChunkedRecvTokens < gens.numTokens i →
    ¬ 512 ∣ cfg.numMaxNvlChunkedRecvTokens
  across : ∀ i' i r, gens.Reuses cfg i' i r → gens.nvlSeq i' % 128 = gens.nvlSeq i % 128 →
    ¬ 512 ∣ cfg.numMaxNvlChunkedRecvTokens * rounds cfg (gens.numTokens i') r

/-! ### Who was in a slot before -/

variable {gens cfg}

theorem nvlRecv_pos : 0 < cfg.numMaxNvlChunkedRecvTokens :=
  cfg.nvlSend_pos.trans cfg.nvlSend_lt_recv

/-- A slot holds the last position that falls on it. -/
theorem fill_apply {i n r : ℕ} {ring : ℕ → Option (ℕ × ℕ)}
    (hr : r < cfg.numMaxNvlChunkedRecvTokens) :
    fill cfg i n ring r = if r < n then
      some (i, r + cfg.numMaxNvlChunkedRecvTokens * rounds cfg n r) else ring r := by
  induction n with
  | zero => rfl
  | succ n ih =>
      rw [fill, for'_succ, ← fill]
      by_cases here : r = n % cfg.numMaxNvlChunkedRecvTokens
      · have reached : r ≤ n := here.le.trans (Nat.mod_le _ _)
        have last : r + cfg.numMaxNvlChunkedRecvTokens * rounds cfg (n + 1) r = n := by
          have whole := Nat.div_add_mod n cfg.numMaxNvlChunkedRecvTokens
          rw [← here] at whole
          have turns : n - r = cfg.numMaxNvlChunkedRecvTokens *
              (n / cfg.numMaxNvlChunkedRecvTokens) := by omega
          rw [rounds, Nat.add_sub_cancel, turns, Nat.mul_div_cancel_left _ nvlRecv_pos]
          omega
        rw [here, update_self, ← here, if_pos (Nat.lt_succ_of_le reached), last]
      · rw [update_of_ne here, ih]
        have other : r ≠ n := by
          rintro rfl
          exact here (Nat.mod_eq_of_lt hr).symm
        by_cases reached : r < n
        · have whole : ¬ cfg.numMaxNvlChunkedRecvTokens ∣ n - 1 - r + 1 := by
            intro turns
            have gap : n - 1 - r + 1 = n - r := by omega
            rw [gap] at turns
            have same : r % cfg.numMaxNvlChunkedRecvTokens = n % cfg.numMaxNvlChunkedRecvTokens :=
              (Nat.modEq_iff_dvd' reached.le).2 turns
            exact here ((Nat.mod_eq_of_lt hr).symm.trans same)
          have last : rounds cfg (n + 1) r = rounds cfg n r := by
            have gap : n + 1 - 1 - r = n - 1 - r + 1 := by omega
            rw [rounds, gap, Nat.succ_div_of_not_dvd whole, rounds]
          rw [if_pos reached, if_pos (reached.trans (Nat.lt_succ_self n)), last]
        · rw [if_neg reached, if_neg (by omega)]

/-- What an earlier generation left in a slot. -/
theorem ringAfter_eq_some {i r : ℕ} {o : ℕ × ℕ} (hr : r < cfg.numMaxNvlChunkedRecvTokens) :
    gens.ringAfter cfg i r = some o ↔
      ∃ i' < i, r < gens.numTokens i' ∧ (∀ k, i' < k → k < i → gens.numTokens k ≤ r) ∧
        (i', r + cfg.numMaxNvlChunkedRecvTokens * rounds cfg (gens.numTokens i') r) = o := by
  induction i with
  | zero =>
      constructor
      · intro none
        cases none
      · rintro ⟨i', lt, -⟩
        exact absurd lt (Nat.not_lt_zero _)
  | succ i ih =>
      rw [ringAfter, fill_apply hr]
      by_cases used : r < gens.numTokens i
      · rw [if_pos used, Option.some_inj]
        constructor
        · intro last
          exact ⟨i, Nat.lt_succ_self i, used, fun k above below => by omega, last⟩
        · rintro ⟨i', lt, -, unused, last⟩
          rcases Nat.lt_succ_iff_lt_or_eq.1 lt with earlier | rfl
          · exact absurd (unused i earlier (Nat.lt_succ_self i)) used.not_ge
          · exact last
      · rw [if_neg used, ih]
        constructor
        · rintro ⟨i', lt, reached, unused, last⟩
          refine ⟨i', lt.trans (Nat.lt_succ_self i), reached, fun k above below => ?_, last⟩
          rcases Nat.lt_succ_iff_lt_or_eq.1 below with earlier | rfl
          · exact unused k above earlier
          · exact not_lt.1 used
        · rintro ⟨i', lt, reached, unused, last⟩
          rcases Nat.lt_succ_iff_lt_or_eq.1 lt with earlier | rfl
          · exact ⟨i', earlier, reached,
              fun k above below => unused k above (below.trans (Nat.lt_succ_self i)), last⟩
          · exact absurd reached used

/-- After the first round it is the packet one ring before. -/
theorem previous_of_le {i pos : ℕ} (round : cfg.numMaxNvlChunkedRecvTokens ≤ pos) :
    gens.previous cfg i pos = some (i, pos - cfg.numMaxNvlChunkedRecvTokens) := by
  have slot := Nat.mod_lt pos (@nvlRecv_pos cfg)
  have whole := Nat.div_add_mod pos cfg.numMaxNvlChunkedRecvTokens
  have turn : 0 < pos / cfg.numMaxNvlChunkedRecvTokens := Nat.div_pos round nvlRecv_pos
  obtain ⟨turns, turns_eq⟩ := Nat.exists_eq_succ_of_ne_zero turn.ne'
  rw [turns_eq, Nat.mul_succ] at whole
  have before : rounds cfg pos (pos % cfg.numMaxNvlChunkedRecvTokens) = turns := by
    have gap : pos - 1 - pos % cfg.numMaxNvlChunkedRecvTokens =
        cfg.numMaxNvlChunkedRecvTokens * turns + (cfg.numMaxNvlChunkedRecvTokens - 1) := by omega
    rw [rounds, gap, Nat.mul_add_div nvlRecv_pos,
      Nat.div_eq_of_lt (Nat.sub_lt nvlRecv_pos Nat.one_pos), Nat.add_zero]
  rw [previous, fill_apply slot, if_pos (slot.trans_le round), before]
  congr 2
  omega

/-- On the first round it is what an earlier generation left. -/
theorem previous_eq_some_of_lt {i r : ℕ} {o : ℕ × ℕ} (hr : r < cfg.numMaxNvlChunkedRecvTokens)
    (later : r < gens.numTokens i) :
    gens.previous cfg i r = some o ↔ ∃ i', gens.Reuses cfg i' i r ∧
      (i', r + cfg.numMaxNvlChunkedRecvTokens * rounds cfg (gens.numTokens i') r) = o := by
  rw [previous, Nat.mod_eq_of_lt hr, fill_apply hr, if_neg (lt_irrefl r), ringAfter_eq_some hr]
  constructor
  · rintro ⟨i', lt, reached, unused, last⟩
    exact ⟨i', ⟨lt, hr, reached, later, unused⟩, last⟩
  · rintro ⟨i', reuse, last⟩
    exact ⟨i', reuse.before, reuse.earlier, reuse.unused, last⟩

/-- **When the tag fences.**  For every capacity that `Config` accepts and all generations on a
ring, the tag of every position differs from that of the slot's previous occupant if and only
if the generations are `Apart`. -/
theorem tagsFence_iff : gens.TagsFence cfg ↔ gens.Apart cfg := by
  constructor
  · intro fence
    refine ⟨fun i filled whole => ?_, fun i' i r reuse numbers whole => ?_⟩
    · refine fence i _ filled _ (previous_of_le le_rfl) (nvlSlotTag_eq_iff.2 ⟨rfl, ?_⟩)
      rw [Nat.sub_self, Nat.zero_mod]
      exact (Nat.mod_eq_zero_of_dvd whole).symm
    · refine fence i r reuse.later _
        ((previous_eq_some_of_lt reuse.slot reuse.later).2 ⟨i', reuse, rfl⟩)
        (nvlSlotTag_eq_iff.2 ⟨numbers, ?_⟩)
      obtain ⟨turns, whole⟩ := whole
      rw [whole, Nat.add_mul_mod_self_left]
  · intro apart i pos hpos o occupant same
    obtain ⟨numbers, positions⟩ := nvlSlotTag_eq_iff.1 same
    by_cases round : cfg.numMaxNvlChunkedRecvTokens ≤ pos
    · rw [previous_of_le round, Option.some_inj] at occupant
      subst occupant
      refine apart.within i (round.trans_lt hpos) ?_
      dsimp only at positions
      omega
    · obtain ⟨i', reuse, rfl⟩ := (previous_eq_some_of_lt (not_le.1 round) hpos).1 occupant
      refine apart.across i' i pos reuse numbers ?_
      dsimp only at positions
      omega

/-- One dispatch that goes round once and a packet further. -/
def onceRound : Generations where
  nvlSeq _ := 2
  numTokens i := if i = 0 then 513 else 0

/-- A ring of 512 slots: the packet at position 512 gets the tag of the one at 0. -/
theorem onceRound_not_fenced :
    ∃ cfg, Config.new 24 36 512 20 256 = some cfg ∧ ¬ onceRound.TagsFence cfg := by
  have checks : ∃ cfg, Config.new 24 36 512 20 256 = some cfg ∧
      cfg.numMaxNvlChunkedRecvTokens = 512 := ⟨_, rfl, rfl⟩
  obtain ⟨cfg, accepted, capacity⟩ := checks
  refine ⟨cfg, accepted, fun fence => ?_⟩
  have last : onceRound.previous cfg 0 512 = some (0, 512 - cfg.numMaxNvlChunkedRecvTokens) :=
    previous_of_le capacity.le
  rw [capacity] at last
  exact fence 0 512 (by decide) _ last rfl

end Generations

end StreamEP.Internode
