import Mathlib.Tactic.DeriveFintype
import StreamEP.Intranode.Metadata
import StreamEP.Lib.RepeatedExchange

/-!
# The intranode metadata exchange, dispatch after dispatch

Phase A stores the counts into the inboxes of the peers between two calls of `barrier_block`, and
Phase B reads them without a barrier behind it.  The next dispatch stores into the same inboxes.
So what keeps a rank that is ahead from a slow one's inbox is the first of the two barriers
(Phase 2), which the slow one enters only when its Phase B is through.

**Dispatches.**  Each has a routing of its own, and its own number of experts: a buffer pins the
ring config, the width of a row and the top-k, and no more.  With another number of experts the
inboxes are arranged in another way, so a word is known by its place behind
`streaming_section_offset`, which is fixed (`InboxCell.addr`).

**Stages.**  `MetadataStage` has what one rank does in one dispatch.  The kernels of a rank run
one after the other, so the stages do, too; what else a rank does between two dispatches only
makes it later.  A store of Phase 4 becomes visible at any time up to the fence with which the
second `barrier_block` begins.  A barrier is left when all ranks have entered it, which is what
the words of `barrier_block` achieve.

**Results.**  In every run over any number of dispatches Phase B reads in every inbox what its
sender stored in the same dispatch (`metadata_current`), and that is what the tables of one
dispatch alone say of the inboxes, `eInbox` and `uInbox`.
-/

namespace StreamEP

/-- The shape with another number of experts. -/
abbrev Shape.withExperts (sh : Shape) (numExpertsPerRank : ℕ+) : Shape :=
  { sh with
    numExpertsPerRank := numExpertsPerRank
    numExpertsPerRank_pos := numExpertsPerRank.pos }

namespace Intranode

open RepeatedExchange

variable {sh : Shape} {Row Weight : Type}

/-- What a rank does in one dispatch, up to Phase B. -/
inductive MetadataStage where
  /-- Phase 2 -/
  | handshake
  /-- Phase 4, and the fence with which Phase 5 begins -/
  | store
  /-- Phase 5 -/
  | barrier
  /-- Phase 6 -/
  | phaseB

def MetadataStage.idx : MetadataStage → ℕ
  | .handshake => 0
  | .store => 1
  | .barrier => 2
  | .phaseB => 3

/-- The words of all inboxes in one dispatch, each of which one source stores into. -/
inductive InboxCell (sh : Shape) where
  /-- `e_inbox`, by the index in the sender's slab -/
  | e (dst src : Fin sh.numRanks) (i : Fin (slabESize sh))
  /-- `u_inbox` -/
  | u (dst src : Fin sh.numRanks) (c : Fin (slabUSize sh))
  deriving DecidableEq, Fintype

namespace InboxCell

def dst : InboxCell sh → Fin sh.numRanks
  | .e dst _ _ => dst
  | .u dst _ _ => dst

def src : InboxCell sh → Fin sh.numRanks
  | .e _ src _ => src
  | .u _ src _ => src

/-- The rank a word is on, and its index behind `streaming_section_offset`. -/
def addr : InboxCell sh → Fin sh.numRanks × ℕ
  | .e dst src i =>
    let c := i / sh.numExpertsPerRank
    let e := i - c * sh.numExpertsPerRank
    (dst, c * sh.numRanks * sh.numExpertsPerRank + src * sh.numExpertsPerRank + e)
  | .u dst src c =>
    let eInboxSize := sh.numChannels * sh.numRanks * sh.numExpertsPerRank
    (dst, eInboxSize + (c * sh.numRanks + src))

section Values

variable (inps : ℕ → DispatchInputs sh Row Weight) (stale : ℕ → ℕ)

/-- What its source stores there. -/
def value : InboxCell sh → ℕ
  | .e dst src i => smemLocalE (inps src) (dst * slabESize sh + i)
  | .u dst src c => smemLocalU (inps src) (dst * slabUSize sh + c)

/-- What a dispatch by itself leaves there, over what was there before. -/
def table : InboxCell sh → ℕ
  | .e dst src i =>
    let c := i / sh.numExpertsPerRank
    let e := i - c * sh.numExpertsPerRank
    eInbox inps stale dst
      (c * sh.numRanks * sh.numExpertsPerRank + src * sh.numExpertsPerRank + e)
  | .u dst src c => uInbox inps stale dst (c * sh.numRanks + src)

end Values

/-- The channel and the expert of a word of the pair inbox. -/
theorem channel_expert (i : Fin (slabESize sh)) :
    i / sh.numExpertsPerRank < sh.numChannels ∧
      (i : ℕ) - i / sh.numExpertsPerRank * sh.numExpertsPerRank = i % sh.numExpertsPerRank ∧
      (i : ℕ) % sh.numExpertsPerRank < sh.numExpertsPerRank := by
  refine ⟨Nat.div_lt_of_lt_mul (i.isLt.trans_eq (Nat.mul_comm _ _)), ?_,
    Nat.mod_lt _ sh.numExpertsPerRank_pos⟩
  have split := Nat.div_add_mod' (i : ℕ) sh.numExpertsPerRank
  omega

/-- The place of a word of the pair inbox. -/
theorem addr_e (dst src : Fin sh.numRanks) (i : Fin (slabESize sh)) :
    (e dst src i).addr = (dst, (i / sh.numExpertsPerRank * sh.numRanks + src) *
      sh.numExpertsPerRank + i % sh.numExpertsPerRank) := by
  rw [addr]
  simp only [(channel_expert i).2.1, Nat.add_mul]

/-- It is in front of the token inbox. -/
theorem addr_e_lt (dst src : Fin sh.numRanks) (i : Fin (slabESize sh)) :
    (e dst src i).addr.2 < sh.numChannels * sh.numRanks * sh.numExpertsPerRank := by
  obtain ⟨channel, -, expert⟩ := channel_expert i
  rw [addr_e]
  exact PrefixSum.flat_lt (PrefixSum.flat_lt channel src.isLt) expert

theorem addr_injective : Function.Injective (addr : InboxCell sh → _) := by
  rintro (⟨dst, src, i⟩ | ⟨dst, src, c⟩) (⟨dst', src', i'⟩ | ⟨dst', src', c'⟩) same
  · rw [addr_e, addr_e, Prod.mk.injEq] at same
    obtain ⟨rfl, same⟩ := same
    obtain ⟨-, -, expert⟩ := channel_expert i
    obtain ⟨-, -, expert'⟩ := channel_expert i'
    obtain ⟨substream, lane⟩ := (PrefixSum.flat_inj expert expert').1 same
    obtain ⟨channel, source⟩ := (PrefixSum.flat_inj src.isLt src'.isLt).1 substream
    have index : (i : ℕ) = i' := by
      rw [← Nat.div_add_mod' (i : ℕ) sh.numExpertsPerRank, channel, lane, Nat.div_add_mod']
    rw [Fin.ext source, Fin.ext index]
  · have below := addr_e_lt dst src i
    rw [same] at below
    exact absurd (Nat.le_add_right _ _) below.not_ge
  · have below := addr_e_lt dst' src' i'
    rw [← same] at below
    exact absurd (Nat.le_add_right _ _) below.not_ge
  · rw [addr, addr, Prod.mk.injEq] at same
    obtain ⟨rfl, same⟩ := same
    obtain ⟨channel, source⟩ :=
      (PrefixSum.flat_inj src.isLt src'.isLt).1 (Nat.add_left_cancel same)
    rw [Fin.ext source, Fin.ext channel]

/-- A dispatch by itself leaves in every word what its source stores there. -/
theorem value_eq_table (inps : ℕ → DispatchInputs sh Row Weight) (stale : ℕ → ℕ)
    (x : InboxCell sh) : x.value inps = x.table inps stale := by
  cases x with
  | e dst src i =>
    obtain ⟨channel, expert, lane⟩ := channel_expert i
    have counted := @smemLocalE_apply sh Row Weight (inps src) dst _ _ channel lane
    have arrived := @eInbox_apply sh Row Weight inps stale dst _ _ _ channel src.isLt lane
    rw [Nat.add_assoc, Nat.div_add_mod'] at counted
    rw [Nat.add_mul] at arrived
    simp only [table, expert]
    exact counted.trans arrived.symm
  | u dst src c =>
    exact (smemLocalU_apply (inps src) dst.isLt c.isLt).trans
      (uInbox_apply inps stale dst.isLt c.isLt src.isLt).symm

end InboxCell

section Runs

variable (experts : ℕ → ℕ+)
  (inps : (it : ℕ) → ℕ → DispatchInputs (sh.withExperts (experts it)) Row Weight)

/-- Phases 2 to 6 of every dispatch. -/
def metadataStages : Stages (Fin sh.numRanks) (Fin sh.numRanks × ℕ) ℕ
    fun it => InboxCell (sh.withExperts (experts it)) where
  numStages := 4
  addr _ := InboxCell.addr
  writer _ := InboxCell.src
  reader _ := InboxCell.dst
  writeStage _ _ := MetadataStage.store.idx
  readStage _ _ := MetadataStage.phaseB.idx
  write_lt _ _ := (by decide : 1 < 4)
  read_lt _ _ := (by decide : 3 < 4)
  waits k _ _ :=
    if k = MetadataStage.handshake.idx ∨ k = MetadataStage.barrier.idx then some k else none
  value it x _ := some (x.value (inps it))

theorem metadata_sound : Sound (metadataStages experts inps) where
  fresh _ _ := Or.inr ⟨2, (by decide : 2 < 3), 2, rfl, (by decide : 1 < 2)⟩
  alone _ := InboxCell.addr_injective
  -- who stores again has been through Phase 2, and so has the reader
  free _ _ _ _ _ _ := Or.inr ⟨0, (by decide : 0 < 1), rfl⟩

theorem metadata_live : Live (metadataStages experts inps) where
  waits_le k _ _ k' waits := by
    obtain ⟨-, same⟩ := Option.ite_none_right_eq_some.1 (Option.mem_def.1 waits)
    exact (Option.some.inj same).ge
  defined _ _ _ _ := rfl

theorem metadata_tabulated (stale : ℕ → ℕ → ℕ) :
    Tabulated (metadataStages experts inps) fun it x => x.table (inps it) (stale it) := by
  intro it x _ _ v value
  rw [← Option.some.inj value]
  exact x.value_eq_table (inps it) (stale it)

/-- **Phase B reads what was stored in the same dispatch.** -/
theorem metadata_current (stale : ℕ → ℕ → ℕ) {before : Fin sh.numRanks × ℕ → ℕ}
    {s : Transfers.State (Fin sh.numRanks) _ (Fin sh.numRanks × ℕ) ℕ}
    (reach : (Transfers.system (metadataStages experts inps).protocol before).Reachable s) :
    Transfers.Current (metadataStages experts inps).protocol
      (fun x => x.2.table (inps x.1) (stale x.1)) s :=
  current_of_reachable (metadata_sound experts inps) (metadata_tabulated experts inps stale) reach

end Runs

end Intranode

end StreamEP
