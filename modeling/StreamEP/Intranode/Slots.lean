import StreamEP.Intranode.Metadata
import StreamEP.Slots

/-!
# The pool plan of the intranode metadata kernel

The kernel's tables, read over the routing, are a `PoolPlan`: `base_pool` scans the
substreams of an expert in the order of their indices.

So the slots of an expert are shared out by channel first and by source rank within a channel.
Whatever holds of every plan, such as the slots of pairs being different or the maps in memory
being inverse to each other, holds of this one; the internode kernels have another.
-/

namespace StreamEP.Intranode

open Finset

variable {sh : Shape} {Row Weight : Type} (inps : ℕ → DispatchInputs sh Row Weight)
  (stale : ℕ → ℕ) (g : ℕ)

theorem eInbox_eq_substreamPairs {cs e : ℕ} (hcs : cs < csTotal sh)
    (he : e < sh.numExpertsPerRank) :
    eInbox inps stale g (cs * sh.numExpertsPerRank + e) = substreamPairs inps g e cs := by
  have channel : cs / sh.numRanks < sh.numChannels :=
    (Nat.div_lt_iff_lt_mul sh.numRanks_pos).2 hcs
  have source : cs % sh.numRanks < sh.numRanks := Nat.mod_lt _ sh.numRanks_pos
  have cell := eInbox_apply inps stale (g := g) channel source he
  rw [Nat.div_add_mod'] at cell
  exact cell

/-- How Phase B divides the pool of rank `g`. -/
def poolPlan : PoolPlan sh inps g where
  expertPoolBlockOffset := expertPoolBlockOffset sh (eInbox inps stale g)
  expertFrequency := expertFrequency sh (eInbox inps stale g)
  base cs e := basePool sh (eInbox inps stale g) (cs * sh.numExpertsPerRank + e)
  order := id
  position := id
  offsets := tileOffsets
  order_lt _ hi := hi
  position_lt _ hcs := hcs
  position_order _ _ := rfl
  order_position _ _ := rfl
  frequency_eq e he := by
    rw [expertFrequency_eq_sum]
    exact sum_congr rfl fun cs hcs =>
      eInbox_eq_substreamPairs inps stale g (mem_range.1 hcs) he
  base_eq e he cs hcs := by
    rw [basePool_eq_sum _ hcs he]
    congr 1
    exact sum_congr rfl fun cs' hcs' =>
      eInbox_eq_substreamPairs inps stale g (lt_trans (mem_range.1 hcs') hcs) he

end StreamEP.Intranode
