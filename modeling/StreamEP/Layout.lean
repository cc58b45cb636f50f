import StreamEP.PoolMaps
import StreamEP.Slots

/-!
# The tokens a rank lands

Whatever the transport, a rank lands every token that is routed to it, with the id and
the slots that the routing and its `PoolPlan` determine.  `landedTokens` lists them by
source rank, channel and source token.  Their ids count up along the list, and ids and
slots are used once, so the maps of `PoolMaps` can be read off them.

**The list is a specification.**  No receiver walks the tokens in this order: receivers of
different rings run concurrently, and what a run lands is a permutation of the list.  The two
topologies prove just that, `allLanded_eq` inside a node and `allLanded_perm` between nodes, and
everything about ids, slots and maps is proved here, about the list.
-/

namespace StreamEP

open Finset

variable {sh : Shape} {Row Weight : Type} {inputs : ℕ → DispatchInputs sh Row Weight} {g : ℕ}

namespace PoolPlan

section Tokens

variable (plan : PoolPlan sh inputs g) (packet : ℕ → ℕ → Packet Row Weight)

/-- A token as Pass B lands it; `packet src t` is the packet that carries it. -/
def landedOf (c src t : ℕ) : Landed Row Weight where
  recvTokenId := recvTokenId inputs g src t
  packet := packet src t
  slotRow := (List.range sh.numTopk).map fun k => plan.pairSlot c src (t * sh.numTopk + k)

/-- What all receivers of the rank land, by source rank, then channel. -/
def landedTokens : List (Landed Row Weight) :=
  (List.range sh.numRanks).flatMap fun src =>
    (List.range sh.numChannels).flatMap fun c =>
      (selected (inputs src) g c).map (plan.landedOf packet c src)

end Tokens

variable {plan : PoolPlan sh inputs g} {packet : ℕ → ℕ → Packet Row Weight} {c src t k : ℕ}

theorem landedOf_slot (hk : k < sh.numTopk) :
    (plan.landedOf packet c src t).slot k = plan.pairSlot c src (t * sh.numTopk + k) := by
  simp [Landed.slot, landedOf, List.getD_eq_getElem?_getD, hk]

theorem mem_landedTokens {l : Landed Row Weight} :
    l ∈ plan.landedTokens packet ↔
      ∃ src < sh.numRanks, ∃ c < sh.numChannels, ∃ t ∈ selected (inputs src) g c,
        plan.landedOf packet c src t = l := by
  simp only [landedTokens, List.mem_flatMap, List.mem_range, List.mem_map]

/-- Ids count up by source rank and source token. -/
theorem map_recvTokenId_landedTokens :
    (plan.landedTokens packet).map (·.recvTokenId) =
      List.range (∑ src ∈ range sh.numRanks, numRouted inputs g src) := by
  have perSource : ∀ src ∈ List.range sh.numRanks,
      ((List.range sh.numChannels).flatMap fun c =>
          ((selected (inputs src) g c).map (plan.landedOf packet c src)).map (·.recvTokenId)) =
        (List.range (numRouted inputs g src)).map
          (∑ src' ∈ range src, numRouted inputs g src' + ·) := by
    intro src _
    have perChannel : ∀ c ∈ List.range sh.numChannels,
        ((selected (inputs src) g c).map (plan.landedOf packet c src)).map (·.recvTokenId) =
          ((List.range ((inputs src).tokensIn g c)).map fun j =>
            ∑ c' ∈ range c, (inputs src).tokensIn g c' + j).map
              (∑ src' ∈ range src, numRouted inputs g src' + ·) := by
      intro c _
      rw [List.map_map, List.map_map]
      exact map_recvTokenId src c
    rw [List.flatMap_congr perChannel, ← List.map_flatMap, PrefixSum.flatMap_blocks,
      DispatchInputs.sum_tokensIn, channelStart_last sh.numChannels_pos]
    rfl
  simp only [landedTokens, List.map_flatMap]
  rw [List.flatMap_congr perSource, PrefixSum.flatMap_blocks]

/-- **Ids and slots are used once.** -/
theorem placed_landedTokens : Placed sh.numTopk (plan.landedTokens packet) where
  ids l hl l' hl' same := by
    have nodup : ((plan.landedTokens packet).map (·.recvTokenId)).Nodup := by
      rw [map_recvTokenId_landedTokens]
      exact List.nodup_range
    exact List.inj_on_of_nodup_map nodup hl hl' same
  slots l hl l' hl' k hk k' hk' assigned same := by
    obtain ⟨src, hsrc, c, hc, t, ht, rfl⟩ := mem_landedTokens.1 hl
    obtain ⟨src', hsrc', c', hc', t', ht', rfl⟩ := mem_landedTokens.1 hl'
    rw [landedOf_slot hk] at assigned same
    rw [landedOf_slot hk'] at same
    obtain ⟨rfl, rfl, rfl, rfl⟩ := pairSlot_inj hc hsrc hc' hsrc' ht ht' hk hk' assigned same
    exact ⟨rfl, rfl⟩

/-- Every id below the number of routed tokens is a landed token's. -/
theorem exists_landedTokens_id {r : ℕ}
    (hr : r < ∑ src ∈ range sh.numRanks, numRouted inputs g src) :
    ∃ l ∈ plan.landedTokens packet, l.recvTokenId = r := by
  have mem : r ∈ (plan.landedTokens packet).map (·.recvTokenId) := by
    rw [map_recvTokenId_landedTokens]
    exact List.mem_range.2 hr
  exact List.mem_map.1 mem

end PoolPlan

end StreamEP
