import Mathlib.Data.Set.Function
import StreamEP.HeldTokens
import StreamEP.Internode.PoolLayout

/-!
# The reference layout of internode dispatch

`ReferenceLayout` is what the layout check asks of an internode dispatch at one rank, in
terms of the routing: how the tokens that reach the rank are numbered, where the rows of each
expert are, and what memory holds of each token.

The receivers get there whatever mixture of the sources their rings deliver and in whatever
order their stores reach memory: `dispatch_reference`.

It has a part about ids and one about memory.  The ids of the tokens that reach the rank are a
bijection onto the numbers below the receive counter (`ids_bijection`), increasing along every
source.  The slots of an expert's pairs fill its interval (`slots_of_expert`), memory holds every
token that reaches the rank, and a slot that belongs to no pair keeps its mark of padding
(`padding_of_none`).  All of it is read off `allLanded_perm` and the plan's maps.
-/

namespace StreamEP.Internode

open Finset

variable {sh : NodeShape} {Row Weight : Type}

namespace NodeWorld

variable (w : NodeWorld sh Row Weight) (g : ℕ)

/-- Token `t` of source rank `src` goes to rank `g`. -/
def Reaches (src t : ℕ) : Prop :=
  src < sh.numRanks ∧ t < (w.inputs src).numTokens ∧ (w.inputs src).InRank g t

/-- What dispatch is to leave at rank `g`. -/
structure ReferenceLayout (batches : NodeDeliveries Row Weight) (m : PoolMemory Row Weight) :
    Prop where
  /-- The tokens of a source are landed in order, and their ids count from where the tokens of
  the sources before it end. -/
  landed : ∀ src < sh.numRanks,
    ((List.range sh.numChannels).flatMap fun c =>
        (w.landed g batches c src).map fun l => (l.packet.srcIdx, l.recvTokenId)) =
      ((List.range (w.inputs src).numTokens).filter ((w.inputs src).InRank g)).map fun t =>
        (t, recvTokenId w.inputs g src t)
  /-- The ids are a bijection onto the numbers below `num_recv_tokens`, -/
  bijection : Set.BijOn (fun st : ℕ × ℕ => recvTokenId w.inputs g st.1 st.2)
    {st | w.Reaches g st.1 st.2} (Set.Iio (moeRecvCounter w.inputs w.slabs g))
  /-- and within a source they increase. -/
  increasing : ∀ src t t', w.Reaches g src t → t < t' →
    recvTokenId w.inputs g src t < recvTokenId w.inputs g src t'
  /-- The slots of an expert are those of its interval. -/
  intervals : ∀ e < sh.numExpertsPerRank, ∀ s : ℕ,
    (∃ src t, w.Reaches g src t ∧ ∃ k < sh.numTopk,
        (w.inputs src).RoutedTo g e (t * sh.numTopk + k) ∧
          m (.recvTokenToSlots (recvTokenId w.inputs g src t * sh.numTopk + k)) = (s : ℤ)) ↔
      expertPoolBlockOffset sh.toShape (w.seenTable g) e * sh.tileM ≤ s ∧
        s < expertPoolBlockOffset sh.toShape (w.seenTable g) e * sh.tileM +
          expertFrequency sh.toShape (w.seenTable g) e
  /-- Memory holds every token that reaches the rank. -/
  holds : ∀ src t, w.Reaches g src t →
    HoldsToken (w.inputs src) g t (recvTokenId w.inputs g src t) m
  /-- A slot of none of them is padding. -/
  padding : ∀ s : ℕ, (∀ src t, w.Reaches g src t → ∀ k < sh.numTopk,
      m (.recvTokenToSlots (recvTokenId w.inputs g src t * sh.numTopk + k)) ≠ (s : ℤ)) →
    m (.poolRecvToken s) = (-1 : ℤ)

variable {w g} {batches : NodeDeliveries Row Weight} {m : PoolMemory Row Weight}

theorem reaches_of_selected {src c t : ℕ} (hsrc : src < sh.numRanks)
    (ht : t ∈ selected (w.inputs src) g c) : w.Reaches g src t :=
  have inside := mem_selected.1 ht
  ⟨hsrc, inside.1.2.trans_le (channelEnd_le _ _ _), inside.2⟩

/-! ### Ids -/

/-- `num_recv_tokens` counts the tokens that reach the rank. -/
theorem moeRecvCounter_eq (hg : g < sh.numRanks) :
    moeRecvCounter w.inputs w.slabs g =
      ∑ src ∈ range sh.numRanks, numRouted w.inputs g src := by
  have pos := sh.numRanks_pos
  rw [moeRecvCounter, recvGblRankPrefixSum_apply hg (Nat.sub_lt pos Nat.one_pos),
    Nat.sub_add_cancel pos]

theorem ids_bijection (hg : g < sh.numRanks) :
    Set.BijOn (fun st : ℕ × ℕ => recvTokenId w.inputs g st.1 st.2)
      {st | w.Reaches g st.1 st.2} (Set.Iio (moeRecvCounter w.inputs w.slabs g)) := by
  rw [moeRecvCounter_eq hg]
  refine ⟨?_, ?_, ?_⟩
  · rintro ⟨src, t⟩ ⟨hsrc, ht, goes⟩
    obtain ⟨c, -, mem⟩ := exists_selected ht goes
    exact PoolPlan.recvTokenId_lt hsrc mem
  · rintro ⟨src, t⟩ ⟨-, ht, goes⟩ ⟨src', t'⟩ ⟨-, ht', goes'⟩ same
    obtain ⟨rfl, rfl⟩ := recvTokenId_inj ht ht' goes goes' same
    rfl
  · intro r hr
    obtain ⟨l, mem, rfl⟩ : ∃ l ∈ (w.plan hg).landedTokens (w.localMessage g),
        l.recvTokenId = r := PoolPlan.exists_landedTokens_id hr
    obtain ⟨src, hsrc, c, -, t, ht, rfl⟩ := PoolPlan.mem_landedTokens.1 mem
    exact ⟨(src, t), reaches_of_selected hsrc ht, rfl⟩

/-- Each source's tokens, over all channels. -/
theorem landed_source (hg : g < sh.numRanks) (delivers : w.DeliversAll g batches) {src : ℕ}
    (hsrc : src < sh.numRanks) :
    ((List.range sh.numChannels).flatMap fun c =>
        (w.landed g batches c src).map fun l => (l.packet.srcIdx, l.recvTokenId)) =
      ((List.range (w.inputs src).numTokens).filter ((w.inputs src).InRank g)).map fun t =>
        (t, recvTokenId w.inputs g src t) := by
  have perChannel : ∀ c ∈ List.range sh.numChannels,
      (w.landed g batches c src).map (fun l => (l.packet.srcIdx, l.recvTokenId)) =
        (selected (w.inputs src) g c).map fun t => (t, recvTokenId w.inputs g src t) := by
    intro c hc
    rw [landed_eq hg delivers (List.mem_range.1 hc) hsrc, List.map_map]
    rfl
  rw [List.flatMap_congr perChannel, ← List.map_flatMap, flatMap_selected,
    channelStart_last sh.numChannels_pos, Stream.below_zero]

/-! ### Memory -/

section Left

variable (hg : g < sh.numRanks)
  (left : LeftBy sh.numTopk ((w.plan hg).landedTokens (w.localMessage g)) m)

include left

theorem slot_of_pair {src c t k s : ℕ} (hsrc : src < sh.numRanks) (hc : c < sh.numChannels)
    (ht : t ∈ selected (w.inputs src) g c) (hk : k < sh.numTopk) :
    m (.recvTokenToSlots (recvTokenId w.inputs g src t * sh.numTopk + k)) = (s : ℤ) ↔
      (w.plan hg).pairSlot c src (t * sh.numTopk + k) = s := by
  rw [PoolPlan.inverseMap_of_left left src hsrc c hc t ht k hk]

theorem slots_of_expert {e : ℕ} (he : e < sh.numExpertsPerRank) (s : ℕ) :
    (∃ src t, w.Reaches g src t ∧ ∃ k < sh.numTopk,
        (w.inputs src).RoutedTo g e (t * sh.numTopk + k) ∧
          m (.recvTokenToSlots (recvTokenId w.inputs g src t * sh.numTopk + k)) = (s : ℤ)) ↔
      expertPoolBlockOffset sh.toShape (w.seenTable g) e * sh.tileM ≤ s ∧
        s < expertPoolBlockOffset sh.toShape (w.seenTable g) e * sh.tileM +
          expertFrequency sh.toShape (w.seenTable g) e := by
  constructor
  · rintro ⟨src, t, ⟨hsrc, inside, goes⟩, k, hk, routed, stored⟩
    obtain ⟨c, hc, ht⟩ := exists_selected inside goes
    have slot := (slot_of_pair hg left hsrc hc ht hk).1 stored
    have pair := isPair_of_selected hc hsrc ht hk ((transformIdx_eq_iff he).2 routed) he
    have index : (w.plan hg).pairIndex e c src _ < (w.plan hg).expertFrequency e :=
      PoolPlan.pairIndex_lt pair
    rw [PoolPlan.pairSlot_of_isPair pair, Int.ofNat_inj] at slot
    rw [← slot]
    exact ⟨Nat.le_add_right _ _, Nat.add_lt_add_left index _⟩
  · rintro ⟨lower, upper⟩
    obtain ⟨c, hc, src, hsrc, t, ht, k, hk, key, slot⟩ :=
      PoolPlan.exists_pairSlot (w.plan hg) hg he lower upper
    exact ⟨src, t, reaches_of_selected hsrc ht, k, hk, (transformIdx_eq_iff he).1 key,
      (slot_of_pair hg left hsrc hc ht hk).2 slot⟩

theorem padding_of_none {s : ℕ} (none : ∀ src t, w.Reaches g src t → ∀ k < sh.numTopk,
      m (.recvTokenToSlots (recvTokenId w.inputs g src t * sh.numTopk + k)) ≠ (s : ℤ)) :
    m (.poolRecvToken s) = (-1 : ℤ) := by
  refine PoolPlan.left_padding left hg fun real => ?_
  obtain ⟨src, hsrc, c, hc, t, ht, k, hk, slot⟩ := (PoolPlan.realSlot_iff hg).1 real
  exact none src t (reaches_of_selected hsrc ht) k hk
    ((slot_of_pair hg left hsrc hc ht hk).2 slot)

end Left

/-- **Internode dispatch leaves the reference layout**, for every mixture of the sources,
every delivery in batches and every order of the receivers' stores. -/
theorem dispatch_reference (hg : g < sh.numRanks) (delivers : w.DeliversAll g batches)
    (left : LeftBy sh.numTopk (w.allLanded g batches) m) : w.ReferenceLayout g batches m := by
  have left := left.perm (allLanded_perm hg delivers)
  refine ⟨fun src hsrc => landed_source hg delivers hsrc, ids_bijection hg, ?_,
    fun e he => slots_of_expert hg left he, ?_, fun s => padding_of_none hg left⟩
  · rintro src t t' ⟨-, -, goes⟩ lt
    exact Nat.add_lt_add_left (Nat.count_strict_mono goes lt) _
  · rintro src t ⟨hsrc, ht, goes⟩
    obtain ⟨c, hc, mem⟩ := exists_selected ht goes
    exact PoolPlan.left_token hg hc hsrc mem ⟨rfl, fun _ _ => rfl⟩ left

end NodeWorld

end StreamEP.Internode
