import StreamEP.Intranode.Dispatch

/-!
# The layout intranode dispatch leaves at a rank

`PoolLayout` collects what the receivers of one rank produce together: every
assigned slot is assigned once, the slots of each expert are exactly its
interval, the recv-token ids number the routed tokens by source rank and source
token, and the forward and inverse maps in memory agree.

None of it mentions time.  `dispatch_layout` proves it for every delivery of
every substream in batches, and for every order in which the receivers' stores
reach memory.

The order drops out in two steps.  What one receiver lands depends on its substream alone
(`landed_eq`), so all receivers together land what the plan says (`allLanded_eq`), in the order
of source ranks and channels.  The fields of the layout are read off this list, one lemma each
(`layout_…`); they say in particular that no slot and no id is used twice (`layout_placed`), and
so the stores of the receivers do not get in each other's way, and memory is the same in any
order.

The example at the end, two ranks with two experts each and up to three tokens, is the
intranode example of other modules as well.
-/

namespace StreamEP.Intranode

open Finset

variable {sh : Shape} {Row Weight : Type} [Zero Weight]

namespace World

variable (w : World sh Row Weight) (g : ℕ)

/-- Batches for every (channel, source) substream of rank `g`. -/
abbrev Deliveries (Row Weight : Type) : Type := ℕ → ℕ → List (Batches.Batch (Packet Row Weight))

/-- Every substream of rank `g` is delivered. -/
def DeliversAll (batches : Deliveries Row Weight) : Prop :=
  ∀ c < sh.numChannels, ∀ src < sh.numRanks,
    Batches.Delivers w.numRecvBufferTokens (substream (w.inputs src) g c) 0 (batches c src)

/-- What the receiver of one substream lands. -/
def landed (batches : Deliveries Row Weight) (c src : ℕ) : List (Landed Row Weight) :=
  (w.dispatchReceiver g c src (batches c src)).landed

/-- What all receivers of the rank land, by source rank, then channel. -/
def allLanded (batches : Deliveries Row Weight) : List (Landed Row Weight) :=
  (List.range sh.numRanks).flatMap fun src =>
    (List.range sh.numChannels).flatMap fun c => w.landed g batches c src

/-- The tokens routed to rank `g`, by source rank and source token. -/
def routedTokens : List (ℕ × ℕ) :=
  (List.range sh.numRanks).flatMap fun src =>
    ((List.range (w.inputs src).numTokens).filter ((w.inputs src).InRank g)).map (src, ·)

/-- Everything the receivers of rank `g` produce together. -/
structure PoolLayout (batches : Deliveries Row Weight) : Prop where
  /-- No slot is assigned twice. -/
  slots_once : ∀ c < sh.numChannels, ∀ src < sh.numRanks,
    ∀ c' < sh.numChannels, ∀ src' < sh.numRanks, ∀ (j j' : ℕ) (l l' : Landed Row Weight),
    (w.landed g batches c src)[j]? = some l → (w.landed g batches c' src')[j']? = some l' →
    ∀ k < sh.numTopk, ∀ k' < sh.numTopk, 0 ≤ l.slot k → l.slot k = l'.slot k' →
      c = c' ∧ src = src' ∧ j = j' ∧ k = k'
  /-- The slots of expert `e` are exactly its interval. -/
  slots_tile : ∀ e < sh.numExpertsPerRank, ∀ s : ℕ,
    (∃ c < sh.numChannels, ∃ src < sh.numRanks, ∃ l ∈ w.landed g batches c src,
        ∃ k < sh.numTopk, l.packet.topkIdx k = e ∧ l.slot k = s) ↔
      expertPoolBlockOffset sh (w.eIn g) e * sh.tileM ≤ s ∧
        s < expertPoolBlockOffset sh (w.eIn g) e * sh.tileM +
          expertFrequency sh (w.eIn g) e
  /-- A pair has a slot exactly when its expert is local. -/
  slots_local : ∀ c < sh.numChannels, ∀ src < sh.numRanks,
    ∀ l ∈ w.landed g batches c src, ∀ k < sh.numTopk,
      (0 ≤ l.slot k ↔ 0 ≤ l.packet.topkIdx k) ∧ -1 ≤ l.slot k ∧
        l.slot k < totalTiles sh (w.eIn g) * sh.tileM
  /-- The landed packets are the packets of the routed tokens, in order. -/
  tokens : (w.allLanded g batches).map (·.packet) =
    (w.routedTokens g).map fun st => packetOf (w.inputs st.1) g st.2
  /-- Their ids are consecutive from zero. -/
  ids : (w.allLanded g batches).map (·.recvTokenId) =
    List.range (numRecvTokens sh (w.uIn g))
  /-- Memory holds the rows and the maps, for any order of the stores. -/
  maps : ∀ (stores : List (PoolStore Row Weight)) (init : PoolMemory Row Weight),
    stores.Perm (allStores sh.numTopk (w.allLanded g batches)) →
      PoolMaps sh.numTopk (w.allLanded g batches) init (Store.run stores init)
  /-- The forward and inverse maps are inverse to each other. -/
  maps_inverse : ∀ (stores : List (PoolStore Row Weight)) (init : PoolMemory Row Weight),
    stores.Perm (allStores sh.numTopk (w.allLanded g batches)) →
    (∀ s, init (.poolRecvToken s) = -1) →
    ∀ r < numRecvTokens sh (w.uIn g), ∀ k < sh.numTopk, ∀ s : ℕ,
      Store.run stores init (.recvTokenToSlots (r * sh.numTopk + k)) = (s : ℤ) ↔
        Store.run stores init (.poolRecvToken s) = (r : ℤ) ∧
          Store.run stores init (.poolKSlot s) = (k : ℤ)

variable {w g} {batches : Deliveries Row Weight} {c src : ℕ}

section Fields

variable (hg : g < sh.numRanks) (cleared : sh.numExpertsPerRank ≤ numThreadsPerRank sh)
  (delivers : w.DeliversAll g batches)

include hg cleared delivers

/-! ### Landed tokens are selected tokens -/

theorem landed_eq (hc : c < sh.numChannels) (hsrc : src < sh.numRanks) :
    w.landed g batches c src = (selected (w.inputs src) g c).map (w.landedOf g c src) :=
  dispatchReceiver_landed hg hsrc cleared (delivers c hc src hsrc)

/-- Together the receivers land what the plan says. -/
theorem allLanded_eq :
    w.allLanded g batches =
      (w.plan g).landedTokens fun src => packetOf (w.inputs src) g := by
  unfold allLanded PoolPlan.landedTokens
  refine List.flatMap_congr fun src hsrc => List.flatMap_congr fun c hc => ?_
  exact landed_eq hg cleared delivers (List.mem_range.1 hc) (List.mem_range.1 hsrc)

theorem mem_landed (hc : c < sh.numChannels) (hsrc : src < sh.numRanks)
    {l : Landed Row Weight} :
    l ∈ w.landed g batches c src ↔
      ∃ t ∈ selected (w.inputs src) g c, w.landedOf g c src t = l := by
  rw [landed_eq hg cleared delivers hc hsrc, List.mem_map]

theorem landed_getElem? (hc : c < sh.numChannels) (hsrc : src < sh.numRanks) {j : ℕ}
    {l : Landed Row Weight} (hl : (w.landed g batches c src)[j]? = some l) :
    ∃ t ∈ selected (w.inputs src) g c, w.landedOf g c src t = l ∧
      ringPos (w.inputs src) g c t = j := by
  rw [landed_eq hg cleared delivers hc hsrc, List.getElem?_map, Option.map_eq_some_iff] at hl
  obtain ⟨t, ht, rfl⟩ := hl
  obtain ⟨hj, rfl⟩ := List.getElem?_eq_some_iff.1 ht
  exact ⟨_, List.getElem_mem hj, rfl, ringPos_selected hj⟩

/-! ### The fields of the layout -/

theorem layout_slots_once {c' src' j j' k k' : ℕ} {l l' : Landed Row Weight}
    (hc : c < sh.numChannels) (hsrc : src < sh.numRanks) (hc' : c' < sh.numChannels)
    (hsrc' : src' < sh.numRanks) (hl : (w.landed g batches c src)[j]? = some l)
    (hl' : (w.landed g batches c' src')[j']? = some l') (hk : k < sh.numTopk)
    (hk' : k' < sh.numTopk) (assigned : 0 ≤ l.slot k) (same : l.slot k = l'.slot k') :
    c = c' ∧ src = src' ∧ j = j' ∧ k = k' := by
  obtain ⟨t, ht, rfl, rfl⟩ := landed_getElem? hg cleared delivers hc hsrc hl
  obtain ⟨t', ht', rfl, rfl⟩ := landed_getElem? hg cleared delivers hc' hsrc' hl'
  rw [landedOf, PoolPlan.landedOf_slot hk] at assigned same
  rw [landedOf, PoolPlan.landedOf_slot hk'] at same
  obtain ⟨rfl, rfl, rfl, rfl⟩ :=
    PoolPlan.pairSlot_inj hc hsrc hc' hsrc' ht ht' hk hk' assigned same
  exact ⟨rfl, rfl, rfl, rfl⟩

theorem layout_slots_tile {e : ℕ} (he : e < sh.numExpertsPerRank) (s : ℕ) :
    (∃ c < sh.numChannels, ∃ src < sh.numRanks, ∃ l ∈ w.landed g batches c src,
        ∃ k < sh.numTopk, l.packet.topkIdx k = e ∧ l.slot k = s) ↔
      expertPoolBlockOffset sh (w.eIn g) e * sh.tileM ≤ s ∧
        s < expertPoolBlockOffset sh (w.eIn g) e * sh.tileM +
          expertFrequency sh (w.eIn g) e := by
  constructor
  · rintro ⟨c, hc, src, hsrc, l, hl, k, hk, key, slot⟩
    obtain ⟨t, ht, rfl⟩ := (mem_landed hg cleared delivers hc hsrc).1 hl
    have pair := isPair_of_selected hc hsrc ht hk key he
    rw [landedOf, PoolPlan.landedOf_slot hk, PoolPlan.pairSlot_of_isPair pair,
      Int.ofNat_inj] at slot
    have index : (w.plan g).pairIndex e c src _ < expertFrequency sh (w.eIn g) e :=
      PoolPlan.pairIndex_lt pair
    have first : (w.plan g).expertPoolBlockOffset e = expertPoolBlockOffset sh (w.eIn g) e :=
      rfl
    rw [first] at slot
    omega
  · rintro ⟨lower, upper⟩
    obtain ⟨c, hc, src, hsrc, t, ht, k, hk, key, slot⟩ :=
      PoolPlan.exists_pairSlot (w.plan g) hg he lower upper
    refine ⟨c, hc, src, hsrc, _, (mem_landed hg cleared delivers hc hsrc).2 ⟨t, ht, rfl⟩, k, hk,
      key, ?_⟩
    rw [landedOf, PoolPlan.landedOf_slot hk, slot]

theorem layout_slots_local {k : ℕ} {l : Landed Row Weight} (hc : c < sh.numChannels)
    (hsrc : src < sh.numRanks) (hl : l ∈ w.landed g batches c src) (hk : k < sh.numTopk) :
    (0 ≤ l.slot k ↔ 0 ≤ l.packet.topkIdx k) ∧ -1 ≤ l.slot k ∧
      l.slot k < totalTiles sh (w.eIn g) * sh.tileM := by
  obtain ⟨t, ht, rfl⟩ := (mem_landed hg cleared delivers hc hsrc).1 hl
  have key : (w.landedOf g c src t).packet.topkIdx k =
      transformIdx sh g ((w.inputs src).topkIdx (t * sh.numTopk + k)) := rfl
  rw [key, landedOf, PoolPlan.landedOf_slot hk]
  rcases PoolPlan.pairSlot_cases (w.plan g) hc hsrc ht hk with
    ⟨none, slot⟩ | ⟨e, here, pair⟩
  · have nonneg : (0 : ℤ) ≤ totalTiles sh (w.eIn g) * sh.tileM :=
      Int.mul_nonneg (Int.natCast_nonneg _) (Int.natCast_nonneg _)
    rw [none, slot]
    exact ⟨Iff.rfl, by omega, by omega⟩
  · have index : (w.plan g).pairIndex e c src (t * sh.numTopk + k) <
        (w.plan g).expertFrequency e := PoolPlan.pairIndex_lt pair
    have inside : (w.plan g).expertPoolBlockOffset e * sh.tileM +
        (w.plan g).expertFrequency e ≤ totalTiles sh (w.eIn g) * sh.tileM :=
      PoolPlan.expert_block_le_totalTiles pair.expert
    have below : (w.plan g).expertPoolBlockOffset e * sh.tileM +
        (w.plan g).pairIndex e c src (t * sh.numTopk + k) <
          totalTiles sh (w.eIn g) * sh.tileM := by omega
    rw [PoolPlan.pairSlot_of_isPair pair, here]
    exact ⟨iff_of_true (Int.natCast_nonneg _) (Int.natCast_nonneg _), by omega,
      by exact_mod_cast below⟩

/-- Packets in order: by source rank, and by source token within a source. -/
theorem layout_tokens :
    (w.allLanded g batches).map (·.packet) =
      (w.routedTokens g).map fun st => packetOf (w.inputs st.1) g st.2 := by
  rw [allLanded_eq hg cleared delivers]
  simp only [PoolPlan.landedTokens, routedTokens, List.map_flatMap, List.map_map]
  refine List.flatMap_congr fun src _ => ?_
  have perChannel : ∀ c ∈ List.range sh.numChannels,
      (selected (w.inputs src) g c).map ((·.packet) ∘ (w.plan g).landedOf
        (fun src => packetOf (w.inputs src) g) c src) =
      (selected (w.inputs src) g c).map (packetOf (w.inputs src) g) := fun _ _ => rfl
  rw [List.flatMap_congr perChannel, ← List.map_flatMap, flatMap_selected,
    channelStart_last sh.numChannels_pos, Stream.below_zero]
  rfl

/-- Ids count up along the same order. -/
theorem layout_ids :
    (w.allLanded g batches).map (·.recvTokenId) =
      List.range (numRecvTokens sh (w.uIn g)) := by
  rw [allLanded_eq hg cleared delivers, PoolPlan.map_recvTokenId_landedTokens, numRecvTokens,
    cumSrc_eq hg le_rfl]

/-- Ids and slots of all landed tokens are used once. -/
theorem layout_placed : Placed sh.numTopk (w.allLanded g batches) := by
  rw [allLanded_eq hg cleared delivers]
  exact PoolPlan.placed_landedTokens

/-- Every id below the number of received tokens was landed. -/
theorem exists_landed_id {r : ℕ} (hr : r < numRecvTokens sh (w.uIn g)) :
    ∃ l ∈ w.allLanded g batches, l.recvTokenId = r := by
  rw [numRecvTokens, cumSrc_eq hg le_rfl] at hr
  rw [allLanded_eq hg cleared delivers]
  exact PoolPlan.exists_landedTokens_id hr

end Fields

/-- **Slot allocation does not depend on timing.**  However the rings deliver their
substreams in batches, and in whatever order the stores reach memory, the receivers
of rank `g` leave the layout that the routing determines. -/
theorem dispatch_layout (hg : g < sh.numRanks)
    (cleared : sh.numExpertsPerRank ≤ numThreadsPerRank sh)
    (delivers : w.DeliversAll g batches) : w.PoolLayout g batches where
  slots_once _ hc _ hsrc _ hc' _ hsrc' _ _ _ _ hl hl' _ hk _ hk' assigned same :=
    layout_slots_once hg cleared delivers hc hsrc hc' hsrc' hl hl' hk hk' assigned same
  slots_tile _ he s := layout_slots_tile hg cleared delivers he s
  slots_local _ hc _ hsrc _ hl _ hk := layout_slots_local hg cleared delivers hc hsrc hl hk
  tokens := layout_tokens hg cleared delivers
  ids := layout_ids hg cleared delivers
  maps _ init all := poolMaps_of_perm (layout_placed hg cleared delivers) all init
  maps_inverse stores init all padded r hr k hk s := by
    have placed := layout_placed hg cleared delivers
    obtain ⟨l, hl, rfl⟩ := exists_landed_id hg cleared delivers hr
    exact (poolMaps_of_perm placed all init).recvTokenToSlots_eq_iff placed padded hl hk s

/-! ### An instance -/

/-- Two ranks with two experts each; rank 1 sends one token less than rank 0. -/
def exampleShape : Shape where
  numRanks := 2
  numChannels := 2
  numExpertsPerRank := 2
  numTopk := 2
  tileM := 2
  numRanks_pos := Nat.two_pos
  numChannels_pos := Nat.two_pos
  numExpertsPerRank_pos := Nat.two_pos
  tileM_pos := Nat.two_pos

/-- Tokens choose experts of both ranks, of one rank, or a single expert. -/
def exampleInputs (numTokens : ℕ) (few : numTokens ≤ 3) : DispatchInputs exampleShape ℕ ℕ where
  numTokens := numTokens
  x t := t
  topkIdx p := [1, 2, 3, -1, 0, 1].getD p (-1)
  topkWeights p := p + 1
  isTokenInRank i := [true, true, false, true, true, false].getD i false
  topkIdx_lower t ht := by
    have below : t < 3 := lt_of_lt_of_le ht few
    clear ht few
    revert t
    decide
  topkIdx_upper t ht := by
    have below : t < 3 := lt_of_lt_of_le ht few
    clear ht few
    revert t
    decide
  topkIdx_distinct t ht := by
    have below : t < 3 := lt_of_lt_of_le ht few
    clear ht few
    revert t
    decide
  isTokenInRank_iff t ht := by
    have below : t < 3 := lt_of_lt_of_le ht few
    clear ht few
    revert t
    decide

/-- A dispatch of those inputs over rings of two slots. -/
def exampleWorld : World exampleShape ℕ ℕ where
  inputs src := if src = 0 then exampleInputs 3 (by decide) else exampleInputs 2 (by decide)
  numRecvBufferTokens := 2
  staleE _ _ := 7
  staleU _ _ := 7
  uninitSeen _ := 7
  uninitSlot _ := 7

/-- The layout of rank 0 when its packets arrive one at a time. -/
theorem exampleWorld_layout :
    exampleWorld.PoolLayout 0 fun c src =>
      Batches.oneByOne (substream (exampleWorld.inputs src) 0 c) :=
  dispatch_layout (by decide) (by decide) fun _ _ _ _ => Batches.delivers_oneByOne _ _

end World

end StreamEP.Intranode
