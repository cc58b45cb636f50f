import StreamEP.PoolContents

/-!
# Where gradients land

The backward pass sends the gradient of every token the way its activation went.  The
messages carry no routing: a receiver derives the recv-token id of a packet from the order
of arrival and looks up the token's slots in `recv_token_to_slots`, which the forward run
left in memory.

**The statement.**  `GradsLanded` says what the two runs of a rank have to do with each other:
the ids that the backward receivers derive are those of the forward run, every real slot is
stored to once, and the value stored is the gradient of the token whose activation the slot
holds.  `stores` is the list of all stores of the backward run, so "once" is a count in that
list and not a property of a final memory.

**Why it is a lemma about plans.**  `PoolPlan.gradsLanded` derives it from what each run does to
the tokens of one source.  How the runs deliver their packets does not occur in it, so the two
topologies share it.  Its core is `nodup_allGradStores`: the pairs of a token have different
slots because the plan's slots are injective, and slots of different tokens differ for the same
reason.

The only thing asked of the forward memory is `InverseMap`, which `inverseMap_of_left` gets from
any run that did the plan's stores.
-/

namespace StreamEP

open Finset

variable {sh : Shape} {Row Weight Grad : Type}

/-- A gradient row with the id that the receiver derived for it. -/
structure LandedGrad (Grad : Type) where
  recvTokenId : ℕ
  row : Grad

/-- The stores of one packet into `dL_do_pool`, one for each slot of its token. -/
def LandedGrad.stores (numTopk : ℕ) (m : PoolMemory Row Weight) (l : LandedGrad Grad) :
    List (Store.Write fun _ : ℕ => Grad) :=
  (List.range numTopk).filterMap fun k =>
    let slot : ℤ := m (.recvTokenToSlots (l.recvTokenId * numTopk + k))
    if slot < 0 then none else some ⟨slot.toNat, l.row⟩

/-- What the receivers of a rank store, by source rank, then channel. -/
def allGradStores (sh : Shape) (m : PoolMemory Row Weight)
    (backward : ℕ → ℕ → List (LandedGrad Grad)) : List (Store.Write fun _ : ℕ => Grad) :=
  (List.range sh.numRanks).flatMap fun src =>
    (List.range sh.numChannels).flatMap fun c =>
      (backward c src).flatMap (LandedGrad.stores sh.numTopk m)

/-- What a forward run and a backward run do at rank `g`: `forward` and `backward` are the
tokens landed of each channel and source rank, `m` is the memory that the forward run left,
and `stores` is what the backward run stored. -/
structure GradsLanded (inputs : ℕ → DispatchInputs sh Row Weight) (real : ℕ → Prop)
    (dLdy : ℕ → ℕ → Grad) (forward : ℕ → ℕ → List (Landed Row Weight))
    (backward : ℕ → ℕ → List (LandedGrad Grad)) (m : PoolMemory Row Weight)
    (stores : List (Store.Write fun _ : ℕ => Grad)) : Prop where
  /-- The packets of each substream get the ids they got in the forward run. -/
  ids : ∀ c < sh.numChannels, ∀ src < sh.numRanks,
    (backward c src).map (·.recvTokenId) = (forward c src).map (·.recvTokenId)
  /-- No slot is stored to twice, -/
  once : (stores.map (·.1)).Nodup
  /-- and those that are stored to are the real ones, -/
  slots : ∀ s, s ∈ stores.map (·.1) ↔ real s
  /-- each of which some token wrote in the forward run. -/
  written : ∀ s, real s → ∃ c < sh.numChannels, ∃ src < sh.numRanks, ∃ l ∈ forward c src,
    ∃ k < sh.numTopk, l.slot k = s
  /-- The slot that a token wrote holds its row, and gets its gradient. -/
  rows : ∀ c < sh.numChannels, ∀ src < sh.numRanks, ∀ l ∈ forward c src, ∀ k < sh.numTopk,
    0 ≤ l.slot k → m (.pool (l.slot k).toNat) = (inputs src).x l.packet.srcIdx ∧
      ∀ init, Store.run stores init (l.slot k).toNat = dLdy src l.packet.srcIdx

namespace PoolPlan

variable {inputs : ℕ → DispatchInputs sh Row Weight} {g : ℕ} {plan : PoolPlan sh inputs g}

section Grads

variable (dLdy : ℕ → ℕ → Grad)

/-- The gradients of one substream, with the ids of their tokens. -/
def gradsOf (inputs : ℕ → DispatchInputs sh Row Weight) (g : ℕ) (dLdy : ℕ → ℕ → Grad)
    (c src : ℕ) : List (LandedGrad Grad) :=
  (selected (inputs src) g c).map fun t => ⟨recvTokenId inputs g src t, dLdy src t⟩

/-- The inverse map sends every token and `k` to the slot of the pair. -/
def InverseMap (plan : PoolPlan sh inputs g) (m : PoolMemory Row Weight) : Prop :=
  ∀ src < sh.numRanks, ∀ c < sh.numChannels, ∀ t ∈ selected (inputs src) g c,
    ∀ k < sh.numTopk,
      m (.recvTokenToSlots (recvTokenId inputs g src t * sh.numTopk + k)) =
        plan.pairSlot c src (t * sh.numTopk + k)

variable {dLdy} {m : PoolMemory Row Weight} (maps : plan.InverseMap m)

include maps

/-- The addresses of one token's stores. -/
theorem mem_stores {src c t s : ℕ} (hsrc : src < sh.numRanks) (hc : c < sh.numChannels)
    (ht : t ∈ selected (inputs src) g c) {v : Grad} :
    (⟨s, v⟩ : Store.Write fun _ : ℕ => Grad) ∈
        LandedGrad.stores sh.numTopk m ⟨recvTokenId inputs g src t, dLdy src t⟩ ↔
      (∃ k < sh.numTopk, plan.pairSlot c src (t * sh.numTopk + k) = s) ∧ v = dLdy src t := by
  rw [LandedGrad.stores, List.mem_filterMap]
  constructor
  · rintro ⟨k, hk, stored⟩
    have hk := List.mem_range.1 hk
    simp only [maps src hsrc c hc t ht k hk] at stored
    split_ifs at stored with none
    · obtain ⟨slot, row⟩ := Sigma.mk.inj (Option.some.inj stored)
      exact ⟨⟨k, hk, by omega⟩, (eq_of_heq row).symm⟩
  · rintro ⟨⟨k, hk, slot⟩, rfl⟩
    refine ⟨k, List.mem_range.2 hk, ?_⟩
    simp only [maps src hsrc c hc t ht k hk, slot]
    rw [if_neg (by omega), Int.toNat_natCast]

theorem mem_allGradStores {s : ℕ} {v : Grad} :
    (⟨s, v⟩ : Store.Write fun _ : ℕ => Grad) ∈ allGradStores sh m (gradsOf inputs g dLdy) ↔
      ∃ src < sh.numRanks, ∃ c < sh.numChannels, ∃ t ∈ selected (inputs src) g c,
        (∃ k < sh.numTopk, plan.pairSlot c src (t * sh.numTopk + k) = s) ∧ v = dLdy src t := by
  simp only [allGradStores, gradsOf, List.mem_flatMap, List.mem_range, List.mem_map]
  constructor
  · rintro ⟨src, hsrc, c, hc, _, ⟨t, ht, rfl⟩, stored⟩
    exact ⟨src, hsrc, c, hc, t, ht, (mem_stores maps hsrc hc ht).1 stored⟩
  · rintro ⟨src, hsrc, c, hc, t, ht, stored⟩
    exact ⟨src, hsrc, c, hc, _, ⟨t, ht, rfl⟩, (mem_stores maps hsrc hc ht).2 stored⟩

/-- Within a token no slot is stored to twice, because its pairs have different slots. -/
theorem nodup_stores {src c t : ℕ} (hsrc : src < sh.numRanks) (hc : c < sh.numChannels)
    (ht : t ∈ selected (inputs src) g c) {v : Grad} :
    ((LandedGrad.stores sh.numTopk m ⟨recvTokenId inputs g src t, v⟩).map (·.1)).Nodup := by
  rw [LandedGrad.stores, List.Nodup, List.pairwise_map, List.pairwise_filterMap]
  refine List.nodup_range.pairwise_of_forall_ne fun k hk k' hk' other => ?_
  have hk := List.mem_range.1 hk
  have hk' := List.mem_range.1 hk'
  intro w stored w' stored' same
  simp only [maps src hsrc c hc t ht k hk] at stored
  simp only [maps src hsrc c hc t ht k' hk'] at stored'
  split_ifs at stored stored' with none none'
  cases stored
  cases stored'
  have same : (plan.pairSlot c src (t * sh.numTopk + k)).toNat =
      (plan.pairSlot c src (t * sh.numTopk + k')).toNat := same
  have slot : plan.pairSlot c src (t * sh.numTopk + k) =
      plan.pairSlot c src (t * sh.numTopk + k') := by omega
  exact other (pairSlot_inj hc hsrc hc hsrc ht ht hk hk' (not_lt.1 none) slot).2.2.2

/-- **No slot is stored to twice.** -/
theorem nodup_allGradStores :
    ((allGradStores sh m (gradsOf inputs g dLdy)).map (·.1)).Nodup := by
  have slots : ∀ src < sh.numRanks, ∀ c < sh.numChannels, ∀ t ∈ selected (inputs src) g c,
      ∀ s ∈ (LandedGrad.stores sh.numTopk m
        ⟨recvTokenId inputs g src t, dLdy src t⟩).map (·.1),
      ∃ k < sh.numTopk, plan.pairSlot c src (t * sh.numTopk + k) = (s : ℕ) := by
    intro src hsrc c hc t ht s mem
    obtain ⟨⟨_, v⟩, stored, rfl⟩ := List.mem_map.1 mem
    exact ((mem_stores maps hsrc hc ht).1 stored).1
  -- a slot is that of one token only
  have alone : ∀ src < sh.numRanks, ∀ c < sh.numChannels, ∀ t ∈ selected (inputs src) g c,
      ∀ src' < sh.numRanks, ∀ c' < sh.numChannels, ∀ t' ∈ selected (inputs src') g c',
      ∀ s, s ∈ (LandedGrad.stores sh.numTopk m
          ⟨recvTokenId inputs g src t, dLdy src t⟩).map (·.1) →
        s ∈ (LandedGrad.stores sh.numTopk m
          ⟨recvTokenId inputs g src' t', dLdy src' t'⟩).map (·.1) →
        c = c' ∧ src = src' ∧ t = t' := by
    intro src hsrc c hc t ht src' hsrc' c' hc' t' ht' s mem mem'
    obtain ⟨k, hk, slot⟩ := slots src hsrc c hc t ht s mem
    obtain ⟨k', hk', slot'⟩ := slots src' hsrc' c' hc' t' ht' s mem'
    obtain ⟨hc, hsrc, ht, -⟩ := pairSlot_inj hc hsrc hc' hsrc' ht ht' hk hk'
      (by omega) (slot.trans slot'.symm)
    exact ⟨hc, hsrc, ht⟩
  simp only [allGradStores, gradsOf, List.map_flatMap, List.flatMap_map]
  refine Store.nodup_flatMap List.nodup_range (fun src hsrc => ?_) ?_
  · have hsrc := List.mem_range.1 hsrc
    refine Store.nodup_flatMap List.nodup_range (fun c hc => ?_) ?_
    · have hc := List.mem_range.1 hc
      refine Store.nodup_flatMap Stream.nodup_below (fun t ht => nodup_stores maps hsrc hc ht) ?_
      intro t ht t' ht' s mem mem'
      exact (alone src hsrc c hc t ht src hsrc c hc t' ht' s mem mem').2.2
    · intro c hc c' hc' s mem mem'
      obtain ⟨t, ht, mem⟩ := List.mem_flatMap.1 mem
      obtain ⟨t', ht', mem'⟩ := List.mem_flatMap.1 mem'
      exact (alone src hsrc c (List.mem_range.1 hc) t ht src hsrc c' (List.mem_range.1 hc') t' ht'
        s mem mem').1
  · intro src hsrc src' hsrc' s mem mem'
    obtain ⟨c, hc, mem⟩ := List.mem_flatMap.1 mem
    obtain ⟨t, ht, mem⟩ := List.mem_flatMap.1 mem
    obtain ⟨c', hc', mem'⟩ := List.mem_flatMap.1 mem'
    obtain ⟨t', ht', mem'⟩ := List.mem_flatMap.1 mem'
    exact (alone src (List.mem_range.1 hsrc) c (List.mem_range.1 hc) t ht src'
      (List.mem_range.1 hsrc') c' (List.mem_range.1 hc') t' ht' s mem mem').2.1

end Grads

/-- The forward run leaves the inverse map. -/
theorem inverseMap_of_left {packet : ℕ → ℕ → Packet Row Weight} {m : PoolMemory Row Weight}
    (left : LeftBy sh.numTopk (plan.landedTokens packet) m) : plan.InverseMap m := by
  obtain ⟨init, stores, -, all, rfl⟩ := left
  intro src hsrc c hc t ht k hk
  have maps := poolMaps_of_perm placed_landedTokens all init
  have mem : plan.landedOf packet c src t ∈ plan.landedTokens packet :=
    mem_landedTokens.2 ⟨src, hsrc, c, hc, t, ht, rfl⟩
  exact (maps.inverse _ mem k hk).trans (landedOf_slot hk)

/-- **A run of each pass, whatever their timing, puts every gradient where the activation of its
token went**: it is enough that both treat the tokens of one substream as the plan says. -/
theorem gradsLanded (hg : g < sh.numRanks) {packet : ℕ → ℕ → Packet Row Weight}
    {m : PoolMemory Row Weight} (left : LeftBy sh.numTopk (plan.landedTokens packet) m)
    (carries : ∀ src t, (packet src t).x = (inputs src).x t ∧ (packet src t).srcIdx = t)
    {dLdy : ℕ → ℕ → Grad} {forward : ℕ → ℕ → List (Landed Row Weight)}
    {backward : ℕ → ℕ → List (LandedGrad Grad)}
    (forward_eq : ∀ c < sh.numChannels, ∀ src < sh.numRanks,
      forward c src = (selected (inputs src) g c).map (plan.landedOf packet c src))
    (backward_eq : ∀ c < sh.numChannels, ∀ src < sh.numRanks,
      backward c src = gradsOf inputs g dLdy c src)
    {stores : List (Store.Write fun _ : ℕ => Grad)}
    (all : stores.Perm (allGradStores sh m backward)) :
    GradsLanded inputs plan.RealSlot dLdy forward backward m stores := by
  have maps := inverseMap_of_left left
  have same : allGradStores sh m backward = allGradStores sh m (gradsOf inputs g dLdy) := by
    unfold allGradStores
    refine List.flatMap_congr fun src hsrc => List.flatMap_congr fun c hc => ?_
    rw [backward_eq c (List.mem_range.1 hc) src (List.mem_range.1 hsrc)]
  rw [same] at all
  have once : (stores.map (·.1)).Nodup :=
    (all.map _).nodup_iff.2 (nodup_allGradStores maps)
  -- a token's slot gets its gradient
  have stored : ∀ src < sh.numRanks, ∀ c < sh.numChannels, ∀ t ∈ selected (inputs src) g c,
      ∀ k < sh.numTopk, ∀ s : ℕ, plan.pairSlot c src (t * sh.numTopk + k) = s →
        (⟨s, dLdy src t⟩ : Store.Write fun _ : ℕ => Grad) ∈ stores := by
    intro src hsrc c hc t ht k hk s slot
    exact all.mem_iff.2 ((mem_allGradStores maps).2
      ⟨src, hsrc, c, hc, t, ht, ⟨k, hk, slot⟩, rfl⟩)
  refine ⟨?_, once, ?_, ?_, ?_⟩
  · intro c hc src hsrc
    rw [forward_eq c hc src hsrc, backward_eq c hc src hsrc, gradsOf, List.map_map, List.map_map]
    rfl
  · intro s
    constructor
    · intro mem
      obtain ⟨⟨s, v⟩, here, rfl⟩ := List.mem_map.1 mem
      obtain ⟨src, hsrc, c, hc, t, ht, ⟨k, hk, slot⟩, -⟩ :=
        (mem_allGradStores maps).1 (all.mem_iff.1 here)
      exact (realSlot_iff hg).2 ⟨src, hsrc, c, hc, t, ht, k, hk, slot⟩
    · intro real
      obtain ⟨src, hsrc, c, hc, t, ht, k, hk, slot⟩ := (realSlot_iff hg).1 real
      exact List.mem_map.2 ⟨_, stored src hsrc c hc t ht k hk s slot, rfl⟩
  · intro s real
    obtain ⟨src, hsrc, c, hc, t, ht, k, hk, slot⟩ := (realSlot_iff hg).1 real
    refine ⟨c, hc, src, hsrc, plan.landedOf packet c src t, ?_, k, hk, ?_⟩
    · rw [forward_eq c hc src hsrc]
      exact List.mem_map_of_mem ht
    · exact (landedOf_slot hk).trans slot
  · intro c hc src hsrc l mem k hk assigned
    rw [forward_eq c hc src hsrc] at mem
    obtain ⟨t, ht, rfl⟩ := List.mem_map.1 mem
    rw [landedOf_slot hk] at assigned ⊢
    obtain ⟨s, slot⟩ := Int.eq_ofNat_of_zero_le assigned
    have token : (plan.landedOf packet c src t).packet = packet src t := rfl
    rw [token, (carries src t).2, slot, Int.toNat_natCast]
    refine ⟨(left_pair left hsrc hc ht hk slot).1.trans (carries src t).1, fun init => ?_⟩
    exact Store.run_of_mem once (stored src hsrc c hc t ht k hk s slot) init

end PoolPlan

end StreamEP
