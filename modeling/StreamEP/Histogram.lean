import StreamEP.Lib.BitMask
import StreamEP.Lib.Store
import StreamEP.Routing

/-!
# Histograms over the routing

Both metadata kernels count the routing of their rank in shared memory: every thread
walks the experts its tokens chose and adds one to a cell for each, or one for each
owner it has not met yet.  The kernels differ in what a cell stands for and in how it
is addressed, so both histograms are stated for an arbitrary address.

**Atomics.**  The histogram is filled by atomics whose order no one controls; atomic additions
commute, so the model fixes the order of the loop.  Nothing reads a cell before the block has
synchronised.

**Pairs and owners.**  `pairHistogram` adds once for every chosen expert, so it counts pairs of
a token and one of its choices.  `tokenHistogram` adds once for every owner of a chosen expert,
so it counts tokens; the bitmap that a thread keeps is the set of owners it has met.  An owner is
a rank or, between nodes, a node.

**What a cell means.**  `pairHistogram_apply` and `tokenHistogram_apply` say which tokens a cell
counts when its address stands for a choice and a property of the token: the property is that the
token is in a channel, or none.  The functions of the two kernels are instances.
-/

namespace StreamEP

open Finset

variable {sh : Shape} {Row Weight : Type} (inp : DispatchInputs sh Row Weight)

/-- `channel_id` of a token. -/
def channelId (t : ℕ) : ℕ := t / ceilDiv inp.numTokens sh.numChannels

/-- The experts of token `t` that the loop over `k` does not skip. -/
def chosen (t : ℕ) : List ℕ :=
  (List.range sh.numTopk).flatMap fun k =>
    let eGlobal := inp.topkIdx (t * sh.numTopk + k)
    if eGlobal < 0 then [] else [eGlobal.toNat]

/-- One addition for each chosen expert of each token. -/
def pairHistogram (cell : ℕ → ℕ → ℕ) : ℕ → ℕ :=
  Store.addAll ((List.range inp.numTokens).flatMap fun t =>
    (chosen inp t).map fun eGlobal => (cell t eGlobal, 1)) fun _ => 0

/-- One addition for each owner of a chosen expert of each token. -/
def tokenHistogram (owner : ℕ → ℕ) (cell : ℕ → ℕ → ℕ) : ℕ → ℕ :=
  Store.addAll ((List.range inp.numTokens).flatMap fun t =>
    (BitMask.firstSeen ((chosen inp t).map owner) 0).map fun d => (cell t d, 1)) fun _ => 0

/-! ### Pairs -/

theorem mem_chosen {t e : ℕ} :
    e ∈ chosen inp t ↔ ∃ k < sh.numTopk, inp.topkIdx (t * sh.numTopk + k) = e := by
  simp only [chosen, List.mem_flatMap, List.mem_range]
  constructor
  · rintro ⟨k, hk, he⟩
    by_cases skipped : inp.topkIdx (t * sh.numTopk + k) < 0
    · simp [skipped] at he
    · rw [if_neg skipped, List.mem_singleton] at he
      exact ⟨k, hk, by rw [he, Int.toNat_of_nonneg (not_lt.1 skipped)]⟩
  · rintro ⟨k, hk, he⟩
    refine ⟨k, hk, ?_⟩
    rw [he, if_neg (by omega), Int.toNat_natCast]
    exact List.mem_singleton_self _

/-- What one pair adds to the cell of `(dst, e)`. -/
private theorem added_pair (cell : ℕ → ℕ) {a dst e p : ℕ} {here : Prop} [Decidable here]
    (addr : ∀ eGlobal, cell eGlobal = a ↔ here ∧ eGlobal = dst * sh.numExpertsPerRank + e) :
    Store.added ((if inp.topkIdx p < 0 then [] else [(inp.topkIdx p).toNat]).map
        fun eGlobal => (cell eGlobal, 1)) a =
      if here ∧ inp.RoutedTo dst e p then 1 else 0 := by
  by_cases skipped : inp.topkIdx p < 0
  · have unrouted : ¬inp.RoutedTo dst e p := fun routed => by
      rw [DispatchInputs.RoutedTo] at routed
      omega
    rw [if_pos skipped, if_neg fun h => unrouted h.2]
    rfl
  · obtain ⟨g, hg⟩ := Int.eq_ofNat_of_zero_le (not_lt.1 skipped)
    have routed : inp.RoutedTo dst e p ↔ g = dst * sh.numExpertsPerRank + e := by
      rw [DispatchInputs.RoutedTo, hg]
      exact Int.ofNat_inj
    rw [if_neg skipped, hg, Int.toNat_natCast, List.map_singleton, Store.added_cons,
      Store.added_nil, Nat.add_zero]
    simp only [addr, routed]

/-- A cell that stands for expert `e` of rank `dst` and for the tokens with `here`. -/
theorem pairHistogram_apply {cell : ℕ → ℕ → ℕ} {a dst e : ℕ} {here : ℕ → Prop}
    [DecidablePred here]
    (addr : ∀ t < inp.numTokens, ∀ eGlobal,
      cell t eGlobal = a ↔ here t ∧ eGlobal = dst * sh.numExpertsPerRank + e) :
    pairHistogram inp cell a =
      ∑ t ∈ range inp.numTokens, ∑ k ∈ range sh.numTopk,
        if here t ∧ inp.RoutedTo dst e (t * sh.numTopk + k) then 1 else 0 := by
  rw [pairHistogram, Store.addAll_apply, Nat.zero_add, Store.added_flatMap_range]
  refine sum_congr rfl fun t ht => ?_
  simp only [chosen, List.map_flatMap]
  rw [Store.added_flatMap_range]
  exact sum_congr rfl fun k _ => added_pair inp (cell t) (addr t (mem_range.1 ht))

/-- A cell for the pairs of one channel. -/
theorem pairHistogram_channel {cell : ℕ → ℕ → ℕ} {a dst c e : ℕ}
    (addr : ∀ t < inp.numTokens, ∀ eGlobal,
      cell t eGlobal = a ↔
        channelId inp t = c ∧ eGlobal = dst * sh.numExpertsPerRank + e) :
    pairHistogram inp cell a = inp.pairsIn dst e c := by
  rw [pairHistogram_apply inp addr]
  exact inp.sum_pairs_window dst e c

/-! ### Owners -/

/-- The owners of a token's chosen experts are the ranks its bitmap marks. -/
theorem mem_owners {t dst : ℕ} (ht : t < inp.numTokens) (hdst : dst < sh.numRanks) :
    dst ∈ (chosen inp t).map (· / sh.numExpertsPerRank) ↔ inp.InRank dst t := by
  rw [DispatchInputs.InRank, inp.isTokenInRank_iff t ht dst hdst, List.mem_map]
  constructor
  · rintro ⟨g, hg, owner⟩
    obtain ⟨k, hk, here⟩ := (mem_chosen inp).1 hg
    refine ⟨k, hk, by omega, ?_⟩
    rw [here, ← Int.natCast_ediv, owner]
  · rintro ⟨k, hk, nonneg, owner⟩
    obtain ⟨g, here⟩ := Int.eq_ofNat_of_zero_le nonneg
    refine ⟨g, (mem_chosen inp).2 ⟨k, hk, here⟩, ?_⟩
    rw [here, ← Int.natCast_ediv] at owner
    exact_mod_cast owner

/-- A cell that stands for owner `dst` and for the tokens with `here`. -/
theorem tokenHistogram_apply {owner : ℕ → ℕ} {cell : ℕ → ℕ → ℕ} {a dst : ℕ}
    {here goes : ℕ → Prop} [DecidablePred here] [DecidablePred goes]
    (addr : ∀ t < inp.numTokens, ∀ d, cell t d = a ↔ here t ∧ d = dst)
    (owners : ∀ t < inp.numTokens, dst ∈ (chosen inp t).map owner ↔ goes t) :
    tokenHistogram inp owner cell a =
      ∑ t ∈ range inp.numTokens, if here t ∧ goes t then 1 else 0 := by
  rw [tokenHistogram, Store.addAll_apply, Nat.zero_add, Store.added_flatMap_range]
  refine sum_congr rfl fun t ht => ?_
  have counted : Store.added ((BitMask.firstSeen ((chosen inp t).map owner) 0).map
        fun d => (cell t d, 1)) a =
      if here t then (BitMask.firstSeen ((chosen inp t).map owner) 0).count dst else 0 := by
    have addr := addr t (mem_range.1 ht)
    induction BitMask.firstSeen ((chosen inp t).map owner) 0 with
    | nil => simp
    | cons d ds ih =>
        rw [List.map_cons, Store.added_cons, ih, List.count_cons]
        simp only [addr]
        by_cases now : here t
        · by_cases same : d = dst <;> simp [now, same, Nat.add_comm]
        · simp [now]
  rw [counted, BitMask.count_firstSeen, Nat.zero_testBit]
  simp only [owners t (mem_range.1 ht), and_true, ite_and]

/-- A cell for all tokens. -/
theorem tokenHistogram_total {owner : ℕ → ℕ} {cell : ℕ → ℕ → ℕ} {a dst : ℕ}
    {goes : ℕ → Prop} [DecidablePred goes]
    (addr : ∀ t < inp.numTokens, ∀ d, cell t d = a ↔ d = dst)
    (owners : ∀ t < inp.numTokens, dst ∈ (chosen inp t).map owner ↔ goes t) :
    tokenHistogram inp owner cell a = Nat.count goes inp.numTokens := by
  have all : ∀ t < inp.numTokens, ∀ d, cell t d = a ↔ (fun _ => True) t ∧ d = dst :=
    fun t ht d => (addr t ht d).trans (and_iff_right trivial).symm
  rw [PrefixSum.count_eq_sum, tokenHistogram_apply inp all owners]
  simp only [true_and]

end StreamEP
