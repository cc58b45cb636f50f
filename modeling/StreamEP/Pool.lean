import StreamEP.Lib.Loop
import StreamEP.Lib.Store
import StreamEP.Routing

/-!
# The receiver's pool

A dispatch receiver takes packets off a ring and lays their rows out in `pool`,
grouped by local expert: a token chosen by several local experts occupies one
slot for each of them.  This file has what both transports share:

* `Packet`, a ring slot, and `localTopkIdx`, the local expert it carries for `k`;
* `Cell`, the addresses a receiver writes, and `Landed.stores`, the stores of
  Pass B for one token;
* `passA`, the allocation of Pass A, with its running counters.

**Memory is typed by address.**  The outputs of dispatch are tensors of different types.
`PoolMemory` is a dependent function from cells to values, so a store carries a value of the type
of its address and one memory holds them all.  Fresh outputs have their maps at `-1`; the rows
and weights hold anything.

**The allocation does not depend on how packets are batched.**  The slot of the
pair at flat position `p` of a substream is the expert's base plus the number of
earlier positions of the substream with the same expert (`passA_spec`); batches
only decide where the walk over the positions pauses.  The invariant of the walk is `AllocInv`:
after `n` positions of a sub-batch the counters are those of the whole substream up to there.

**One walk, two receivers.**  The receivers of the two topologies differ in how they get at a
packet and at the base of an expert, and both are parameters of `passA`.
-/

namespace StreamEP

open Loop

variable {sh : Shape} {Row Weight : Type}

/-! ### Packets -/

/-- One ring slot: a row, its source token, and per `k` an expert and a weight. -/
structure Packet (Row Weight : Type) where
  x : Row
  srcIdx : ℕ
  topkIdx : ℕ → ℤ
  topkWeights : ℕ → Weight

/-! ### What a receiver writes -/

/-- The addresses of the dispatch outputs. -/
inductive Cell where
  | pool (slot : ℕ)
  | poolTopkWeight (slot : ℕ)
  | poolRecvToken (slot : ℕ)
  | poolKSlot (slot : ℕ)
  | recvTokenToSlots (idx : ℕ)
  | kLocalRemaining (recvToken : ℕ)
  | kLocalTotal (recvToken : ℕ)
  deriving DecidableEq

/-- The type of the value at an address. -/
@[reducible] def Cell.Val (Row Weight : Type) : Cell → Type
  | .pool _ => Row
  | .poolTopkWeight _ => Weight
  | .poolRecvToken _ => ℤ
  | .poolKSlot _ => ℤ
  | .recvTokenToSlots _ => ℤ
  | .kLocalRemaining _ => ℕ
  | .kLocalTotal _ => ℕ

/-- The dispatch outputs of one rank. -/
abbrev PoolMemory (Row Weight : Type) : Type := (a : Cell) → a.Val Row Weight

/-- Freshly allocated outputs: maps at `-1`, counters at zero. -/
def freshMemory (row : Row) (weight : Weight) : PoolMemory Row Weight
  | .pool _ => row
  | .poolTopkWeight _ => weight
  | .poolRecvToken _ => (-1 : ℤ)
  | .poolKSlot _ => (-1 : ℤ)
  | .recvTokenToSlots _ => (0 : ℤ)
  | .kLocalRemaining _ => (0 : ℕ)
  | .kLocalTotal _ => (0 : ℕ)

/-- One store of a receiver. -/
abbrev PoolStore (Row Weight : Type) : Type := Store.Write (Cell.Val Row Weight)

/-- One token as Pass B finds it: its recv-token id, its packet, and the row of
`batch_slot` that Pass A filled for it. -/
structure Landed (Row Weight : Type) where
  recvTokenId : ℕ
  packet : Packet Row Weight
  slotRow : List ℤ

namespace Landed

variable (l : Landed Row Weight)

/-- `slot_row[k]`. -/
def slot (k : ℕ) : ℤ := l.slotRow.getD k (-1)

/-- `k_local_total_val`: how many slots the token has. -/
def kLocalTotalVal : ℕ := l.slotRow.countP (0 ≤ ·)

/-- The stores for one `k`: always the inverse map, and for a local expert the row,
its weight and the two forward maps. -/
def storesAt (numTopk k : ℕ) : List (PoolStore Row Weight) :=
  let slot := l.slot k
  ⟨.recvTokenToSlots (l.recvTokenId * numTopk + k), slot⟩ ::
    if slot < 0 then []
    else
      [⟨.pool slot.toNat, l.packet.x⟩,
        ⟨.poolTopkWeight slot.toNat, l.packet.topkWeights k⟩,
        ⟨.poolRecvToken slot.toNat, (l.recvTokenId : ℤ)⟩,
        ⟨.poolKSlot slot.toNat, (k : ℤ)⟩]

/-- All stores of Pass B for one token. -/
def stores (numTopk : ℕ) : List (PoolStore Row Weight) :=
  (List.range numTopk).flatMap (l.storesAt numTopk) ++
    if 0 < l.kLocalTotalVal then
      [⟨.kLocalRemaining l.recvTokenId, l.kLocalTotalVal⟩,
        ⟨.kLocalTotal l.recvTokenId, l.kLocalTotalVal⟩]
    else []

end Landed

/-! ### Pass A -/

/-- The allocator's shared memory: `smem_per_substream_seen` and `batch_slot` of
one substream. -/
structure AllocState where
  seen : ℕ → ℕ
  batchSlot : ℕ → ℤ

/-- Allocate for one pair: entry `i` of `batch_slot` gets the next slot of the
expert, or `-1` when the expert is not local. -/
def allocPair (sh : Shape) (basePool : ℕ → ℕ) (i : ℕ) (eLocal : ℤ) (s : AllocState) :
    AllocState :=
  if 0 ≤ eLocal ∧ eLocal < sh.numExpertsPerRank then
    let e := eLocal.toNat
    { seen := Function.update s.seen e (s.seen e + 1)
      batchSlot := Function.update s.batchSlot i ((basePool e + s.seen e : ℕ) : ℤ) }
  else { s with batchSlot := Function.update s.batchSlot i (-1) }

/-- Pass A over one sub-batch: packets in order, and for each packet `k` in order. -/
def passA (sh : Shape) (basePool : ℕ → ℕ) (packets : ℕ → Packet Row Weight) (subSize : ℕ)
    (s : AllocState) : AllocState :=
  for' subSize (fun s subChunk =>
    for' sh.numTopk (fun s k =>
      allocPair sh basePool (subChunk * sh.numTopk + k) ((packets subChunk).topkIdx k) s) s) s

/-! ### The closed form of the allocation -/

/-- The expert of the pair at a flat position of a packet stream. -/
def pairKey (sh : Shape) (packets : ℕ → Packet Row Weight) (p : ℕ) : ℤ :=
  (packets (p / sh.numTopk)).topkIdx (p % sh.numTopk)

/-- How many positions below `p` carry expert `e`. -/
def seenBefore (sh : Shape) (packets : ℕ → Packet Row Weight) (e p : ℕ) : ℕ :=
  Nat.count (fun q => pairKey sh packets q = e) p

/-- The slot of the pair at position `p`. -/
def slotAt (sh : Shape) (basePool : ℕ → ℕ) (packets : ℕ → Packet Row Weight) (p : ℕ) : ℤ :=
  let eLocal := pairKey sh packets p
  if 0 ≤ eLocal ∧ eLocal < sh.numExpertsPerRank then
    ((basePool eLocal.toNat + seenBefore sh packets eLocal.toNat p : ℕ) : ℤ)
  else -1

/-- What holds after the walk over `n` positions of a sub-batch that begins at
position `p₀` of the substream. -/
structure AllocInv (sh : Shape) (basePool : ℕ → ℕ) (packets : ℕ → Packet Row Weight)
    (p₀ n : ℕ) (s : AllocState) : Prop where
  seen : ∀ e < sh.numExpertsPerRank, s.seen e = seenBefore sh packets e (p₀ + n)
  batchSlot : ∀ i < n, s.batchSlot i = slotAt sh basePool packets (p₀ + i)

/-- One allocation keeps the invariant. -/
theorem allocPair_inv {basePool : ℕ → ℕ} {packets : ℕ → Packet Row Weight} {p₀ n : ℕ}
    {s : AllocState} (inv : AllocInv sh basePool packets p₀ n s) :
    AllocInv sh basePool packets p₀ (n + 1)
      (allocPair sh basePool n (pairKey sh packets (p₀ + n)) s) := by
  by_cases here : 0 ≤ pairKey sh packets (p₀ + n) ∧
      pairKey sh packets (p₀ + n) < sh.numExpertsPerRank
  · obtain ⟨e, key⟩ := Int.eq_ofNat_of_zero_le here.1
    have he : e < sh.numExpertsPerRank := by omega
    refine ⟨fun e' he' => ?_, fun i hi => ?_⟩
    · have counted : seenBefore sh packets e' (p₀ + (n + 1)) =
          seenBefore sh packets e' (p₀ + n) + if e = e' then 1 else 0 := by
        rw [seenBefore, ← Nat.add_assoc, Nat.count_succ, key]
        simp only [Nat.cast_inj]
        rfl
      rw [allocPair, if_pos here, key, counted, ← inv.seen e' he', Int.toNat_natCast]
      by_cases same : e = e'
      · subst same
        simp
      · simp [same, Function.update_of_ne (Ne.symm same)]
    · rw [allocPair, if_pos here, key, Int.toNat_natCast]
      by_cases last : i = n
      · subst last
        simp only [Function.update_self]
        rw [slotAt, if_pos here, key, Int.toNat_natCast, inv.seen e he]
      · simp only [Function.update_of_ne last]
        exact inv.batchSlot i (by omega)
  · refine ⟨fun e he => ?_, fun i hi => ?_⟩
    · have other : pairKey sh packets (p₀ + n) ≠ e := fun key => here (by omega)
      rw [allocPair, if_neg here, seenBefore, ← Nat.add_assoc, Nat.count_succ, if_neg other]
      exact inv.seen e he
    · rw [allocPair, if_neg here]
      by_cases last : i = n
      · subst last
        simp only [Function.update_self]
        rw [slotAt, if_neg here]
      · simp only [Function.update_of_ne last]
        exact inv.batchSlot i (by omega)

/-- **Pass A computes the closed form.**  A sub-batch that starts at packet `j₀` of
the substream, with the counters where the earlier packets left them, gives every
pair the slot of its position. -/
theorem passA_spec {basePool : ℕ → ℕ} {packets ring : ℕ → Packet Row Weight}
    {j₀ subSize : ℕ} {s : AllocState}
    (held : ∀ i < subSize, ring i = packets (j₀ + i))
    (seen : ∀ e < sh.numExpertsPerRank,
      s.seen e = seenBefore sh packets e (j₀ * sh.numTopk)) :
    AllocInv sh basePool packets (j₀ * sh.numTopk) (subSize * sh.numTopk)
      (passA sh basePool ring subSize s) := by
  have flat : passA sh basePool ring subSize s =
      for' (subSize * sh.numTopk)
        (fun s i => allocPair sh basePool i (pairKey sh ring i) s) s := by
    rw [passA, ← for_nested]
    refine for_congr fun j _ s => for_congr fun k hk s => ?_
    rw [pairKey, PrefixSum.flat_div hk, PrefixSum.flat_mod hk]
  rw [flat]
  refine for_invariant (AllocInv sh basePool packets (j₀ * sh.numTopk)) ⟨seen, by simp⟩ ?_
  intro i hi s inv
  have pos : 0 < sh.numTopk := Nat.pos_of_lt_mul_left hi
  have row : i / sh.numTopk < subSize := (Nat.div_lt_iff_lt_mul pos).2 hi
  have key : pairKey sh ring i = pairKey sh packets (j₀ * sh.numTopk + i) := by
    rw [pairKey, pairKey, held _ row, Nat.mul_comm j₀, Nat.mul_add_div pos,
      Nat.mul_add_mod]
  rw [key]
  exact allocPair_inv inv

end StreamEP
