import Mathlib.Data.Int.Basic
import Mathlib.Data.List.Basic

/-!
# Batches from a ring

A producer puts the items of a stream into a ring, and a consumer takes whatever has
arrived: a batch of consecutive positions, with the ring as it stands meanwhile.  If the
consumer does the same to two batches as to both at once, the batches do not matter
(`drain_regs`).

A `Batch` is how many items have arrived and an image of the ring, which may hold anything in the
slots of other positions.  `Delivers` says of a list of batches that it covers the stream from a
position on, that no batch is empty, and that each image holds the batch's items in the slots of
their positions.  Every stream has a delivery (`delivers_oneByOne`), so what is proved of all of
them is not vacuous.

The consumer's own registers are a parameter: `take` is what it does to the items of one batch,
and `drain` the loop, with a position and how many items are still to come.
-/

namespace Batches

variable {α σ : Type*}

/-- A batch: how many items arrived, and the ring meanwhile. -/
structure Batch (α : Type*) where
  total : ℕ
  ring : ℕ → α

/-- The items of a batch that begins at position `head`. -/
def Batch.items (slots head : ℕ) (b : Batch α) : List α :=
  (List.range b.total).map fun i => b.ring ((head + i) % slots)

/-- The batches deliver a stream from position `head` on, through a ring of `slots` slots. -/
def Delivers (slots : ℕ) (stream : List α) : ℕ → List (Batch α) → Prop
  | head, [] => head = stream.length
  | head, b :: bs =>
      0 < b.total ∧ head + b.total ≤ stream.length ∧
        (∀ i < b.total, stream[head + i]? = some (b.ring ((head + i) % slots))) ∧
        Delivers slots stream (head + b.total) bs

/-- The delivery in which every item comes in a batch of its own. -/
def oneByOne (stream : List α) : List (Batch α) := stream.map fun a => ⟨1, fun _ => a⟩

theorem delivers_oneByOne (slots : ℕ) (stream : List α) :
    Delivers slots stream 0 (oneByOne stream) := by
  have rest : ∀ sent tail : List α, stream = sent ++ tail →
      Delivers slots stream sent.length (oneByOne tail) := by
    intro sent tail split
    induction tail generalizing sent with
    | nil => simp [oneByOne, Delivers, split]
    | cons a tail ih =>
        refine ⟨Nat.one_pos, by simp [split], fun i hi => ?_, ?_⟩
        · obtain rfl : i = 0 := Nat.lt_one_iff.1 hi
          simp [split]
        · have next := ih (sent ++ [a]) (by simp [split])
          rwa [List.length_append, List.length_singleton] at next
  exact rest [] stream rfl

/-- What a delivered batch takes off the stream. -/
theorem items_append_drop {slots head : ℕ} {stream : List α} {b : Batch α}
    (ring : ∀ i < b.total, stream[head + i]? = some (b.ring ((head + i) % slots))) :
    b.items slots head ++ stream.drop (head + b.total) = stream.drop head := by
  have taken : b.items slots head = (stream.drop head).take b.total := by
    refine List.ext_getElem? fun i => ?_
    by_cases inside : i < b.total
    · rw [List.getElem?_take_of_lt inside, List.getElem?_drop, ring i inside]
      simp [Batch.items, inside]
    · have short : (b.items slots head).length ≤ i := by
        simpa [Batch.items] using inside
      rw [List.getElem?_eq_none short, List.getElem?_eq_none]
      rw [List.length_take]
      omega
  rw [taken, ← List.drop_drop, List.take_append_drop]

/-! ### The consumer -/

/-- The position of the next item, how many are still to come, and the consumer's own
registers. -/
structure Consumer (σ : Type*) where
  head : ℕ
  toRecv : ℤ
  regs : σ

/-- `while (toRecv > 0)`, one batch for each iteration. -/
def drain (slots : ℕ) (take : σ → List α → σ) : List (Batch α) → Consumer σ → Consumer σ
  | [], c => c
  | b :: bs, c =>
      if 0 < c.toRecv then
        drain slots take bs
          ⟨c.head + b.total, c.toRecv - b.total, take c.regs (b.items slots c.head)⟩
      else c

/-- **Batches do not matter** to a consumer that does the same to two of them as to both at
once. -/
theorem drain_regs {slots : ℕ} {stream : List α} {take : σ → List α → σ}
    (nil : ∀ r, take r [] = r) (append : ∀ r xs ys, take r (xs ++ ys) = take (take r xs) ys)
    {bs : List (Batch α)} {c : Consumer σ} (delivers : Delivers slots stream c.head bs)
    (all : c.toRecv = stream.length - c.head) :
    (drain slots take bs c).regs = take c.regs (stream.drop c.head) := by
  induction bs generalizing c with
  | nil =>
    have last : c.head = stream.length := delivers
    rw [drain, last, List.drop_length, nil]
  | cons b bs ih =>
    obtain ⟨nonempty, fits, ring, rest⟩ := delivers
    have more : 0 < c.toRecv := by omega
    rw [drain, if_pos more, ih rest (by push_cast; omega), ← append,
      items_append_drop ring]

end Batches
