import Mathlib.Algebra.BigOperators.Group.List.Basic
import Mathlib.Algebra.Order.Ring.Nat

/-!
# Chains of slabs

A buffer that is carved by advancing one pointer: each member of the chain takes a slab for
every channel and peer, the slabs of a channel next to each other, and starts where the
member before it ends.  All slabs of a chain are disjoint and together they fill its total.

A chain is a list of members, and a slab is found by the number of its member, its channel and
its peer.  Two slabs of one member are apart by their channel or by their peer
(`offset_before`), and two members by the totals in front of them (`start_mono`); `slab_apart`
puts both together, for any two slabs that the chain has.
-/

namespace StreamEP.SlabChain

/-- A member of a chain: the bytes of one slab, and for how many peers and channels. -/
structure Member where
  bytes : ℕ
  peers : ℕ
  channels : ℕ

namespace Member

variable (m : Member) {channel peer channel' peer' : ℕ}

/-- Bytes of all slabs. -/
def total : ℕ := m.bytes * m.peers * m.channels

/-- Where the slab of a channel and peer begins. -/
def offset (channel peer : ℕ) : ℕ := m.bytes * m.peers * channel + m.bytes * peer

/-- A slab and those before it lie in the bytes of their channel. -/
theorem offset_add_le_succ (hp : peer < m.peers) :
    m.offset channel peer + m.bytes ≤ m.bytes * m.peers * (channel + 1) := by
  have row : m.bytes * (peer + 1) ≤ m.bytes * m.peers := Nat.mul_le_mul_left _ hp
  unfold offset
  rw [Nat.mul_succ]
  rw [Nat.mul_succ] at row
  omega

theorem offset_add_le_total (hc : channel < m.channels) (hp : peer < m.peers) :
    m.offset channel peer + m.bytes ≤ m.total :=
  (m.offset_add_le_succ hp).trans (Nat.mul_le_mul_left _ hc)

/-- A slab of an earlier channel, or of the same channel and an earlier peer, ends before. -/
theorem offset_before (hp : peer < m.peers)
    (before : channel < channel' ∨ channel = channel' ∧ peer < peer') :
    m.offset channel peer + m.bytes ≤ m.offset channel' peer' := by
  rcases before with earlier | ⟨rfl, earlier⟩
  · calc m.offset channel peer + m.bytes
        ≤ m.bytes * m.peers * (channel + 1) := m.offset_add_le_succ hp
      _ ≤ m.bytes * m.peers * channel' := Nat.mul_le_mul_left _ earlier
      _ ≤ m.offset channel' peer' := Nat.le_add_right _ _
  · have row : m.bytes * (peer + 1) ≤ m.bytes * peer' := Nat.mul_le_mul_left _ earlier
    unfold offset
    rw [Nat.mul_succ] at row
    omega

end Member

variable (chain : List Member)

/-- Where member `i` begins. -/
def start (i : ℕ) : ℕ := ((chain.take i).map Member.total).sum

/-- Bytes of the whole chain. -/
def total : ℕ := (chain.map Member.total).sum

/-- Member `i`; behind the last one, a member without slabs. -/
def member (i : ℕ) : Member := chain.getD i ⟨0, 0, 0⟩

/-- Where the slab of a channel and peer of member `i` begins. -/
def slab (i channel peer : ℕ) : ℕ := start chain i + (member chain i).offset channel peer

/-- Bytes of a slab of member `i`. -/
def slabBytes (i : ℕ) : ℕ := (member chain i).bytes

/-- Whether the chain has the slab of this channel and peer. -/
def Has (i channel peer : ℕ) : Prop :=
  channel < (member chain i).channels ∧ peer < (member chain i).peers

variable {chain} {i i' channel peer channel' peer' : ℕ}

@[simp]
theorem slab_cons_zero (m : Member) (ms : List Member) (channel peer : ℕ) :
    slab (m :: ms) 0 channel peer = m.offset channel peer := by
  show 0 + m.offset channel peer = m.offset channel peer
  exact Nat.zero_add _

@[simp]
theorem slab_cons_succ (m : Member) (ms : List Member) (i channel peer : ℕ) :
    slab (m :: ms) (i + 1) channel peer = m.total + slab ms i channel peer := by
  show m.total + start ms i + (member ms i).offset channel peer = _
  exact Nat.add_assoc _ _ _

@[simp]
theorem slabBytes_cons_zero (m : Member) (ms : List Member) :
    slabBytes (m :: ms) 0 = m.bytes := rfl

@[simp]
theorem slabBytes_cons_succ (m : Member) (ms : List Member) (i : ℕ) :
    slabBytes (m :: ms) (i + 1) = slabBytes ms i := rfl

@[simp]
theorem total_nil : total [] = 0 := rfl

@[simp]
theorem total_cons (m : Member) (ms : List Member) : total (m :: ms) = m.total + total ms := rfl

theorem start_succ (i : ℕ) : start chain (i + 1) = start chain i + (member chain i).total := by
  unfold start member
  rw [List.take_add_one, List.map_append, List.sum_append, List.getD_eq_getElem?_getD]
  cases chain[i]? <;> rfl

theorem start_mono {a b : ℕ} (h : a ≤ b) : start chain a ≤ start chain b := by
  obtain ⟨d, rfl⟩ := Nat.exists_eq_add_of_le h
  unfold start
  rw [List.take_add, List.map_append, List.sum_append]
  exact Nat.le_add_right _ _

/-- A slab ends before the next member begins. -/
theorem slab_add_le_start (has : Has chain i channel peer) :
    slab chain i channel peer + slabBytes chain i ≤ start chain (i + 1) := by
  have inside := (member chain i).offset_add_le_total has.1 has.2
  rw [start_succ]
  unfold slab slabBytes
  omega

/-- Of two slabs one ends before the other begins. -/
theorem slab_apart (has : Has chain i channel peer) (has' : Has chain i' channel' peer')
    (distinct : (i, channel, peer) ≠ (i', channel', peer')) :
    slab chain i channel peer + slabBytes chain i ≤ slab chain i' channel' peer' ∨
      slab chain i' channel' peer' + slabBytes chain i' ≤ slab chain i channel peer := by
  rcases lt_trichotomy i i' with earlier | rfl | later
  · left
    have order : start chain (i + 1) ≤ start chain i' := start_mono earlier
    exact (slab_add_le_start has).trans (order.trans (Nat.le_add_right _ _))
  · have order : (channel < channel' ∨ channel = channel' ∧ peer < peer') ∨
        (channel' < channel ∨ channel' = channel ∧ peer' < peer) := by
      by_contra none
      apply distinct
      have sameChannel : channel = channel' := by omega
      have samePeer : peer = peer' := by omega
      rw [sameChannel, samePeer]
    unfold slab slabBytes
    rcases order with before | before
    · have ends := (member chain i).offset_before has.2 before
      omega
    · have ends := (member chain i).offset_before has'.2 before
      omega
  · right
    have order : start chain (i' + 1) ≤ start chain i := start_mono later
    exact (slab_add_le_start has').trans (order.trans (Nat.le_add_right _ _))

end StreamEP.SlabChain
