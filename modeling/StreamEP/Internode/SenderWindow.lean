import StreamEP.Internode.Nodes
import StreamEP.Lib.SlidingWindow
import StreamEP.Lib.Store
import StreamEP.Lib.TransitionSystem

/-!
# The window of the sender warps

The tokens of one (channel, destination node) stream fall to seven sender warps.  A warp copies
its token into the send buffer, then enters it into a window of 32 tokens under a lock:
`rdma_send_channel_tail` counts the tokens that the coordinator may put, and a token that is
more than the window ahead of it waits, with the lock released in between.

The steps here are those of the lock's critical section one by one; the tail is published
before the window is stored.  `sender_window_exact`: the tail is always the length of the
longest complete prefix of the stream.

**Words.**  The window is a word of 32 bits, and the number of entered tokens at its front is
found by `__ffs` of its complement.  When all 32 bits are set the complement is zero and the
shift is by the whole width; `numEmptySlots_eq` covers this case with the others.

**The invariant.**  A token is complete when its warp publishes, which is before the window is
stored; until then the window in memory is behind, but only one warp is in the critical section
(`Inv.alone`), and a warp that has not published anything finds it up to date (`Inv.tracks`).
The lock has one holder, and the tokens of different warps are different, so a step of one
leaves what is known of the others (`Inv.move`, `Inv.relock`).  The step that matters is
`Inv.publish`, where the token is marked and the tail moves over the complete tokens.

In the example the first of 32 tokens comes last, so the whole window is shifted out at once.
-/

namespace StreamEP.Internode

open Function

/-! ### Find first set -/

/-- `__ffs`. -/
def ffs (x : BitVec 32) : ℕ := if x = 0 then 0 else x.ctz.toNat + 1

/-- `num_empty_slots`. -/
def numEmptySlots (window : BitVec 32) : ℕ := if ~~~window = 0 then 32 else ffs (~~~window) - 1

/-- It is the length of the run of entered tokens, also when the whole window is full. -/
theorem numEmptySlots_eq (window : BitVec 32) :
    numEmptySlots window = SlidingWindow.run window := by
  rw [numEmptySlots, ffs, SlidingWindow.run]
  split_ifs with full
  · rw [full]
    decide +kernel
  · rfl

/-! ### The warps -/

/-- Where a warp is with the first of its tokens. -/
inductive WindowPhase where
  | staging
  | acquiring
  /-- The lock is taken. -/
  | locked
  /-- The token is too far ahead. -/
  | retrying
  /-- The token is inside the window when the tail is `latestTail`. -/
  | placed (latestTail : ℕ)
  /-- The tail is published, and `window` is to be stored. -/
  | published (window : BitVec 32)
  | releasing
  deriving DecidableEq

namespace WindowPhase

/-- The warp is between acquiring and releasing the lock. -/
def Holds : WindowPhase → Prop
  | .staging | .acquiring => False
  | .locked | .retrying | .placed _ | .published _ | .releasing => True

/-- It has entered its token. -/
def Entered : WindowPhase → Prop
  | .published _ | .releasing => True
  | .staging | .acquiring | .locked | .retrying | .placed _ => False

theorem Entered.holds {phase : WindowPhase} (entered : phase.Entered) : phase.Holds := by
  cases phase <;> first | exact trivial | exact entered

end WindowPhase

/-- The stream's window, and what the warps have still to do. -/
structure SenderWindow where
  /-- `rdma_send_channel_tail` -/
  tail : ℕ
  /-- `rdma_send_channel_window` -/
  window : BitVec 32
  /-- The warp that holds `rdma_send_channel_lock`. -/
  lock : Option (Fin numDispatchRdmaSenderWarps)
  phase : Fin numDispatchRdmaSenderWarps → WindowPhase
  /-- The tokens of a warp that are not through. -/
  todo : Fin numDispatchRdmaSenderWarps → List ℕ
  /-- Tokens that are in the send buffer. -/
  staged : ℕ → Bool
  /-- Tokens that have been entered. -/
  complete : ℕ → Bool

namespace SenderWindow

/-- A stream of `n` tokens, when the kernel starts. -/
def start (n : ℕ) (warpOf : ℕ → Fin numDispatchRdmaSenderWarps) : SenderWindow where
  tail := 0
  window := 0
  lock := none
  phase _ := .staging
  todo w := (List.range n).filter fun j => warpOf j = w
  staged _ := false
  complete _ := false

inductive Event where
  | stage (w : Fin numDispatchRdmaSenderWarps)
  | acquire (w : Fin numDispatchRdmaSenderWarps)
  | look (w : Fin numDispatchRdmaSenderWarps)
  | publish (w : Fin numDispatchRdmaSenderWarps)
  | store (w : Fin numDispatchRdmaSenderWarps)
  | release (w : Fin numDispatchRdmaSenderWarps)

/-- A step; a shift by the whole width leaves nothing. -/
def step (s : SenderWindow) : Event → Option SenderWindow
  | .stage w =>
      match s.phase w, s.todo w with
      | .staging, j :: _ =>
          some
            { s with
              staged := update s.staged j true
              phase := update s.phase w .acquiring }
      | _, _ => none
  | .acquire w =>
      match s.phase w, s.lock with
      | .acquiring, none => some { s with lock := some w, phase := update s.phase w .locked }
      | _, _ => none
  | .look w =>
      match s.phase w, s.todo w with
      | .locked, j :: _ =>
          let offset := (j : ℤ) - s.tail
          some
            { s with
              phase := update s.phase w (if 32 ≤ offset then .retrying else .placed s.tail) }
      | _, _ => none
  | .publish w =>
      match s.phase w, s.todo w with
      | .placed latestTail, j :: _ =>
          let offset := j - latestTail
          let window := s.window ||| 1#32 <<< offset
          some
            { s with
              complete := update s.complete j true
              tail := if offset = 0 then latestTail + numEmptySlots window else s.tail
              phase := update s.phase w
                (.published (if offset = 0 then window >>> numEmptySlots window else window)) }
      | _, _ => none
  | .store w =>
      match s.phase w with
      | .published window => some { s with window := window, phase := update s.phase w .releasing }
      | _ => none
  | .release w =>
      match s.phase w with
      | .retrying => some { s with lock := none, phase := update s.phase w .acquiring }
      | .releasing =>
          some
            { s with
              lock := none
              phase := update s.phase w .staging
              todo := update s.todo w (s.todo w).tail }
      | _ => none

/-- The warps are through with the stream. -/
def Done (s : SenderWindow) : Prop := ∀ w, s.todo w = []

end SenderWindow

/-- The sender warps on one stream. -/
def senderWindow (n : ℕ) (warpOf : ℕ → Fin numDispatchRdmaSenderWarps) :
    TransitionSystem SenderWindow SenderWindow.Event where
  init := .start n warpOf
  step := SenderWindow.step

/-! ### What every step keeps -/

namespace SenderWindow

variable {n : ℕ} {warpOf : ℕ → Fin numDispatchRdmaSenderWarps} {s s' : SenderWindow}

/-- Tokens of the stream that are complete. -/
def Complete (s : SenderWindow) (j : ℕ) : Prop := s.complete j = true

/-- A warp and the first of its tokens. -/
structure Warp (s : SenderWindow) (w : Fin numDispatchRdmaSenderWarps) : Prop where
  nodup : (s.todo w).Nodup
  lock : (s.phase w).Holds ↔ s.lock = some w
  staged : s.phase w ≠ .staging → ∃ j rest, s.todo w = j :: rest ∧ s.staged j = true
  placed : ∀ t, s.phase w = .placed t → t = s.tail ∧
    ∀ j rest, s.todo w = j :: rest → j - t < 32
  entered : ∀ j ∈ s.todo w, s.Complete j → (s.phase w).Entered ∧ ∃ rest, s.todo w = j :: rest
  complete : (s.phase w).Entered → ∀ j rest, s.todo w = j :: rest → s.Complete j
  pending : ∀ b, s.phase w = .published b → (⟨s.tail, b⟩ : SlidingWindow 32).Tracks s.Complete

/-- The stream and its warps. -/
structure Inv (n : ℕ) (warpOf : ℕ → Fin numDispatchRdmaSenderWarps) (s : SenderWindow) :
    Prop where
  todo : ∀ w, ∀ j ∈ s.todo w, j < n ∧ warpOf j = w
  left : ∀ j < n, ¬s.Complete j → j ∈ s.todo (warpOf j)
  complete : ∀ j, s.Complete j → j < n ∧ s.staged j = true
  warp : ∀ w, s.Warp w
  memory : (∀ w b, s.phase w ≠ .published b) →
    (⟨s.tail, s.window⟩ : SlidingWindow 32).Tracks s.Complete

theorem start_inv (n : ℕ) (warpOf : ℕ → Fin numDispatchRdmaSenderWarps) :
    (start n warpOf).Inv n warpOf where
  todo w j mem := by
    have ⟨inside, mine⟩ := List.mem_filter.1 mem
    exact ⟨List.mem_range.1 inside, of_decide_eq_true mine⟩
  left j lt _ := List.mem_filter.2 ⟨List.mem_range.2 lt, decide_eq_true rfl⟩
  complete _ done := Bool.noConfusion done
  warp w :=
    { nodup := List.nodup_range.filter _
      lock := ⟨fun no => no.elim, fun no => by cases no⟩
      staged := fun other => absurd rfl other
      placed := fun _ no => by cases no
      entered := fun _ _ done => Bool.noConfusion done
      complete := fun no => no.elim
      pending := fun _ no => by cases no }
  memory _ := by
    have none : (start n warpOf).Complete = fun _ => False :=
      funext fun _ => propext (iff_of_false Bool.false_ne_true id)
    rw [none]
    exact SlidingWindow.empty_tracks

/-- At most one warp is in the critical section. -/
theorem Inv.alone (inv : s.Inv n warpOf) {w w' : Fin numDispatchRdmaSenderWarps}
    (here : (s.phase w).Holds) (there : (s.phase w').Holds) : w' = w := by
  have mine := (inv.warp w).lock.1 here
  have other := (inv.warp w').lock.1 there
  exact Option.some.inj (other.symm.trans mine)

/-- A warp that is in the critical section and has not published anything sees the window as
it was stored. -/
theorem Inv.tracks (inv : s.Inv n warpOf) {w : Fin numDispatchRdmaSenderWarps}
    (here : (s.phase w).Holds) (unpublished : ∀ b, s.phase w ≠ .published b) :
    (⟨s.tail, s.window⟩ : SlidingWindow 32).Tracks s.Complete := by
  refine inv.memory fun w' b published => ?_
  obtain rfl : w' = w := inv.alone here (by rw [published]; trivial)
  exact unpublished b published

/-- A step that changes only the phase of one warp, which is outside the critical section
before and after, or inside. -/
theorem Inv.move (inv : s.Inv n warpOf) {w : Fin numDispatchRdmaSenderWarps}
    {phase : WindowPhase} {lock : Option (Fin numDispatchRdmaSenderWarps)}
    (locks : ∀ w', (update s.phase w phase w').Holds ↔ lock = some w')
    (staged : phase ≠ .staging → ∃ j rest, s.todo w = j :: rest ∧ s.staged j = true)
    (placed : ∀ t, phase = .placed t → t = s.tail ∧
      ∀ j rest, s.todo w = j :: rest → j - t < 32)
    (before : ¬(s.phase w).Entered) (after : ¬phase.Entered) :
    Inv n warpOf { s with phase := update s.phase w phase, lock := lock } where
  todo := inv.todo
  left := inv.left
  complete := inv.complete
  warp w' := by
    have warp := inv.warp w'
    rcases eq_or_ne w' w with rfl | other
    · constructor
      case nodup => exact warp.nodup
      case lock => exact locks w'
      all_goals
        dsimp only
        rw [update_self]
      case staged => exact staged
      case placed => exact placed
      case entered => exact fun j mem done => absurd (warp.entered j mem done).1 before
      case complete => exact fun entered => absurd entered after
      case pending => exact fun b published => absurd (published ▸ trivial) after
    · have same : update s.phase w phase w' = s.phase w' := update_of_ne other _ _
      constructor
      case nodup => exact warp.nodup
      case lock => exact locks w'
      all_goals
        dsimp only
        rw [same]
      case staged => exact warp.staged
      case placed => exact warp.placed
      case entered => exact warp.entered
      case complete => exact warp.complete
      case pending => exact warp.pending
  memory none := by
    refine inv.memory fun w' b published => ?_
    rcases eq_or_ne w' w with rfl | other
    · exact before (by rw [published]; trivial)
    · exact none w' b ((update_of_ne other _ _).trans published)

/-- More tokens in the send buffer do no harm. -/
theorem Inv.stage (inv : s.Inv n warpOf) (j : ℕ) :
    Inv n warpOf { s with staged := update s.staged j true } := by
  have still : ∀ k, s.staged k = true → update s.staged j true k = true := fun k here => by
    rw [update_apply, here, ite_self]
  refine { inv with
    complete := fun k done => ⟨(inv.complete k done).1, still k (inv.complete k done).2⟩
    warp := fun w => ?_ }
  have warp := inv.warp w
  exact { warp with
    staged := fun other =>
      have ⟨k, rest, here, staged⟩ := warp.staged other
      ⟨k, rest, here, still k staged⟩ }

/-- The lock is free, or another warp's, in the eyes of all warps but one. -/
theorem Inv.relock (inv : s.Inv n warpOf) {w : Fin numDispatchRdmaSenderWarps}
    {phase : WindowPhase} {lock : Option (Fin numDispatchRdmaSenderWarps)}
    (mine : s.lock = none ∨ s.lock = some w) (here : phase.Holds ↔ lock = some w)
    (free : lock = none ∨ lock = some w) (w' : Fin numDispatchRdmaSenderWarps) :
    (update s.phase w phase w').Holds ↔ lock = some w' := by
  rcases eq_or_ne w' w with rfl | other
  · rw [update_self]
    exact here
  · rw [update_of_ne other]
    have not_mine : ∀ {l : Option (Fin numDispatchRdmaSenderWarps)}, l = none ∨ l = some w →
        l ≠ some w' := by
      rintro l (rfl | rfl) same
      · cases same
      · exact other (Option.some.inj same).symm
    exact iff_of_false (fun holds => not_mine mine ((inv.warp w').lock.1 holds)) (not_mine free)

/-- What a warp publishes is the window with its token marked. -/
theorem mark_eq (t j : ℕ) (window : BitVec 32) (near : j - t < 32) :
    (⟨t, window⟩ : SlidingWindow 32).mark j = some
      ⟨if j - t = 0 then t + numEmptySlots (window ||| 1#32 <<< (j - t)) else t,
        if j - t = 0 then (window ||| 1#32 <<< (j - t)) >>>
          numEmptySlots (window ||| 1#32 <<< (j - t)) else window ||| 1#32 <<< (j - t)⟩ := by
  rw [SlidingWindow.mark, if_pos near, numEmptySlots_eq]
  split_ifs <;> rfl

/-- The tokens that are complete when a warp has entered its own. -/
theorem complete_update (s : SenderWindow) (j : ℕ) :
    (fun k => update s.complete j true k = true) = fun k => k = j ∨ s.Complete k := by
  funext k
  rcases eq_or_ne k j with rfl | other
  · rw [update_self]
    exact propext (iff_of_true rfl (Or.inl rfl))
  · rw [update_of_ne other]
    exact propext (or_iff_right other).symm

/-- **Entering a token** marks it in the window. -/
theorem Inv.publish (inv : s.Inv n warpOf) {w : Fin numDispatchRdmaSenderWarps} {t j : ℕ}
    {rest : List ℕ} (placed : s.phase w = .placed t) (todo : s.todo w = j :: rest) {tail : ℕ}
    {b : BitVec 32}
    (marks : (⟨s.tail, s.window⟩ : SlidingWindow 32).mark j = some ⟨tail, b⟩) :
    Inv n warpOf
      { s with
        complete := update s.complete j true
        tail := tail
        phase := update s.phase w (.published b) } := by
  have warp := inv.warp w
  have holds : (s.phase w).Holds := by
    rw [placed]
    trivial
  have mem : j ∈ s.todo w := todo ▸ List.mem_cons_self
  have not_entered : ¬(s.phase w).Entered := by
    rw [placed]
    exact id
  have new : ¬s.Complete j := fun done => not_entered (warp.entered j mem done).1
  have tracks := inv.tracks holds fun b published => by
    rw [placed] at published
    cases published
  -- the window that is about to be stored has the token marked already
  have tracks' := SlidingWindow.mark_tracks tracks new marks
  rw [← complete_update s j] at tracks'
  have now : ∀ k, update s.complete j true k = true ↔ k = j ∨ s.Complete k := fun k =>
    iff_of_eq (congrFun (complete_update s j) k)
  constructor
  case todo => exact inv.todo
  case left => exact fun k lt open' => inv.left k lt fun done => open' ((now k).2 (Or.inr done))
  case complete =>
    intro k done
    rcases (now k).1 done with rfl | before
    · refine ⟨(inv.todo w k mem).1, ?_⟩
      obtain ⟨j', rest', todo', staged⟩ :=
        warp.staged (by rw [placed]; exact WindowPhase.noConfusion)
      obtain ⟨rfl, -⟩ := List.cons.inj (todo.symm.trans todo')
      exact staged
    · exact inv.complete k before
  case warp =>
    intro w'
    rcases eq_or_ne w' w with rfl | other
    · constructor
      case nodup => exact warp.nodup
      all_goals
        dsimp only
        rw [update_self]
      case lock => exact iff_of_true trivial (warp.lock.1 holds)
      case staged =>
        exact fun _ => warp.staged (by rw [placed]; exact WindowPhase.noConfusion)
      case placed => exact fun t no => by cases no
      case entered =>
        intro k mine done
        rcases (now k).1 done with rfl | before
        · exact ⟨trivial, rest, todo⟩
        · exact absurd (warp.entered k mine before).1 not_entered
      case complete =>
        intro _ k rest' todo'
        obtain ⟨rfl, -⟩ := List.cons.inj (todo.symm.trans todo')
        exact update_self _ _ _
      case pending =>
        intro b' same
        obtain rfl := WindowPhase.published.inj same
        exact tracks'
    · have same : update s.phase w (.published b) w' = s.phase w' := update_of_ne other _ _
      -- nobody else is inside the critical section
      have outside : ¬(s.phase w').Holds := fun there => other (inv.alone holds there)
      have old := inv.warp w'
      constructor
      case nodup => exact old.nodup
      all_goals
        dsimp only
        rw [same]
      case lock => exact old.lock
      case staged => exact old.staged
      case placed => exact fun t there => absurd (by rw [there]; trivial) outside
      case entered =>
        intro k mine done
        rcases (now k).1 done with rfl | before
        · exact absurd ((inv.todo w' k mine).2.symm.trans (inv.todo w k mem).2) other
        · exact old.entered k mine before
      case complete => exact fun entered => absurd entered.holds outside
      case pending => exact fun b there => absurd (by rw [there]; trivial) outside
  case memory => exact fun none => absurd (update_self w (.published b) s.phase) (none w b)

/-- Storing the window. -/
theorem Inv.store (inv : s.Inv n warpOf) {w : Fin numDispatchRdmaSenderWarps} {b : BitVec 32}
    (published : s.phase w = .published b) :
    Inv n warpOf { s with window := b, phase := update s.phase w .releasing } := by
  have warp := inv.warp w
  have holds : (s.phase w).Holds := by
    rw [published]
    trivial
  have entered : (s.phase w).Entered := by
    rw [published]
    trivial
  refine { inv with warp := fun w' => ?_, memory := fun _ => warp.pending b published }
  rcases eq_or_ne w' w with rfl | other
  · constructor
    case nodup => exact warp.nodup
    all_goals
      dsimp only
      rw [update_self]
    case lock => exact iff_of_true trivial (warp.lock.1 holds)
    case staged => exact fun _ => warp.staged (by rw [published]; exact WindowPhase.noConfusion)
    case placed => exact fun t no => by cases no
    case entered => exact fun k mine done => ⟨trivial, (warp.entered k mine done).2⟩
    case complete => exact fun _ => warp.complete entered
    case pending => exact fun b no => by cases no
  · have same : update s.phase w .releasing w' = s.phase w' := update_of_ne other _ _
    have old := inv.warp w'
    constructor
    case nodup => exact old.nodup
    all_goals
      dsimp only
      rw [same]
    case lock => exact old.lock
    case staged => exact old.staged
    case placed => exact old.placed
    case entered => exact old.entered
    case complete => exact old.complete
    case pending => exact old.pending

/-- A warp that has entered its token goes on to the next. -/
theorem Inv.advance (inv : s.Inv n warpOf) {w : Fin numDispatchRdmaSenderWarps}
    (releasing : s.phase w = .releasing) :
    Inv n warpOf
      { s with
        lock := none
        phase := update s.phase w .staging
        todo := update s.todo w (s.todo w).tail } := by
  have warp := inv.warp w
  have holds : (s.phase w).Holds := by
    rw [releasing]
    trivial
  obtain ⟨j, rest, todo, -⟩ := warp.staged (by rw [releasing]; exact WindowPhase.noConfusion)
  have done : s.Complete j := warp.complete (by rw [releasing]; trivial) j rest todo
  have nodup := warp.nodup
  rw [todo, List.nodup_cons] at nodup
  have fewer : ∀ w' k, k ∈ update s.todo w (s.todo w).tail w' → k ∈ s.todo w' := by
    intro w' k mem
    rcases eq_or_ne w' w with rfl | other
    · rw [update_self] at mem
      exact List.mem_of_mem_tail mem
    · rwa [update_of_ne other] at mem
  constructor
  case todo => exact fun w' k mem => inv.todo w' k (fewer w' k mem)
  case left =>
    intro k lt new
    have mem := inv.left k lt new
    rcases eq_or_ne (warpOf k) w with here | other
    · rw [here, todo] at mem
      dsimp only
      rw [here, update_self, todo]
      rcases List.mem_cons.1 mem with rfl | later
      · exact absurd done new
      · exact later
    · dsimp only
      rwa [update_of_ne other]
  case complete => exact inv.complete
  case warp =>
    intro w'
    rcases eq_or_ne w' w with rfl | other
    · constructor
      all_goals
        dsimp only
        rw [update_self]
      case nodup => exact warp.nodup.tail
      case lock => exact iff_of_false id fun no => by cases no
      case staged => exact fun no => absurd rfl no
      case placed => exact fun t no => by cases no
      case entered =>
        intro k mem before
        rw [todo, List.tail_cons] at mem
        -- only the first token of a warp can be complete
        obtain ⟨-, rest', first⟩ := warp.entered k (todo ▸ List.mem_cons_of_mem j mem) before
        obtain ⟨rfl, -⟩ := List.cons.inj (todo.symm.trans first)
        exact absurd mem nodup.1
      case complete => exact fun no => no.elim
      case pending => exact fun b no => by cases no
    · have same : update s.phase w .staging w' = s.phase w' := update_of_ne other _ _
      have same' : update s.todo w (s.todo w).tail w' = s.todo w' := update_of_ne other _ _
      have outside : ¬(s.phase w').Holds := fun there => other (inv.alone holds there)
      have old := inv.warp w'
      constructor
      all_goals
        dsimp only
        simp only [same, same']
      case nodup => exact old.nodup
      case lock => exact iff_of_false outside fun no => by cases no
      case staged => exact old.staged
      case placed => exact old.placed
      case entered => exact old.entered
      case complete => exact old.complete
      case pending => exact old.pending
  case memory =>
    intro _
    exact inv.tracks holds fun b published => by
      rw [releasing] at published
      cases published

/-- **Every step keeps the invariant**, and the tail does not fall. -/
theorem step_inv {e : Event} (inv : s.Inv n warpOf) (fires : s.step e = some s') :
    s'.Inv n warpOf ∧ s.tail ≤ s'.tail := by
  cases e with
  | stage w =>
      simp only [step] at fires
      split at fires
      next j rest staging todo =>
        obtain rfl := Option.some.inj fires
        have idle : ¬(s.phase w).Holds := by rw [staging]; exact id
        refine ⟨(inv.stage j).move (fun w' => ?_) (fun _ => ⟨j, rest, todo, update_self _ _ _⟩)
          (fun t no => by cases no) (fun entered => idle entered.holds) id, le_rfl⟩
        rcases eq_or_ne w' w with rfl | other
        · rw [update_self]
          exact iff_of_false id fun held => idle ((inv.warp w').lock.2 held)
        · rw [update_of_ne other]
          exact (inv.warp w').lock
      next => cases fires
  | acquire w =>
      simp only [step] at fires
      split at fires
      next acquiring free =>
        obtain rfl := Option.some.inj fires
        refine ⟨inv.move (inv.relock (Or.inl free) (iff_of_true trivial rfl) (Or.inr rfl))
          (fun _ => ?_) (fun t no => by cases no) ?_ id, le_rfl⟩
        · exact (inv.warp w).staged (by rw [acquiring]; exact WindowPhase.noConfusion)
        · rw [acquiring]
          exact id
      next => cases fires
  | look w =>
      simp only [step] at fires
      split at fires
      next j rest locked todo =>
        obtain rfl := Option.some.inj fires
        have held := (inv.warp w).lock.1 (by rw [locked]; trivial)
        have staged := (inv.warp w).staged (by rw [locked]; exact WindowPhase.noConfusion)
        have before : ¬(s.phase w).Entered := by
          rw [locked]
          exact id
        -- too far ahead of the tail, the warp gives the lock back and tries again
        by_cases far : (32 : ℤ) ≤ (j : ℤ) - s.tail
        · rw [if_pos far]
          exact ⟨inv.move (inv.relock (Or.inr held) (iff_of_true trivial held) (Or.inr held))
            (fun _ => staged) (fun t no => by cases no) before id, le_rfl⟩
        · rw [if_neg far]
          refine ⟨inv.move (inv.relock (Or.inr held) (iff_of_true trivial held) (Or.inr held))
            (fun _ => staged) (fun t same => ?_) before id, le_rfl⟩
          obtain rfl := WindowPhase.placed.inj same
          refine ⟨rfl, fun j' rest' todo' => ?_⟩
          obtain ⟨rfl, -⟩ := List.cons.inj (todo.symm.trans todo')
          omega
      next => cases fires
  | publish w =>
      simp only [step] at fires
      split at fires
      next t j rest placed todo =>
        obtain rfl := Option.some.inj fires
        obtain ⟨rfl, inside⟩ := (inv.warp w).placed t placed
        have marks := mark_eq s.tail j s.window (inside j rest todo)
        exact ⟨inv.publish placed todo marks, SlidingWindow.le_tail_of_mark marks⟩
      next => cases fires
  | store w =>
      simp only [step] at fires
      split at fires
      next b published =>
        obtain rfl := Option.some.inj fires
        exact ⟨inv.store published, le_rfl⟩
      next => cases fires
  | release w =>
      simp only [step] at fires
      split at fires
      next retrying =>
        obtain rfl := Option.some.inj fires
        have held := (inv.warp w).lock.1 (by rw [retrying]; trivial)
        refine ⟨inv.move (inv.relock (Or.inr held) (iff_of_false id (fun no => by cases no))
          (Or.inl rfl)) (fun _ => ?_) (fun t no => by cases no) ?_ id, le_rfl⟩
        · exact (inv.warp w).staged (by rw [retrying]; exact WindowPhase.noConfusion)
        · rw [retrying]
          exact id
      next releasing =>
        obtain rfl := Option.some.inj fires
        exact ⟨inv.advance releasing, le_rfl⟩
      next => cases fires

/-! ### Whole runs -/

theorem inv_of_reachable (reach : (senderWindow n warpOf).Reachable s) : s.Inv n warpOf :=
  reach.invariant (start_inv n warpOf)
    fun (s : SenderWindow) e s' (inv : s.Inv n warpOf) (fires : s.step e = some s') =>
      (step_inv inv fires).1

/-- What the tail says of a stream of `n` tokens. -/
structure Exact (n : ℕ) (s : SenderWindow) : Prop where
  /-- The tail is the length of the longest complete part at the front, -/
  longest : IsGreatest {m | ∀ j < m, s.Complete j} s.tail
  /-- all of which is in the send buffer; -/
  staged : ∀ j < s.tail, s.staged j = true
  le : s.tail ≤ n
  done : s.Done → s.tail = n
  /-- and the window has the rest of what is complete. -/
  kept : (∀ w b, s.phase w ≠ .published b) → ∀ j,
    s.Complete j ↔ j < s.tail ∨ s.tail ≤ j ∧ s.window.getLsbD (j - s.tail) = true

end SenderWindow

/-- **The sender window publishes exactly the complete tokens at the front.**  However the
seven warps share the tokens of a stream, and in whatever order they enter them, the tail is
the length of the longest complete prefix at any time; it never falls, and is the stream's
length when all warps are through. -/
theorem sender_window_exact (n : ℕ) (warpOf : ℕ → Fin numDispatchRdmaSenderWarps)
    {s : SenderWindow} (reach : (senderWindow n warpOf).Reachable s) :
    s.Exact n ∧ ∀ e s', (senderWindow n warpOf).step s e = some s' → s.tail ≤ s'.tail := by
  have inv := SenderWindow.inv_of_reachable reach
  refine ⟨?_, fun e s' fires => (SenderWindow.step_inv inv fires).2⟩
  have longest : IsGreatest {m | ∀ j < m, s.Complete j} s.tail := by
    by_cases stored : ∀ w b, s.phase w ≠ .published b
    · exact (inv.memory stored).isGreatest
    · obtain ⟨w, some⟩ := not_forall.1 stored
      obtain ⟨b, published⟩ := not_forall_not.1 some
      exact ((inv.warp w).pending b published).isGreatest
  have below : ∀ j < s.tail, s.Complete j := longest.1
  constructor
  case longest => exact longest
  case staged => exact fun j lt => (inv.complete j (below j lt)).2
  case le =>
    by_contra beyond
    exact lt_irrefl n (inv.complete n (below n (not_le.1 beyond))).1
  case done =>
    intro done
    have all : n ∈ {m | ∀ j < m, s.Complete j} := by
      intro j lt
      by_contra new
      have mem := inv.left j lt new
      rw [done] at mem
      exact List.not_mem_nil mem
    refine le_antisymm ?_ (longest.2 all)
    by_contra beyond
    exact lt_irrefl n (inv.complete n (below n (not_le.1 beyond))).1
  case kept =>
    intro stored j
    have tracks := inv.memory stored
    rcases Nat.lt_or_ge j s.tail with before | from_tail
    · exact iff_of_true (below j before) (Or.inl before)
    · have bit := tracks.bits (j - s.tail)
      dsimp only at bit
      rw [Nat.add_sub_cancel' from_tail] at bit
      rw [bit, or_iff_right (not_lt.2 from_tail), and_iff_right from_tail]

/-! ### A full window -/

section Example

open SenderWindow

def warp0 : Fin numDispatchRdmaSenderWarps := ⟨0, by decide⟩

def warp1 : Fin numDispatchRdmaSenderWarps := ⟨1, by decide⟩

/-- The first token falls to one warp, the others to another. -/
def lateFirst (j : ℕ) : Fin numDispatchRdmaSenderWarps := if j = 0 then warp0 else warp1

/-- A warp enters its next token. -/
def enter (w : Fin numDispatchRdmaSenderWarps) : List Event :=
  [.stage w, .acquire w, .look w, .publish w, .store w, .release w]

/-- When the first of 32 tokens comes last, the whole window is shifted out. -/
theorem fullWindow_exact : ∃ s, (senderWindow 32 lateFirst).Reachable s ∧ s.Done ∧
    s.window = 0 ∧ s.tail = 32 := by
  have replays : ((senderWindow 32 lateFirst).run (senderWindow 32 lateFirst).init
      ((List.replicate 31 (enter warp1)).flatten ++ enter warp0)).any (fun s =>
        decide ((∀ w, s.todo w = []) ∧ s.window = 0)) = true := by
    decide +kernel
  obtain ⟨s, replay, facts⟩ := (Option.any_eq_true _ _).1 replays
  obtain ⟨done, clear⟩ := of_decide_eq_true facts
  have reach := TransitionSystem.Reachable.init.run replay
  exact ⟨s, reach, done, clear, (sender_window_exact 32 lateFirst reach).1.done done⟩

end Example

end StreamEP.Internode
