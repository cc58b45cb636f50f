import StreamEP.Lib.Warp

/-!
# The chunked block scan

The exclusive prefix sum of an array that may be longer than the thread block.
The block works through the array in chunks of one element per thread.  In each
chunk every warp scans its own lanes, the first warp scans the warp sums, and
each thread composes

`(inclusive - own) + sums of the earlier warps + carry`,

where the carry brings the total of the earlier chunks and starts at `init`.
`blockScan_apply` says that this computes `init + f 0 + … + f (i - 1)` at every
index `i` of the array, for any number of warps that the second-level scan
covers.

**Layers.**  A warp's inclusive scan is that of `Warp` (`warpInclusive_eq`); the scanned sum of
a warp is everything up to its last lane (`warpSums_eq`); so a thread's value is the carry plus
all that stands before it in the chunk (`exclusive_eq`), and the invariant `ScanInv` goes from
chunk to chunk.  Values are in any ordered additive monoid with a subtraction, since
`inclusive - own` is what the code computes.

**Launches.**  The number of warp sums is compiled into the kernel, the number of threads comes
from the launch.  `launchedScan` keeps the two apart, with a scratch of warp sums that holds
whatever was there before.  With as many warps as the kernel was compiled for it is the scan
above (`launchedScan_eq_blockScan`).  `launchedScan_apply` and `exists_wrong` say for which
launches the result is the prefix sum: also when the array fits into one chunk and into one warp
more than the kernel knows of, and for no other.  There are three ways to go wrong, with too few
warps, with one too many, and with more than that; for each an array of equal numbers shows it
at one index.
-/

namespace Warp

open Finset

variable {M : Type*} [AddCommMonoid M] [PartialOrder M] [Sub M]

/-- The workspace in shared memory and the carry register. -/
structure ScanState (M : Type*) where
  /-- The array, scanned in place. -/
  scan : ℕ → M
  /-- What stands before the next chunk. -/
  carry : M

/-- Each warp's inclusive scan of its own lanes, by thread. -/
def warpInclusive (x : ℕ → M) (tid : ℕ) : M :=
  scanUp [1, 2, 4, 8, 16] (fun lane => x (tid / width * width + lane)) (tid % width)

/-- The first warp's inclusive scan of the last lanes of all warps. -/
def warpSums (ds : List ℕ) (numWarps : ℕ) (x : ℕ → M) : ℕ → M :=
  scanUp ds fun lane =>
    if lane < numWarps then warpInclusive x (lane * width + (width - 1)) else 0

/-- What the threads load from the chunk at `start`. -/
def chunkInput (total start : ℕ) (scan : ℕ → M) (tid : ℕ) : M :=
  if start + tid < total then scan (start + tid) else 0

/-- One chunk. -/
def scanChunk (ds : List ℕ) (numWarps total start : ℕ) (s : ScanState M) :
    ScanState M :=
  let x := chunkInput total start s.scan
  let sums := warpSums ds numWarps x
  let exclusive := fun tid =>
    (warpInclusive x tid - x tid) +
      (if 0 < tid / width then sums (tid / width - 1) else 0) + s.carry
  { scan := fun i =>
      if start ≤ i ∧ i < start + numWarps * width ∧ i < total then
        exclusive (i - start)
      else s.scan i
    carry := s.carry + sums (numWarps - 1) }

/-- The number of chunks the loop visits. -/
def numChunks (numWarps total : ℕ) : ℕ :=
  (total + numWarps * width - 1) / (numWarps * width)

/-- The whole scan: `init` is the initial carry, `f` the array. -/
def blockScan (ds : List ℕ) (numWarps total : ℕ) (init : M) (f : ℕ → M) : ℕ → M :=
  ((List.range (numChunks numWarps total)).foldl
    (fun s chunk => scanChunk ds numWarps total (chunk * (numWarps * width)) s)
    ⟨f, init⟩).scan

/-! ### Inside one chunk -/

omit [PartialOrder M] [Sub M] in
theorem warpInclusive_eq (x : ℕ → M) (w lane : ℕ) (hlane : lane < width) :
    warpInclusive x (w * width + lane) =
      ∑ i ∈ range (lane + 1), x (w * width + i) := by
  rw [warpInclusive, PrefixSum.flat_div hlane, PrefixSum.flat_mod hlane]
  exact scanUp_eq_sum (m := 5) hlane _

omit [PartialOrder M] [Sub M] in
/-- The scanned warp sum of warp `w` is everything up to its last lane. -/
theorem warpSums_eq {m numWarps w : ℕ} (covers : numWarps ≤ 2 ^ m) (hw : w < numWarps)
    (x : ℕ → M) :
    warpSums (doublings m) numWarps x w = ∑ i ∈ range ((w + 1) * width), x i := by
  rw [warpSums, scanUp_eq_sum (by omega), PrefixSum.sum_range_mul]
  refine sum_congr rfl fun v hv => ?_
  have := mem_range.1 hv
  rw [if_pos (by omega), warpInclusive_eq x v _ (by decide)]
  rfl

variable [OrderedSub M] [AddLeftReflectLE M]

/-- A thread's composed value is the carry plus everything before it. -/
theorem exclusive_eq {m numWarps w lane : ℕ} (covers : numWarps ≤ 2 ^ m)
    (hw : w < numWarps) (hlane : lane < width) (x : ℕ → M) :
    (warpInclusive x (w * width + lane) - x (w * width + lane)) +
        (if 0 < w then warpSums (doublings m) numWarps x (w - 1) else 0) =
      ∑ i ∈ range (w * width + lane), x i := by
  rw [warpInclusive_eq x w lane hlane, sum_range_succ, add_tsub_cancel_right, sum_range_add,
    add_comm]
  congr 1
  by_cases first : 0 < w
  · rw [if_pos first, warpSums_eq covers (by omega), Nat.sub_add_cancel first]
  · rw [if_neg first, Nat.eq_zero_of_not_pos first, Nat.zero_mul, sum_range_zero]

/-! ### Over the chunks -/

/-- What holds after the chunks below `done`: those elements are scanned, the
others are untouched, and the carry is what stands before the next one. -/
structure ScanInv (total : ℕ) (init : M) (f : ℕ → M) (done : ℕ) (s : ScanState M) :
    Prop where
  scanned : ∀ i < done, i < total → s.scan i = init + ∑ j ∈ range i, f j
  pending : ∀ i, done ≤ i → s.scan i = f i
  carry : s.carry = init + ∑ j ∈ range (min done total), f j

omit [PartialOrder M] [Sub M] [OrderedSub M] [AddLeftReflectLE M] in
/-- Summing the loaded chunk is summing the array, cut off at its end. -/
theorem sum_chunkInput {total start : ℕ} {f scan : ℕ → M}
    (pending : ∀ i, start ≤ i → scan i = f i) (n : ℕ) :
    ∑ j ∈ range (min start total), f j +
        ∑ i ∈ range n, chunkInput total start scan i =
      ∑ j ∈ range (min (start + n) total), f j := by
  induction n with
  | zero => simp
  | succ n ih =>
      rw [sum_range_succ, ← add_assoc, ih, chunkInput]
      by_cases inside : start + n < total
      · have here : min (start + n) total = start + n := by omega
        have next : min (start + (n + 1)) total = start + n + 1 := by omega
        rw [if_pos inside, here, next, sum_range_succ, pending _ (by omega)]
      · have same : min (start + (n + 1)) total = min (start + n) total := by omega
        rw [if_neg inside, add_zero, same]

theorem scanChunk_inv {m numWarps total start : ℕ} {init : M} {f : ℕ → M}
    {s : ScanState M} (pos : 0 < numWarps) (covers : numWarps ≤ 2 ^ m)
    (inv : ScanInv total init f start s) :
    ScanInv total init f (start + numWarps * width)
      (scanChunk (doublings m) numWarps total start s) := by
  refine ⟨?_, ?_, ?_⟩
  · intro i below inside
    by_cases old : i < start
    · have outside : ¬(start ≤ i ∧ i < start + numWarps * width ∧ i < total) := by omega
      simp only [scanChunk, if_neg outside]
      exact inv.scanned i old inside
    · have here : start ≤ i ∧ i < start + numWarps * width ∧ i < total := by omega
      have warp : (i - start) / width < numWarps :=
        Nat.div_lt_of_lt_mul (by rw [Nat.mul_comm]; omega)
      have lane : (i - start) % width < width := Nat.mod_lt _ (by decide)
      have value := exclusive_eq covers warp lane (chunkInput total start s.scan)
      rw [Nat.div_add_mod'] at value
      simp only [scanChunk, if_pos here]
      rw [value, inv.carry, add_comm, add_assoc, sum_chunkInput inv.pending,
        Nat.add_sub_cancel' here.1, Nat.min_eq_left (by omega)]
  · intro i later
    have outside : ¬(start ≤ i ∧ i < start + numWarps * width ∧ i < total) := by omega
    simp only [scanChunk, if_neg outside]
    exact inv.pending i (by omega)
  · have last : numWarps - 1 + 1 = numWarps := by omega
    simp only [scanChunk]
    rw [warpSums_eq covers (by omega), inv.carry, last, add_assoc,
      sum_chunkInput inv.pending]

/-- **The block scan is the exclusive prefix sum**, shifted by the initial carry. -/
theorem blockScan_apply {m numWarps : ℕ} (pos : 0 < numWarps)
    (covers : numWarps ≤ 2 ^ m) (total : ℕ) (init : M) (f : ℕ → M) {i : ℕ}
    (hi : i < total) :
    blockScan (doublings m) numWarps total init f i = init + ∑ j ∈ range i, f j := by
  have inv : ∀ k, ScanInv total init f (k * (numWarps * width))
      ((List.range k).foldl
        (fun s chunk => scanChunk (doublings m) numWarps total
          (chunk * (numWarps * width)) s) ⟨f, init⟩) := by
    intro k
    induction k with
    | zero => exact ⟨by omega, fun _ _ => rfl, by simp⟩
    | succ k ih =>
        rw [List.range_succ, List.foldl_append, Nat.succ_mul]
        exact scanChunk_inv pos covers ih
  have threads : 0 < numWarps * width := Nat.mul_pos pos (by decide)
  have reached : i < numChunks numWarps total * (numWarps * width) := by
    rw [numChunks]
    generalize numWarps * width = step at threads
    have covered := Nat.lt_mul_div_succ (total + step - 1) threads
    rw [Nat.mul_add_one, Nat.mul_comm] at covered
    omega
  exact (inv _).scanned i reached hi

/-! ### Any number of threads -/

/-- The workspace of a block, with the scratch for warp sums, which keeps what was there. -/
structure BlockState (M : Type*) extends ScanState M where
  /-- `s_warp_sums` -/
  warpSums : ℕ → M

section Launch

omit [PartialOrder M] [OrderedSub M] [AddLeftReflectLE M]

/-- `s_warp_sums` when the last lane of every warp of the block has written its sum. -/
def writtenSums (numThreads : ℕ) (x : ℕ → M) (warpSums : ℕ → M) (w : ℕ) : M :=
  if w < numThreads / width then warpInclusive x (w * width + (width - 1)) else warpSums w

/-- `s_warp_sums` when the first warp has scanned the `numWarps` entries it knows of. -/
def scannedSums (ds : List ℕ) (numWarps : ℕ) (written : ℕ → M) (w : ℕ) : M :=
  if w < numWarps then scanUp ds (fun lane => if lane < numWarps then written lane else 0) w
  else written w

/-- One chunk of a block of `numThreads` threads. -/
def launchedChunk (ds : List ℕ) (numWarps numThreads total start : ℕ) (s : BlockState M) :
    BlockState M :=
  let x := chunkInput total start s.scan
  let sums := scannedSums ds numWarps (writtenSums numThreads x s.warpSums)
  let exclusive := fun tid =>
    (warpInclusive x tid - x tid) +
      (if 0 < tid / width then sums (tid / width - 1) else 0) + s.carry
  { scan := fun i =>
      if start ≤ i ∧ i < start + numThreads ∧ i < total then exclusive (i - start)
      else s.scan i
    carry := s.carry + sums (numWarps - 1)
    warpSums := sums }

/-- The chunks below `n`. -/
def launchedChunks (ds : List ℕ) (numWarps numThreads total : ℕ) (s : BlockState M) (n : ℕ) :
    BlockState M :=
  (List.range n).foldl
    (fun s chunk => launchedChunk ds numWarps numThreads total (chunk * numThreads) s) s

/-- The whole scan by a block of `numThreads` threads, over scratch that holds `stale`. -/
def launchedScan (ds : List ℕ) (numWarps numThreads total : ℕ) (init : M)
    (stale f : ℕ → M) : ℕ → M :=
  (launchedChunks ds numWarps numThreads total ⟨⟨f, init⟩, stale⟩
    ((total + numThreads - 1) / numThreads)).scan

variable {ds : List ℕ} {numWarps numThreads total : ℕ}

omit [Sub M] in
/-- The entries that the kernel knows of are added up. -/
theorem scannedSums_known {m w : ℕ} (covers : numWarps ≤ 2 ^ m) (known : w < numWarps)
    (written : ℕ → M) :
    scannedSums (doublings m) numWarps written w = ∑ v ∈ range (w + 1), written v := by
  rw [scannedSums, if_pos known, scanUp_eq_sum (by omega)]
  refine sum_congr rfl fun v hv => ?_
  have := mem_range.1 hv
  rw [if_pos (by omega)]

omit [Sub M] in
/-- Entries of warps that the block has and the kernel knows of are the sums up to them. -/
theorem scannedSums_eq {m w : ℕ} (covers : numWarps ≤ 2 ^ m) (known : w < numWarps)
    (runs : w < numThreads / width) (x stale : ℕ → M) :
    scannedSums (doublings m) numWarps (writtenSums numThreads x stale) w =
      ∑ i ∈ range ((w + 1) * width), x i := by
  rw [scannedSums_known covers known, PrefixSum.sum_range_mul]
  refine sum_congr rfl fun v hv => ?_
  have := mem_range.1 hv
  rw [writtenSums, if_pos (by omega), warpInclusive_eq x v _ (by decide)]
  rfl

theorem launchedChunks_succ (s : BlockState M) (n : ℕ) :
    launchedChunks ds numWarps numThreads total s (n + 1) =
      launchedChunk ds numWarps numThreads total (n * numThreads)
        (launchedChunks ds numWarps numThreads total s n) := by
  rw [launchedChunks, List.range_succ, List.foldl_append]
  rfl

/-- A chunk leaves what lies before it. -/
theorem launchedChunks_done {s : BlockState M} {i c n : ℕ} (before : i < (c + 1) * numThreads)
    (later : c < n) :
    (launchedChunks ds numWarps numThreads total s n).scan i =
      (launchedChunks ds numWarps numThreads total s (c + 1)).scan i := by
  induction n, later using Nat.le_induction with
  | base => rfl
  | succ n later ih =>
    have starts : (c + 1) * numThreads ≤ n * numThreads := Nat.mul_le_mul_right _ later
    have outside : ¬(n * numThreads ≤ i ∧ i < n * numThreads + numThreads ∧ i < total) := by
      omega
    rw [launchedChunks_succ, ← ih]
    exact if_neg outside

/-- The value at the first index of a warp is the sum of the earlier warps, as the scratch has
it, and the carry. -/
theorem launchedChunk_first {s : BlockState M} {start w : ℕ}
    (here : start + w * width < total) (runs : w * width < numThreads)
    (cancel : ∀ a : M, a - a = 0) :
    (launchedChunk ds numWarps numThreads total start s).scan (start + w * width) =
      (if 0 < w then scannedSums ds numWarps
        (writtenSums numThreads (chunkInput total start s.scan) s.warpSums) (w - 1) else 0) +
        s.carry := by
  have inside : start ≤ start + w * width ∧ start + w * width < start + numThreads ∧
      start + w * width < total := by omega
  have lane : warpInclusive (chunkInput total start s.scan) (w * width) =
      chunkInput total start s.scan (w * width) := by
    have first := warpInclusive_eq (chunkInput total start s.scan) w 0 (by decide)
    simpa using first
  have warp : w * width / width = w := Nat.mul_div_cancel _ (by decide)
  simp only [launchedChunk, if_pos inside, Nat.add_sub_cancel_left, lane, cancel, warp, zero_add]

end Launch

section Launched

variable {m numWarps numThreads total : ℕ}

omit [PartialOrder M] [OrderedSub M] [AddLeftReflectLE M] in
/-- With as many warps as the kernel was compiled for, nothing of the scratch is left. -/
theorem launchedChunk_eq (s : BlockState M) (ds : List ℕ) (start : ℕ) (pos : 0 < numWarps) :
    (launchedChunk ds numWarps (numWarps * width) total start s).toScanState =
      scanChunk ds numWarps total start s.toScanState := by
  have warps : numWarps * width / width = numWarps := Nat.mul_div_cancel _ (by decide)
  have sums : ∀ x w, w < numWarps →
      scannedSums ds numWarps (writtenSums (numWarps * width) x s.warpSums) w =
        warpSums ds numWarps x w := by
    intro x w known
    rw [scannedSums, if_pos known, warpSums]
    congr 1
    funext lane
    split_ifs with hlane
    · rw [writtenSums, warps, if_pos hlane]
    · rfl
  simp only [launchedChunk, scanChunk]
  congr 1
  · funext i
    split_ifs with inside first
    · have earlier : (i - start) / width - 1 < numWarps := by
        have := Nat.div_lt_of_lt_mul (show i - start < width * numWarps by
          rw [Nat.mul_comm]; omega)
        omega
      rw [sums _ _ earlier]
    · rfl
    · rfl
  · rw [sums _ _ (by omega)]

omit [PartialOrder M] [OrderedSub M] [AddLeftReflectLE M] in
theorem launchedScan_eq_blockScan (ds : List ℕ) (pos : 0 < numWarps) (init : M)
    (stale f : ℕ → M) :
    launchedScan ds numWarps (numWarps * width) total init stale f =
      blockScan ds numWarps total init f := by
  have chunks : ∀ n, (launchedChunks ds numWarps (numWarps * width) total
      ⟨⟨f, init⟩, stale⟩ n).toScanState =
        (List.range n).foldl (fun s chunk => scanChunk ds numWarps total
          (chunk * (numWarps * width)) s) ⟨f, init⟩ := by
    intro n
    induction n with
    | zero => rfl
    | succ n ih =>
      rw [launchedChunks_succ, launchedChunk_eq _ _ _ pos, ih, List.range_succ,
        List.foldl_append]
      rfl
  exact congrArg ScanState.scan (chunks _)

/-- **Launches that scan correctly**: with as many warps as the kernel was compiled for, or
when the array fits into one chunk and into one warp more than those. -/
theorem launchedScan_apply (pos : 0 < numWarps) (covers : numWarps ≤ 2 ^ m) {warps : ℕ}
    (fits : warps = numWarps ∨ total ≤ min warps (numWarps + 1) * width) (init : M)
    (stale f : ℕ → M) {i : ℕ} (hi : i < total) :
    launchedScan (doublings m) numWarps (warps * width) total init stale f i =
      init + ∑ j ∈ range i, f j := by
  rcases fits with rfl | fits
  · rw [launchedScan_eq_blockScan _ pos, blockScan_apply pos covers _ _ _ hi]
  -- what fits into one chunk takes a single round
  · have single : (total + warps * width - 1) / (warps * width) = 1 := by
      have le := Nat.mul_le_mul_right width (Nat.min_le_left warps (numWarps + 1))
      rw [Nat.div_eq_iff (by omega)]
      omega
    have warp : i / width < min warps (numWarps + 1) :=
      Nat.div_lt_of_lt_mul (by rw [Nat.mul_comm]; omega)
    have lane : i % width < width := Nat.mod_lt _ (by decide)
    have runs : warps * width / width = warps := Nat.mul_div_cancel _ (by decide)
    have bound := Nat.mul_le_mul_right width (Nat.min_le_left warps (numWarps + 1))
    have inside : 0 ≤ i ∧ i < 0 + warps * width ∧ i < total := by omega
    set x := chunkInput total 0 f with hx
    have loaded : ∑ j ∈ range i, x j = ∑ j ∈ range i, f j := by
      refine sum_congr rfl fun j hj => ?_
      have := mem_range.1 hj
      rw [hx, chunkInput, Nat.zero_add, if_pos (by omega)]
    have own := warpInclusive_eq x (i / width) _ lane
    rw [Nat.div_add_mod'] at own
    have earlier : (if 0 < i / width then scannedSums (doublings m) numWarps
        (writtenSums (warps * width) x stale) (i / width - 1) else 0) =
          ∑ j ∈ range (i / width * width), x j := by
      split_ifs with first
      · rw [scannedSums_eq covers (by omega) (by rw [runs]; omega), Nat.sub_add_cancel first]
      · rw [Nat.eq_zero_of_not_pos first, Nat.zero_mul, sum_range_zero]
    have scanned : (launchedChunk (doublings m) numWarps (warps * width) total
        (0 * (warps * width)) ⟨⟨f, init⟩, stale⟩).scan i = (warpInclusive x i - x i) +
          (if 0 < i / width then scannedSums (doublings m) numWarps
            (writtenSums (warps * width) x stale) (i / width - 1) else 0) + init := by
      rw [Nat.zero_mul]
      exact if_pos inside
    rw [launchedScan, single, launchedChunks_succ]
    refine scanned.trans ?_
    have split : i / width * width + i % width = i := Nat.div_add_mod' i width
    rw [own, earlier, sum_range_succ, split, add_tsub_cancel_right, ← loaded, add_comm init]
    congr 1
    conv_rhs => rw [← split, sum_range_add]
    exact add_comm _ _

end Launched

section Wrong

variable {m numWarps warps total : ℕ}

/-- The chunks of a launch over a constant array, with the same value in all of the scratch. -/
abbrev constantChunks (m numWarps warps total value junk : ℕ) : ℕ → BlockState ℕ :=
  launchedChunks (doublings m) numWarps (warps * width) total
    ⟨⟨fun _ => value, 0⟩, fun _ => junk⟩

/-- The value at the first index of warp `w` in the chunk after `c` chunks. -/
theorem launchedScan_first (m numWarps warps total value junk c w : ℕ) (hw : w < warps)
    (here : c * (warps * width) + w * width < total) :
    launchedScan (doublings m) numWarps (warps * width) total 0 (fun _ => junk)
        (fun _ => value) (c * (warps * width) + w * width) =
      (if 0 < w then scannedSums (doublings m) numWarps (writtenSums (warps * width)
        (chunkInput total (c * (warps * width))
          (constantChunks m numWarps warps total value junk c).scan)
        (constantChunks m numWarps warps total value junk c).warpSums) (w - 1) else 0) +
      (constantChunks m numWarps warps total value junk c).carry := by
  have lane : w * width < warps * width := Nat.mul_lt_mul_of_pos_right hw (by decide)
  have visited : c < (total + warps * width - 1) / (warps * width) := by
    rw [← Nat.succ_le_iff, Nat.le_div_iff_mul_le (by omega), Nat.succ_mul]
    omega
  rw [launchedScan, launchedChunks_done (by rw [Nat.succ_mul]; omega) visited,
    launchedChunks_succ]
  exact launchedChunk_first here lane Nat.sub_self

/-- The first value of the second chunk is the carry that the first chunk leaves. -/
theorem launchedScan_second (m numWarps warps total value junk : ℕ) (some : 0 < warps)
    (long : warps * width < total) :
    launchedScan (doublings m) numWarps (warps * width) total 0 (fun _ => junk)
        (fun _ => value) (warps * width) =
      scannedSums (doublings m) numWarps (writtenSums (warps * width)
        (chunkInput total 0 fun _ => value) fun _ => junk) (numWarps - 1) := by
  have first := launchedScan_first m numWarps warps total value junk 1 0 some (by omega)
  have index : 1 * (warps * width) + 0 * width = warps * width := by omega
  rw [index, if_neg (Nat.lt_irrefl 0), Nat.zero_add, constantChunks, launchedChunks_succ] at first
  rw [first]
  simp only [launchedChunk, Nat.zero_mul]
  exact Nat.zero_add _

/-- With too few warps the carry picks up what the scratch held. -/
theorem wrong_of_few (covers : numWarps ≤ 2 ^ m) (some : 0 < warps) (few : warps < numWarps)
    (long : warps * width < total) :
    launchedScan (doublings m) numWarps (warps * width) total 0 (fun _ => 1) (fun _ => 0)
      (warps * width) ≠ warps * width * 0 := by
  have runs : warps * width / width = warps := Nat.mul_div_cancel _ (by decide)
  have known : numWarps - 1 < numWarps := Nat.sub_lt (some.trans few) Nat.one_pos
  rw [launchedScan_second _ _ _ _ _ _ some long, scannedSums_known covers known, Nat.mul_zero]
  -- the last entry is one that no warp has written
  have last := single_le_sum (f := writtenSums (warps * width)
    (chunkInput total 0 fun _ => 0) fun _ => 1) (fun _ _ => Nat.zero_le _)
    (mem_range.2 (Nat.lt_succ_self (numWarps - 1)))
  have unwritten : ¬numWarps - 1 < warps * width / width := by omega
  rw [writtenSums, if_neg unwritten] at last
  exact Nat.ne_of_gt last

/-- The sum over a loaded piece of an array of ones is its length. -/
theorem sum_ones (total start n : ℕ) (inside : start + n ≤ total) :
    ∑ i ∈ range n, chunkInput total 0 (fun _ => 1) (start + i) = n := by
  have ones : ∀ i ∈ range n, chunkInput total 0 (fun _ => 1) (start + i) = 1 := by
    intro i hi
    have := mem_range.1 hi
    exact if_pos (by omega)
  rw [sum_congr rfl ones, sum_const, card_range]
  exact Nat.mul_one n

/-- With one warp too many the carry lacks the sum of the last warp. -/
theorem wrong_of_one_more (pos : 0 < numWarps) (covers : numWarps ≤ 2 ^ m)
    (long : (numWarps + 1) * width < total) :
    launchedScan (doublings m) numWarps ((numWarps + 1) * width) total 0 (fun _ => 0)
      (fun _ => 1) ((numWarps + 1) * width) ≠ (numWarps + 1) * width * 1 := by
  have runs : (numWarps + 1) * width / width = numWarps + 1 := Nat.mul_div_cancel _ (by decide)
  have known : numWarps - 1 < numWarps := Nat.sub_lt pos Nat.one_pos
  have short := sum_ones total 0 (numWarps * width) (by rw [Nat.succ_mul] at long; omega)
  simp only [Nat.zero_add] at short
  have positive : 0 < width := by decide
  rw [launchedScan_second _ _ (numWarps + 1) _ _ _ (Nat.succ_pos numWarps) long,
    scannedSums_eq covers known (by omega), Nat.sub_add_cancel pos, short, Nat.succ_mul]
  omega

/-- With more warps than that a warp finds a sum where the kernel has no prefix. -/
theorem wrong_of_many (pos : 0 < numWarps) (many : numWarps + 1 < warps)
    (long : (numWarps + 1) * width < total) :
    launchedScan (doublings m) numWarps (warps * width) total 0 (fun _ => 0)
      (fun _ => 1) ((numWarps + 1) * width) ≠ (numWarps + 1) * width * 1 := by
  have runs : warps * width / width = warps := Nat.mul_div_cancel _ (by decide)
  have value := launchedScan_first m numWarps warps total 1 0 0 (numWarps + 1) many (by omega)
  rw [if_pos (Nat.succ_pos numWarps), Nat.zero_mul, Nat.zero_add, Nat.add_sub_cancel] at value
  have own := warpInclusive_eq (chunkInput total 0 fun _ => 1) numWarps (width - 1) (by decide)
  have short := sum_ones total (numWarps * width) width
    (by rw [Nat.succ_mul] at long; omega)
  have unscanned : scannedSums (doublings m) numWarps (writtenSums (warps * width)
      (chunkInput total 0 (constantChunks m numWarps warps total 1 0 0).scan)
      (constantChunks m numWarps warps total 1 0 0).warpSums) numWarps = width := by
    rw [scannedSums, if_neg (Nat.lt_irrefl numWarps), writtenSums, if_pos (by omega)]
    exact own.trans short
  have carry : (constantChunks m numWarps warps total 1 0 0).carry = 0 := rfl
  have positive : 0 < numWarps * width := Nat.mul_pos pos (by decide)
  rw [value, unscanned, carry, Nat.succ_mul]
  omega

/-- **All other launches go wrong**: on some constant array and scratch a value differs from the
prefix sum. -/
theorem exists_wrong (pos : 0 < numWarps) (covers : numWarps ≤ 2 ^ m) (some : 0 < warps)
    (unfit : ¬(warps = numWarps ∨ total ≤ min warps (numWarps + 1) * width)) :
    ∃ value junk i : ℕ, i < total ∧
      launchedScan (doublings m) numWarps (warps * width) total 0 (fun _ => junk)
        (fun _ => value) i ≠ i * value := by
  obtain ⟨other, short⟩ := not_or.1 unfit
  have long := not_le.1 short
  rcases Nat.lt_or_gt_of_ne other with few | many
  · rw [Nat.min_eq_left (by omega)] at long
    exact ⟨0, 1, _, long, wrong_of_few covers some few long⟩
  · rw [Nat.min_eq_right (by omega)] at long
    rcases Nat.lt_or_eq_of_le (show numWarps + 1 ≤ warps from many) with more | rfl
    · exact ⟨1, 0, _, long, wrong_of_many pos more long⟩
    · exact ⟨1, 0, _, long, wrong_of_one_more pos covers long⟩

end Wrong

end Warp
