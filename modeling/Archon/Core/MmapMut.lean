import Archon.Core.Block
import Archon.Lib.Trace

/-!
# Archon.Core.MmapMut

The writable memory-mapped device
(`crates/tpt-archon-core/src/block/mmap_mut.rs`).

A write goes to the mapping and widens a span of dirty blocks; `sync` takes the
span and flushes it.  The span is taken before the flush is tried, so blocks
whose flush failed are forgotten: a later `sync` succeeds without them, unless
they happen to lie between blocks written since (`sync_covers_iff`).
-/

namespace Archon

/-- A device over a mapping of a whole file.  The lengths and offsets of the
code are `usize` and stay below the length of the mapping. -/
structure MmapWritableBlockDevice where
  mmap : Bytes
  blockCount : UInt64
  /-- The inclusive range of blocks written since the last `sync`. -/
  dirty : Option (BlockId × BlockId)
  size : blockCount.toNat * BLOCK_SIZE ≤ mmap.length

namespace MmapWritableBlockDevice

/-- Map the contents of a file; its length is a `u64`. -/
def openFile (contents : Bytes) (h : contents.length < 2 ^ 64) : MmapWritableBlockDevice where
  mmap := contents
  blockCount := UInt64.ofNat (contents.length / BLOCK_SIZE)
  dirty := none
  size := wholeBlocks_le h

/-- Widen the dirty span to include a block. -/
def widenDirty (dirty : Option (BlockId × BlockId)) (b : BlockId) : Option (BlockId × BlockId) :=
  match dirty with
  | some (lo, hi) => some (min lo b, max hi b)
  | none => some (b, b)

def writeBlock (d : MmapWritableBlockDevice) (b : BlockId) (data : Bytes) :
    Except StorageError Unit × MmapWritableBlockDevice :=
  if hl : data.length = BLOCK_SIZE then
    if h : b < d.blockCount then
      (.ok (), { d with
        mmap := splice d.mmap (b.toNat * BLOCK_SIZE) data
        dirty := widenDirty d.dirty b
        size := by
          have hb := Nat.mul_le_mul_right BLOCK_SIZE
              (Nat.succ_le_of_lt (UInt64.lt_iff_toNat_lt.mp h))
          have hsize := d.size
          rw [Nat.succ_mul] at hb
          rw [length_splice (by omega)]
          exact hsize })
    else (.error (.outOfBounds b d.blockCount), d)
  else (.error (.shortWrite data.length BLOCK_SIZE), d)

/-- The bytes a `sync` flushes: start and length. -/
def flushSpan (d : MmapWritableBlockDevice) : Option (Nat × Nat) :=
  d.dirty.map fun (lo, hi) =>
    let start := lo.toNat * BLOCK_SIZE
    let stop := (hi.toNat + 1) * BLOCK_SIZE
    (start, stop - start)

/-- Flush the dirty span; `flushRange` says whether the system does it. -/
def sync (d : MmapWritableBlockDevice) (flushRange : Nat → Nat → Bool) :
    Except StorageError Unit × MmapWritableBlockDevice :=
  match d.flushSpan with
  | none => (.ok (), { d with dirty := none })
  | some (start, len) =>
    if flushRange start len then (.ok (), { d with dirty := none })
    else (.error .syncFailed, { d with dirty := none })

end MmapWritableBlockDevice

/-! ## Runs -/

/-- The calls; a `sync` comes with what the system does. -/
inductive MmapCall where
  | writeBlock (b : BlockId) (data : Bytes)
  | sync (flushRange : Nat → Nat → Bool)

/-- The result of a call, and the bytes a flush that succeeded has covered. -/
structure MmapReply where
  result : Except StorageError Unit
  flushed : Option (Nat × Nat)

namespace MmapWritableBlockDevice

def call (d : MmapWritableBlockDevice) : MmapCall → Option (MmapReply × MmapWritableBlockDevice)
  | .writeBlock b data =>
    let (r, d) := d.writeBlock b data
    some (⟨r, none⟩, d)
  | .sync flushRange =>
    let (r, d') := d.sync flushRange
    some (⟨r, d.flushSpan.filter fun (start, len) => flushRange start len⟩, d')

end MmapWritableBlockDevice

/-- The runs of a device that was just opened. -/
abbrev MmapRun (contents : Bytes) (h : contents.length < 2 ^ 64) :=
  TraceRun MmapWritableBlockDevice.call (fun _ _ => True)
    (MmapWritableBlockDevice.openFile contents h)

/-- The bytes `start .. start + len` contain the block. -/
def coversBlock (span : Nat × Nat) (b : BlockId) : Bool :=
  decide (span.1 ≤ b.toNat * BLOCK_SIZE ∧ (b.toNat + 1) * BLOCK_SIZE ≤ span.1 + span.2)

/-- Whether a block is written and not covered, after one more call. -/
def uncoveredAfter (b : BlockId) (uncovered : Bool) : MmapCall × MmapReply → Bool
  | (.writeBlock c _, ⟨.ok _, _⟩) => uncovered || c == b
  | (.sync _, ⟨_, some span⟩) => uncovered && !coversBlock span b
  | _ => uncovered

/-- The block has been written, and no flush that succeeded has covered it
since its last write. -/
def uncovered (trace : List (MmapCall × MmapReply)) (b : BlockId) : Bool :=
  trace.foldl (uncoveredAfter b) false

/-- The blocks written since the last `sync`, after one more call. -/
def recentAfter (recent : List BlockId) : MmapCall × MmapReply → List BlockId
  | (.writeBlock b _, ⟨.ok _, _⟩) => b :: recent
  | (.writeBlock _ _, _) => recent
  | (.sync _, _) => []

/-- The blocks written since the last `sync`, whether that succeeded or not. -/
def recent (trace : List (MmapCall × MmapReply)) : List BlockId :=
  trace.foldl recentAfter []

/-- The block lies between two of these. -/
def Between (blocks : List BlockId) (b : BlockId) : Prop :=
  ∃ lo ∈ blocks, ∃ hi ∈ blocks, lo ≤ b ∧ b ≤ hi

/-! ## The span -/

/-- The dirty span is the smallest that holds the blocks. -/
def SpanOf (blocks : List BlockId) : Option (BlockId × BlockId) → Prop
  | none => blocks = []
  | some (lo, hi) => lo ∈ blocks ∧ hi ∈ blocks ∧ ∀ b ∈ blocks, lo ≤ b ∧ b ≤ hi

theorem SpanOf.widen {blocks : List BlockId} {dirty : Option (BlockId × BlockId)}
    (h : SpanOf blocks dirty) (b : BlockId) :
    SpanOf (b :: blocks) (MmapWritableBlockDevice.widenDirty dirty b) := by
  cases dirty with
  | none => grind [SpanOf, MmapWritableBlockDevice.widenDirty]
  | some span =>
    obtain ⟨lo, hi⟩ := span
    obtain ⟨hlo, hhi, hall⟩ := h
    have hmin : min lo b = if lo ≤ b then lo else b := rfl
    have hmax : max hi b = if hi ≤ b then b else hi := rfl
    simp only [MmapWritableBlockDevice.widenDirty, hmin, hmax]
    refine ⟨?_, ?_, ?_⟩
    · split <;> simp [hlo]
    · split <;> simp [hhi]
    · intro c hc
      simp only [UInt64.le_iff_toNat_le] at hall ⊢
      obtain rfl | hc := List.mem_cons.mp hc
      · constructor <;> split <;> omega
      · have hbounds := hall c hc
        constructor <;> split <;> omega

theorem between_iff {blocks : List BlockId} {lo hi : BlockId} (h : SpanOf blocks (some (lo, hi)))
    (b : BlockId) : Between blocks b ↔ lo ≤ b ∧ b ≤ hi := by
  obtain ⟨hlo, hhi, hall⟩ := h
  constructor
  · rintro ⟨lo', hlo', hi', hhi', hle, hge⟩
    grind
  · rintro ⟨hle, hge⟩
    exact ⟨lo, hlo, hi, hhi, hle, hge⟩

/-- A flush of the span covers what lies between its ends. -/
theorem coversBlock_iff {lo hi : BlockId} (hle : lo ≤ hi) (b : BlockId) :
    coversBlock (lo.toNat * BLOCK_SIZE, (hi.toNat + 1) * BLOCK_SIZE - lo.toNat * BLOCK_SIZE) b =
      true ↔ lo ≤ b ∧ b ≤ hi := by
  have hpos : 0 < BLOCK_SIZE := by decide
  have hlohi : lo.toNat * BLOCK_SIZE ≤ (hi.toNat + 1) * BLOCK_SIZE := by
    have := UInt64.le_iff_toNat_le.mp hle
    exact Nat.mul_le_mul_right _ (by omega)
  simp [coversBlock, Nat.add_sub_cancel' hlohi, Nat.mul_le_mul_right_iff hpos,
    UInt64.le_iff_toNat_le]

/-! ## What a `sync` covers -/

variable {contents : Bytes} {hlen : contents.length < 2 ^ 64}
  {trace : List (MmapCall × MmapReply)} {d d' : MmapWritableBlockDevice}

/-- The dirty span is that of the blocks written since the last `sync`. -/
theorem MmapRun.span (h : MmapRun contents hlen trace d) : SpanOf (recent trace) d.dirty := by
  refine h.keeps (P := fun trace d => SpanOf (recent trace) d.dirty) ?_ ?_
  · rfl
  intro trace d c r d' hspan _ hstep
  have hrecent : recent (trace ++ [(c, r)]) = recentAfter (recent trace) (c, r) := by
    simp [recent]
  rw [hrecent]
  cases c with
  | writeBlock b data =>
    simp only [MmapWritableBlockDevice.call, MmapWritableBlockDevice.writeBlock] at hstep
    split at hstep
    · split at hstep
      · cases hstep
        exact hspan.widen b
      · cases hstep
        exact hspan
    · cases hstep
      exact hspan
  | sync flushRange =>
    have hclean : d'.dirty = none := by
      simp only [MmapWritableBlockDevice.call, MmapWritableBlockDevice.sync] at hstep
      split at hstep
      · grind
      · split at hstep <;> cases hstep <;> rfl
    rw [hclean]
    rfl

/-- A `sync` that succeeds has covered every block written so far exactly if the
blocks that earlier flushes have left uncovered lie between blocks written since
the last `sync`. -/
theorem sync_covers_iff (h : MmapRun contents hlen trace d) {flushRange : Nat → Nat → Bool}
    {r : MmapReply} (hstep : d.call (.sync flushRange) = some (r, d')) (hok : r.result = .ok ()) :
    (∀ b, uncovered (trace ++ [(.sync flushRange, r)]) b = false) ↔
      ∀ b, uncovered trace b = true → Between (recent trace) b := by
  have hspan := h.span
  have hafter : ∀ b, uncovered (trace ++ [(.sync flushRange, r)]) b =
      uncoveredAfter b (uncovered trace b) (.sync flushRange, r) := by
    simp [uncovered]
  simp only [hafter]
  simp only [MmapWritableBlockDevice.call, MmapWritableBlockDevice.sync,
    MmapWritableBlockDevice.flushSpan] at hstep
  cases hdirty : d.dirty with
  | none =>
    -- nothing was written since the last `sync`, and nothing is flushed
    rw [hdirty] at hspan hstep
    cases hstep
    have hrecent : recent trace = [] := hspan
    simp [uncoveredAfter, Between, hrecent]
  | some span =>
    obtain ⟨lo, hi⟩ := span
    rw [hdirty] at hspan hstep
    have hlohi : lo ≤ hi := (hspan.2.2 lo hspan.1).2
    simp only [Option.map_some] at hstep
    split at hstep
    · next hflush =>
      cases hstep
      simp only [Option.filter, hflush, if_true, uncoveredAfter, Bool.and_eq_false_iff,
        Bool.not_eq_false', coversBlock_iff hlohi, between_iff hspan]
      grind
    · grind

/-- A file of one block. -/
def oneBlock : Bytes := List.replicate BLOCK_SIZE 0

theorem oneBlock_length : oneBlock.length < 2 ^ 64 := by
  rw [oneBlock, List.length_replicate]
  decide

/-- The block is written, and its flush fails. -/
def failedFlush : List MmapCall := [.writeBlock 0 oneBlock, .sync fun _ _ => false]

theorem exists_failedFlush : ∃ trace d, MmapRun oneBlock oneBlock_length trace d ∧
    uncovered trace 0 = true ∧ d.flushSpan = none := by
  obtain ⟨trace, d, hrun, h⟩ := exists_traceRun MmapWritableBlockDevice.call (fun _ _ => True)
    (.openFile oneBlock oneBlock_length) failedFlush
    (fun run => uncovered run.1 0 && run.2.flushSpan.isNone) (by decide +kernel)
  simp only [Bool.and_eq_true, Option.isNone_iff_eq_none] at h
  exact ⟨trace, d, hrun, h⟩

/-- The next `sync` has nothing to flush. -/
theorem call_sync_clean {flushRange : Nat → Nat → Bool} (h : d.flushSpan = none) :
    d.call (.sync flushRange) = some (⟨.ok (), none⟩, { d with dirty := none }) := by
  simp [MmapWritableBlockDevice.call, MmapWritableBlockDevice.sync, h]

theorem sync_covers_iff_retry : ∃ trace d r d', MmapRun oneBlock oneBlock_length trace d ∧
    d.call (.sync fun _ _ => true) = some (r, d') ∧
    ((∀ b, uncovered (trace ++ [(.sync fun _ _ => true, r)]) b = false) ↔
      ∀ b, uncovered trace b = true → Between (recent trace) b) := by
  obtain ⟨trace, d, hrun, _, hclean⟩ := exists_failedFlush
  have hstep := @call_sync_clean d (fun _ _ => true) hclean
  exact ⟨trace, d, _, _, hrun, hstep, sync_covers_iff hrun hstep rfl⟩

/-- A `sync` tried again after a failure succeeds, and the block was never
flushed. -/
theorem retried_sync_uncovered : ∃ trace d r d', MmapRun oneBlock oneBlock_length trace d ∧
    d.call (.sync fun _ _ => true) = some (r, d') ∧ r.result = .ok () ∧
    ¬ ∀ b, uncovered (trace ++ [(.sync fun _ _ => true, r)]) b = false := by
  obtain ⟨trace, d, hrun, huncovered, hclean⟩ := exists_failedFlush
  have hstep := @call_sync_clean d (fun _ _ => true) hclean
  refine ⟨trace, d, _, _, hrun, hstep, rfl, ?_⟩
  intro hall
  have hzero := hall 0
  simp only [uncovered, List.foldl_append] at hzero
  rw [← uncovered, huncovered] at hzero
  contradiction

end Archon
