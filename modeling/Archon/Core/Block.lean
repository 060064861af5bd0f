import Archon.Core.Checksum

/-!
# Archon.Core.Block

The block device abstraction (`crates/tpt-archon-core/src/block`): the
`BlockDevice` trait as a class, the in-memory backend as an instance, and
`AtomicWrites`, the assumption under which durability is stated — a write of
an addressable block succeeds and replaces exactly that block, a read that
succeeds returns the block, and `sync` changes nothing that can be read.
Reads and `sync` may fail; on an `ErrorFree` device they do not.
-/

namespace Archon

/-- Identifies a single fixed-size block within a device. -/
abbrev BlockId := UInt64

/-- Logical page size (`page.rs`). -/
def PAGE_SIZE : Nat := 4096

/-- On-disk block: a page followed by its checksum. -/
def BLOCK_SIZE : Nat := PAGE_SIZE + PAGE_CRC

/-- Errors returned by block devices and by everything built on them. -/
inductive StorageError where
  | outOfBounds (blockId : BlockId) (blockCount : UInt64)
  | shortRead (got expected : Nat)
  | shortWrite (got expected : Nat)
  | io (kind : UInt8)
  | syncFailed
  | allFramesPinned
  | uncommittedPagesPinned
  | unsupported
  | corrupt
  deriving DecidableEq, Repr

/-- A fixed-block-size storage backend.  A read fills the caller's buffer;
a write and a sync return the device they leave behind. -/
class BlockDevice (D : Type) where
  readBlock : D → BlockId → Bytes → Except StorageError Bytes
  writeBlock : D → BlockId → Bytes → Except StorageError Unit × D
  sync : D → Except StorageError Unit × D
  blockCount : D → UInt64

export BlockDevice (readBlock writeBlock sync blockCount)

/-- A device whose writes are atomic and never fail on an addressable block.
A read or a `sync` may fail. -/
class AtomicWrites (D : Type) [BlockDevice D] where
  /-- The bytes stored in a block. -/
  block : D → BlockId → Bytes
  read_block (d : D) {b : BlockId} {buf bytes : Bytes} :
    readBlock d b buf = .ok bytes → bytes = block d b
  read_out (d : D) {b : BlockId} (buf : Bytes) : ¬ b < blockCount d →
    ∃ e, readBlock d b buf = .error e
  write_ok (d : D) {b : BlockId} {data : Bytes} : b < blockCount d →
    data.length = BLOCK_SIZE → (writeBlock d b data).1 = .ok ()
  block_write (d : D) {b : BlockId} {data : Bytes} : b < blockCount d →
    data.length = BLOCK_SIZE → ∀ c, block (writeBlock d b data).2 c =
      if c = b then data else block d c
  write_out (d : D) {b : BlockId} (data : Bytes) : ¬ b < blockCount d →
    ∃ e, writeBlock d b data = (.error e, d)
  count_write (d : D) (b : BlockId) (data : Bytes) :
    blockCount (writeBlock d b data).2 = blockCount d
  block_sync (d : D) : block (sync d).2 = block d
  count_sync (d : D) : blockCount (sync d).2 = blockCount d

export AtomicWrites (block)

/-- A device none of whose operations fails on an addressable block. -/
class ErrorFree (D : Type) [BlockDevice D] extends AtomicWrites D where
  read_ok (d : D) {b : BlockId} {buf : Bytes} : b < blockCount d → buf.length = BLOCK_SIZE →
    readBlock d b buf = .ok (block d b)
  sync_ok (d : D) : (sync d).1 = .ok ()

/-- Replacing one block of a buffer leaves the other blocks alone. -/
theorem slice_splice {blocks data : Bytes} {b c : BlockId}
    (h : b.toNat * BLOCK_SIZE + BLOCK_SIZE ≤ blocks.length) (hl : data.length = BLOCK_SIZE) :
    ((splice blocks (b.toNat * BLOCK_SIZE) data).drop (c.toNat * BLOCK_SIZE)).take BLOCK_SIZE =
      if c = b then data else (blocks.drop (c.toNat * BLOCK_SIZE)).take BLOCK_SIZE := by
  have hb : b.toNat * BLOCK_SIZE ≤ blocks.length := by omega
  split
  · next hcb =>
    subst hcb
    have := slice_splice_self data hb
    rwa [hl] at this
  · next hcb =>
    have hne : c.toNat ≠ b.toNat := fun hn => hcb (UInt64.toNat_inj.mp hn)
    rcases Nat.lt_or_gt_of_ne hne with hlt | hgt
    · refine slice_splice_before hb ?_
      rw [← Nat.succ_mul]
      exact Nat.mul_le_mul_right _ hlt
    · refine slice_splice_after hb ?_
      rw [hl, ← Nat.succ_mul]
      exact Nat.mul_le_mul_right _ hgt

/-- The whole blocks of a file lie inside of it. -/
theorem wholeBlocks_le {contents : Bytes} (h : contents.length < 2 ^ 64) :
    (UInt64.ofNat (contents.length / BLOCK_SIZE)).toNat * BLOCK_SIZE ≤ contents.length := by
  have hlt : contents.length / BLOCK_SIZE < 2 ^ 64 :=
    Nat.lt_of_le_of_lt (Nat.div_le_self _ _) h
  rw [UInt64.toNat_ofNat', Nat.mod_eq_of_lt hlt]
  exact Nat.div_mul_le_self _ _

/-! ## The in-memory backend -/

/-- A device backed by one contiguous buffer, preallocated at construction. -/
structure InMemoryBlockDevice where
  blocks : Bytes
  blockCount : UInt64
  size : blocks.length = blockCount.toNat * BLOCK_SIZE

namespace InMemoryBlockDevice

/-- A device of `blockCount` zeroed blocks. -/
def new (blockCount : UInt64) : InMemoryBlockDevice :=
  ⟨List.replicate (blockCount.toNat * BLOCK_SIZE) 0, blockCount, by simp⟩

/-- An addressable block lies inside the buffer (`range`). -/
theorem start_add_le (d : InMemoryBlockDevice) {b : BlockId} (h : b < d.blockCount) :
    b.toNat * BLOCK_SIZE + BLOCK_SIZE ≤ d.blocks.length := by
  rw [d.size, ← Nat.succ_mul]
  exact Nat.mul_le_mul_right _ (UInt64.lt_iff_toNat_lt.mp h)

def readBlock (d : InMemoryBlockDevice) (b : BlockId) (buffer : Bytes) :
    Except StorageError Bytes :=
  if buffer.length = BLOCK_SIZE then
    if b < d.blockCount then .ok ((d.blocks.drop (b.toNat * BLOCK_SIZE)).take BLOCK_SIZE)
    else .error (.outOfBounds b d.blockCount)
  else .error (.shortRead buffer.length BLOCK_SIZE)

def writeBlock (d : InMemoryBlockDevice) (b : BlockId) (data : Bytes) :
    Except StorageError Unit × InMemoryBlockDevice :=
  if hl : data.length = BLOCK_SIZE then
    if h : b < d.blockCount then
      (.ok (), ⟨splice d.blocks (b.toNat * BLOCK_SIZE) data, d.blockCount, by
        rw [length_splice (by rw [hl]; exact start_add_le d h), d.size]⟩)
    else (.error (.outOfBounds b d.blockCount), d)
  else (.error (.shortWrite data.length BLOCK_SIZE), d)

instance : BlockDevice InMemoryBlockDevice where
  readBlock := readBlock
  writeBlock := writeBlock
  -- nothing to flush: writes are already visible in the backing buffer
  sync d := (.ok (), d)
  blockCount := InMemoryBlockDevice.blockCount

instance : ErrorFree InMemoryBlockDevice where
  block d b := (d.blocks.drop (b.toNat * BLOCK_SIZE)).take BLOCK_SIZE
  read_block d {b buf bytes} h := by
    change readBlock d b buf = _ at h
    grind [readBlock]
  read_ok d {b buf} h hl := by
    show readBlock d b buf = _
    exact (if_pos hl).trans (if_pos h)
  read_out d {b} buf h := by
    show ∃ e, readBlock d b buf = .error e
    rw [readBlock]
    split
    · exact ⟨_, if_neg h⟩
    · exact ⟨_, rfl⟩
  write_ok d {b data} h hl := by
    show (writeBlock d b data).1 = .ok ()
    rw [writeBlock, dif_pos hl, dif_pos (show b < d.blockCount from h)]
  block_write d {b data} h hl c := by
    replace h : b < d.blockCount := h
    show (((writeBlock d b data).2.blocks).drop (c.toNat * BLOCK_SIZE)).take BLOCK_SIZE = _
    simp [writeBlock, hl, h, slice_splice (start_add_le d h) hl]
  write_out d {b} data h := by
    show ∃ e, writeBlock d b data = (.error e, d)
    rw [writeBlock]
    split
    · exact ⟨_, dif_neg h⟩
    · exact ⟨_, rfl⟩
  count_write d b data := by
    show (writeBlock d b data).2.blockCount = d.blockCount
    rw [writeBlock]
    split
    · split <;> rfl
    · rfl
  sync_ok _ := rfl
  block_sync _ := rfl
  count_sync _ := rfl

end InMemoryBlockDevice

end Archon
