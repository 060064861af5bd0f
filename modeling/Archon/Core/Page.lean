import Archon.Core.Block

/-!
# Archon.Core.Page

Pages and the LRU buffer pool (`crates/tpt-archon-core/src/page.rs`).

A block is a page followed by its checksum (`encodePageBlock`/`decodeBlock`);
the pool caches a bounded number of pages over a `BlockDevice`.  Operations
that can fail return their result together with the pool they leave behind,
because an early error return keeps the mutations made before it.

Frames are addressed by index.  The indices come from `find`, `acquireFrame`
and the LRU list, and always are in range (`PoolInv.lru_lt` for the last).
-/

namespace Archon

open InMemoryBlockDevice List

/-! ## Pages and blocks -/

/-- A fixed-size page. -/
structure Page where
  bytes : Bytes
  size : bytes.length = PAGE_SIZE
  deriving DecidableEq

/-- What reading each block gives. -/
abbrev Contents := BlockId → Except StorageError Page

theorem Page.ext {p q : Page} (h : p.bytes = q.bytes) : p = q := by
  cases p; cases q; cases h; rfl

def Page.zeroed : Page := ⟨List.replicate PAGE_SIZE 0, length_replicate⟩

/-- The on-disk layout of a page: its bytes, then their checksum. -/
def encodePageBlock (page : Page) : Bytes :=
  page.bytes ++ leBytes PAGE_CRC (crc32 page.bytes).toNat

/-- Decode a block, verifying its checksum.  A block that was never written
is all zeros and stands for the zero page. -/
def decodeBlock (block : Bytes) : Except StorageError Page :=
  if h : block.length = BLOCK_SIZE then
    if block.all (· == 0) then .ok .zeroed
    else
      let page : Page := ⟨block.take PAGE_SIZE, by rw [length_take, h, BLOCK_SIZE]; omega⟩
      if crc32 page.bytes ≠ UInt32.ofNat (ofLeBytes (block.drop PAGE_SIZE)) then .error .corrupt
      else .ok page
  else .error (.shortRead block.length BLOCK_SIZE)

theorem length_encodePageBlock (page : Page) : (encodePageBlock page).length = BLOCK_SIZE := by
  rw [encodePageBlock, length_append, page.size, length_leBytes, BLOCK_SIZE]

/-- A written page reads back. -/
theorem decodeBlock_encodePageBlock (page : Page) :
    decodeBlock (encodePageBlock page) = .ok page := by
  rw [decodeBlock, dif_pos (length_encodePageBlock page)]
  by_cases hz : (encodePageBlock page).all (· == 0) = true
  · -- only the zero page can look like a block that was never written
    rw [if_pos hz]
    have hp : page = .zeroed := Page.ext (eq_replicate_iff.mpr
      ⟨page.size, fun b hb => by
        simpa using all_eq_true.mp hz b (mem_append_left _ hb)⟩)
    rw [hp]
  · rw [if_neg hz]
    have htake : (encodePageBlock page).take PAGE_SIZE = page.bytes :=
      take_append_of_length page.size
    have hdrop : (encodePageBlock page).drop PAGE_SIZE =
        leBytes PAGE_CRC (crc32 page.bytes).toNat := drop_append_of_length page.size
    have hcrc : UInt32.ofNat (ofLeBytes ((encodePageBlock page).drop PAGE_SIZE)) =
        crc32 page.bytes := by
      rw [hdrop, ofLeBytes_leBytes_of_lt (UInt32.toNat_lt _), UInt32.ofNat_toNat]
    simp [htake, hcrc, ne_eq]

theorem decodeBlock_zero (n : Nat) (h : n = BLOCK_SIZE) :
    decodeBlock (List.replicate n 0) = .ok .zeroed := by
  rw [decodeBlock, dif_pos (by rw [length_replicate, h])]
  simp

/-- Every block of a fresh in-memory device reads as the zero page. -/
theorem decodeBlock_new (n : UInt64) {b : BlockId} (hb : b < n) :
    decodeBlock (block (InMemoryBlockDevice.new n) b) = .ok .zeroed := by
  have hle := start_add_le (new n) (b := b) hb
  have hsize := (new n).size
  show decodeBlock (((List.replicate (n.toNat * BLOCK_SIZE) 0).drop (b.toNat * BLOCK_SIZE)).take
    BLOCK_SIZE) = _
  rw [drop_replicate, take_replicate]
  apply decodeBlock_zero
  rw [hsize] at hle
  change _ ≤ n.toNat * BLOCK_SIZE at hle
  omega

/-! ## The buffer pool -/

/-- The lifecycle state of a frame. -/
inductive PageState where
  | free
  | clean
  | dirty
  | pinned (count : UInt32)
  deriving DecidableEq

/-- A frame: a cached page and its bookkeeping. -/
structure Frame where
  blockId : BlockId
  page : Page
  state : PageState
  /-- A pinned frame was modified; decides its state on the last unpin. -/
  dirtyIntent : Bool

/-- `BlockId::MAX`, the block id of a frame that never held a page. -/
def BLOCK_ID_MAX : BlockId := 0xFFFFFFFFFFFFFFFF

/-- A bounded LRU buffer pool over a block device. -/
structure BufferPool (D : Type) where
  device : D
  capacity : Nat
  capacity_pos : 0 < capacity
  frames : List Frame
  /-- Frame indices, least recently used first. -/
  lru : List Nat
  /-- Whether eviction may write a dirty frame back. -/
  steal : Bool

namespace BufferPool

variable {D : Type}

/-- An empty pool; a zero capacity is refused at construction. -/
def new (device : D) (capacity : Nat) (h : 0 < capacity) : BufferPool D :=
  ⟨device, capacity, h, [], [], true⟩

def noSteal (p : BufferPool D) : BufferPool D := { p with steal := false }

/-! ### Frames and the recency list -/

/-- The frame holding a block. -/
def find (p : BufferPool D) (b : BlockId) : Option Nat :=
  p.frames.findIdx? fun f => f.blockId = b

/-- Change one frame in place. -/
def modifyFrame (p : BufferPool D) (idx : Nat) (g : Frame → Frame) : BufferPool D :=
  { p with frames := p.frames.modify idx g }

/-- Move a frame to the most recently used end. -/
def touch (p : BufferPool D) (idx : Nat) : BufferPool D :=
  { p with lru := p.lru.erase idx ++ [idx] }

/-- Whether eviction may take a frame in this state. -/
def evictable (steal : Bool) : PageState → Bool
  | .pinned _ => false
  | .dirty => steal
  | _ => true

/-- The least recently used frame eviction may take. -/
def victim (p : BufferPool D) : Option Nat :=
  p.lru.find? fun i => (p.frames[i]?).any fun f => evictable p.steal f.state

/-- The state of a frame after one more pin. -/
def repinned (f : Frame) : PageState :=
  match f.state with
  | .pinned n => .pinned (n + 1)
  | _ => .pinned 1

def pinFrame (p : BufferPool D) (idx : Nat) : BufferPool D :=
  p.modifyFrame idx fun f => { f with state := repinned f }

def markDirtyPinned (p : BufferPool D) (idx : Nat) : BufferPool D :=
  p.modifyFrame idx fun f => { f with dirtyIntent := true }

/-- The page in a frame. -/
def pageAt (p : BufferPool D) (idx : Nat) : Page :=
  match p.frames[idx]? with
  | some f => f.page
  | none => .zeroed

/-- The state of a frame after one unpin. -/
def unpinned (f : Frame) : PageState :=
  match f.state with
  | .pinned n => if n > 1 then .pinned (n - 1) else if f.dirtyIntent then .dirty else .clean
  | s => s

/-- Unpin the page of `b`; the last unpin makes it dirty or clean. -/
def unpin (p : BufferPool D) (b : BlockId) : BufferPool D :=
  match p.find b with
  | some idx => p.modifyFrame idx fun f => { f with state := unpinned f }
  | none => p

/-- Frames a flush writes: dirty ones, and pinned ones already modified. -/
def needsFlush (f : Frame) : Bool :=
  match f.state with
  | .dirty => true
  | .pinned _ => f.dirtyIntent
  | _ => false

variable {p : BufferPool D}

variable {idx : Nat}

theorem find_some {b : BlockId} (h : p.find b = some idx) :
    ∃ f, p.frames[idx]? = some f ∧ f.blockId = b := by
  obtain ⟨hlt, hp, _⟩ := findIdx?_eq_some_iff_getElem.mp h
  exact ⟨p.frames[idx], getElem?_eq_getElem hlt, by simpa using hp⟩

theorem find_none {b : BlockId} (h : p.find b = none) (i : Nat) (f : Frame)
    (hf : p.frames[i]? = some f) : f.blockId ≠ b := by
  have := findIdx?_eq_none_iff.mp h f (mem_of_getElem? hf)
  simpa using this

theorem victim_some (h : p.victim = some idx) :
    ∃ f, p.frames[idx]? = some f ∧ evictable p.steal f.state = true := by
  have := find?_some h
  cases hf : p.frames[idx]? with
  | none => rw [hf] at this; contradiction
  | some f => rw [hf] at this; exact ⟨f, rfl, this⟩

theorem getElem?_modifyFrame (p : BufferPool D) (idx : Nat) (g : Frame → Frame) (i : Nat) :
    (p.modifyFrame idx g).frames[i]? = if idx = i then (p.frames[i]?).map g else p.frames[i]? := by
  rw [modifyFrame, getElem?_modify]
  split <;> simp

theorem getElem?_modifyFrame_self {f : Frame} (hf : p.frames[idx]? = some f) (g : Frame → Frame) :
    (p.modifyFrame idx g).frames[idx]? = some (g f) := by
  rw [getElem?_modifyFrame, if_pos rfl, hf]
  rfl

theorem pageAt_eq {f : Frame} (hf : p.frames[idx]? = some f) : p.pageAt idx = f.page := by
  rw [pageAt, hf]

theorem unpin_device (p : BufferPool D) (b : BlockId) : (p.unpin b).device = p.device := by
  rw [unpin]
  cases p.find b <;> rfl

theorem modifyFrame_modifyFrame (p : BufferPool D) (idx : Nat) (g g' : Frame → Frame) :
    (p.modifyFrame idx g).modifyFrame idx g' = p.modifyFrame idx (g' ∘ g) := by
  simp [modifyFrame, modify_modify_eq]

/-! ### Operations on the device -/

variable [BlockDevice D]

/-- The write-back half of `evict`. -/
def writeBack (p : BufferPool D) (idx : Nat) : Except StorageError Unit × D :=
  match p.frames[idx]? with
  | some f =>
    if f.state = .dirty then writeBlock p.device f.blockId (encodePageBlock f.page)
    else (.ok (), p.device)
  | none => (.ok (), p.device)

/-- Evict the least recently used unpinned frame, writing it back if dirty. -/
def evict (p : BufferPool D) : Except StorageError (Option Nat) × BufferPool D :=
  match p.victim with
  | none => (.ok none, p)
  | some idx =>
    match p.writeBack idx with
    | (.error e, device) => (.error e, { p with device })
    | (.ok (), device) =>
      (.ok (some idx), { p with
        device
        lru := p.lru.erase idx
        frames := p.frames.modify idx fun f => { f with state := .free, dirtyIntent := false } })

/-- A frame to load a page into: a free one, a new one, or an evicted one. -/
def acquireFrame (p : BufferPool D) : Except StorageError Nat × BufferPool D :=
  match p.frames.findIdx? fun f => f.state = .free with
  | some idx => (.ok idx, p)
  | none =>
    if p.frames.length < p.capacity then
      (.ok p.frames.length,
        { p with frames := p.frames ++ [⟨BLOCK_ID_MAX, .zeroed, .free, false⟩] })
    else
      match p.evict with
      | (.error e, p) => (.error e, p)
      | (.ok (some idx), p) => (.ok idx, p)
      | (.ok none, p) =>
        if p.frames.any fun f => f.state = .dirty then (.error .uncommittedPagesPinned, p)
        else (.error .allFramesPinned, p)

/-- Make room for `b` without writing anything. -/
def reserve (p : BufferPool D) (b : BlockId) : Except StorageError Unit × BufferPool D :=
  match p.find b with
  | some _ => (.ok (), p)
  | none =>
    match p.acquireFrame with
    | (.error e, p) => (.error e, p)
    | (.ok _, p) => (.ok (), p)

/-- The miss path of `fetch` and `fetchMut`: read the block into a frame of
its own, pinned once. -/
def load (p : BufferPool D) (b : BlockId) : Except StorageError Nat × BufferPool D :=
  match p.acquireFrame with
  | (.error e, p) => (.error e, p)
  | (.ok idx, p) =>
    match readBlock p.device b (List.replicate BLOCK_SIZE 0) with
    | .error e => (.error e, p)
    | .ok block =>
      match decodeBlock block with
      | .error e => (.error e, p)
      | .ok page => (.ok idx, p.modifyFrame idx fun _ => ⟨b, page, .pinned 1, false⟩)

/-- Pin the frame of `b`, loading it on a miss: the common part of `fetch`
and `fetchMut`. -/
def pin (p : BufferPool D) (b : BlockId) : Except StorageError Nat × BufferPool D :=
  match p.find b with
  | some idx => (.ok idx, (p.pinFrame idx).touch idx)
  | none =>
    match p.load b with
    | (.error e, p) => (.error e, p)
    | (.ok idx, p) => (.ok idx, p.touch idx)

/-- Fetch and pin the page of `b`. -/
def fetch (p : BufferPool D) (b : BlockId) : Except StorageError Page × BufferPool D :=
  match p.pin b with
  | (.error e, p) => (.error e, p)
  | (.ok idx, p) => (.ok (p.pageAt idx), p)

/-- Fetch and pin the page of `b` for modification: the index of its frame,
which the caller may then write through. -/
def fetchMut (p : BufferPool D) (b : BlockId) : Except StorageError Nat × BufferPool D :=
  match p.pin b with
  | (.error e, p) => (.error e, p)
  | (.ok idx, p) => (.ok idx, p.markDirtyPinned idx)

/-- What a flushed frame looks like. -/
def flushed (f : Frame) : Frame :=
  { f with dirtyIntent := false, state := if f.state = .dirty then .clean else f.state }

/-- One iteration of the flush loop. -/
def flushFrame (p : BufferPool D) (idx : Nat) : Except StorageError Unit × BufferPool D :=
  match p.frames[idx]? with
  | none => (.ok (), p)
  | some f =>
    if needsFlush f then
      match writeBlock p.device f.blockId (encodePageBlock f.page) with
      | (.error e, device) => (.error e, { p with device })
      | (.ok (), device) => (.ok (), { p with device, frames := p.frames.modify idx flushed })
    else (.ok (), p)

/-- The first `k` iterations of the flush loop. -/
def flushLoop (p : BufferPool D) : Nat → Except StorageError Unit × BufferPool D
  | 0 => (.ok (), p)
  | k + 1 =>
    match p.flushLoop k with
    | (.error e, p) => (.error e, p)
    | (.ok (), p) => p.flushFrame k

/-- Write every dirty frame back and sync the device. -/
def flushAll (p : BufferPool D) : Except StorageError Unit × BufferPool D :=
  match p.flushLoop p.frames.length with
  | (.error e, p) => (.error e, p)
  | (.ok (), p) => ((sync p.device).1, { p with device := (sync p.device).2 })

end BufferPool

end Archon
