import Archon.Core.PoolShape
import Archon.Core.Storage

/-!
# Archon.Core.OutOfRange

Accesses to block ids the device does not have.

`acquire_frame` marks a new frame with the id `BlockId::MAX`, and the frame
stays when the load behind it fails.  A later access to that very id then finds
the frame and is served (`refused_iff`, `max_served`); every other id out of
range is refused (`Addressed.pin`).
-/

namespace Archon

open BlockDevice BufferPool

/-- A device that refuses to read a block it does not have and does not change
its size; apart from that its reads and writes may fail. -/
class FixedSize (D : Type) [BlockDevice D] : Prop where
  read_out (d : D) {b : BlockId} (buf : Bytes) : ¬ b < blockCount d →
    ∃ e, readBlock d b buf = .error e
  count_write (d : D) (b : BlockId) (data : Bytes) :
    blockCount (writeBlock d b data).2 = blockCount d

instance {D : Type} [BlockDevice D] [AtomicWrites D] : FixedSize D :=
  ⟨fun d _ buf h => AtomicWrites.read_out d buf h, AtomicWrites.count_write⟩

/-! ## Accesses -/

/-- Accesses to a block, directly through the pool or through the engine. -/
inductive Access where
  | fetch (b : BlockId)
  | fetchMut (b : BlockId) (modify : Page → Page)
  | readPage (b : BlockId)
  | writePage (b : BlockId) (page : Bytes)

def Access.block : Access → BlockId
  | .fetch b | .fetchMut b _ | .readPage b | .writePage b _ => b

namespace StorageEngine

variable {D : Type} [BlockDevice D]

/-- One access, with the page it returns. -/
def access (e : StorageEngine D) : Access → Except StorageError (Option Page) × StorageEngine D
  | .fetch b => let (r, pool) := e.pool.fetch b; (r.map some, { e with pool })
  | .fetchMut b modify =>
    let (r, pool) := e.pool.modifyPage b modify; (r.map some, { e with pool })
  | .readPage b => let (r, e) := e.readPage b; (r.map some, e)
  | .writePage b page => let (r, e) := e.writePage b page; (r.map fun _ => none, e)

/-- The engines reached by accesses, over a fresh pool that steals or not. -/
inductive Reached (d : D) : StorageEngine D → Prop where
  | new (capacity : Nat) (hc : 0 < capacity) (steal : Bool) :
      Reached d ⟨{ BufferPool.new d capacity hc with steal }, Wal.new⟩
  | access {e : StorageEngine D} (a : Access) : Reached d e → Reached d (e.access a).2

/-- Every access to a block the device does not have fails. -/
def Refuses (e : StorageEngine D) (n : UInt64) : Prop :=
  ∀ a : Access, ¬ a.block < n → ∃ err, (e.access a).1 = .error err

end StorageEngine

/-! ## Blocks of the frames -/

/-- The device has `n` blocks, and a frame holds one of them or was never
used. -/
structure Addressed {D : Type} [BlockDevice D] (p : BufferPool D) (n : UInt64) : Prop where
  count : blockCount p.device = n
  frames : ∀ f ∈ p.frames, f.blockId < n ∨ f.blockId = BLOCK_ID_MAX

section

variable {D : Type} [BlockDevice D] {p : BufferPool D} {n : UInt64}

theorem Addressed.modifyFrame (h : Addressed p n) (idx : Nat) {g : Frame → Frame}
    (hg : ∀ f ∈ p.frames, (g f).blockId < n ∨ (g f).blockId = BLOCK_ID_MAX) :
    Addressed (p.modifyFrame idx g) n := by
  refine ⟨h.count, ?_⟩
  intro f hf
  obtain ⟨i, hi⟩ := List.getElem?_of_mem hf
  rw [getElem?_modifyFrame] at hi
  by_cases hidx : idx = i
  · rw [if_pos hidx] at hi
    obtain ⟨q, hq, rfl⟩ := Option.map_eq_some_iff.mp hi
    exact hg q (List.mem_of_getElem? hq)
  · rw [if_neg hidx] at hi
    exact h.frames f (List.mem_of_getElem? hi)

theorem Addressed.unpin (h : Addressed p n) (b : BlockId) : Addressed (p.unpin b) n := by
  rw [BufferPool.unpin]
  cases p.find b with
  | none => exact h
  | some idx => exact h.modifyFrame idx h.frames

variable {b : BlockId}

/-- An id some frame carries is served. -/
theorem fetch_ok {idx : Nat} (hfind : p.find b = some idx) : ∃ page, (p.fetch b).1 = .ok page := by
  rw [fetch_eq, pin, hfind]
  exact ⟨_, rfl⟩

/-- An access fails when pinning its block does. -/
theorem modifyPage_error {modify : Page → Page} {err : StorageError}
    (h : (p.pin b).1 = .error err) : (p.modifyPage b modify).1 = .error err := by
  rw [modifyPage, fetchMut]
  revert h
  rcases p.pin b with ⟨_ | idx, p'⟩ <;> simp

theorem fetch_error {err : StorageError} (h : (p.pin b).1 = .error err) :
    (p.fetch b).1 = .error err := by
  rw [fetch_eq, h]
  rfl

variable [FixedSize D]

theorem count_writeBack (p : BufferPool D) (idx : Nat) :
    blockCount (p.writeBack idx).2 = blockCount p.device := by
  rw [writeBack]
  cases p.frames[idx]? with
  | none => rfl
  | some f =>
    simp only
    split
    · exact FixedSize.count_write p.device f.blockId (encodePageBlock f.page)
    · rfl

section

variable (h : Addressed p n)
include h

variable {x : Except StorageError Nat × BufferPool D}

theorem Addressed.acquire (hacquire : Acquire p x) : Addressed x.2 n := by
  cases hacquire with
  | found _ _ _ _ => exact h
  | pushed _ =>
    refine ⟨h.count, fun f hf => ?_⟩
    obtain hf | hf := List.mem_append.mp hf
    · exact h.frames f hf
    · simp [List.mem_singleton.mp hf]
  | freed idx f device _ hf _ hw =>
    have hcount := count_writeBack p idx
    rw [hw] at hcount
    have hfreed := h.modifyFrame idx
      (g := fun f => { f with state := .free, dirtyIntent := false }) h.frames
    exact ⟨hcount.trans h.count, hfreed.frames⟩
  | refused idx f e device _ _ hw =>
    have hcount := count_writeBack p idx
    rw [hw] at hcount
    exact ⟨hcount.trans h.count, h.frames⟩
  | full _ _ => exact h

/-- An id out of range that no frame carries is refused. -/
theorem Addressed.pin {b : BlockId} (hpin : Pinning p b x) :
    Addressed x.2 n ∧ (¬ b < n → p.find b = none → ∃ err, x.1 = .error err) := by
  cases hpin with
  | hit idx f hfind _ _ =>
    have hpinned : Addressed (p.pinFrame idx) n := h.modifyFrame idx h.frames
    exact ⟨⟨hpinned.count, hpinned.frames⟩, fun _ hnone => by simp [hnone] at hfind⟩
  | failed _ _ e _ hacquire _ =>
    have hroom := h.acquire hacquire
    exact ⟨hroom, fun _ _ => ⟨e, rfl⟩⟩
  | loaded idx f p' bytes page _ hacquire _ _ hread _ =>
    have hroom := h.acquire hacquire
    -- the device served the block, so it has it
    have hb : b < n := by
      by_contra hb
      rw [← hroom.count] at hb
      obtain ⟨e, he⟩ := FixedSize.read_out p'.device (List.replicate BLOCK_SIZE 0) hb
      cases he.symm.trans hread
    have hloaded := hroom.modifyFrame idx (g := fun _ => ⟨b, page, .pinned 1, false⟩)
      fun _ _ => .inl hb
    exact ⟨⟨hloaded.count, hloaded.frames⟩, fun hout => absurd hb hout⟩

section

variable (b : BlockId)

theorem Addressed.fetch : Addressed (p.fetch b).2 n := by
  rw [fetch_eq]
  exact (h.pin (pin_spec p b)).1

theorem Addressed.fetchMut : Addressed (p.fetchMut b).2 n := by
  obtain ⟨hpin, _⟩ := h.pin (pin_spec p b)
  rw [BufferPool.fetchMut]
  revert hpin
  rcases p.pin b with ⟨_ | idx, p'⟩
  · exact fun hpin => hpin
  · exact fun hpin => hpin.modifyFrame idx hpin.frames

theorem Addressed.modifyPage (modify : Page → Page) : Addressed (p.modifyPage b modify).2 n := by
  have hfetch := h.fetchMut b
  rw [BufferPool.modifyPage]
  revert hfetch
  rcases p.fetchMut b with ⟨_ | idx, p'⟩
  · exact fun hfetch => hfetch
  · exact fun hfetch => hfetch.modifyFrame idx hfetch.frames

theorem Addressed.reserve : Addressed (p.reserve b).2 n := by
  obtain ⟨_, _, hr⟩ | ⟨_, _, hacquire, _⟩ := reserve_spec p b
  · rw [hr]
    exact h
  · exact h.acquire hacquire

end

end

end

namespace StorageEngine

variable {D : Type} [BlockDevice D] {e : StorageEngine D} {n : UInt64}

/-- `write_page` checks the block first. -/
theorem writePage_outOfRange (h : Addressed e.pool n) {b : BlockId} (hout : ¬ b < n)
    (page : Bytes) : ∃ err, (e.writePage b page).1 = .error err := by
  have hge : b ≥ blockCount e.pool.device := by
    rw [h.count]
    exact UInt64.not_lt.mp hout
  simp only [writePage]
  split <;> exact ⟨_, rfl⟩

theorem access_readPage (e : StorageEngine D) (b : BlockId) :
    (e.access (.readPage b)).1 = (e.pool.fetch b).1.map some := rfl

variable [FixedSize D]

theorem addressed_writePage (h : Addressed e.pool n) (b : BlockId) (page : Bytes) :
    Addressed (e.writePage b page).2.pool n := by
  rw [writePage]
  split
  · next hsize =>
    split
    · exact h
    · have hroom := h.reserve b
      revert hroom
      rcases e.pool.reserve b with ⟨_ | _, pool⟩
      · exact fun hroom => hroom
      · intro hroom
        have hfetch := hroom.fetchMut b
        simp only
        revert hfetch
        rcases pool.fetchMut b with ⟨_ | idx, pool'⟩
        · exact fun hfetch => hfetch
        · intro hfetch
          have hstaged := hfetch.modifyFrame idx
            (g := fun f => { f with page := ⟨page, hsize⟩ }) hfetch.frames
          exact hstaged.unpin b
  · exact h

theorem addressed_access (h : Addressed e.pool n) (a : Access) :
    Addressed (e.access a).2.pool n := by
  cases a with
  | fetch b => exact h.fetch b
  | fetchMut b modify => exact h.modifyPage b modify
  | readPage b => exact h.fetch b
  | writePage b page => exact addressed_writePage h b page

theorem Reached.addressed {d : D} (h : Reached d e) : Addressed e.pool (blockCount d) := by
  induction h with
  | new capacity hc steal => exact ⟨rfl, by simp [BufferPool.new]⟩
  | access a _ ih => exact addressed_access ih a

/-- Accesses out of range are refused as long as no frame was left unused. -/
theorem refused_iff {d : D} (h : Reached d e) :
    e.Refuses (blockCount d) ↔ ∀ f ∈ e.pool.frames, f.blockId ≠ BLOCK_ID_MAX := by
  have haddr := h.addressed
  constructor
  · intro hrefuses f hf hmax
    cases hfind : e.pool.find BLOCK_ID_MAX with
    | none =>
      obtain ⟨i, hi⟩ := List.getElem?_of_mem hf
      exact find_none hfind i f hi hmax
    | some idx =>
      obtain ⟨err, herr⟩ := hrefuses (.fetch BLOCK_ID_MAX) fun hlt => ne_max_of_lt hlt rfl
      obtain ⟨page, hpage⟩ := fetch_ok hfind
      simp [access, hpage, Except.map] at herr
  · intro hused a hout
    -- the frames hold blocks of the device only
    have hpin : ∃ err, (e.pool.pin a.block).1 = .error err := by
      apply (haddr.pin (pin_spec e.pool a.block)).2 hout
      apply find_eq_none
      intro i f hi heq
      have hmem := List.mem_of_getElem? hi
      obtain hlt | hmax := haddr.frames f hmem
      · exact hout (heq ▸ hlt)
      · exact hused f hmem hmax
    obtain ⟨err, herr⟩ := hpin
    cases a with
    | fetch b => exact ⟨err, congrArg (Except.map some) (fetch_error herr)⟩
    | fetchMut b modify => exact ⟨err, congrArg (Except.map some) (modifyPage_error herr)⟩
    | readPage b => exact ⟨err, congrArg (Except.map some) (fetch_error herr)⟩
    | writePage b page =>
      obtain ⟨err, herr⟩ := writePage_outOfRange haddr hout page
      exact ⟨err, congrArg (Except.map fun _ => none) herr⟩

/-- An engine over two blocks, with one frame. -/
def small : StorageEngine InMemoryBlockDevice :=
  .new (.new 2) 1 (by decide)

theorem refused_iff_fetched : ((small.access (.fetch 1)).2.Refuses 2 ↔
    ∀ f ∈ (small.access (.fetch 1)).2.pool.frames, f.blockId ≠ BLOCK_ID_MAX) :=
  refused_iff (.access (.fetch 1) (.new 1 (by decide) false))

/-- The refused access to block 2 leaves an unused frame behind. -/
theorem small_fetch_two : (small.access (.fetch 2)).2.pool.frames =
    [⟨BLOCK_ID_MAX, .zeroed, .free, false⟩] := by
  have hread : readBlock (InMemoryBlockDevice.new 2) 2 (List.replicate BLOCK_SIZE 0) =
      .error (.outOfBounds 2 2) := by
    simp [readBlock, InMemoryBlockDevice.readBlock, InMemoryBlockDevice.new]
  simp [small, StorageEngine.new, BufferPool.new, noSteal, access, BufferPool.fetch,
    BufferPool.pin, find, BufferPool.load, BufferPool.acquireFrame, hread]

/-- After it, the last block id is served. -/
theorem max_served : ¬ BLOCK_ID_MAX < blockCount small.pool.device ∧ ∃ page,
    ((small.access (.fetch 2)).2.access (.readPage BLOCK_ID_MAX)).1 = .ok (some page) := by
  have hfind : (small.access (.fetch 2)).2.pool.find BLOCK_ID_MAX = some 0 := by
    simp [find, small_fetch_two]
  obtain ⟨page, hpage⟩ := fetch_ok hfind
  exact ⟨fun hlt => ne_max_of_lt hlt rfl, page, by rw [access_readPage, hpage]; rfl⟩

end StorageEngine

end Archon
