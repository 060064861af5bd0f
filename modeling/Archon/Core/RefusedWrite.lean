import Archon.Core.PoolShape
import Archon.Core.Storage

/-!
# Archon.Core.RefusedWrite

A page write that fails leaves no trace.

An engine's pool never steals, so making room writes nothing; a frame it frees
still holds its page under its block id, and a frame it adds holds no block at
all (`Undisturbed`).  The record of a write that fails after it was logged is
withdrawn (`refused_write`).
-/

namespace Archon

open BufferPool

variable {b : BlockId}

variable {D : Type}
variable {e : StorageEngine D}

/-! ## What a pool holds -/

/-- The content of a block: its cached frame if present, otherwise the block on
the device. -/
def BufferPool.logicalContent [BlockDevice D] (p : BufferPool D) (b : BlockId) :
    Except StorageError Page :=
  match p.find b with
  | some idx => .ok (p.pageAt idx)
  | none => readBlock p.device b (List.replicate BLOCK_SIZE 0) >>= decodeBlock

/-- The frames with their pages, whatever their states. -/
def BufferPool.held (p : BufferPool D) : List (BlockId × Page) :=
  p.frames.map fun f => (f.blockId, f.page)

/-- Apart from the states of frames, and frames that hold no block yet, the
pool is as it was. -/
structure Undisturbed (p p' : BufferPool D) : Prop where
  device : p'.device = p.device
  steal : p'.steal = p.steal
  frames : ∃ k, p'.held = p.held ++ List.replicate k (BLOCK_ID_MAX, .zeroed)

namespace Undisturbed

variable {p p' p'' : BufferPool D}

theorem refl (p : BufferPool D) : Undisturbed p p := ⟨rfl, rfl, 0, by simp⟩

theorem trans (h : Undisturbed p p') (h' : Undisturbed p' p'') : Undisturbed p p'' := by
  obtain ⟨k, hk⟩ := h.frames
  obtain ⟨k', hk'⟩ := h'.frames
  refine ⟨h'.device.trans h.device, h'.steal.trans h.steal, k + k', ?_⟩
  rw [hk', hk, List.append_assoc, List.replicate_append_replicate]

/-- Only the states of frames differ. -/
theorem of_held (hdevice : p'.device = p.device) (hsteal : p'.steal = p.steal)
    (h : p'.held = p.held) : Undisturbed p p' := ⟨hdevice, hsteal, 0, by simp [h]⟩

theorem modifyFrame (p : BufferPool D) (idx : Nat) {g : Frame → Frame}
    (hid : ∀ f, (g f).blockId = f.blockId) (hpage : ∀ f, (g f).page = f.page) :
    (p.modifyFrame idx g).held = p.held := by
  apply List.ext_getElem?
  simp only [held, List.getElem?_map, getElem?_modifyFrame]
  grind

end Undisturbed

theorem BufferPool.find_eq_findIdx (p : BufferPool D) (b : BlockId) :
    p.find b = p.held.findIdx? fun h => h.1 = b := by
  simp [find, held, Function.comp_def]

theorem BufferPool.pageAt_held {p : BufferPool D} {i : Nat} {page : Page}
    (h : p.held[i]? = some (b, page)) : p.pageAt i = page := by
  rw [held, List.getElem?_map] at h
  obtain ⟨f, hf, heq⟩ := Option.map_eq_some_iff.mp h
  cases heq
  exact pageAt_eq hf

variable [BlockDevice D]

/-- The blocks of the device stay where they are in the pool. -/
theorem Undisturbed.find {p p' : BufferPool D} (h : Undisturbed p p')
    (hb : b < blockCount p.device) : p'.find b = p.find b := by
  obtain ⟨k, hk⟩ := h.frames
  have hmax := ne_max_of_lt hb
  have hpad : (List.replicate k (BLOCK_ID_MAX, Page.zeroed)).findIdx? (fun h => h.1 = b) =
      none := by
    simp [Ne.symm hmax]
  simp [find_eq_findIdx, hk, hpad]

/-- The blocks of the device keep their contents. -/
theorem Undisturbed.logicalContent {p p' : BufferPool D} (h : Undisturbed p p')
    (hb : b < blockCount p.device) : p'.logicalContent b = p.logicalContent b := by
  obtain ⟨k, hk⟩ := h.frames
  unfold BufferPool.logicalContent
  rw [h.find hb, h.device]
  cases hidx : p.find b with
  | none => rfl
  | some idx =>
    obtain ⟨f, hf, _⟩ := find_some hidx
    have hheld : p.held[idx]? = some (f.blockId, f.page) := by simp [held, hf]
    have hheld' : p'.held[idx]? = some (f.blockId, f.page) := by
      rw [hk, List.getElem?_append_left (List.getElem?_eq_some_iff.mp hheld).1, hheld]
    simp [pageAt_held hheld, pageAt_held hheld']

/-! ## Refusals -/

section

variable {p : BufferPool D} (hsteal : p.steal = false)
include hsteal

/-- Making room, whether it succeeds or not. -/
theorem Undisturbed.acquire {x : Except StorageError Nat × BufferPool D} (h : Acquire p x) :
    Undisturbed p x.2 := by
  have hquiet := h.quiet hsteal
  cases h with
  | pushed _ => exact ⟨rfl, rfl, 1, by simp [held]⟩
  | freed idx f device _ hf _ _ =>
    exact .of_held hquiet rfl (Undisturbed.modifyFrame p idx (fun _ => rfl) fun _ => rfl)
  | _ => exact .of_held hquiet rfl rfl

theorem Undisturbed.reserve (b : BlockId) : Undisturbed p (p.reserve b).2 := by
  obtain ⟨_, _, hr⟩ | ⟨_, _, hacquire, _⟩ := reserve_spec p b
  · rw [hr]
    exact .refl p
  · exact .acquire hsteal hacquire

/-- The block is read before the frame is touched. -/
theorem Undisturbed.fetchMut_error {err : StorageError} (h : (p.fetchMut b).1 = .error err) :
    Undisturbed p (p.fetchMut b).2 := by
  have hpin := pin_spec p b
  rw [fetchMut] at h ⊢
  generalize p.pin b = r at hpin h ⊢
  obtain ⟨e | idx, p'⟩ := r
  · cases hpin with
    | failed _ _ _ _ hacquire _ =>
      have hroom := Undisturbed.acquire hsteal hacquire
      exact hroom
  · cases h

end

/-- Truncating to where the log stood withdraws the record. -/
theorem Wal.truncate_append (w : Wal) (kind : RecordKind) (blockId : UInt64) (payload : Bytes) :
    (w.append kind blockId payload).truncate w.bytes.length w.nextLsn = w := by
  rw [truncate, bytes_append, take_append_of_length rfl]

namespace StorageEngine

/-- What a failed write leaves behind: the log and the device as they were, and
every block with its content. -/
structure NoTrace (e e' : StorageEngine D) : Prop where
  log : e'.wal.bytes = e.wal.bytes
  nextLsn : e'.wal.nextLsn = e.wal.nextLsn
  device : e'.pool.device = e.pool.device
  content : ∀ b, b < blockCount e.pool.device → e'.pool.logicalContent b = e.pool.logicalContent b

theorem NoTrace.of_undisturbed {pool : BufferPool D} (h : Undisturbed e.pool pool) :
    NoTrace e ⟨pool, e.wal⟩ :=
  ⟨rfl, rfl, h.device, fun _ hb => h.logicalContent hb⟩

/-! ## Engines never steal -/

section

variable {p : BufferPool D} (hsteal : p.steal = false)
include hsteal

theorem steal_fetchMut (b : BlockId) : (p.fetchMut b).2.steal = false := by
  have hpin := (pin_spec p b).steal.trans hsteal
  rw [fetchMut]
  generalize p.pin b = r at hpin ⊢
  obtain ⟨e | idx, p'⟩ := r <;> exact hpin

omit [BlockDevice D] in
theorem steal_unpin (b : BlockId) : (p.unpin b).steal = false := by
  rw [unpin]
  split <;> exact hsteal

theorem steal_flushAll : p.flushAll.2.steal = false := by
  refine flushAll_keeps (·.steal = false) (fun hq hflush => ?_) (fun hq => hq) hsteal
  cases hflush <;> exact hq

end

/-! ## Reachable engines -/

/-- The calls of an engine; a commit comes with the outcome of persisting the
log. -/
inductive EngineCall where
  | writePage (b : BlockId) (page : Bytes)
  | readPage (b : BlockId)
  | commitDurable (persisted : Except StorageError Unit)
  | resetWal
  | recover (log : Bytes)

def after (e : StorageEngine D) : EngineCall → StorageEngine D
  | .writePage b page => (e.writePage b page).2
  | .readPage b => (e.readPage b).2
  | .commitDurable persisted => (e.commitDurable (fun _ s => (persisted, s)) ()).2.1
  | .resetWal => e.resetWal
  | .recover log => (e.recover log).2

/-- The engines over a device that calls lead to. -/
inductive Reachable (d : D) : StorageEngine D → Prop where
  | new (capacity : Nat) (hc : 0 < capacity) : Reachable d (.new d capacity hc)
  | call {e : StorageEngine D} (c : EngineCall) : Reachable d e → Reachable d (e.after c)

/-- The ways a page write can go, with the pools in between. -/
theorem writePage_cases (e : StorageEngine D) (b : BlockId) (page : Bytes) :
    (∃ err, e.writePage b page = (.error err, e)) ∨
    (∃ err, e.writePage b page = (.error err, ⟨(e.pool.reserve b).2, e.wal⟩)) ∨
    (∃ err, ((e.pool.reserve b).2.fetchMut b).1 = .error err ∧
      e.writePage b page = (.error err, ⟨((e.pool.reserve b).2.fetchMut b).2, e.wal⟩)) ∨
    ∃ idx g, e.writePage b page =
      (.ok (), ⟨(((e.pool.reserve b).2.fetchMut b).2.modifyFrame idx g).unpin b,
        e.wal.append .pageWrite b page⟩) := by
  rw [writePage]
  split
  · next hsize =>
    split
    · simp
    · cases hreserve : e.pool.reserve b with
      | mk r pool =>
        cases r with
        | error err => exact .inr (.inl ⟨err, rfl⟩)
        | ok u =>
          simp only
          cases hfetch : pool.fetchMut b with
          | mk r' pool' =>
            cases r' with
            | error err =>
              refine .inr (.inr (.inl ⟨err, rfl, ?_⟩))
              simp [Wal.truncate_append]
            | ok idx => exact .inr (.inr (.inr ⟨idx, _, rfl⟩))
  · simp

theorem steal_after (h : e.pool.steal = false) (c : EngineCall) :
    (e.after c).pool.steal = false := by
  cases c with
  | writePage b page =>
    have hreserve := (Undisturbed.reserve h b).steal
    rw [h] at hreserve
    have hfetch := steal_fetchMut hreserve b
    have hstep : e.after (.writePage b page) = (e.writePage b page).2 := rfl
    rw [hstep]
    obtain ⟨err, hw⟩ | ⟨err, hw⟩ | ⟨err, _, hw⟩ | ⟨idx, g, hw⟩ := e.writePage_cases b page
    · rw [hw]
      exact h
    · rw [hw]
      exact hreserve
    · rw [hw]
      exact hfetch
    · rw [hw]
      exact steal_unpin (p := BufferPool.modifyFrame _ idx g) hfetch b
  | readPage b =>
    show (e.pool.fetch b).2.steal = false
    rw [fetch_eq]
    exact (pin_spec e.pool b).steal.trans h
  | commitDurable persisted =>
    cases persisted with
    | error err => exact h
    | ok u => exact steal_flushAll h
  | resetWal | recover => exact h

theorem Reachable.steal {d : D} (h : Reachable d e) : e.pool.steal = false := by
  induction h with
  | new capacity hc => rfl
  | call c _ ih => exact steal_after ih c

/-- In every reachable state, a page write that is refused leaves no trace. -/
theorem refused_write {d : D} {e : StorageEngine D} (h : Reachable d e) {b : BlockId}
    {page : Bytes} {err : StorageError} (herr : (e.writePage b page).1 = .error err) :
    NoTrace e (e.writePage b page).2 := by
  have hsteal := h.steal
  have hreserve := Undisturbed.reserve hsteal b
  obtain ⟨_, hw⟩ | ⟨_, hw⟩ | ⟨_, hfetch, hw⟩ | ⟨_, _, hw⟩ := e.writePage_cases b page
  · rw [hw]
    exact .of_undisturbed (.refl e.pool)
  · rw [hw]
    exact .of_undisturbed hreserve
  · rw [hw]
    exact .of_undisturbed
      (hreserve.trans (Undisturbed.fetchMut_error (hreserve.steal.trans hsteal) hfetch))
  · grind

/-- The only frame of the pool is pinned by a read, and another block is written. -/
theorem refused_write_pinned :
    let e := (new (InMemoryBlockDevice.new 2) 1 Nat.one_pos).after (.readPage 0)
    (e.writePage 1 onesPage.bytes).1 = .error .allFramesPinned ∧
      NoTrace e (e.writePage 1 onesPage.bytes).2 := by
  intro e
  have hread : readBlock (InMemoryBlockDevice.new 2) 0 (List.replicate BLOCK_SIZE 0) =
      .ok (block (InMemoryBlockDevice.new 2) 0) :=
    ErrorFree.read_ok _ (by decide) List.length_replicate
  have hdecode := decodeBlock_new 2 (b := 0) (by decide)
  have hpool : e.pool = ⟨InMemoryBlockDevice.new 2, 1, Nat.one_pos,
      [⟨0, .zeroed, .pinned 1, false⟩], [0], false⟩ := by
    simp [e, after, readPage, fetch, pin, find, load, acquireFrame, new, BufferPool.new, noSteal,
      hread, hdecode, modifyFrame, touch]
  have herr : (e.writePage 1 onesPage.bytes).1 = .error .allFramesPinned := by
    rw [writePage, dif_pos onesPage.size, hpool]
    rfl
  exact ⟨herr, refused_write (.call _ (.new 1 Nat.one_pos)) herr⟩

end StorageEngine

end Archon
