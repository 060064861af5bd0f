import Archon.Core.Durability
import Archon.Core.PoolMoves

/-!
# Archon.Core.LiveRecovery

Recovery of an engine that is already in use.

`recover` writes the committed images to the device underneath the pool, which
goes on serving the pages it holds and later flushes those it has modified.  A
recovered image is read back, and stays on the device, exactly when the pool
holds that very page already or holds none of the block and can load it
(`recover_live_iff`).
-/

namespace Archon

open BufferPool Journal

variable {D : Type} [BlockDevice D] [ErrorFree D]

/-! ## A block that stays -/

/-- The block is on the device, and so in every frame that holds it. -/
structure Holding (b : BlockId) (page : Page) (p : BufferPool D) : Prop where
  range : b < blockCount p.device
  device : block p.device b = encodePageBlock page
  frames : ∀ (i : Nat) (f : Frame), p.frames[i]? = some f → f.blockId = b → f.page = page

namespace Holding

variable {b : BlockId} {page : Page} {p : BufferPool D}

variable (h : Holding b page p)
include h

theorem modifyFrame {idx : Nat} {f : Frame} (hf : p.frames[idx]? = some f)
    {g : Frame → Frame} (hg : (g f).blockId = b → (g f).page = page) :
    Holding b page (p.modifyFrame idx g) := by
  refine ⟨h.range, h.device, fun i q hq => ?_⟩
  rw [getElem?_modifyFrame] at hq
  split at hq
  · next hi =>
    subst hi
    simp only [hf, Option.map_some, Option.some.injEq] at hq
    subst hq
    exact hg
  · exact h.frames i q hq

/-- Every change keeps a block that it does not stage. -/
theorem move {w : Option BlockId} (hw : w ≠ some b) {p' : BufferPool D} (hmove : PoolMove w p p') :
    Holding b page p' := by
  cases hmove with
  | push _ =>
    refine ⟨h.range, h.device, fun i f hf hid => ?_⟩
    rw [List.getElem?_append] at hf
    split at hf
    · exact h.frames i f hf hid
    · obtain rfl := List.mem_singleton.mp (List.mem_of_getElem? hf)
      exact absurd hid.symm (ne_max_of_lt h.range)
  | free idx f hf _ => exact ⟨h.range, h.device, (h.modifyFrame hf (h.frames idx f hf)).frames⟩
  | load idx f c bytes page' hf _ hread hdecode =>
    -- a frame that is given the block is filled from the device
    have hfill : c = b → page' = page := by
      rintro rfl
      rw [ErrorFree.read_ok p.device h.range List.length_replicate] at hread
      grind [h.device, decodeBlock_encodePageBlock]
    exact ⟨h.range, h.device, (h.modifyFrame hf hfill).frames⟩
  | pin idx f hf => exact ⟨h.range, h.device, (h.modifyFrame hf (h.frames idx f hf)).frames⟩
  | stage idx f page' hf hblock =>
    refine h.modifyFrame hf fun hid => ?_
    exact absurd (hblock.trans (congrArg some hid)) hw
  | unpin idx f hf => exact h.modifyFrame hf (h.frames idx f hf)
  | flush idx f device hf _ hwrite =>
    have hframes := (h.modifyFrame hf (g := flushed) (h.frames idx f hf)).frames
    have hcount := AtomicWrites.count_write p.device f.blockId (encodePageBlock f.page)
    by_cases hlt : f.blockId < blockCount p.device
    · have hblock := AtomicWrites.block_write p.device hlt (length_encodePageBlock f.page) b
      rw [hwrite] at hcount hblock
      refine ⟨hcount ▸ h.range, hblock.trans ?_, hframes⟩
      split
      · next hid => rw [h.frames idx f hf hid.symm]
      · exact h.device
    · obtain ⟨e, he⟩ := AtomicWrites.write_out p.device (encodePageBlock f.page) hlt
      grind
  | refused idx f e device hf hwrite =>
    by_cases hlt : f.blockId < blockCount p.device
    · have hok := AtomicWrites.write_ok p.device hlt (length_encodePageBlock f.page)
      grind
    · obtain ⟨e', he⟩ := AtomicWrites.write_out p.device (encodePageBlock f.page) hlt
      rw [hwrite] at he
      cases he
      exact h
  | sync =>
    exact ⟨(AtomicWrites.count_sync p.device) ▸ h.range,
      (congrFun (AtomicWrites.block_sync p.device) b).trans h.device, h.frames⟩

theorem moves {w : Option BlockId} (hw : w ≠ some b) {p' : BufferPool D}
    (hmoves : PoolMoves w p p') : Holding b page p' :=
  hmoves.keeps (Holding b page) (fun h hmove => h.move hw hmove) h

end Holding

/-! ## Runs after a recovery -/

/-- The block a call writes. -/
def Op.target : Op → Option BlockId
  | .write b _ => some b
  | _ => none

namespace StorageEngine

omit [ErrorFree D] in
/-- The chain of changes a call makes. -/
theorem moves_step (s : Run D) (hsteal : s.engine.pool.steal = false) (op : Op) :
    PoolMoves op.target s.engine.pool (s.step op).engine.pool := by
  cases op with
  | write b page =>
    have hmoves := moves_writePage hsteal b page
    simp only [Run.step]
    generalize s.engine.writePage b page = r at hmoves ⊢
    obtain ⟨_ | _, e⟩ := r
    · exact hmoves.mono (some b)
    · exact hmoves
  | read b => exact moves_readPage hsteal none b
  | commit outcome =>
    have hmoves := moves_commitDurable s.engine none (persistWith outcome) s.log
    simp only [Run.step]
    generalize s.engine.commitDurable (persistWith outcome) s.log = r at hmoves ⊢
    obtain ⟨_ | _, e, log⟩ := r <;> exact hmoves

/-- A run that does not write a block keeps it. -/
theorem holding_run {b : BlockId} {page : Page} {s : Run D} (hsteal : s.engine.pool.steal = false)
    (h : Holding b page s.engine.pool) (ops : List Op) (hops : ∀ op ∈ ops, op.target ≠ some b) :
    Holding b page (ops.foldl Run.step s).engine.pool := by
  induction ops generalizing s with
  | nil => exact h
  | cons op ops ih =>
    have hmoves := moves_step s hsteal op
    exact ih (hmoves.steal hsteal) (h.moves (hops op (.head _)) hmoves)
      fun op' hop' => hops op' (.tail op hop')

/-! ## Recovery under a pool in use -/

/-- The calls of a client on an engine that was started over `d`. -/
def runOf (d : D) (capacity : Nat) (hc : 0 < capacity) (ops : List Op) : Run D :=
  ops.foldl Run.step (Run.start (.new d capacity hc) [])

/-- The engine in use. -/
def inUse (d : D) (capacity : Nat) (hc : 0 < capacity) (ops : List Op) : StorageEngine D :=
  (runOf d capacity hc ops).engine

/-- The engine serves the image of a block, and no run that does not write the
block takes it off the device. -/
structure Restored (e : StorageEngine D) (b : BlockId) (page : Page) : Prop where
  read : (e.readPage b).1 = .ok page
  stays : b < blockCount e.pool.device → ∀ (log : Bytes) (ops : List Op),
    (∀ op ∈ ops, op.target ≠ some b) →
    block (ops.foldl Run.step (Run.start e log)).engine.pool.device b = encodePageBlock page

/-- The pool holds the image of the block already, or it does not hold the
block and can load it. -/
def Serves (p : BufferPool D) (b : BlockId) (page : Page) : Prop :=
  match p.find b with
  | some idx => p.pageAt idx = page
  | none => b < blockCount p.device ∧ p.HasRoom

section

variable (d : D) (capacity : Nat) (hc : 0 < capacity) (ops : List Op)
include hc

theorem runOf_inv : RunInv d [] (runOf d capacity hc ops) := by
  refine (RunInv.start capacity hc rfl Wal.holds_new ?_).run ops
  exact Wal.intactRecords_of_intact (Wal.intact_of_frames [] (by simp))

theorem inUse_steal :
    (inUse d capacity hc ops).pool.steal = false := (runOf_inv d capacity hc ops).pool.noSteal

end

/-- A recovery puts the last committed image on the device. -/
theorem block_recover (e : StorageEngine D) {log : Bytes} {b : BlockId} {page : Page}
    (hb : b < blockCount e.pool.device) (hlast : latest (committedWrites log) b = some page) :
    block (e.recover log).2.pool.device b = encodePageBlock page := by
  rw [committedWrites] at hlast
  rw [(recover_written e log).1.block b hb, hlast]

variable {e : StorageEngine D} {log : Bytes} {b : BlockId} {page : Page}

/-- What is read after a recovery. -/
theorem readPage_recover_iff (hsteal : e.pool.steal = false)
    (hlast : latest (committedWrites log) b = some page) :
    ((e.recover log).2.readPage b).1 = .ok page ↔ Serves e.pool b page := by
  obtain ⟨hwritten, _⟩ := recover_written e log
  have hsteal' : (e.recover log).2.pool.steal = false := hsteal
  show ((e.recover log).2.pool.fetch b).1 = .ok page ↔ _
  rw [Serves]
  cases hfind : e.pool.find b with
  | some idx =>
    have hfind' : (e.recover log).2.pool.find b = some idx := hfind
    rw [fetch_resident hfind', Except.ok.injEq]
    exact Iff.rfl
  | none =>
    have hfind' : (e.recover log).2.pool.find b = none := hfind
    constructor
    · intro hread
      have hroom : (e.recover log).2.pool.HasRoom := by
        refine Classical.not_not.mp fun hfull => ?_
        obtain ⟨err, herr⟩ := (fetch_missing hsteal' hfind').2 hfull
        grind
      refine ⟨Classical.not_not.mp fun hout => ?_, hroom⟩
      rw [← hwritten.count] at hout
      obtain ⟨err, herr⟩ := AtomicWrites.read_out _ (List.replicate BLOCK_SIZE 0) hout
      simp [(fetch_missing hsteal' hfind').1 hroom, herr] at hread
    · rintro ⟨hb, hroom⟩
      rw [(fetch_missing hsteal' hfind').1 hroom, ErrorFree.read_ok _ (hwritten.count ▸ hb)
        List.length_replicate, block_recover e hb hlast]
      exact decodeBlock_encodePageBlock page

/-- **Recovery in use.**  Every committed image of a log is served and stays
exactly when the pool does not hold another page for its block, and holds the
block or has room for it. -/
theorem recover_live_iff (d : D) (capacity : Nat) (hc : 0 < capacity) (ops : List Op)
    (log : Bytes) :
    (∀ b page, latest (committedWrites log) b = some page →
      Restored ((inUse d capacity hc ops).recover log).2 b page) ↔
      ∀ b page, latest (committedWrites log) b = some page →
        Serves (inUse d capacity hc ops).pool b page := by
  have hpool := (runOf_inv d capacity hc ops).pool
  have hsteal := inUse_steal d capacity hc ops
  constructor
  · intro h b page hlast
    exact (readPage_recover_iff hsteal hlast).mp (h b page hlast).read
  · intro h b page hlast
    have hserves := h b page hlast
    refine ⟨(readPage_recover_iff hsteal hlast).mpr hserves, fun hb log' ops' hops => ?_⟩
    obtain ⟨hwritten, _⟩ := recover_written (inUse d capacity hc ops) log
    have hb' : b < blockCount (inUse d capacity hc ops).pool.device := by
      rw [← hwritten.count]
      exact hb
    have hblock := block_recover (inUse d capacity hc ops) hb' hlast
    have hframes : ∀ (i : Nat) (f : Frame),
        (inUse d capacity hc ops).pool.frames[i]? = some f → f.blockId = b → f.page = page := by
      -- a block has one frame at most, the one that is found
      intro i f hf hid
      rw [Serves] at hserves
      cases hfind : (inUse d capacity hc ops).pool.find b with
      | none => exact absurd hid (find_none hfind i f hf)
      | some idx =>
        obtain ⟨q, hq, hqid⟩ := find_some hfind
        have hi : idx = i := hpool.unique idx i q f hq hf (hqid.trans hid.symm) (hqid ▸ hb')
        subst hi
        simp only [hfind] at hserves
        rw [← hserves, pageAt_eq hf]
    have hholding : Holding b page ((inUse d capacity hc ops).recover log).2.pool :=
      ⟨hb, hblock, hframes⟩
    exact (holding_run (s := Run.start ((inUse d capacity hc ops).recover log).2 log') hsteal
      hholding ops' hops).device

/-- The pool after one read of a fresh device. -/
theorem pool_after_read (n : UInt64) {capacity : Nat} (hc : 0 < capacity) {b : BlockId}
    (h : b < n) :
    (inUse (InMemoryBlockDevice.new n) capacity hc [.read b]).pool.frames =
        [⟨b, .zeroed, .pinned 1, false⟩] ∧
      (inUse (InMemoryBlockDevice.new n) capacity hc [.read b]).pool.capacity = capacity := by
  have hread : readBlock (InMemoryBlockDevice.new n) b (List.replicate BLOCK_SIZE 0) =
      .ok (block (InMemoryBlockDevice.new n) b) := ErrorFree.read_ok _ h List.length_replicate
  have hdecode := decodeBlock_new n h
  simp [inUse, runOf, Run.start, Run.step, readPage, fetch, pin, find, load, acquireFrame,
    StorageEngine.new, BufferPool.new, noSteal, hc, hread, hdecode, modifyFrame, touch]

/-- A pool with another page pinned in one of its two frames. -/
theorem recover_live_iff_roomLeft :
    Restored ((inUse (InMemoryBlockDevice.new 4) 2 (by decide) [.read 1]).recover committedLog).2
      0 onesPage := by
  obtain ⟨hframes, hcapacity⟩ := pool_after_read 4 Nat.two_pos (by decide : (1 : BlockId) < 4)
  have hcount : blockCount (inUse (InMemoryBlockDevice.new 4) 2 (by decide) [.read 1]).pool.device =
      4 := (runOf_inv (InMemoryBlockDevice.new 4) 2 (by decide) [.read 1]).count
  refine (recover_live_iff (InMemoryBlockDevice.new 4) 2 (by decide) [.read 1] committedLog).mpr ?_
    0 onesPage (by rw [committedWrites_committedLog]; rfl)
  intro b page hlast
  rw [committedWrites_committedLog] at hlast
  obtain rfl : 0 = b := by
    by_contra hne
    simp [latest, hne] at hlast
  have hfind : (inUse (InMemoryBlockDevice.new 4) 2 (by decide) [.read 1]).pool.find 0 = none := by
    rw [find, hframes]
    rfl
  rw [Serves, hfind]
  refine ⟨?_, .inr (.inl ?_)⟩
  · rw [hcount]
    decide
  · rw [hframes, hcapacity]
    decide

/-- A page that was read stays in the pool, and is served instead of the
recovered one. -/
theorem recover_live_stale :
    latest (committedWrites committedLog) 0 = some onesPage ∧
      ¬ Restored ((inUse (InMemoryBlockDevice.new 1) 1 (by decide) [.read 0]).recover
        committedLog).2
        0 onesPage := by
  have hlast : latest (committedWrites committedLog) 0 = some onesPage := by
    rw [committedWrites_committedLog]
    rfl
  obtain ⟨hframes, -⟩ := pool_after_read 1 Nat.one_pos (by decide : (0 : BlockId) < 1)
  have hsteal := inUse_steal (InMemoryBlockDevice.new 1) 1 (by decide) [.read 0]
  refine ⟨hlast, fun h => ?_⟩
  generalize inUse (InMemoryBlockDevice.new 1) 1 _ [.read 0] = e at hframes hsteal h
  have hserves := (readPage_recover_iff hsteal hlast).mp h.read
  have hfind : e.pool.find 0 = some 0 := by
    rw [find, hframes]
    rfl
  have hpage : e.pool.pageAt 0 = .zeroed := by
    rw [pageAt, hframes]
    rfl
  simp only [Serves, hfind, hpage] at hserves
  exact zeroed_ne_onesPage hserves

end StorageEngine

end Archon
