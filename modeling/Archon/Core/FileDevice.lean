import Archon.Core.Storage

/-!
# Archon.Core.FileDevice

The file-backed device (`crates/tpt-archon-core/src/block/file.rs`) and the
database over it and a sidecar log (`Database` of `storage.rs`), on a system
whose writes and syncs may fail.

Opening a database replays the log onto the file and then empties the log.
The replay skips a write that fails, so what survives an opening that succeeds
are the committed images whose last write did its work (`open_keeps_iff`).
-/

namespace Archon

open Journal StorageEngine List

/-! ## The device -/

/-- A write that fails: the kind of the error, and what it leaves in the block. -/
structure WriteFault where
  kind : UInt8
  left : Bytes
  size : left.length = BLOCK_SIZE

/-- What the system makes of the calls of a device, by their number: the fault
of a write, and whether a sync fails. -/
structure FaultPlan where
  write : Nat → Option WriteFault
  sync : Nat → Bool

/-- A device over a file; the calls made so far are counted. -/
structure FileBlockDevice where
  file : Bytes
  blockCount : UInt64
  plan : FaultPlan
  writes : Nat
  syncs : Nat
  size : blockCount.toNat * BLOCK_SIZE ≤ file.length

namespace FileBlockDevice

/-- A block of the device lies inside the file (`offset`). -/
theorem offset_le {n b : UInt64} {len : Nat} (hsize : n.toNat * BLOCK_SIZE ≤ len) (h : b < n) :
    b.toNat * BLOCK_SIZE + BLOCK_SIZE ≤ len := by
  have := Nat.mul_le_mul_right BLOCK_SIZE (Nat.succ_le_of_lt (UInt64.lt_iff_toNat_lt.mp h))
  grind

/-- Open a file; its length is a `u64`, and a part of a block at its end is
not used. -/
def openFile (contents : Bytes) (h : contents.length < 2 ^ 64) (plan : FaultPlan) :
    FileBlockDevice where
  file := contents
  blockCount := UInt64.ofNat (contents.length / BLOCK_SIZE)
  plan := plan
  writes := 0
  syncs := 0
  size := wholeBlocks_le h

/-- The bytes stored in a block. -/
def slice (d : FileBlockDevice) (b : BlockId) : Bytes :=
  (d.file.drop (b.toNat * BLOCK_SIZE)).take BLOCK_SIZE

def readBlock (d : FileBlockDevice) (b : BlockId) (buffer : Bytes) : Except StorageError Bytes :=
  if buffer.length = BLOCK_SIZE then
    if b < d.blockCount then .ok (d.slice b)
    else .error (.outOfBounds b d.blockCount)
  else .error (.shortRead buffer.length BLOCK_SIZE)

/-- Put bytes in a block; one more write was made. -/
def put (d : FileBlockDevice) (b : BlockId) (h : b < d.blockCount) (data : Bytes)
    (hl : data.length = BLOCK_SIZE) : FileBlockDevice :=
  { d with
    file := splice d.file (b.toNat * BLOCK_SIZE) data
    writes := d.writes + 1
    size := by
      rw [length_splice (by rw [hl]; exact offset_le d.size h)]
      exact d.size }

def writeBlock (d : FileBlockDevice) (b : BlockId) (data : Bytes) :
    Except StorageError Unit × FileBlockDevice :=
  if hl : data.length = BLOCK_SIZE then
    if h : b < d.blockCount then
      match d.plan.write d.writes with
      | none => (.ok (), d.put b h data hl)
      | some fault => (.error (.io fault.kind), d.put b h fault.left fault.size)
    else (.error (.outOfBounds b d.blockCount), { d with writes := d.writes + 1 })
  else (.error (.shortWrite data.length BLOCK_SIZE), { d with writes := d.writes + 1 })

def sync (d : FileBlockDevice) : Except StorageError Unit × FileBlockDevice :=
  (if d.plan.sync d.syncs then .error .syncFailed else .ok (), { d with syncs := d.syncs + 1 })

instance : BlockDevice FileBlockDevice where
  readBlock := readBlock
  writeBlock := writeBlock
  sync := sync
  blockCount := blockCount

/-- What a write of `page` leaves in its block when it is the `i`-th call. -/
def outcome (plan : FaultPlan) (i : Nat) (page : Page) : Bytes :=
  match plan.write i with
  | none => encodePageBlock page
  | some fault => fault.left

/-- The device after a page was written to it, whether the call succeeded or
not. -/
theorem writeBlock_page (d : FileBlockDevice) (b : BlockId) (page : Page) :
    (writeBlock d b (encodePageBlock page)).2.plan = d.plan ∧
      (writeBlock d b (encodePageBlock page)).2.blockCount = d.blockCount ∧
      (writeBlock d b (encodePageBlock page)).2.writes = d.writes + 1 ∧
      ∀ c, c < d.blockCount → (writeBlock d b (encodePageBlock page)).2.slice c =
        if c = b then outcome d.plan d.writes page else d.slice c := by
  rw [writeBlock, dif_pos (length_encodePageBlock page)]
  by_cases h : b < d.blockCount
  · rw [dif_pos h, outcome]
    cases d.plan.write d.writes with
    | none =>
      exact ⟨rfl, rfl, rfl, fun c _ =>
        slice_splice (offset_le d.size h) (length_encodePageBlock page)⟩
    | some fault => exact ⟨rfl, rfl, rfl, fun c _ => slice_splice (offset_le d.size h) fault.size⟩
  · rw [dif_neg h]
    refine ⟨rfl, rfl, rfl, fun c hc => ?_⟩
    rw [if_neg]
    · rfl
    · rintro rfl
      exact h hc

/-! ## Writing many pages -/

/-- What the writes `ws` leave in their blocks, the first of them being the
`i`-th call. -/
def outcomes (plan : FaultPlan) (i : Nat) : List (BlockId × Page) → List (BlockId × Bytes)
  | [] => []
  | (b, page) :: ws => (b, outcome plan i page) :: outcomes plan (i + 1) ws

theorem outcomes_append (plan : FaultPlan) (i : Nat) (xs ys : List (BlockId × Page)) :
    outcomes plan i (xs ++ ys) = outcomes plan i xs ++ outcomes plan (i + xs.length) ys := by
  induction xs generalizing i with
  | nil => rfl
  | cons w xs ih =>
    rw [cons_append, outcomes, outcomes, ih, cons_append, length_cons,
      Nat.add_right_comm, Nat.add_assoc i]

/-- Outcomes belong to the blocks that were written. -/
theorem exists_of_mem_outcomes {plan : FaultPlan} {i : Nat} {ws : List (BlockId × Page)}
    {o : BlockId × Bytes} (h : o ∈ outcomes plan i ws) : ∃ w ∈ ws, w.1 = o.1 := by
  induction ws generalizing i with
  | nil => simp [outcomes] at h
  | cons w ws ih =>
    simp only [outcomes, mem_cons] at h
    obtain rfl | h := h
    · simp
    · obtain ⟨v, hv, heq⟩ := ih h
      exact ⟨v, mem_cons_of_mem w hv, heq⟩

/-- The last write of a block decides what is left in it. -/
theorem latest_outcomes (plan : FaultPlan) (xs : List (BlockId × Page)) (b : BlockId) (page : Page)
    {ys : List (BlockId × Page)} (h : ∀ w ∈ ys, w.1 ≠ b) :
    latest (outcomes plan 0 (xs ++ (b, page) :: ys)) b = some (outcome plan xs.length page) := by
  rw [outcomes_append, Nat.zero_add]
  refine latest_of_split _ b _ fun o ho => ?_
  obtain ⟨w, hw, heq⟩ := exists_of_mem_outcomes ho
  exact heq ▸ h w hw

/-- A replay leaves in each block what the last write to it left. -/
theorem foldl_applyWrite_slice (ws : List (BlockId × Page)) (s : Recovery FileBlockDevice) :
    (ws.foldl Recovery.applyWrite s).device.plan = s.device.plan ∧
      ∀ c, c < s.device.blockCount → (ws.foldl Recovery.applyWrite s).device.slice c =
        (latest (outcomes s.device.plan s.device.writes ws) c).getD (s.device.slice c) := by
  induction ws generalizing s with
  | nil => exact ⟨rfl, fun _ _ => rfl⟩
  | cons w ws ih =>
    have hdevice : (writeBlock s.device w.1 (encodePageBlock w.2)).2 = (s.applyWrite w).device :=
      (applyWrite_device s w).symm
    obtain ⟨hplan, hcount, hwrites, hslice⟩ := writeBlock_page s.device w.1 w.2
    rw [hdevice] at hplan hcount hwrites hslice
    obtain ⟨hplan', hslice'⟩ := ih (s.applyWrite w)
    refine ⟨hplan'.trans hplan, fun c hc => ?_⟩
    rw [foldl_cons, hslice' c (by rwa [hcount]), hplan, hwrites, hslice c hc, outcomes, latest]
    cases latest (outcomes s.device.plan (s.device.writes + 1) ws) c with
    | some left => simp
    | none => by_cases h : c = w.1 <;> simp [h, Ne.symm]

end FileBlockDevice

/-! ## The database -/

namespace Core

/-- An engine over a file, and the contents of the sidecar log.  The calls on
the log file itself succeed. -/
structure Database where
  engine : StorageEngine FileBlockDevice
  walFile : Bytes

namespace Database

/-- Open the data file, replay the log onto it, and empty the log.  The files
are returned also when this fails. -/
def openFiles (contents : Bytes) (h : contents.length < 2 ^ 64) (log : Bytes) (plan : FaultPlan) :
    Except StorageError Unit × Database :=
  let db : Database := ⟨.new (.openFile contents h plan) 64 (by decide), log⟩
  if log.isEmpty then (.ok (), db)
  else
    match db.engine.recover log with
    | (.error e, engine) => (.error e, { db with engine })
    | (.ok _, engine) =>
      match engine.pool.flushAll with
      | (.error e, pool) => (.error e, { db with engine := { engine with pool } })
      | (.ok (), pool) => (.ok (), ⟨{ engine with pool }.resetWal, []⟩)

/-- Every block of the file that the log commits an image of holds the last
such image. -/
def HoldsCommitted (db : Database) (contents log : Bytes) : Prop :=
  ∀ (b : BlockId) (page : Page), b.toNat < contents.length / BLOCK_SIZE →
    latest (committedWrites log) b = some page →
    db.engine.pool.device.slice b = encodePageBlock page

/-- The committed writes are the first calls on the device, so each has its
place in the plan: where no later one goes to its block, it succeeds or at
least leaves the image behind. -/
def LastWritesLand (contents log : Bytes) (plan : FaultPlan) : Prop :=
  ∀ (before behind : List (BlockId × Page)) (b : BlockId) (page : Page),
    committedWrites log = before ++ (b, page) :: behind → (∀ w ∈ behind, w.1 ≠ b) →
    b.toNat < contents.length / BLOCK_SIZE →
    ∀ fault, plan.write before.length = some fault → fault.left = encodePageBlock page

theorem blockCount_openFile {contents : Bytes} (h : contents.length < 2 ^ 64) (plan : FaultPlan)
    (b : BlockId) : b < (FileBlockDevice.openFile contents h plan).blockCount ↔
      b.toNat < contents.length / BLOCK_SIZE := by
  have hlt : contents.length / BLOCK_SIZE < 2 ^ 64 := Nat.lt_of_le_of_lt (Nat.div_le_self _ _) h
  rw [UInt64.lt_iff_toNat_lt, FileBlockDevice.openFile, UInt64.toNat_ofNat', Nat.mod_eq_of_lt hlt]

theorem replayLog_device (d : FileBlockDevice) (log : Bytes) :
    (replayLog d (Wal.fromBytes log)).device =
      ((committedWrites log).foldl Recovery.applyWrite ⟨[], d, []⟩).device := by
  rw [replayLog_fromBytes, foldl_step]
  rfl

/-- An opening fails only when a sync does, and an opening that succeeds leaves
the log empty. -/
theorem openFiles_ok (contents : Bytes) (h : contents.length < 2 ^ 64) (log : Bytes)
    (plan : FaultPlan) (hsync : ∀ i, plan.sync i = false) :
    (openFiles contents h log plan).1 = .ok () ∧
      (openFiles contents h log plan).2.walFile = [] := by
  unfold openFiles
  by_cases hlog : log.isEmpty
  · rw [if_pos hlog]
    exact ⟨rfl, isEmpty_iff.mp hlog⟩
  · -- the pool is empty, so the flush is a single sync
    simp only [hlog, recover, StorageEngine.new, BufferPool.new, BufferPool.noSteal,
      BufferPool.flushAll, BufferPool.flushLoop, length_nil]
    have hplan : (replayLog (FileBlockDevice.openFile contents h plan)
        (Wal.fromBytes log)).device.plan = plan := by
      rw [replayLog_device]
      exact (FileBlockDevice.foldl_applyWrite_slice (committedWrites log) _).1
    generalize replayLog (FileBlockDevice.openFile contents h plan) (Wal.fromBytes log) = s at *
    have hok : (sync s.device).1 = .ok () := by
      show (if s.device.plan.sync s.device.syncs then _ else _) = _
      rw [hplan, hsync, if_neg Bool.false_ne_true]
    obtain ⟨r, device, heq⟩ : ∃ r device, sync s.device = (r, device) := ⟨_, _, rfl⟩
    rw [heq] at hok ⊢
    cases hok
    simp

/-- What an opening that succeeds leaves in the blocks of the file. -/
theorem slice_openFiles {contents : Bytes} {h : contents.length < 2 ^ 64} {log : Bytes}
    {plan : FaultPlan} (hok : (openFiles contents h log plan).1 = .ok ()) {b : BlockId}
    (hb : b.toNat < contents.length / BLOCK_SIZE) :
    (openFiles contents h log plan).2.engine.pool.device.slice b =
      (latest (FileBlockDevice.outcomes plan 0 (committedWrites log)) b).getD
        ((FileBlockDevice.openFile contents h plan).slice b) := by
  unfold openFiles at hok ⊢
  by_cases hlog : log.isEmpty
  · rw [isEmpty_iff.mp hlog, committedWrites_nil]
    rfl
  · -- the pool is empty, so the flush is a single sync
    simp only [hlog, recover, StorageEngine.new, BufferPool.new, BufferPool.noSteal,
      BufferPool.flushAll, BufferPool.flushLoop, length_nil] at hok ⊢
    have hslice := (FileBlockDevice.foldl_applyWrite_slice (committedWrites log)
      ⟨[], .openFile contents h plan, []⟩).2 b ((blockCount_openFile h plan b).mpr hb)
    rw [← replayLog_device] at hslice
    generalize replayLog (FileBlockDevice.openFile contents h plan) (Wal.fromBytes log) = s at *
    obtain ⟨r, device, hsync⟩ : ∃ r device, sync s.device = (r, device) := ⟨_, _, rfl⟩
    have hfile : device.slice b = s.device.slice b := by
      rw [show device = (sync s.device).2 by rw [hsync]]
      rfl
    rw [hsync] at hok ⊢
    cases r with
    | error e => simp at hok
    | ok _ => exact hfile.trans hslice

/-- An opening that succeeds keeps the committed pages exactly when the last
write to each block lands. -/
theorem open_keeps_iff (contents : Bytes) (h : contents.length < 2 ^ 64) (log : Bytes)
    (plan : FaultPlan) (hok : (openFiles contents h log plan).1 = .ok ()) :
    (openFiles contents h log plan).2.HoldsCommitted contents log ↔
      LastWritesLand contents log plan := by
  constructor
  · intro hholds before behind b page hsplit hbehind hb fault hfault
    have hlast := latest_of_split before b page hbehind
    rw [← hsplit] at hlast
    have hslice := hholds b page hb hlast
    rw [slice_openFiles hok hb, hsplit, FileBlockDevice.latest_outcomes plan before b page hbehind]
      at hslice
    simpa [FileBlockDevice.outcome, hfault] using hslice
  · intro hland b page hb hlast
    obtain ⟨before, behind, hsplit, hbehind⟩ := exists_split_of_latest hlast
    have hfault := hland before behind b page hsplit hbehind hb
    rw [slice_openFiles hok hb, hsplit, FileBlockDevice.latest_outcomes plan before b page hbehind]
    rw [FileBlockDevice.outcome]
    cases hw : plan.write before.length with
    | none => rfl
    | some fault => exact hfault fault hw

/-- A file of one block of zeros. -/
def zeroFile : Bytes := List.replicate BLOCK_SIZE 0

theorem length_zeroFile : zeroFile.length < 2 ^ 64 := by
  rw [zeroFile, length_replicate]
  decide

/-- A system on which everything succeeds keeps the page. -/
theorem open_keeps_iff_committedLog :
    (openFiles zeroFile length_zeroFile committedLog ⟨fun _ => none, fun _ =>
      false⟩).2.HoldsCommitted
      zeroFile committedLog := by
  apply (open_keeps_iff zeroFile length_zeroFile committedLog ⟨fun _ => none, fun _ => false⟩
    (openFiles_ok zeroFile length_zeroFile committedLog _ fun _ => rfl).1).mpr
  intro before behind b page _ _ _ fault hfault
  cases hfault

/-- A system on which every write fails and changes nothing. -/
def refusingPlan : FaultPlan :=
  ⟨fun _ => some ⟨28, zeroFile, length_replicate⟩, fun _ => false⟩

/-- The one write of the replay fails, the opening succeeds, and the committed
page is gone with the log. -/
theorem open_loses_committedLog :
    (openFiles zeroFile length_zeroFile committedLog refusingPlan).1 = .ok () ∧
    (openFiles zeroFile length_zeroFile committedLog refusingPlan).2.walFile = [] ∧
    ¬ (openFiles zeroFile length_zeroFile committedLog refusingPlan).2.HoldsCommitted
        zeroFile committedLog := by
  obtain ⟨hok, hempty⟩ := openFiles_ok zeroFile length_zeroFile committedLog refusingPlan
    fun _ => rfl
  refine ⟨hok, hempty, fun hholds => ?_⟩
  have hb : (0 : BlockId).toNat < zeroFile.length / BLOCK_SIZE := by
    rw [zeroFile, length_replicate]
    decide
  have hslice := hholds 0 onesPage hb (by
    rw [committedWrites_committedLog]; rfl)
  rw [slice_openFiles hok hb, committedWrites_committedLog] at hslice
  -- the first byte of the block is still zero
  have hhead : zeroFile.head? = (encodePageBlock onesPage).head? :=
    congrArg List.head? hslice
  cases hhead

end Database

end Core

end Archon
