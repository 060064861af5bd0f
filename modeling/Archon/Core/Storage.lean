import Archon.Core.Page
import Archon.Core.Wal
import Archon.Lib.Journal

/-!
# Archon.Core.Storage

The storage engine (`crates/tpt-archon-core/src/storage.rs`): a no-steal
buffer pool whose modifications are first recorded in a write-ahead log, and
recovery from a persisted log.

Read as a journal (`Archon.Lib.Journal`), a log is a sequence of page writes
and commit marks (`entries`); `recover` applies the committed ones
(`recover_eq`).
-/

namespace Archon

open Journal Wal List

variable {ws : List (BlockId × Page)}

/-- A buffer pool whose modifications go to the log first. -/
structure StorageEngine (D : Type) where
  pool : BufferPool D
  wal : Wal

namespace StorageEngine

variable {D : Type} [BlockDevice D]

/-- An engine over `device`, caching at most `capacity` pages. -/
def new (device : D) (capacity : Nat) (h : 0 < capacity) : StorageEngine D :=
  ⟨(BufferPool.new device capacity h).noSteal, Wal.new⟩

/-- Write a page: check it, make room, log it, then stage it in the pool.  A
failure after logging withdraws the record. -/
def writePage (e : StorageEngine D) (b : BlockId) (page : Bytes) :
    Except StorageError Unit × StorageEngine D :=
  if hsize : page.length = PAGE_SIZE then
    if b ≥ blockCount e.pool.device then
      (.error (.outOfBounds b (blockCount e.pool.device)), e)
    else
      match e.pool.reserve b with
      | (.error err, pool) => (.error err, { e with pool })
      | (.ok (), pool) =>
        let wal := e.wal.append .pageWrite b page
        match pool.fetchMut b with
        | (.ok idx, pool) =>
          let pool := pool.modifyFrame idx fun f => { f with page := ⟨page, hsize⟩ }
          (.ok (), ⟨pool.unpin b, wal⟩)
        | (.error err, pool) =>
          (.error err, ⟨pool, wal.truncate e.wal.bytes.length e.wal.nextLsn⟩)
  else (.error (.shortWrite page.length PAGE_SIZE), e)

/-- Read a page through the pool; it stays pinned. -/
def readPage (e : StorageEngine D) (b : BlockId) : Except StorageError Page × StorageEngine D :=
  let (r, pool) := e.pool.fetch b
  (r, { e with pool })

/-- Append a commit marker. -/
def appendCommit (e : StorageEngine D) : StorageEngine D :=
  { e with wal := e.wal.append .commit 0 [] }

/-- Start over with an empty log. -/
def resetWal (e : StorageEngine D) : StorageEngine D := { e with wal := .new }

/-- Commit the current batch: mark, persist the whole log, flush.  `persist`
is the caller's closure over its own state `s`, the durable log. -/
def commitDurable (e : StorageEngine D) (persist : Bytes → σ → Except StorageError Unit × σ)
    (s : σ) : Except StorageError Unit × StorageEngine D × σ :=
  let marked := e.appendCommit
  match persist marked.wal.bytes s with
  | (.error err, s) =>
    (.error err, { e with wal := marked.wal.truncate e.wal.bytes.length e.wal.nextLsn }, s)
  | (.ok (), s) =>
    let (r, pool) := marked.pool.flushAll
    (r, { marked with pool }, s)

/-! ## Recovery -/

/-- The state of the replay closure of `recover`.  The code only counts the
writes it has applied; the model keeps them. -/
structure Recovery (D : Type) where
  pending : List (BlockId × Page)
  device : D
  applied : List (BlockId × Page)

/-- Apply one page image to the device; a write the device refuses is
skipped. -/
def Recovery.applyWrite (s : Recovery D) (w : BlockId × Page) : Recovery D :=
  match writeBlock s.device w.1 (encodePageBlock w.2) with
  | (.ok (), device) => { s with device, applied := s.applied ++ [w] }
  | (.error _, device) => { s with device }

/-- The replay closure of `recover`. -/
def Recovery.step (s : Recovery D) (r : WalRecord) : Recovery D :=
  match r.kind with
  | .pageWrite =>
    if h : r.payload.length = PAGE_SIZE then
      { s with pending := s.pending ++ [(r.blockId, ⟨r.payload, h⟩)] }
    else s
  | .commit | .checkpoint =>
    { s.pending.foldl Recovery.applyWrite s with pending := [] }

/-- The replay of a log over a device. -/
def replayLog (device : D) (wal : Wal) : Recovery D :=
  (wal.replay Recovery.step ⟨[], device, []⟩).1

/-- Rebuild the log from persisted bytes and apply its committed page writes
to the device; the number applied. -/
def recover (e : StorageEngine D) (logBytes : Bytes) : Except StorageError Nat × StorageEngine D :=
  let wal := Wal.fromBytes logBytes
  let s := replayLog e.pool.device wal
  (.ok s.applied.length, ⟨{ e.pool with device := s.device }, wal⟩)

/-! ## Logs as journals -/

/-- A record as a journal entry.  Page writes of the wrong size are ignored
by recovery. -/
def entryOf (r : WalRecord) : Option (Entry (BlockId × Page)) :=
  match r.kind with
  | .pageWrite =>
    if h : r.payload.length = PAGE_SIZE then some (.item (r.blockId, ⟨r.payload, h⟩)) else none
  | .commit | .checkpoint => some .mark

/-- A log as a journal of page writes. -/
def entries (rs : List WalRecord) : List (Entry (BlockId × Page)) := rs.filterMap entryOf

theorem entries_append (rs qs : List WalRecord) : entries (rs ++ qs) = entries rs ++ entries qs :=
  filterMap_append

/-- The replay closure sees a record only as its journal entry. -/
theorem step_eq (s : Recovery D) (r : WalRecord) :
    s.step r = match entryOf r with
      | none => s
      | some (.item w) => { s with pending := s.pending ++ [w] }
      | some .mark => { s.pending.foldl Recovery.applyWrite s with pending := [] } := by
  rw [Recovery.step, entryOf]
  cases r.kind with
  | pageWrite =>
    by_cases hl : r.payload.length = PAGE_SIZE <;> simp only [hl, dite_true, dite_false]
  | commit => rfl
  | checkpoint => rfl

theorem applyWrite_device (s : Recovery D) (w : BlockId × Page) :
    (s.applyWrite w).device = (writeBlock s.device w.1 (encodePageBlock w.2)).2 := by
  unfold Recovery.applyWrite
  obtain ⟨_ | _, device⟩ := writeBlock s.device w.1 (encodePageBlock w.2) <;> rfl

theorem applyWrite_withPending (s : Recovery D) (waiting : List (BlockId × Page))
    (w : BlockId × Page) : ({ s with pending := waiting } : Recovery D).applyWrite w =
      { s.applyWrite w with pending := waiting } := by
  unfold Recovery.applyWrite
  obtain ⟨_ | _, device⟩ := writeBlock s.device w.1 (encodePageBlock w.2) <;> rfl

/-- Applying writes does not look at those still waiting. -/
theorem foldl_applyWrite_withPending (ws : List (BlockId × Page)) (s : Recovery D)
    (waiting : List (BlockId × Page)) :
    ws.foldl Recovery.applyWrite { s with pending := waiting } =
      { ws.foldl Recovery.applyWrite s with pending := waiting } := by
  induction ws generalizing s with
  | nil => rfl
  | cons w ws ih => rw [foldl_cons, applyWrite_withPending, ih, foldl_cons]

/-- Replaying records applies what their journal commits, whatever the device
makes of the writes. -/
theorem foldl_step (rs : List WalRecord) (s : Recovery D) :
    rs.foldl Recovery.step s =
      { (committed (entries rs) s.pending).foldl Recovery.applyWrite s with
        pending := pending (entries rs) s.pending } := by
  induction rs generalizing s with
  | nil => rfl
  | cons r rs ih =>
    have hstep := step_eq s r
    cases hk : entryOf r with
    | none =>
      have he : entries (r :: rs) = entries rs := filterMap_cons_none hk
      grind
    | some entry =>
      have he : entries (r :: rs) = entry :: entries rs := filterMap_cons_some hk
      rw [hk] at hstep
      rw [he, foldl_cons, hstep, ih]
      cases entry with
      | item w => simp [committed, pending, foldl_applyWrite_withPending]
      | mark =>
        simp [committed, pending, foldl_applyWrite_withPending]

/-- The replay of persisted bytes goes over their intact records. -/
theorem replayLog_fromBytes (device : D) (log : Bytes) :
    replayLog device (Wal.fromBytes log) =
      (Wal.intactRecords log).foldl Recovery.step ⟨[], device, []⟩ := by
  have hholds := holds_fromBytes log
  rw [replayLog, replay, replayLoop_of_intact
    (hholds.1 ▸ intact_of_frames _ hholds.2)]

theorem entries_pageWrite (lsn : Lsn) (b : BlockId) (page : Page) :
    entries [⟨lsn, .pageWrite, b, page.bytes⟩] = [.item (b, page)] := by
  simp [entries, entryOf, page.size]

/-- The writes a log commits, in order. -/
def committedWrites (log : Bytes) : List (BlockId × Page) :=
  committed (entries (Wal.intactRecords log)) []

theorem committedWrites_nil : committedWrites [] = [] := by
  have hnil : intactRecords [] = [] :=
    intactRecords_of_intact (intact_of_frames [] (by simp))
  rw [committedWrites, hnil]
  rfl

/-- A page of `0x01` bytes. -/
def onesPage : Page := ⟨List.replicate PAGE_SIZE 1, length_replicate⟩

theorem zeroed_ne_onesPage : Page.zeroed ≠ onesPage := by
  intro h
  have hhead : (List.replicate PAGE_SIZE (0 : UInt8)).head? = (List.replicate PAGE_SIZE 1).head? :=
    congrArg (fun page : Page => page.bytes.head?) h
  cases hhead

/-- A log that commits one page for the first block. -/
def committedLog : Bytes :=
  WalRecord.frames [⟨0, .pageWrite, 0, onesPage.bytes⟩, ⟨1, .commit, 0, []⟩]

theorem entries_committedLog :
    entries (Wal.intactRecords committedLog) = [.item (0, onesPage), .mark] := by
  have hfits : ∀ r ∈ [(⟨0, .pageWrite, 0, onesPage.bytes⟩ : WalRecord),
      ⟨1, .commit, 0, []⟩], r.Fits := by
    intro r hr
    simp only [mem_cons, not_mem_nil, or_false] at hr
    obtain rfl | rfl := hr
    · simp [WalRecord.Fits, onesPage.size, PAGE_SIZE]
    · simp [WalRecord.Fits]
  have hpage := entries_pageWrite 0 0 onesPage
  rw [committedLog, intactRecords_of_intact (intact_of_frames _ hfits), ← singleton_append,
    entries_append, hpage]
  rfl

theorem committedWrites_committedLog : committedWrites committedLog = [(0, onesPage)] := by
  rw [committedWrites, entries_committedLog]
  rfl

section AtomicWrites

variable [AtomicWrites D]

/-- The writes a device of `n` blocks accepts. -/
def inRange (n : UInt64) (ws : List (BlockId × Page)) : List (BlockId × Page) :=
  ws.filter fun w => w.1 < n

theorem inRange_append (n : UInt64) (xs ys : List (BlockId × Page)) :
    inRange n (xs ++ ys) = inRange n xs ++ inRange n ys := filter_append ..

/-- `d'` is `d` after the writes `ws`. -/
structure Written (d : D) (ws : List (BlockId × Page)) (d' : D) : Prop where
  count : blockCount d' = blockCount d
  block : ∀ b, b < blockCount d → block d' b =
    match latest ws b with
    | some page => encodePageBlock page
    | none => block d b

theorem Written.nil (d : D) : Written d [] d := ⟨rfl, fun _ _ => rfl⟩

variable {s : Recovery D}

/-- Applying one write extends the written sequence. -/
theorem applyWrite_written {d : D} (h : Written d ws s.device) (w : BlockId × Page) :
    Written d (ws ++ [w]) (s.applyWrite w).device ∧
      (s.applyWrite w).applied = s.applied ++ inRange (blockCount d) [w] ∧
      (s.applyWrite w).pending = s.pending := by
  by_cases hb : w.1 < blockCount s.device
  · have hok := AtomicWrites.write_ok s.device hb (length_encodePageBlock w.2)
    have hcount := AtomicWrites.count_write s.device w.1 (encodePageBlock w.2)
    have hblock := AtomicWrites.block_write s.device hb (length_encodePageBlock w.2)
    obtain ⟨r, d', hwr⟩ : ∃ r d', writeBlock s.device w.1 (encodePageBlock w.2) = (r, d') :=
      ⟨_, _, rfl⟩
    rw [hwr] at hok hcount hblock
    subst hok
    have heq : s.applyWrite w = { s with device := d', applied := s.applied ++ [w] } := by
      rw [Recovery.applyWrite, hwr]
    rw [heq]
    refine ⟨⟨hcount.trans h.count, ?_⟩, ?_, rfl⟩
    · intro b hlt
      rw [hblock, latest_concat]
      by_cases hbw : b = w.1
      · rw [if_pos hbw, if_pos hbw.symm]
      · simp [hbw, (Ne.symm hbw), h.block b hlt]
    · rw [h.count] at hb
      simp [inRange, hb]
  · obtain ⟨e, he⟩ := AtomicWrites.write_out s.device (encodePageBlock w.2) hb
    have heq : s.applyWrite w = s := by rw [Recovery.applyWrite, he]
    rw [h.count] at hb
    rw [heq]
    refine ⟨⟨h.count, ?_⟩, ?_, rfl⟩
    · intro b hlt
      rw [latest_concat, if_neg]
      · exact h.block b hlt
      · rintro rfl
        exact hb hlt
    · simp [inRange, hb]

theorem foldl_applyWrite_written {d : D} (vs : List (BlockId × Page)) (h : Written d ws s.device) :
    Written d (ws ++ vs) (vs.foldl Recovery.applyWrite s).device ∧
      (vs.foldl Recovery.applyWrite s).applied = s.applied ++ inRange (blockCount d) vs ∧
      (vs.foldl Recovery.applyWrite s).pending = s.pending := by
  induction vs generalizing ws s with
  | nil => exact ⟨by rwa [append_nil], (append_nil _).symm, rfl⟩
  | cons v vs ih =>
    obtain ⟨hw, ha, hp⟩ := applyWrite_written h v
    obtain ⟨hw', ha', hp'⟩ := ih hw
    rw [append_assoc] at hw'
    refine ⟨hw', ?_, hp'.trans hp⟩
    rw [foldl_cons, ha', ha, append_assoc, ← inRange_append, singleton_append]

/-- Recovery writes the committed part of the intact log to the device, and
keeps the intact log. -/
theorem recover_written (e : StorageEngine D) (log : Bytes) :
    Written e.pool.device (committed (entries (Wal.intactRecords log)) [])
        (e.recover log).2.pool.device ∧
      (replayLog e.pool.device (Wal.fromBytes log)).applied =
        inRange (blockCount e.pool.device) (committed (entries (Wal.intactRecords log)) []) ∧
      (e.recover log).2.wal.Holds (Wal.intactRecords log) := by
  have hreplay := replayLog_fromBytes e.pool.device log
  rw [foldl_step] at hreplay
  obtain ⟨hw, ha, -⟩ := foldl_applyWrite_written (committed (entries (intactRecords log)) [])
    (s := ⟨[], e.pool.device, []⟩) (Written.nil e.pool.device)
  refine ⟨?_, ?_, holds_fromBytes log⟩
  · show Written _ _ (replayLog e.pool.device (fromBytes log)).device
    rw [hreplay]
    exact hw
  · grind

end AtomicWrites

end StorageEngine

end Archon
