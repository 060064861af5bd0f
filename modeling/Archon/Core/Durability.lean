import Archon.Core.Pool
import Archon.Core.Storage

/-!
# Archon.Core.Durability

Crash durability of the storage engine.  A `Run` is an engine together with
the log its client last managed to persist and the history of its successful
writes; `Crashed` lists the points at which it may stop, inside the flush
loop of a commit included.

`RunInv` ties pool, log, device and history together and is kept by every
call (`RunInv.step`); what recovery rebuilds from a crash is read off it.
-/

namespace Archon

open Journal StorageEngine BufferPool Wal List

variable {b : BlockId} {content : Contents} {written : BlockId → Prop}
  {rs : List WalRecord}

variable {D : Type} [BlockDevice D] [AtomicWrites D]
variable {e : StorageEngine D}

/-! ## What the engine's calls do -/

/-- The logical store: the last write to a block, else what the device held. -/
def contentOf (d : D) (ws : List (BlockId × Page)) (b : BlockId) : Except StorageError Page :=
  match latest ws b with
  | some page => .ok page
  | none => decodeBlock (block d b)

theorem contentOf_concat (d : D) (ws : List (BlockId × Page)) (b : BlockId) (page : Page) :
    contentOf d (ws ++ [(b, page)]) = PoolInv.update (contentOf d ws) b page := by
  funext c
  rw [contentOf, PoolInv.update, latest_concat]
  by_cases h : c = b
  · rw [if_pos h.symm, if_pos h]
  · rw [if_neg (Ne.symm h), if_neg h]
    rfl

/-- The content a live engine holds for a block: its cached page, else the
block on the device. -/
def liveContent (e : StorageEngine D) (b : BlockId) : Except StorageError Page :=
  match e.pool.find b with
  | some idx => .ok (e.pool.pageAt idx)
  | none => decodeBlock (block e.pool.device b)

theorem liveContent_eq (h : PoolInv e.pool content written) (hb : b < blockCount e.pool.device) :
    liveContent e b = content b := by
  rw [liveContent]
  cases hfind : e.pool.find b with
  | some idx =>
    obtain ⟨f, hf, rfl⟩ := find_some hfind
    rw [h.page idx f hf hb]
    exact congrArg Except.ok (pageAt_eq hf)
  | none =>
    rcases h.clean b hb with hc | ⟨i, f, hf, hid, _⟩
    · exact hc.symm
    · exact absurd hid (find_none hfind i f hf)

/-- A page write either fails and leaves log, device and logical store as
they were, or logs the page and stages it. -/
theorem writePage_spec (h : PoolInv e.pool content written) (hw : e.wal.Holds rs) (b : BlockId)
    (page : Bytes) :
    (e.writePage b page).2.pool.device = e.pool.device ∧
      ((∃ err, (e.writePage b page).1 = .error err ∧
          PoolInv (e.writePage b page).2.pool content written ∧
          (e.writePage b page).2.wal.Holds rs) ∨
        ∃ hsize : page.length = PAGE_SIZE, (e.writePage b page).1 = .ok () ∧
          b < blockCount e.pool.device ∧
          PoolInv (e.writePage b page).2.pool (PoolInv.update content b ⟨page, hsize⟩)
            (fun c => c = b ∨ written c) ∧
          (e.writePage b page).2.wal.Holds (rs ++ [e.wal.nextRecord .pageWrite b page])) := by
  rw [writePage]
  by_cases hsize : page.length = PAGE_SIZE
  · rw [dif_pos hsize]
    by_cases hb : b ≥ blockCount e.pool.device
    · rw [if_pos hb]
      exact ⟨rfl, .inl ⟨_, rfl, h, hw⟩⟩
    · rw [if_neg hb]
      have hlt : b < blockCount e.pool.device := by simpa using hb
      obtain ⟨hres, hdev⟩ := h.reserve b
      obtain ⟨r, p, hr⟩ : ∃ r p, e.pool.reserve b = (r, p) := ⟨_, _, rfl⟩
      rw [hr] at hres hdev ⊢
      cases r with
      | error err => exact ⟨hdev, .inl ⟨err, rfl, hres, hw⟩⟩
      | ok u =>
        dsimp only at hres hdev ⊢
        rw [fetchMut]
        obtain ⟨hinv, hpinned⟩ := hres.pin b
        have hspec := pin_spec p b
        have hdev' := hpinned.trans hdev
        generalize p.pin b = r' at hinv hdev' hspec
        obtain ⟨err | idx, p'⟩ := r'
        · exact ⟨hdev', .inl ⟨err, rfl, hinv, hw.truncate_append .pageWrite b page⟩⟩
        · obtain ⟨f, n, hf, hid, hs⟩ := hspec.frame
          dsimp only at hdev' ⊢
          have hstage := hinv.stage hf hid hs (hdev' ▸ hlt) ⟨page, hsize⟩
          have hfits : (e.wal.nextRecord .pageWrite b page).Fits :=
            fits_nextRecord (Nat.le_of_eq hsize)
          rw [markDirtyPinned, modifyFrame_modifyFrame]
          refine ⟨(unpin_device _ b).trans hdev', .inr ⟨hsize, rfl, hlt, ?_,
            hw.append _ _ _ hfits⟩⟩
          exact hstage.unpin b
  · rw [dif_neg hsize]
    exact ⟨rfl, .inl ⟨_, rfl, h, hw⟩⟩

variable {s s' : σ} {rs₀ : List WalRecord} {log : Bytes} {durable : List (BlockId × Page)}

omit [AtomicWrites D] in
/-- A commit whose log cannot be persisted changes nothing. -/
theorem commitDurable_error (hw : e.wal.Holds rs)
    (persist : Bytes → σ → Except StorageError Unit × σ) {err : StorageError}
    (hp : persist (e.wal.append .commit 0 []).bytes s = (.error err, s')) :
    ∃ wal, wal.Holds rs ∧ e.commitDurable persist s = (.error err, ⟨e.pool, wal⟩, s') := by
  refine ⟨_, hw.truncate_append .commit 0 [], ?_⟩
  rw [commitDurable]
  simp only [appendCommit, hp]

/-- A commit whose log is persisted fails at most in the final `sync`: the log
ends in a mark and the device holds the logical store. -/
theorem commitDurable_persisted (h : PoolInv e.pool content written) (hw : e.wal.Holds rs)
    (persist : Bytes → σ → Except StorageError Unit × σ)
    (hp : persist (e.wal.append .commit 0 []).bytes s = (.ok (), s')) :
    ∃ (d : D) (e' : StorageEngine D), e.commitDurable persist s = ((sync d).1, e', s') ∧
      PoolInv.Flushing e.pool content written e'.pool ∧
      e'.wal = e.wal.append .commit 0 [] ∧
      e'.wal.Holds (rs ++ [e.wal.nextRecord .commit 0 []]) := by
  obtain ⟨d, pool, hflush, hinv, _⟩ := h.flushAll
  have hmark := hw.append .commit 0 []
    (fits_nextRecord (Nat.zero_le _))
  refine ⟨d, ⟨pool, e.wal.append .commit 0 []⟩, ?_, hinv, rfl, hmark⟩
  simp [commitDurable, appendCommit, hp, hflush]

/-! ## Runs and crashes -/

/-- A call of the engine's client; a commit carries the outcome of its
`persist` closure. -/
inductive Op where
  | write (b : BlockId) (page : Bytes)
  | read (b : BlockId)
  | commit (outcome : Except StorageError Unit)

/-- A `persist` closure: it replaces the durable log, or fails and leaves it
in place. -/
def persistWith (outcome : Except StorageError Unit) (bytes log : Bytes) :
    Except StorageError Unit × Bytes :=
  match outcome with
  | .ok () => (.ok (), bytes)
  | .error e => (.error e, log)

/-- An engine in use, with the log its client last persisted and the history
of the client's successful page writes. -/
structure Run (D : Type) where
  engine : StorageEngine D
  /-- The last successfully persisted log. -/
  log : Bytes
  /-- The successful page writes, oldest first. -/
  writes : List (BlockId × Page)
  /-- Those made before the last successful persist. -/
  durable : List (BlockId × Page)
  /-- The engine as the last successful commit left it. -/
  committed : StorageEngine D

namespace Run

/-- A run that has not made any call yet. -/
def start (e : StorageEngine D) (log : Bytes) : Run D := ⟨e, log, [], [], e⟩

/-- The history after a successful `writePage`, whose image is page-sized. -/
def record (ws : List (BlockId × Page)) (b : BlockId) (page : Bytes) : List (BlockId × Page) :=
  if h : page.length = PAGE_SIZE then ws ++ [(b, ⟨page, h⟩)] else ws

def step (s : Run D) : Op → Run D
  | .write b page =>
    match s.engine.writePage b page with
    | (.ok (), engine) => { s with engine, writes := record s.writes b page }
    | (.error _, engine) => { s with engine }
  | .read b => { s with engine := (s.engine.readPage b).2 }
  | .commit outcome =>
    match s.engine.commitDurable (persistWith outcome) s.log with
    | (.ok (), engine, log) => ⟨engine, log, s.writes, s.writes, engine⟩
    | (.error _, engine, log) =>
      { s with engine, log, durable := match outcome with
        | .ok () => s.writes
        | .error _ => s.durable }

end Run

/-- The points at which a run may crash: the device, the persisted log and
the durable history it leaves. -/
inductive Crashed : Run D → D → Bytes → List (BlockId × Page) → Prop
  /-- Between two calls. -/
  | between (s : Run D) : Crashed s s.engine.pool.device s.log s.durable
  /-- Inside a commit whose log was persisted, after `k` iterations of the
  flush loop. -/
  | flushing (s : Run D) (k : Nat) (h : k ≤ s.engine.pool.frames.length) :
      Crashed s (s.engine.appendCommit.pool.flushLoop k).2.device
        s.engine.appendCommit.wal.bytes s.writes

/-! ## The invariant of a run -/

/-- A run that started with device `d` and log records `rs₀`. -/
structure RunInv (d : D) (rs₀ : List WalRecord) (s : Run D) : Prop where
  pool : PoolInv s.engine.pool (contentOf d s.writes) fun b => ∃ page, (b, page) ∈ s.writes
  count : blockCount s.engine.pool.device = blockCount d
  /-- The engine's log is the initial one followed by the writes of the run. -/
  wal : ∃ rs es, s.engine.wal.Holds rs ∧ entries rs = entries rs₀ ++ es ∧ items es = s.writes
  /-- The persisted log is the initial one, or ends in a commit of `durable`. -/
  log : (s.durable = [] ∧ intactRecords s.log = rs₀) ∨
    ∃ es, entries (intactRecords s.log) = entries rs₀ ++ (es ++ [.mark]) ∧ items es = s.durable
  /-- Only blocks with a durable write have changed on the device. -/
  device : ∀ b, latest s.durable b = none → block s.engine.pool.device b = block d b
  history : ∃ rest, s.writes = s.durable ++ rest
  range : ∀ w ∈ s.writes, w.1 < blockCount d

namespace RunInv

variable {d : D} {rs₀ : List WalRecord} {s : Run D}

theorem latest_durable_eq_none (h : RunInv d rs₀ s) (hb : latest s.writes b = none) :
    latest s.durable b = none := by
  obtain ⟨rest, hrest⟩ := h.history
  rw [latest_eq_none_iff] at hb ⊢
  intro w hw
  exact hb w (hrest ▸ mem_append_left _ hw)

theorem not_written {ws : List (BlockId × Page)} (hb : latest ws b = none) :
    ¬ ∃ page, (b, page) ∈ ws := by
  rintro ⟨page, hm⟩
  exact (latest_eq_none_iff ws b).mp hb _ hm rfl

/-- A fresh pool over `d`, with a log of `rs₀`. -/
theorem start (capacity : Nat) (hc : 0 < capacity)
    (hpool : e.pool = (BufferPool.new d capacity hc).noSteal) (hwal : e.wal.Holds rs₀)
    (hlog : intactRecords log = rs₀) : RunInv d rs₀ (Run.start e log) where
  pool := by
    show PoolInv e.pool _ _
    rw [hpool]
    have hwritten : (fun b => ∃ page, (b, page) ∈ (Run.start e log).writes) = fun _ => False := by
      funext b
      exact eq_false (fun ⟨_, hm⟩ => by contradiction)
    rw [hwritten]
    exact PoolInv.new d capacity hc
  count := by
    show blockCount e.pool.device = _
    rw [hpool]
    rfl
  wal := ⟨rs₀, [], hwal, (append_nil _).symm, rfl⟩
  log := .inl ⟨rfl, hlog⟩
  device := by
    intro b _
    show block e.pool.device b = _
    rw [hpool]
    rfl
  history := ⟨[], rfl⟩
  range := fun _ hw => by contradiction

section

variable (h : RunInv d rs₀ s)
include h

theorem write (b : BlockId) (page : Bytes) : RunInv d rs₀ (s.step (.write b page)) := by
  obtain ⟨rs, es, hholds, hrs, hes⟩ := h.wal
  obtain ⟨hdev, hspec⟩ := writePage_spec h.pool hholds b page
  obtain ⟨r, e, hr⟩ : ∃ r e, s.engine.writePage b page = (r, e) := ⟨_, _, rfl⟩
  rw [hr] at hdev hspec
  rcases hspec with ⟨err, rfl, hpool, hwal⟩ | ⟨hsize, rfl, hlt, hpool, hwal⟩
  · have hstep : s.step (.write b page) = { s with engine := e } := by rw [Run.step, hr]
    rw [hstep]
    exact ⟨hpool, hdev ▸ h.count, ⟨rs, es, hwal, hrs, hes⟩, h.log, hdev ▸ h.device, h.history,
      h.range⟩
  · have hstep : s.step (.write b page) =
        { s with engine := e, writes := s.writes ++ [(b, ⟨page, hsize⟩)] } := by
      rw [Run.step, hr, Run.record, dif_pos hsize]
    rw [h.count] at hlt
    rw [hstep]
    refine ⟨?_, hdev ▸ h.count, ⟨_, es ++ [.item (b, ⟨page, hsize⟩)], hwal, ?_, ?_⟩, h.log,
      hdev ▸ h.device, ?_, ?_⟩
    · dsimp only
      rw [contentOf_concat]
      rw [show (fun c => ∃ q, (c, q) ∈ s.writes ++ [(b, (⟨page, hsize⟩ : Page))]) =
        fun c => c = b ∨ ∃ q, (c, q) ∈ s.writes from ?_]
      · exact hpool
      · grind
    · rw [entries_append, hrs, append_assoc]
      congr 2
      exact entries_pageWrite _ b ⟨page, hsize⟩
    · rw [items_append, hes]
      rfl
    · obtain ⟨rest, hrest⟩ := h.history
      simp [hrest]
    · intro w hw
      rcases mem_append.mp hw with hw | hw
      · exact h.range w hw
      · simp [mem_singleton.mp hw, hlt]

theorem read (b : BlockId) : RunInv d rs₀ (s.step (.read b)) := by
  obtain ⟨hpool, hdev⟩ := h.pool.fetch b
  refine ⟨hpool, ?_, h.wal, h.log, ?_, h.history, h.range⟩
  · show blockCount (s.engine.pool.fetch b).2.device = _
    rw [hdev, h.count]
  · show ∀ c, _ → block (s.engine.pool.fetch b).2.device c = _
    rw [hdev]
    exact h.device

/-- The log a commit persists is the initial one followed by the writes of
the run and a mark. -/
theorem marked :
    ∃ es, entries (intactRecords s.engine.appendCommit.wal.bytes) =
      entries rs₀ ++ (es ++ [.mark]) ∧ items es = s.writes := by
  obtain ⟨rs, es, hholds, hrs, hes⟩ := h.wal
  have hmark := hholds.append .commit 0 []
    (fits_nextRecord (Nat.zero_le _))
  refine ⟨es, ?_, hes⟩
  rw [show s.engine.appendCommit.wal = s.engine.wal.append .commit 0 [] from rfl,
    hmark.intactRecords_eq, entries_append, hrs, append_assoc]
  rfl

/-- A commit whose log is persisted makes the whole history durable, also when
its `sync` fails. -/
theorem step_commit :
    ∃ e e', s.step (.commit (.ok ())) =
        ⟨e, s.engine.appendCommit.wal.bytes, s.writes, s.writes, e'⟩ ∧
      RunInv d rs₀ (s.step (.commit (.ok ()))) := by
  obtain ⟨rs, es, hholds, hrs, hes⟩ := h.wal
  obtain ⟨d', e, hcommit, hflush, hwal, hholds'⟩ := commitDurable_persisted h.pool hholds
    (persistWith (.ok ())) (s := s.log) rfl
  obtain ⟨e', hstep⟩ : ∃ e', s.step (.commit (.ok ())) =
      ⟨e, s.engine.appendCommit.wal.bytes, s.writes, s.writes, e'⟩ := by
    rw [Run.step, hcommit]
    rcases (sync d').1 with err | u
    · exact ⟨s.committed, rfl⟩
    · exact ⟨e, rfl⟩
  refine ⟨e, e', hstep, ?_⟩
  rw [hstep]
  refine ⟨hflush.inv, hflush.count.trans h.count, ⟨_, es ++ [.mark], hholds', ?_, ?_⟩,
    .inr h.marked, ?_, ⟨[], (append_nil _).symm⟩, h.range⟩
  · rw [entries_append, hrs, append_assoc]
    rfl
  · rw [items_append, hes]
    exact append_nil _
  · intro b hb
    rw [hflush.block b (not_written hb)]
    exact h.device b (h.latest_durable_eq_none hb)

theorem commit (outcome : Except StorageError Unit) : RunInv d rs₀ (s.step (.commit outcome)) := by
  cases outcome with
  | ok u =>
    obtain ⟨_, _, _, hinv⟩ := h.step_commit
    exact hinv
  | error err =>
    obtain ⟨rs, es, hholds, hrs, hes⟩ := h.wal
    obtain ⟨wal, hwal, hcommit⟩ := commitDurable_error hholds
      (persistWith (.error err)) (s := s.log) rfl
    have hstep : s.step (.commit (.error err)) =
        { s with engine := ⟨s.engine.pool, wal⟩ } := by
      rw [Run.step, hcommit]
    rw [hstep]
    exact ⟨h.pool, h.count, ⟨rs, es, hwal, hrs, hes⟩, h.log, h.device, h.history, h.range⟩

theorem step (op : Op) : RunInv d rs₀ (s.step op) := by
  cases op with
  | write b page => exact h.write b page
  | read b => exact h.read b
  | commit outcome => exact h.commit outcome

theorem run (ops : List Op) : RunInv d rs₀ (ops.foldl Run.step s) := by
  induction ops generalizing s with
  | nil => exact h
  | cons op ops ih => exact ih (h.step op)

end

end RunInv

/-! ## What recovery rebuilds -/

/-- What a crash leaves behind: the log is the initial one or commits the
durable history, and other blocks are as they were. -/
structure CrashInv (d : D) (rs₀ : List WalRecord) (d' : D) (log : Bytes)
    (durable : List (BlockId × Page)) : Prop where
  count : blockCount d' = blockCount d
  log : (durable = [] ∧ intactRecords log = rs₀) ∨
    ∃ es, entries (intactRecords log) = entries rs₀ ++ (es ++ [.mark]) ∧ items es = durable
  device : ∀ b, latest durable b = none → block d' b = block d b

/-- No crash point escapes the invariant: a flush in progress only writes
blocks the persisted log already covers. -/
theorem RunInv.crashed {d d' : D} {s : Run D} (h : RunInv d rs₀ s) (hc : Crashed s d' log durable) :
    CrashInv d rs₀ d' log durable := by
  cases hc with
  | between => exact ⟨h.count, h.log, h.device⟩
  | flushing k hk =>
    obtain ⟨p, hp, hflush, _⟩ := h.pool.flushLoop k
    have hdev : (s.engine.appendCommit.pool.flushLoop k).2 = p := by
      show (s.engine.pool.flushLoop k).2 = p
      rw [hp]
    rw [hdev]
    refine ⟨hflush.count.trans h.count, .inr h.marked, ?_⟩
    intro b hb
    rw [hflush.block b (RunInv.not_written hb)]
    exact h.device b (h.latest_durable_eq_none hb)

/-- The writes a persisted log commits: the committed ones of the initial
log, its pending ones once anything was committed, and the durable ones. -/
theorem CrashInv.committed_eq {d d' : D} (h : CrashInv d rs₀ d' log durable) :
    ∃ ws, (ws = [] ∨ ws = pending (entries rs₀) []) ∧
      committed (entries (intactRecords log)) [] = committed (entries rs₀) [] ++ ws ++
        durable := by
  rcases h.log with ⟨rfl, hrs⟩ | ⟨es, hes, hdur⟩
  · simp [hrs]
  · refine ⟨_, .inr rfl, ?_⟩
    simp [hes, ← append_assoc, committed_concat_mark, items_append, hdur,
      committed_append_pending]

theorem decodeBlock_written {d d' : D} {ws : List (BlockId × Page)} (h : Written d ws d')
    (hb : b < blockCount d) : decodeBlock (block d' b) = contentOf d ws b := by
  rw [h.block b hb, contentOf]
  cases latest ws b with
  | some page => exact decodeBlock_encodePageBlock page
  | none => rfl

/-- **Crash durability.**  Over any device whose writes are atomic and whose
blocks decode, any run of a fresh engine, failed reads and syncs included, may
crash at any point; recovering the persisted log over the
crashed device gives every block the image of its last durable write, or its
initial content. -/
theorem recover_crashed (d : D) (capacity : Nat) (hc : 0 < capacity) (initial : BlockId → Page)
    (hinit : ∀ b, b < blockCount d → decodeBlock (block d b) = .ok (initial b)) (ops : List Op)
    {d' : D} {log : Bytes} {durable : List (BlockId × Page)}
    (hcrash : Crashed (ops.foldl Run.step (Run.start (.new d capacity hc) [])) d' log durable)
    (capacity' : Nat) (hc' : 0 < capacity') :
    let recovered := ((StorageEngine.new d' capacity' hc').recover log).2.pool.device
    blockCount recovered = blockCount d ∧ ∀ b, b < blockCount recovered →
      decodeBlock (block recovered b) = .ok ((latest durable b).getD (initial b)) := by
  have hnil : intactRecords [] = [] :=
    intactRecords_of_intact (intact_of_frames [] (by simp))
  have hstart : RunInv d [] (Run.start (.new d capacity hc) []) :=
    RunInv.start capacity hc rfl holds_new hnil
  have hinv := (hstart.run ops).crashed hcrash
  obtain ⟨hw, _, _⟩ := recover_written (StorageEngine.new d' capacity' hc') log
  -- nothing was pending before the run, so the log commits exactly `durable`
  have hcommitted : committed (entries (intactRecords log)) [] = durable := by
    obtain ⟨ws, hws, heq⟩ := hinv.committed_eq
    rcases hws with rfl | rfl <;> exact heq
  rw [hcommitted] at hw
  have hcount := hw.count.trans hinv.count
  refine ⟨hcount, ?_⟩
  intro b hb
  rw [hcount] at hb
  rw [decodeBlock_written hw (show b < blockCount d' from hinv.count ▸ hb), contentOf]
  cases hl : latest durable b with
  | some page => rfl
  | none =>
    show decodeBlock (block d' b) = _
    rw [hinv.device b hl]
    exact hinit b hb

/-- A crash right after the log of one write was persisted, before any block
of it was flushed. -/
theorem recover_crashed_after_persist :
    let s := [Op.write 0 (List.replicate PAGE_SIZE 1)].foldl Run.step
      (Run.start (.new (InMemoryBlockDevice.new 4) 2 (by decide)) [])
    let recovered := ((StorageEngine.new (s.engine.appendCommit.pool.flushLoop 0).2.device 1
      (by decide)).recover s.engine.appendCommit.wal.bytes).2.pool.device
    blockCount recovered = blockCount (InMemoryBlockDevice.new 4) ∧ ∀ b, b < blockCount recovered →
      decodeBlock (block recovered b) = .ok ((latest s.writes b).getD .zeroed) :=
  recover_crashed (InMemoryBlockDevice.new 4) 2 (by decide) (fun _ => .zeroed)
    (fun _ hb => decodeBlock_new 4 hb) [Op.write 0 (List.replicate PAGE_SIZE 1)]
    (.flushing _ 0 (Nat.zero_le _)) 1 (by decide)

end Archon
