import Archon.Core.Durability

/-!
# Archon.Core.Recovery

Recovering, working on, and recovering again.  `recover` keeps the whole
intact log, the page writes it dropped included, and the next commit marker
is appended behind them: a second recovery then applies them.  The engine is
consistent across two recoveries exactly when the first log has no pending
page write for a block of the device.
-/

namespace Archon

open Journal StorageEngine List

variable {D : Type} [BlockDevice D] [ErrorFree D]

/-- The page writes `recover` applies to a device. -/
def appliedBy (d : D) (log : Bytes) : List (BlockId × Page) :=
  (replayLog d (Wal.fromBytes log)).applied

/-- The page writes of a log that recovery drops: no commit follows them. -/
def droppedBy (d : D) (log : Bytes) : List (BlockId × Page) :=
  inRange (blockCount d) (pending (entries (Wal.intactRecords log)) [])

/-- A page write, or a commit whose log is persisted. -/
def Op.Succeeding : Op → Prop
  | .write _ _ => True
  | .read _ => False
  | .commit outcome => outcome = .ok ()

/-- The run of a fresh engine that first recovers `log`. -/
def runRecovered (d : D) (capacity : Nat) (hc : 0 < capacity) (log : Bytes) (ops : List Op) :
    Run D :=
  ops.foldl Run.step (Run.start ((StorageEngine.new d capacity hc).recover log).2 log)

/-- After recovering `log` and any further work, a second recovery gives every
block the content the engine held after its last commit, and applies the
writes the first one applied and those committed since. -/
def RecoversAgain (d : D) (capacity : Nat) (hc : 0 < capacity) (log : Bytes) : Prop :=
  ∀ ops : List Op, (∀ op ∈ ops, op.Succeeding) →
    let s := runRecovered d capacity hc log ops
    let again := ((StorageEngine.new s.engine.pool.device capacity hc).recover s.log).2
    (∀ b, b < blockCount d →
      decodeBlock (block again.pool.device b) = liveContent s.committed b) ∧
    appliedBy s.engine.pool.device s.log = appliedBy d log ++ s.durable

/-- The engine the last commit left behind holds the durable history: on a
device whose `sync` succeeds a commit fails only before the log is persisted. -/
theorem RunInv.committed {d : D} {rs₀ : List WalRecord} {s : Run D} (h : RunInv d rs₀ s)
    (hs : ∀ b, b < blockCount d → liveContent s.committed b = contentOf d s.durable b)
    (ops : List Op) (b : BlockId) (hb : b < blockCount d) :
    liveContent (ops.foldl Run.step s).committed b =
      contentOf d (ops.foldl Run.step s).durable b := by
  induction ops generalizing s with
  | nil => exact hs b hb
  | cons op ops ih =>
    refine ih (h.step op) ?_
    cases op with
    | write c page =>
      rw [Run.step]
      split <;> exact hs
    | read c => exact hs
    | commit outcome =>
      obtain ⟨rs, _, hholds, _⟩ := h.wal
      cases outcome with
      | ok u =>
        obtain ⟨_, e, hcommit, hflush, _⟩ := commitDurable_persisted h.pool hholds
          (persistWith (.ok ())) (s := s.log) rfl
        rw [ErrorFree.sync_ok] at hcommit
        rw [Run.step, hcommit]
        intro c hc
        exact liveContent_eq hflush.inv (hflush.count.trans h.count ▸ hc)
      | error err =>
        obtain ⟨wal, _, hcommit⟩ := commitDurable_error hholds
          (persistWith (.error err)) (s := s.log) rfl
        rw [Run.step, hcommit]
        exact hs

theorem appliedBy_eq (d : D) (log : Bytes) :
    appliedBy d log =
      inRange (blockCount d) (committed (entries (Wal.intactRecords log)) []) :=
  (recover_written (StorageEngine.new d 1 Nat.one_pos) log).2.1

theorem inRange_eq_self {n : UInt64} {ws : List (BlockId × Page)} (h : ∀ w ∈ ws, w.1 < n) :
    inRange n ws = ws := by
  rw [inRange, filter_eq_self]
  intro w hw
  exact decide_eq_true (h w hw)

section

variable (d : D) (capacity : Nat) (hc : 0 < capacity) (log : Bytes)
include hc

/-- The run after recovery keeps the invariant, from the recovered device and
the records of the log. -/
theorem runRecovered_inv (ops : List Op) :
    RunInv ((StorageEngine.new d capacity hc).recover log).2.pool.device
      (Wal.intactRecords log) (runRecovered d capacity hc log ops) := by
  obtain ⟨_, _, hholds⟩ := recover_written (StorageEngine.new d capacity hc) log
  exact (RunInv.start capacity hc rfl hholds rfl).run ops

/-- An empty batch committed right after recovery commits everything the
first recovery dropped. -/
theorem droppedBy_eq_nil (h : RecoversAgain d capacity hc log) : droppedBy d log = [] := by
  obtain ⟨_, happlied⟩ := h [.commit (.ok ())] (by simp [Op.Succeeding])
  have hstart := runRecovered_inv d capacity hc log []
  obtain ⟨_, _, hstep, hinv⟩ := hstart.step_commit
  obtain ⟨es, hes, hitems⟩ := hstart.marked
  have hcount := (recover_written (StorageEngine.new d capacity hc) log).1.count
  have hrun : runRecovered d capacity hc log [.commit (.ok ())] =
      (runRecovered d capacity hc log []).step (.commit (.ok ())) := rfl
  rw [hrun, appliedBy_eq, appliedBy_eq, hinv.count, hcount, hstep] at happlied
  rw [hes, ← append_assoc, committed_concat_mark, items_append, hitems, nil_append,
    ← nil_append (items (entries _)), ← committed_append_pending, append_assoc,
    inRange_append] at happlied
  have hnil : (runRecovered d capacity hc log []).writes = [] := rfl
  rw [hnil, append_nil] at happlied
  exact append_cancel_left happlied

/-- Without dropped writes the log is the first recovery's writes followed by
those of the run. -/
theorem recoversAgain_of_droppedBy (h : droppedBy d log = []) :
    RecoversAgain d capacity hc log := by
  intro ops _
  have hinv := runRecovered_inv d capacity hc log ops
  have hlast := (runRecovered_inv d capacity hc log []).committed (fun _ _ => rfl) ops
  change ∀ b, _ → liveContent (runRecovered d capacity hc log ops).committed b =
    contentOf _ (runRecovered d capacity hc log ops).durable b at hlast
  generalize runRecovered d capacity hc log ops = s at hinv hlast ⊢
  obtain ⟨hw, _, _⟩ := recover_written (StorageEngine.new d capacity hc) log
  generalize ((StorageEngine.new d capacity hc).recover log).2.pool.device = d₁ at hinv hlast hw
  have hd₁ : blockCount d₁ = blockCount d := hw.count
  have hcount : blockCount s.engine.pool.device = blockCount d := hinv.count.trans hd₁
  obtain ⟨ws, hws, hcommitted⟩ := (hinv.crashed (.between s)).committed_eq
  have hnone : inRange (blockCount d) ws = [] := by
    rcases hws with rfl | rfl
    · rfl
    · exact h
  obtain ⟨hw', _, _⟩ := recover_written (StorageEngine.new s.engine.pool.device capacity hc) s.log
  rw [hcommitted] at hw'
  refine ⟨?_, ?_⟩
  · intro b hb
    rw [decodeBlock_written hw' (show b < blockCount s.engine.pool.device from hcount ▸ hb),
      hlast b (hd₁ ▸ hb), contentOf, contentOf, latest_append, latest_append]
    -- the dropped writes do not concern `b`
    have hwsb : latest ws b = none := by
      rw [latest_eq_none_iff]
      rintro w hm rfl
      have : w ∈ inRange (blockCount d) ws :=
        mem_filter.mpr ⟨hm, decide_eq_true hb⟩
      grind
    rw [hwsb]
    cases hdur : latest s.durable b with
    | some page => rfl
    | none =>
      have hdev : block s.engine.pool.device b = block d₁ b := hinv.device b hdur
      have hfirst := decodeBlock_written hw hb
      rw [contentOf] at hfirst
      cases hl : latest (committed (entries (Wal.intactRecords log)) []) b with
      | some page => simp [hl, hfirst]
      | none =>
        show decodeBlock (block s.engine.pool.device b) = _
        rw [hdev]
  · rw [appliedBy_eq, appliedBy_eq, hcommitted, hcount, inRange_append, inRange_append, hnone,
      append_nil]
    congr 1
    obtain ⟨rest, hrest⟩ := hinv.history
    apply inRange_eq_self
    intro w hm
    rw [← hd₁]
    exact hinv.range w (hrest ▸ mem_append_left _ hm)

end

/-- **Two recoveries.**  Recovering, working on and recovering again is
consistent exactly when the recovered log dropped no page write. -/
theorem recoversAgain_iff (d : D) (capacity : Nat) (hc : 0 < capacity) (log : Bytes) :
    RecoversAgain d capacity hc log ↔ droppedBy d log = [] :=
  ⟨droppedBy_eq_nil d capacity hc log, recoversAgain_of_droppedBy d capacity hc log⟩

/-- A log that ends with its commit drops nothing. -/
theorem recoversAgain_committedLog :
    RecoversAgain (InMemoryBlockDevice.new 4) 2 (by decide) committedLog := by
  apply (recoversAgain_iff _ 2 (by decide) committedLog).mpr
  rw [droppedBy, entries_committedLog]
  rfl

/-- A log holding one page write that was never committed. -/
def uncommittedLog : Bytes :=
  WalRecord.frames [⟨0, .pageWrite, 0, List.replicate PAGE_SIZE 2⟩]

/-- Recovering that log, committing nothing and recovering again applies the
dropped write. -/
theorem not_recoversAgain_uncommittedLog :
    ¬ RecoversAgain (InMemoryBlockDevice.new 4) 2 (by decide) uncommittedLog := by
  intro h
  have hdropped := droppedBy_eq_nil _ _ _ _ h
  have hfits : ∀ r ∈ [(⟨0, .pageWrite, 0, List.replicate PAGE_SIZE 2⟩ : WalRecord)], r.Fits := by
    intro r hr
    rw [mem_singleton.mp hr, WalRecord.Fits, length_replicate, PAGE_SIZE]
    omega
  have hpage := entries_pageWrite 0 0 ⟨List.replicate PAGE_SIZE 2, length_replicate⟩
  rw [droppedBy, uncommittedLog, Wal.intactRecords_of_intact (Wal.intact_of_frames _ hfits),
    hpage] at hdropped
  contradiction

/-! ## Crashes during recovery -/

/-- What recoveries of `log` leave of the device `d` when each of them is cut
off after some of its page writes. -/
inductive CutOff (log : Bytes) (d : D) : D → Prop
  | none : CutOff log d d
  | again {d₁ : D} (h : CutOff log d d₁) (k : Nat) : CutOff log d
      (((committedWrites log).take k).foldl Recovery.applyWrite ⟨[], d₁, []⟩).device

variable {log : Bytes}

theorem CutOff.written {d d₁ : D} (h : CutOff log d d₁) :
    ∃ ws, ws ⊆ committedWrites log ∧ Written d ws d₁ := by
  induction h with
  | none => exact ⟨[], by simp, .nil d⟩
  | again _ k ih =>
    obtain ⟨ws, hsub, hw⟩ := ih
    exact ⟨_, append_subset.mpr ⟨hsub, take_subset k _⟩,
      (foldl_applyWrite_written _ (s := ⟨[], _, []⟩) hw).1⟩

omit [ErrorFree D] in
/-- A recovery that completes is cut off after all of its page writes. -/
theorem CutOff.recover {d : D} {e : StorageEngine D} (h : CutOff log d e.pool.device) :
    CutOff log d (e.recover log).2.pool.device := by
  have hall := h.again (committedWrites log).length
  rw [take_length] at hall
  show CutOff log d (replayLog e.pool.device (Wal.fromBytes log)).device
  rwa [replayLog_fromBytes, foldl_step]

/-- A crash during recovery does no harm: however often recovery is cut off,
the one that completes leaves every block as if it had been the only one. -/
theorem recover_cutOff {e e' : StorageEngine D} (h : CutOff log e.pool.device e'.pool.device) :
    CutOff log e.pool.device (e'.recover log).2.pool.device ∧
      (e'.recover log).1 = (e.recover log).1 ∧ ∀ b, b < blockCount e.pool.device →
        block (e'.recover log).2.pool.device b = block (e.recover log).2.pool.device b := by
  obtain ⟨ws, hsub, hw⟩ := h.written
  obtain ⟨hw', happlied', -⟩ := recover_written e' log
  obtain ⟨hw₀, happlied, -⟩ := recover_written e log
  refine ⟨h.recover, ?_, fun b hb => ?_⟩
  · simp only [recover, happlied, happlied', hw.count]
  · rw [hw'.block b (hw.count ▸ hb), hw₀.block b hb]
    cases hl : latest (committed (entries (Wal.intactRecords log)) []) b with
    | some page => rfl
    | none =>
      -- a block that recovery does not write has not been written before either
      have hnone : latest ws b = .none := by
        rw [latest_eq_none_iff] at hl ⊢
        exact fun w hm => hl w (hsub hm)
      rw [hw.block b hb, hnone]

/-- One recovery is cut off after its first page write, and another at once. -/
theorem recover_cutOff_committedLog : ∃ e e' : StorageEngine InMemoryBlockDevice,
    CutOff committedLog e.pool.device e'.pool.device ∧
      (e'.recover committedLog).1 = (e.recover committedLog).1 := by
  obtain ⟨d', h⟩ : ∃ d', CutOff committedLog (InMemoryBlockDevice.new 4) d' :=
    ⟨_, .again (.again .none 1) 0⟩
  exact ⟨.new _ 2 (by decide), .new d' 2 (by decide), h, (recover_cutOff h).2.1⟩

end Archon
