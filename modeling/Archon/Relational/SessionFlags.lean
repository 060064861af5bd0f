import Archon.Relational.SessionStep

/-!
# Archon.Relational.SessionFlags

Which sessions are in a transaction, after a call of one of them.  These are
facts about every database, whatever the call returns.
-/

namespace Archon

open Program Database

/-! ## Statements leave the sessions alone -/

section

variable {depth : Nat}

theorem Database.sessionTxns_ensureTxn (db : Database) (name : String) :
    (db.ensureTxn name).sessionTxns = db.sessionTxns := by
  unfold ensureTxn
  grind

section

variable (name : String)

theorem leaves_touch : Leaves sessionTxns (touch name) := by
  apply leaves_update
  intro db db' h
  cases h
  split
  · exact sessionTxns_ensureTxn db name
  · rfl

theorem leaves_putRow (id : Nat) (row : Row) :
    Leaves sessionTxns (update fun db => db.putRow name id row) := by
  apply leaves_update
  intro db db' h
  obtain ⟨ts, -, ⟨-, txn, -, rfl⟩ | ⟨-, ts', -, rfl⟩⟩ := putRow_ok h <;> rfl

theorem leaves_dropRow (id : Nat) :
    Leaves sessionTxns (update fun db => db.dropRow name id) := by
  apply leaves_update
  intro db db' h
  obtain ⟨ts, -, ⟨-, txn, -, rfl⟩ | ⟨-, rfl⟩⟩ := dropRow_ok h <;> rfl

theorem leaves_buildIndexes :
    Leaves sessionTxns (update fun db => db.buildIndexes name) := by
  apply leaves_update
  intro db db' h
  obtain rfl | ⟨ts, idx, -, -, rfl⟩ := buildIndexes_ok h <;> rfl

theorem leaves_allocRow : Leaves sessionTxns (allocRow name) := by
  intro db
  unfold allocRow
  split <;> rfl

theorem leaves_insertRow (slots : List Nat) (row : Row) :
    Leaves sessionTxns (insertRow name slots row) := by
  refine leaves_bind (leaves_allocRow name) fun id => ?_
  refine leaves_bind (leaves_read _) fun row => ?_
  exact leaves_bind (leaves_putRow name id row) fun _ => leaves_buildIndexes name

end

theorem leaves_updateRow (stmt : UpdateStatement) (id : Nat) :
    Leaves sessionTxns (updateRow depth stmt id) := by
  refine leaves_bind (leaves_read _) fun row => ?_
  cases row with
  | none => exact leaves_pure ()
  | some row => exact leaves_putRow stmt.table id row

theorem leaves_deleteRow (stmt : DeleteStatement) (id : Nat) :
    Leaves sessionTxns (deleteRow stmt id) := by
  refine leaves_bind (leaves_read _) fun deletes => ?_
  cases deletes with
  | false => exact leaves_pure ()
  | true => exact leaves_dropRow stmt.table id

theorem leaves_runCommit : Leaves sessionTxns runCommit := by
  have htake : Leaves sessionTxns takeTxns := by
    intro db
    grind [takeTxns]
  refine leaves_bind htake fun txns => ?_
  exact leaves_bind (leaves_forEach fun e _ => leaves_onTable fun _ _ _ => rfl) fun _ =>
    leaves_forEach fun e _ => leaves_onTable fun _ _ _ => rfl

/-- The transactions of sessions are untouched by statements on the database. -/
theorem execute_sessions (depth : Nat) (stmt : Statement) (params : Params)
    (db : Database) : (execute depth stmt params db).2.sessionTxns = db.sessionTxns := by
  have hx := execute_spec depth stmt params db
  generalize (execute depth stmt params db).1.Returns = returns at hx
  generalize (execute depth stmt params db).2 = db' at hx ⊢
  cases hx with
  | same h => exact h.sessionTxns
  | insert i =>
    refine leaves_bind (leaves_touch _) (fun _ => ?_) db
    refine leaves_bind (leaves_read _) fun r => ?_
    exact leaves_bind (leaves_forEach fun row _ => leaves_insertRow _ _ row) fun _ => leaves_pure _
  | update u =>
    refine leaves_bind (leaves_read _) (fun ids => ?_) db
    refine leaves_bind (leaves_touch _) fun _ => ?_
    exact leaves_bind (leaves_forEach fun id _ => leaves_updateRow _ id) fun _ => leaves_pure _
  | delete d =>
    refine leaves_bind (leaves_read _) (fun ids => ?_) db
    refine leaves_bind (leaves_touch _) fun _ => ?_
    exact leaves_bind (leaves_forEach fun id _ => leaves_deleteRow _ id) fun _ => leaves_pure _
  | createTable h =>
    obtain ⟨schema, -, -, rfl⟩ := createTable_ok h
    rfl
  | alterTable h =>
    obtain ⟨ts, ts', -, -, rfl⟩ := alterTable_ok h
    rfl
  | commit => exact leaves_runCommit db
  | _ => rfl

end

/-! ## The flags -/

variable {depth : Nat} {db : Database} {sid : Nat}

theorem Database.sessionInTransaction_setSession (db : Database) (sid : Nat) (st : SessionTxn)
    (s : Nat) : (db.setSession sid st).sessionInTransaction s =
      if s = sid then st.inTransaction else db.sessionInTransaction s := by
  grind [sessionInTransaction, setSession, SortedMap.find?_insert]

/-- An ordinary statement opens and closes no transaction. -/
theorem executeInSession_flags {stmt : Statement} (h : stmt.isTxnControl = false)
    (params : Params) (s : Nat) :
    (executeInSession depth sid stmt params db).2.sessionInTransaction s =
      db.sessionInTransaction s := by
  rw [executeInSession_of_ordinary h]
  cases hin : db.sessionInTransaction sid with
  | false =>
    have hleaves := execute_sessions depth stmt params db
    simp [sessionInTransaction, hleaves]
  | true =>
    have hleaves := execute_sessions depth stmt params (db.enterSession sid)
    generalize (execute depth stmt params (db.enterSession sid)) = r at hleaves ⊢
    have hfind : r.2.sessionTxns.find? sid = some { inTransaction := true } := by
      simp [hleaves, enterSession, setSession]
    simp only [leaveSession, sessionInTransaction, hfind]
    by_cases hs : s = sid
    · subst hs
      simpa [sessionInTransaction] using hin.symm
    · simp [hs, hleaves, enterSession, setSession, SortedMap.find?_insert]

/-- `BEGIN` succeeds outside of a transaction, and opens one. -/
theorem begin_flags (params : Params) :
    ((∃ rs, (executeInSession depth sid .begin params db).1 = .ok rs) ↔
      db.sessionInTransaction sid = false) ∧
    ∀ s, (executeInSession depth sid .begin params db).2.sessionInTransaction s =
      if s = sid then true else db.sessionInTransaction s := by
  have hrun : executeInSession depth sid .begin params db = silent (sessionBegin sid) db := rfl
  rw [hrun, silent_run, sessionBegin]
  have hflag : ((db.sessionTxns.find? sid).getD {}).inTransaction =
      db.sessionInTransaction sid := by
    unfold sessionInTransaction
    cases db.sessionTxns.find? sid <;> rfl
  cases hin : db.sessionInTransaction sid with
  | true => simp [hin, hflag, Outcome.fail, Except.map, sessionInTransaction_setSession]
  | false => simp [hin, hflag, Except.map, sessionInTransaction_setSession]

theorem takeSessionTxns_flags (s : Nat) :
    (takeSessionTxns sid db).2.sessionInTransaction s =
      if s = sid then false else db.sessionInTransaction s := by
  obtain ⟨st, _, _, htake⟩ | ⟨hin, htake⟩ := takeSessionTxns_run sid db
  · rw [htake, sessionInTransaction_setSession]
  · rw [htake]
    grind

/-- `COMMIT` closes the transaction, whether it succeeds or not. -/
theorem commit_flags (params : Params) (s : Nat) :
    (executeInSession depth sid .commit params db).2.sessionInTransaction s =
      if s = sid then false else db.sessionInTransaction s := by
  show (silent (sessionCommit sid) db).2.sessionInTransaction s = _
  rw [silent_run]
  obtain ⟨st, -, -, hrun⟩ | ⟨hin, hrun⟩ := sessionCommit_run sid db
  · have hleaves : Leaves sessionTxns (commitTables st.activeTxns) :=
      leaves_forEach fun e _ => leaves_onTable fun _ _ _ => rfl
    rw [hrun, sessionInTransaction, hleaves, ← sessionInTransaction,
      sessionInTransaction_setSession]
  · rw [hrun]
    grind

/-- `ROLLBACK` succeeds in a transaction, and closes it. -/
theorem rollback_flags (params : Params) :
    ((∃ rs, (executeInSession depth sid .rollback params db).1 = .ok rs) ↔
      db.sessionInTransaction sid = true) ∧
    ∀ s, (executeInSession depth sid .rollback params db).2.sessionInTransaction s =
      if s = sid then false else db.sessionInTransaction s := by
  have hrun : executeInSession depth sid .rollback params db =
      silent (sessionRollback sid) db := rfl
  have hflags : ∀ s, (takeSessionTxns sid db).2.sessionInTransaction s = _ := takeSessionTxns_flags
  rw [hrun, silent_run, sessionRollback, bind_run]
  obtain ⟨st, hst, hin, htake⟩ | ⟨hin, htake⟩ := takeSessionTxns_run sid db
  · rw [htake] at hflags ⊢
    refine ⟨?_, hflags⟩
    simp [Except.map, pure_run, sessionInTransaction, hst, hin]
  · rw [htake] at hflags ⊢
    refine ⟨?_, hflags⟩
    simp [Outcome.fail, Except.map, hin]

/-! ## Runs of all clients -/

/-- What a call makes of the flag of session `s`, however it ends. -/
def ClientCall.flag (s : Nat) (open? : Bool) : ClientCall → Bool
  | .inSession sid .begin _ => if s = sid then true else open?
  | .inSession sid .commit _ | .inSession sid .rollback _ => if s = sid then false else open?
  | _ => open?

theorem ClientCall.run_flag (s : Nat) (c : ClientCall) (db : Database) :
    (c.run depth db).2.sessionInTransaction s = c.flag s (db.sessionInTransaction s) := by
  cases c with
  | execute stmt params =>
    have hleaves := execute_sessions depth stmt params db
    simp [run, flag, sessionInTransaction, hleaves]
  | inSession sid stmt params =>
    cases stmt with
    | begin => exact (@begin_flags depth db sid params).2 s
    | commit => exact @commit_flags depth db sid params s
    | rollback => exact (@rollback_flags depth db sid params).2 s
    | _ => exact @executeInSession_flags depth db sid _ rfl params s

/-- Whether a session is in a transaction follows from its own `BEGIN`,
`COMMIT` and `ROLLBACK` calls alone, whatever all clients run and whether it
succeeds, fails or panics. -/
theorem session_flag_of_calls (s : Nat) (cs : List ClientCall) (db : Database) :
    (cs.foldl (fun db c => (c.run depth db).2) db).sessionInTransaction s =
      cs.foldl (fun open? c => c.flag s open?) (db.sessionInTransaction s) := by
  induction cs generalizing db with
  | nil => rfl
  | cons c cs ih => rw [List.foldl_cons, List.foldl_cons, ih, c.run_flag]

end Archon
