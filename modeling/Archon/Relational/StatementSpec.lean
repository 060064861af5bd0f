import Archon.Relational.Session

/-!
# Archon.Relational.StatementSpec

What a statement does to the database, said once for each kind of statement:
`execute_spec` on the database, `executeInSession_spec` within a session.
-/

namespace Archon

open Program

variable {db db' : Database} {depth : Nat}

/-! ## Shapes of statements -/

/-- A statement that returns no rows. -/
theorem silent_run (p : DbProgram Unit) (db : Database) :
    silent p db = ((p db).1.map fun _ => {}, (p db).2) := by
  unfold silent
  rw [bind_run]
  generalize p db = r
  obtain ⟨_ | a, db'⟩ := r <;> rfl

/-- A statement that counts rows. -/
theorem affecting_run (p : DbProgram Nat) (db : Database) :
    affecting p db = ((p db).1.map fun n => { affected := some n }, (p db).2) := by
  unfold affecting
  rw [bind_run]
  generalize p db = r
  obtain ⟨_ | a, db'⟩ := r <;> rfl

/-- A mapped outcome returns exactly if the outcome does. -/
theorem returns_map {r : Outcome ε α} {f : α → β} :
    Outcome.Returns (r.map f : Outcome ε β) ↔ Outcome.Returns r := by
  rcases r with (_ | _ | _) | _ <;> rfl

variable {f : Database → Outcome DbError Database}

/-- What holds before an update and after one that succeeds holds after it. -/
theorem update_snd {Q : Database → Prop} (h : Q db) (hf : ∀ db', f db = .ok db' → Q db') :
    Q (update f db).2 := by
  unfold update
  cases hfd : f db with
  | ok db' => exact hf db' hfd
  | error e => exact h

/-- `update_snd` for a statement made of one update. -/
theorem silent_snd {Q : Prop → Database → Prop} (h : ∀ {returns}, Q returns db)
    (hf : ∀ {returns} db', f db = .ok db' → Q returns db') :
    Q (silent (update f) db).1.Returns (silent (update f) db).2 := by
  rw [silent_run]
  exact update_snd h hf

/-! ## On the database -/

/-- `BEGIN`, `COMMIT` and `ROLLBACK`, which a session handles on its own. -/
def Statement.isTxnControl : Statement → Bool
  | .begin | .commit | .rollback => true
  | _ => false

/-- Statements that change schemas or views. -/
def Statement.isDdl : Statement → Bool
  | .createTable _ | .createView _ | .dropView _ | .alterTable _ => true
  | _ => false

/-- Tables and transactions stay; views and parameters may change. -/
structure SameData (db db' : Database) : Prop where
  tables : db'.tables = db.tables
  activeTxns : db'.activeTxns = db.activeTxns
  inTransaction : db'.inTransaction = db.inTransaction
  sessionTxns : db'.sessionTxns = db.sessionTxns

theorem SameData.refl (db : Database) : SameData db db := ⟨rfl, rfl, rfl, rfl⟩

/-- A statement, whether it returns, and the database it leaves. -/
inductive Executed (depth : Nat) (db : Database) : Statement → Prop → Database → Prop
  | same {stmt : Statement} {returns : Prop} {db' : Database} (h : SameData db db') :
    Executed depth db stmt returns db'
  | insert (i : InsertStatement) :
    Executed depth db (.insert i) (runInsertStmt depth i db).1.Returns (runInsertStmt depth i db).2
  | update (u : UpdateStatement) :
    Executed depth db (.update u) (runUpdate depth u db).1.Returns (runUpdate depth u db).2
  | delete (d : DeleteStatement) :
    Executed depth db (.delete d) (runDelete depth d db).1.Returns (runDelete depth d db).2
  | createTable {ct : CreateTableStatement} {returns : Prop} {db' : Database}
    (h : db.createTable ct = .ok db') : Executed depth db (.createTable ct) returns db'
  | alterTable {a : AlterTableStatement} {returns : Prop} {db' : Database}
    (h : db.alterTable a = .ok db') : Executed depth db (.alterTable a) returns db'
  | begin {returns : Prop} :
    Executed depth db .begin returns { db with inTransaction := true, activeTxns := [] }
  | commit : Executed depth db .commit (runCommit db).1.Returns (runCommit db).2
  | rollback {returns : Prop} :
    Executed depth db .rollback returns { db with inTransaction := false, activeTxns := [] }

/-- What `execute` does, statement by statement. -/
theorem execute_spec (depth : Nat) (stmt : Statement) (params : Params) (db : Database) :
    Executed depth db stmt (execute depth stmt params db).1.Returns
      (execute depth stmt params db).2 := by
  have hsame : ∀ {stmt returns}, Executed depth db stmt returns db := .same (.refl db)
  cases stmt with
  | select | selectLiteral | compound | showParameter => exact hsame
  | insert i =>
    simp only [execute, affecting_run, returns_map]
    exact .insert i
  | update u =>
    simp only [execute, affecting_run, returns_map]
    exact .update u
  | delete d =>
    simp only [execute, affecting_run, returns_map]
    exact .delete d
  | commit =>
    simp only [execute, silent_run, returns_map]
    exact .commit
  | createTable ct => exact silent_snd hsame fun db' h => .createTable h
  | alterTable a => exact silent_snd hsame fun db' h => .alterTable h
  | createView cv =>
    refine silent_snd hsame fun db' h => ?_
    obtain ⟨-, h⟩ := Outcome.unless_eq_ok.mp h
    obtain ⟨-, h⟩ := Outcome.unless_eq_ok.mp h
    cases h
    exact .same ⟨rfl, rfl, rfl, rfl⟩
  | dropView name =>
    refine silent_snd hsame fun db' h => ?_
    obtain ⟨pos, -, h⟩ := h.bind_ok
    cases h
    exact .same ⟨rfl, rfl, rfl, rfl⟩
  | setParameter | resetParameter | resetAll => exact .same ⟨rfl, rfl, rfl, rfl⟩
  | begin =>
    refine silent_snd hsame fun db' h => ?_
    split at h
    · cases h
    · cases h
      exact .begin
  | rollback =>
    simp only [execute, silent_run, runRollback, bind_run, takeTxns]
    cases db.inTransaction with
    | false => exact hsame
    | true => exact .rollback

/-! ## Within a session -/

/-- In its transaction a session runs on its own transactions, else on the database. -/
theorem executeInSession_of_ordinary {stmt : Statement} (h : stmt.isTxnControl = false) (sid : Nat)
    (params : Params) (db : Database) :
    executeInSession depth sid stmt params db =
      if db.sessionInTransaction sid then
        ((execute depth stmt params (db.enterSession sid)).1,
          (execute depth stmt params (db.enterSession sid)).2.leaveSession sid db)
      else execute depth stmt params db := by
  cases stmt with
  | begin | commit | rollback => cases h
  | _ => rfl

/-- A session's open transaction, taken out. -/
theorem takeSessionTxns_run (sid : Nat) (db : Database) :
    (∃ st, db.sessionTxns.find? sid = some st ∧ st.inTransaction = true ∧
        takeSessionTxns sid db = (.ok st.activeTxns, db.setSession sid {})) ∨
      db.sessionInTransaction sid = false ∧ takeSessionTxns sid db =
        (Outcome.fail (.transactionError "no active transaction for this session"), db) := by
  cases hst : db.sessionTxns.find? sid with
  | none =>
    exact .inr ⟨by simp [Database.sessionInTransaction, hst], by simp [takeSessionTxns, hst]⟩
  | some st =>
    cases hin : st.inTransaction with
    | true => exact .inl ⟨st, rfl, hin, by simp [takeSessionTxns, hst, hin]⟩
    | false => simp [Database.sessionInTransaction, hst, hin, takeSessionTxns]

/-- A statement within a session, whether it returns, and the database it leaves. -/
inductive SessionExecuted (depth sid : Nat) (params : Params) (db : Database) :
    Statement → Prop → Database → Prop
  | inside {stmt : Statement} (hctl : stmt.isTxnControl = false)
    (hin : db.sessionInTransaction sid = true) : SessionExecuted depth sid params db stmt
      (execute depth stmt params (db.enterSession sid)).1.Returns
      ((execute depth stmt params (db.enterSession sid)).2.leaveSession sid db)
  | outside {stmt : Statement} (hctl : stmt.isTxnControl = false)
    (hin : db.sessionInTransaction sid = false) : SessionExecuted depth sid params db stmt
      (execute depth stmt params db).1.Returns (execute depth stmt params db).2
  | begin {returns : Prop} {st : SessionTxn} (hin : st.inTransaction = true)
    (hst : st = (db.sessionTxns.find? sid).getD {} ∨ st.activeTxns = []) :
    SessionExecuted depth sid params db .begin returns (db.setSession sid st)
  | commit : SessionExecuted depth sid params db .commit (sessionCommit sid db).1.Returns
      (sessionCommit sid db).2
  | rollback {returns : Prop} :
    SessionExecuted depth sid params db .rollback returns (db.setSession sid {})
  | idle {returns : Prop} (hin : db.sessionInTransaction sid = false) :
    SessionExecuted depth sid params db .rollback returns db

/-- What `execute_in_session` does. -/
theorem executeInSession_spec (depth sid : Nat) (stmt : Statement) (params : Params)
    (db : Database) : SessionExecuted depth sid params db stmt
      (executeInSession depth sid stmt params db).1.Returns
      (executeInSession depth sid stmt params db).2 := by
  cases hctl : stmt.isTxnControl with
  | false =>
    rw [executeInSession_of_ordinary hctl]
    cases hin : db.sessionInTransaction sid with
    | true => exact .inside hctl hin
    | false => exact .outside hctl hin
  | true =>
    unfold executeInSession
    unfold Statement.isTxnControl at hctl
    split at hctl
    · simp only [silent_run, sessionBegin]
      split
      · next hin => exact .begin hin (.inl rfl)
      · exact .begin rfl (.inr rfl)
    · simpa [silent_run, returns_map] using .commit
    · simp only [silent_run, sessionRollback, bind_run]
      obtain ⟨st, -, -, htake⟩ | ⟨hin, htake⟩ := takeSessionTxns_run sid db
      · rw [htake]
        exact .rollback
      · rw [htake]
        exact .idle hin
    · cases hctl

end Archon
