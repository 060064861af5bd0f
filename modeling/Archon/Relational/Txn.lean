import Archon.Relational.Dml

/-!
# Archon.Relational.Txn

`BEGIN`, `COMMIT` and `ROLLBACK`, of the database
(`crates/tpt-archon-relational/src/database/txn.rs`) and of a session
(`database/mod.rs`).

`runCommit` validates every table before it applies any write;
`sessionCommit` validates and applies table by table.
-/

namespace Archon

open Program Outcome TableStorage

/-! ## One table -/

namespace TableStorage

/-- Validate a transaction and install its versions. -/
def commitMvcc (name : String) (txn : Transaction) : Program DbError TableStorage Unit := fun ts =>
  match ts.mvcc.commit txn with
  | (.ok _, mvcc) => (.ok (), { ts with mvcc })
  | (.error .conflict, mvcc) =>
    (fail (.transactionError ("commit conflict on table '" ++ name ++ "'")),
      { ts with mvcc })

/-- Apply one buffered write.  The row is in the tree before it is decoded. -/
def applyWrite (w : Nat × Bytes) : Program DbError TableStorage Unit :=
  match w with
  | (_, []) => read fun _ => panicked
  | (id, tag :: bytes) =>
    if tag = MVCC_TOMBSTONE then update fun ts => return ts.discard id
    else do
      update fun ts => return { ts with tree := ts.tree.insert id bytes }
      let row ← read fun ts => ts.decode id bytes
      update fun ts => ts.maintainVectorIndexesForRow id row

/-- Apply the writes of a transaction, then build missing indexes. -/
def applyTxn (txn : Transaction) : Program DbError TableStorage Unit := do
  forEach applyWrite txn.writesIter
  update maybeBuildVectorIndexes

end TableStorage

/-- Run a program on a table, which exists since its transaction was opened. -/
def onTable (name : String) (p : Program DbError TableStorage α) : DbProgram α := fun db =>
  match db.table name with
  | none => (panicked, db)
  | some ts =>
    let (r, ts) := p ts
    (r, db.setTable name ts)

/-! ## The database's transaction -/

def runBegin : DbProgram Unit := update fun db =>
  if db.inTransaction then fail (.transactionError "transaction already in progress")
  else return { db with inTransaction := true, activeTxns := [] }

/-- Close the transaction and hand out its parts. -/
def takeTxns : DbProgram TableTxns := fun db =>
  if db.inTransaction then
    (.ok db.activeTxns, { db with inTransaction := false, activeTxns := [] })
  else (fail (.transactionError "no active transaction"), db)

def runCommit : DbProgram Unit := do
  let txns ← takeTxns
  forEach (fun (name, txn) => onTable name (commitMvcc name txn)) txns
  forEach (fun (name, txn) => onTable name (applyTxn txn)) txns

def runRollback : DbProgram Unit := do
  let _ ← takeTxns

/-! ## A session's transaction -/

namespace Database

def sessionInTransaction (db : Database) (sid : Nat) : Bool :=
  ((db.sessionTxns.find? sid).map SessionTxn.inTransaction).getD false

def setSession (db : Database) (sid : Nat) (st : SessionTxn) : Database :=
  { db with sessionTxns := db.sessionTxns.insert sid st }

end Database

def sessionBegin (sid : Nat) : DbProgram Unit := fun db =>
  let st := (db.sessionTxns.find? sid).getD {}
  if st.inTransaction then
    (fail (.transactionError "transaction already in progress for this session"),
      db.setSession sid st)
  else (.ok (), db.setSession sid { inTransaction := true, activeTxns := [] })

def takeSessionTxns (sid : Nat) : DbProgram TableTxns := fun db =>
  match db.sessionTxns.find? sid with
  | none => (fail (.transactionError "no active transaction for this session"), db)
  | some st =>
    if st.inTransaction then
      (.ok st.activeTxns, db.setSession sid { inTransaction := false, activeTxns := [] })
    else (fail (.transactionError "no active transaction for this session"), db)

def sessionCommit (sid : Nat) : DbProgram Unit := do
  let txns ← takeSessionTxns sid
  forEach (fun (name, txn) => onTable name do
    commitMvcc name txn
    applyTxn txn) txns

def sessionRollback (sid : Nat) : DbProgram Unit := do
  let _ ← takeSessionTxns sid

end Archon
