import Archon.Lib.Assoc
import Archon.Lib.Program
import Archon.Relational.Constraints

/-!
# Archon.Relational.Dml

`INSERT`, `UPDATE` and `DELETE`
(`crates/tpt-archon-relational/src/database/dml.rs`).

Outside a transaction a row goes to the tree and the indexes; inside one it
goes to the transaction's write buffer.  A statement that fails keeps the
rows it has already written.
-/

namespace Archon

open Outcome

abbrev DbProgram := Program DbError Database

namespace Database

/-- Replace a table. -/
def setTable (db : Database) (name : String) (ts : TableStorage) : Database :=
  { db with tables := modifyKey name (fun _ => ts) db.tables }

/-- Replace the open transaction on a table. -/
def setTxn (db : Database) (name : String) (txn : Transaction) : Database :=
  { db with activeTxns := modifyKey name (fun _ => txn) db.activeTxns }

/-- Begin a transaction on a table at its first use. -/
def ensureTxn (db : Database) (name : String) : Database :=
  if (db.activeTxn name).isSome then db
  else
    match db.table name with
    | none => db
    | some ts => { db with activeTxns := db.activeTxns ++ [(name, ts.mvcc.begin)] }

/-- Write one row. -/
def putRow (db : Database) (name : String) (id : Nat) (row : Row) : Outcome DbError Database := do
  let ts ← okOr (db.table name) (.unknownTable name)
  if db.inTransaction then
    let txn ← expect (db.activeTxn name)
    return db.setTxn name (MvccStore.write txn id (mvccWrapRow row))
  else
    let ts ← ts.store id (encodeRow row) row
    return db.setTable name ts

/-- Delete one row. -/
def dropRow (db : Database) (name : String) (id : Nat) : Outcome DbError Database := do
  let ts ← okOr (db.table name) (.unknownTable name)
  if db.inTransaction then
    let txn ← expect (db.activeTxn name)
    return db.setTxn name (MvccStore.write txn id mvccWrapTombstone)
  else return db.setTable name (ts.discard id)

/-- Build the missing indexes of a table, outside a transaction. -/
def buildIndexes (db : Database) (name : String) : Outcome DbError Database :=
  if db.inTransaction then return db
  else do
    let ts ← okOr (db.table name) (.unknownTable name)
    let ts ← ts.maybeBuildVectorIndexes
    return db.setTable name ts

end Database

open Program

/-- Begin a transaction on the table, if one is open. -/
def touch (name : String) : DbProgram Unit :=
  update fun db => return if db.inTransaction then db.ensureTxn name else db

/-- Hand out the next row id of a table, of the 2 ^ 64 there are. -/
def allocRow (name : String) : DbProgram Nat := fun db =>
  match db.table name with
  | none => (fail (.unknownTable name), db)
  | some ts => (.ok ts.nextRowId, db.setTable name { ts with nextRowId := ts.nextRowId + 1 })

/-- The id is the first column, unless the statement gave one. -/
def withImplicitId (slots : List Nat) (id : Nat) (row : Row) : Outcome DbError Row :=
  if slots.contains 0 then return row else set row 0 (.int (Int64.ofNat id))

theorem withImplicitId_ok {slots : List Nat} {id : Nat} {row row' : Row}
    (h : withImplicitId slots id row = .ok row') :
    0 ∈ slots ∧ row' = row ∨ 0 ∉ slots ∧ row' = row.set 0 (.int (Int64.ofNat id)) := by
  unfold withImplicitId at h
  split at h
  · next hmem =>
    cases h
    exact .inl ⟨by simpa using hmem, rfl⟩
  · next hmem => exact .inr ⟨by simpa using hmem, (set_eq_ok.mp h).2.symm⟩

/-- Insert one row under a fresh id. -/
def insertRow (name : String) (slots : List Nat) (row : Row) : DbProgram Unit := do
  let id ← allocRow name
  let row ← read fun _ => withImplicitId slots id row
  update fun db => db.putRow name id row
  update fun db => db.buildIndexes name

def runInsertStmt (depth : Nat) (stmt : InsertStatement) : DbProgram Nat := do
  touch stmt.table
  let (slots, rows) ← read fun db => insertRows db.readView depth stmt
  forEach (insertRow stmt.table slots) rows
  return rows.length

def updateRow (depth : Nat) (stmt : UpdateStatement) (id : Nat) : DbProgram Unit := do
  match ← read fun db => updatedRow db.readView depth stmt id with
  | none => return ()
  | some row => update fun db => db.putRow stmt.table id row

/-- The result counts the matching rows. -/
def runUpdate (depth : Nat) (stmt : UpdateStatement) : DbProgram Nat := do
  let ids ← read fun db => matchingRowIds db.readView depth stmt.table stmt.filter
  touch stmt.table
  forEach (updateRow depth stmt) ids
  return ids.length

def deleteRow (stmt : DeleteStatement) (id : Nat) : DbProgram Unit := do
  if ← read fun db => deletesRow db.readView stmt id then
    update fun db => db.dropRow stmt.table id
  else return ()

def runDelete (depth : Nat) (stmt : DeleteStatement) : DbProgram Nat := do
  let ids ← read fun db => matchingRowIds db.readView depth stmt.table stmt.filter
  touch stmt.table
  forEach (deleteRow stmt) ids
  return ids.length

end Archon
