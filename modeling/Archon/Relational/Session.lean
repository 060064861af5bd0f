import Archon.Relational.Ddl
import Archon.Relational.Txn

/-!
# Archon.Relational.Session

Statements, on the database and within a session
(`crates/tpt-archon-relational/src/database/mod.rs`).
-/

namespace Archon

open Program

/-! ## Parameters -/

/-- `RESET name`: back to the default, or away if there is none. -/
def resetParameter (params : SortedMap String String) (name : String) : SortedMap String String :=
  match defaultParameters.find? name with
  | some value => params.insert name value
  | none => params.erase name

def showParameter (params : SortedMap String String) (name : String) : ResultSet :=
  { columns := ["name", "setting"]
    rows := (params.find? name).toList.map fun value => [.text name, .text value] }

/-! ## Statements -/

/-- `SELECT` of literals only. -/
def selectLiterals (items : List SelectLiteralItem) : ResultSet :=
  { columns := items.map fun item => item.aliasName.getD "?column?"
    rows := [items.map fun item => item.value.toValue] }

/-- The result of a DML statement. -/
def affecting (p : DbProgram Nat) : DbProgram ResultSet := do
  let n ← p
  return { affected := some n }

/-- The empty result of any other statement. -/
def silent (p : DbProgram Unit) : DbProgram ResultSet := do
  p
  return {}

def setParameters (f : SortedMap String String → SortedMap String String) : DbProgram Unit :=
  update fun db => return { db with sessionParameters := f db.sessionParameters }

/-- Execute a statement, with `depth` levels of stack for nested queries. -/
def execute (depth : Nat) (stmt : Statement) (params : Params) : DbProgram ResultSet :=
  match stmt with
  | .select s => read fun db => runSelect db.readView depth s params
  | .selectLiteral items => return selectLiterals items
  | .compound cm => read fun db => runCompound db.readView depth cm params
  | .insert i => affecting (runInsertStmt depth i)
  | .update u => affecting (runUpdate depth u)
  | .delete d => affecting (runDelete depth d)
  | .createTable ct => silent (update fun db => db.createTable ct)
  | .createView cv => silent (update fun db => db.createView cv)
  | .dropView name => silent (update fun db => db.dropView name)
  | .alterTable stmt => silent (update fun db => db.alterTable stmt)
  | .begin => silent runBegin
  | .commit => silent runCommit
  | .rollback => silent runRollback
  | .setParameter name value => silent (setParameters fun ps => ps.insert name value)
  | .showParameter name => read fun db => return showParameter db.sessionParameters name
  | .resetParameter name => silent (setParameters fun ps => resetParameter ps name)
  | .resetAll => silent (setParameters fun _ => defaultParameters)

/-- Put a session's transaction in the place of the database's. -/
def Database.enterSession (db : Database) (sid : Nat) : Database :=
  { db.setSession sid { inTransaction := true } with
    inTransaction := true
    activeTxns := ((db.sessionTxns.find? sid).getD {}).activeTxns }

/-- Put it back, and the database's own transaction of before. -/
def Database.leaveSession (db : Database) (sid : Nat) (before : Database) : Database :=
  { db with
    sessionTxns :=
      match db.sessionTxns.find? sid with
      | none => db.sessionTxns
      | some st => db.sessionTxns.insert sid { st with activeTxns := db.activeTxns }
    inTransaction := before.inTransaction
    activeTxns := before.activeTxns }

/-- Execute a statement within a session: transaction control is the
session's own, and an open session transaction takes part in the rest. -/
def executeInSession (depth : Nat) (sid : Nat) (stmt : Statement) (params : Params) :
    DbProgram ResultSet :=
  match stmt with
  | .begin => silent (sessionBegin sid)
  | .commit => silent (sessionCommit sid)
  | .rollback => silent (sessionRollback sid)
  | stmt => fun db =>
    if db.sessionInTransaction sid then
      let (r, after) := execute depth stmt params (db.enterSession sid)
      (r, after.leaveSession sid db)
    else execute depth stmt params db

end Archon
