import Archon.Relational.Dml

/-!
# Archon.Relational.Ddl

`CREATE TABLE`, `CREATE VIEW`, `DROP VIEW` and `ALTER TABLE`
(`crates/tpt-archon-relational/src/database/ddl.rs`).

DDL is not transactional: it changes the tables at once, and `ALTER TABLE`
re-encodes the rows of the tree only.
-/

namespace Archon

open Outcome

/-! ## CREATE TABLE -/

/-- `if !names.contains(name) { names.push(name) }`. -/
def pushNew (names : List String) (name : String) : List String :=
  if names.contains name then names else names ++ [name]

def multiplePrimaryKeys : DbError := .unsupported "multiple primary keys are not supported"

def addColumnConstraint (name : String) (schema : Schema) : ColumnConstraint →
    Outcome DbError Schema
  | .notNull => return { schema with notNull := pushNew schema.notNull name }
  | .primaryKey =>
    if schema.primaryKey.isSome then fail multiplePrimaryKeys
    else return { schema with primaryKey := some [name], notNull := pushNew schema.notNull name }
  | .unique => return { schema with unique := schema.unique ++ [[name]] }

def addColumnDef (schema : Schema) (c : ColumnDef) : Outcome DbError Schema :=
  c.constraints.foldlM (addColumnConstraint c.name)
    { schema with columns := schema.columns ++ [c.name], types := schema.types ++ [c.ctype] }

/-- Every column of a table constraint must exist. -/
def checkColumns (schema : Schema) : List String → Outcome DbError Unit
  | [] => return ()
  | col :: cols =>
    if schema.columns.contains col then checkColumns schema cols
    else fail (.unknownColumn col)

def addTableConstraint (schema : Schema) : TableConstraint → Outcome DbError Schema
  | .primaryKey cols =>
    if schema.primaryKey.isSome then fail multiplePrimaryKeys
    else do
      checkColumns schema cols
      return { schema with primaryKey := some cols, notNull := cols.foldl pushNew schema.notNull }
  | .unique cols => do
    checkColumns schema cols
    return { schema with unique := schema.unique ++ [cols] }
  | .foreignKey columns refTable refColumns => do
    checkColumns schema columns
    return { schema with foreignKeys := schema.foreignKeys ++ [⟨columns, refTable, refColumns⟩] }
  | .check expr => return { schema with checks := schema.checks ++ [expr] }

/-- The schema of a new table, behind the implicit row id. -/
def createSchema (ct : CreateTableStatement) : Outcome DbError Schema := do
  let schema ← ct.columns.foldlM addColumnDef { columns := ["id"], types := [.int] }
  ct.constraints.foldlM addTableConstraint schema

def Database.createTable (db : Database) (ct : CreateTableStatement) :
    Outcome DbError Database := do
  if (db.table ct.table).isSome then fail (.tableAlreadyExists ct.table)
  if ct.columns.any fun c => c.name == "id" then
    fail (.unsupported "column 'id' is reserved for the implicit row-id column")
  let schema ← createSchema ct
  return { db with tables := db.tables ++ [(ct.table, .new schema)] }

/-! ## Views -/

def Database.createView (db : Database) (cv : CreateViewStatement) : Outcome DbError Database := do
  if (db.table cv.name).isSome || (db.views.lookup cv.name).isSome then
    fail (.viewAlreadyExists cv.name)
  if selectReferencesTable cv.name cv.query then fail (.recursiveView cv.name)
  return { db with views := db.views ++ [(cv.name, cv.query)] }

def Database.dropView (db : Database) (name : String) : Outcome DbError Database := do
  let pos ← okOr (db.views.findIdx? fun v => v.1 == name) (.unknownView name)
  return { db with views := db.views.eraseIdx pos }

/-! ## ALTER TABLE -/

namespace TableStorage

/-- The committed rows re-encoded after `f`. -/
def reencoded (ts : TableStorage) (f : Row → Outcome DbError Row) :
    List Nat → Outcome DbError (List (Nat × Bytes))
  | [] => return []
  | id :: ids =>
    match ts.tree.find? id with
    | none => reencoded ts f ids
    | some bytes => do
      let values ← tryDecodeRow bytes
      let values ← f values
      let rest ← reencoded ts f ids
      return (id, encodeRow values) :: rest

/-- Rewrite every committed row; nothing changes if one does not decode. -/
def reencode (ts : TableStorage) (f : Row → Outcome DbError Row) :
    Outcome DbError TableStorage := do
  let rows ← ts.reencoded f (List.range ts.nextRowId)
  return { ts with tree := rows.foldl (fun tree (id, bytes) => tree.insert id bytes) ts.tree }

def withColumns (ts : TableStorage) (columns : List String) (types : List ColumnType) :
    TableStorage :=
  { ts with schema := { ts.schema with columns, types } }

/-- `values.remove(idx)`. -/
def removeValue (idx : Nat) (values : Row) : Outcome ε Row :=
  if idx < values.length then return values.eraseIdx idx else panicked

def alter (ts : TableStorage) : AlterTableOp → Outcome DbError TableStorage
  | .addColumn col => do
    if ts.schema.columns.contains col.name then
      fail (.unsupported ("column '" ++ col.name ++ "' already exists"))
    let ts ← ts.reencode fun values => return values ++ [.null]
    return ts.withColumns (ts.schema.columns ++ [col.name]) (ts.schema.types ++ [col.ctype])
  | .dropColumn name => do
    let idx ← okOr (ts.schema.indexOf name) (.unknownColumn name)
    if idx = 0 then fail (.unsupported "cannot drop the implicit id column")
    let ts ← ts.reencode (removeValue idx)
    return ts.withColumns (ts.schema.columns.eraseIdx idx) (ts.schema.types.eraseIdx idx)
  | .renameColumn oldName newName => do
    let idx ← okOr (ts.schema.indexOf oldName) (.unknownColumn oldName)
    if idx = 0 then fail (.unsupported "cannot rename the implicit id column")
    if ts.schema.columns.contains newName then
      fail (.unsupported ("column '" ++ newName ++ "' already exists"))
    return ts.withColumns (ts.schema.columns.set idx newName) ts.schema.types

end TableStorage

def Database.alterTable (db : Database) (stmt : AlterTableStatement) :
    Outcome DbError Database := do
  let ts ← okOr (db.table stmt.table) (.unknownTable stmt.table)
  let ts ← ts.alter stmt.op
  return db.setTable stmt.table ts

end Archon
