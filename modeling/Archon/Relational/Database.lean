import Mathlib.Data.String.Basic
import Archon.Relational.TableStorage

/-!
# Archon.Relational.Database

The state of a database (`crates/tpt-archon-relational/src/database/mod.rs`)
and what its readers see of it.

Queries, constraint checks and `WHERE` clauses read the database only
through `ReadView`: two databases with the same view answer them alike.
-/

namespace Archon

/-- A table as a statement reads it. -/
structure ReadTable where
  schema : Schema
  nextRowId : Nat
  rowAt : Nat → Outcome DbError (Option Row)
  nearest : String → List F32 → Nat → Outcome DbError (Nat × List (Outcome DbError Row))

/-- A database as a statement reads it. -/
structure ReadView where
  views : List (String × SelectStatement)
  tables : List (String × ReadTable)

def ReadView.table (v : ReadView) (name : String) : Option ReadTable := v.tables.lookup name

/-- The open transaction of a session, by table. -/
structure SessionTxn where
  inTransaction : Bool := false
  activeTxns : TableTxns := []

structure Database where
  tables : List (String × TableStorage)
  views : List (String × SelectStatement)
  inTransaction : Bool
  activeTxns : TableTxns
  sessionParameters : SortedMap String String
  sessionTxns : SortedMap Nat SessionTxn

/-- `SessionParameters::new()`. -/
def defaultParameters : SortedMap String String :=
  [("server_version", "16.0"), ("server_encoding", "UTF8"), ("client_encoding", "UTF8"),
    ("application_name", ""), ("DateStyle", "ISO, MDY"), ("TimeZone", "UTC"),
    ("standard_conforming_strings", "on"), ("search_path", "\"$user\", public"),
    ("default_transaction_isolation", "read committed"),
    ("transaction_isolation", "read committed")].foldl (fun m (k, v) => m.insert k v) .empty

/-- The table as a statement sees it when `txn` is open on it. -/
def TableStorage.view (ts : TableStorage) (txn : Option Transaction) : ReadTable :=
  ⟨ts.schema, ts.nextRowId, ts.currentRow txn, ts.nearest⟩

namespace Database

/-- A database without tables. -/
def empty : Database := ⟨[], [], false, [], defaultParameters, .empty⟩

/-- A database with one table `t`. -/
def new (schema : Schema) : Database := { empty with tables := [("t", .new schema)] }

def table (db : Database) (name : String) : Option TableStorage := db.tables.lookup name

/-- The open transaction on a table. -/
def activeTxn (db : Database) (name : String) : Option Transaction := db.activeTxns.lookup name

def readView (db : Database) : ReadView :=
  ⟨db.views, db.tables.map fun (name, ts) => (name, ts.view (db.activeTxn name))⟩

end Database

end Archon
