import Archon.Relational.Codec
import Archon.Relational.Mvcc
import Archon.Relational.VectorIndex

/-!
# Archon.Relational.TableStorage

One table: its schema, its rows, its version store and its vector indexes
(`crates/tpt-archon-relational/src/database/storage.rs`), and the ways a
statement reads a row of it.

The B-Link tree is the sorted map it represents (`Archon.run_answers`).  Row ids
are counted without bound; the source counts in a `u64`, whose `+= 1` wraps
round, so what is said of tables is about those into which fewer than 2 ^ 64 rows
were inserted.
-/

namespace Archon

open Outcome

/-- A table. -/
structure TableStorage where
  schema : Schema
  tree : SortedMap Nat Bytes
  nextRowId : Nat
  mvcc : MvccStore
  vectorIndexes : List (String × IvfFlatIndex)

namespace TableStorage

def new (schema : Schema) : TableStorage := ⟨schema, .empty, 0, .new, []⟩

/-- Decode stored bytes against the current number of columns. -/
def decode (ts : TableStorage) (id : Nat) (bytes : Bytes) : Outcome DbError Row :=
  decodeRowValidated id bytes ts.schema.columns.length

/-! ## Vector indexes -/

/-- The entry of row `id` in one index, after the row became `row`. -/
def maintainIndex (schema : Schema) (id : Nat) (row : Row) (col : String) (idx : IvfFlatIndex) :
    Outcome ε IvfFlatIndex :=
  match schema.indexOf col with
  | none => return idx.remove id
  | some slot => do
    match ← index row slot with
    | .vector v => return idx.insert id v
    | _ => return idx.remove id

def maintainVectorIndexesForRow (ts : TableStorage) (id : Nat) (row : Row) :
    Outcome ε TableStorage := do
  let vectorIndexes ← ts.vectorIndexes.mapM fun (col, idx) => do
    let idx ← maintainIndex ts.schema id row col idx
    return (col, idx)
  return { ts with vectorIndexes }

def maintainVectorIndexesOnDelete (ts : TableStorage) (id : Nat) : TableStorage :=
  { ts with vectorIndexes := ts.vectorIndexes.map fun (col, idx) => (col, idx.remove id) }

/-- The vector columns without an index, with their slots. -/
def pendingCols (ts : TableStorage) : List (Nat × String) :=
  ((ts.schema.columns.zip ts.schema.types).mapIdx fun i ct => (i, ct)).filterMap fun (i, c, t) =>
    if t = .vector ∧ (ts.vectorIndexes.lookup c).isNone then some (i, c) else none

/-- The committed rows with the given ids, in order. -/
def committedRows (ts : TableStorage) : List Nat → Outcome DbError (List (Nat × Row))
  | [] => return []
  | id :: ids =>
    match ts.tree.find? id with
    | none => committedRows ts ids
    | some bytes => do
      let row ← ts.decode id bytes
      let rows ← committedRows ts ids
      return (id, row) :: rows

/-- The vectors in a column of the rows. -/
def vectorsAt (slot : Nat) : List (Nat × Row) → Outcome ε (List (Nat × List F32))
  | [] => return []
  | (id, row) :: rows => do
    let value ← index row slot
    let rest ← vectorsAt slot rows
    match value with
    | .vector v => return (id, v) :: rest
    | _ => return rest

/-- Index every pending column that holds a vector. -/
def buildIndexes (rows : List (Nat × Row)) :
    List (Nat × String) → Outcome ε (List (String × IvfFlatIndex))
  | [] => return []
  | (slot, name) :: cols => do
    let vectors ← vectorsAt slot rows
    let rest ← buildIndexes rows cols
    if vectors.isEmpty then return rest
    let idx ← IvfFlatIndex.build vectors
    return (name, idx) :: rest

/-- Build missing indexes once enough row ids were handed out. -/
def maybeBuildVectorIndexes (ts : TableStorage) : Outcome DbError TableStorage := do
  if ts.nextRowId < MIN_ROWS_FOR_INDEX then return ts
  if ts.pendingCols.isEmpty then return ts
  let rows ← ts.committedRows (List.range ts.nextRowId)
  let built ← buildIndexes rows ts.pendingCols
  return { ts with vectorIndexes := ts.vectorIndexes ++ built }

/-! ## Rows -/

/-- Insert or replace a committed row, whose values `row` are. -/
def store (ts : TableStorage) (id : Nat) (bytes : Bytes) (row : Row) : Outcome ε TableStorage :=
  { ts with tree := ts.tree.insert id bytes }.maintainVectorIndexesForRow id row

/-- Delete a committed row. -/
def discard (ts : TableStorage) (id : Nat) : TableStorage :=
  { ts with tree := ts.tree.erase id }.maintainVectorIndexesOnDelete id

/-- The bytes of row `id`: a buffered write hides the committed row, and a
tombstone hides it for good. -/
def currentBytes (ts : TableStorage) (txn : Option Transaction) (id : Nat) :
    Outcome ε (Option Bytes) :=
  match txn.bind (·.getWrite id) with
  | some [] => panicked
  | some (tag :: bytes) => return if tag = MVCC_TOMBSTONE then none else some bytes
  | none => return ts.tree.find? id

/-- Row `id` as the open transaction sees it. -/
def currentRow (ts : TableStorage) (txn : Option Transaction) (id : Nat) :
    Outcome DbError (Option Row) := do
  match ← ts.currentBytes txn id with
  | none => return none
  | some bytes =>
    let row ← ts.decode id bytes
    return some row

/-- The rows a nearest-neighbour query looks at: those the index proposes, or
all of them. -/
def candidateIds (ts : TableStorage) (column : String) (query : List F32) (k : Nat) : List Nat :=
  match ts.vectorIndexes.lookup column with
  | some idx => idx.search query (max (min (k * 4) (2 ^ 64 - 1)) k) DEFAULT_NPROBE
  | none => List.range ts.nextRowId

/-- The column's slot, and the candidate rows of the tree, each decoded when
the query gets to it. -/
def nearest (ts : TableStorage) (column : String) (query : List F32) (k : Nat) :
    Outcome DbError (Nat × List (Outcome DbError Row)) := do
  let slot ← okOr (ts.schema.indexOf column) (.unknownColumn column)
  let type ← index ts.schema.types slot
  if type ≠ .vector then fail (.notAVectorColumn column)
  else
    return (slot, (ts.candidateIds column query k).filterMap fun id =>
      (ts.tree.find? id).map (ts.decode id))

end TableStorage

end Archon
