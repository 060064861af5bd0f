import Archon.Relational.Sound

/-!
# Archon.Relational.Visible

The rows a client sees: the committed ones under the writes of its open
transaction.  Each primitive of a statement changes one of them at most,
whether it goes to the tree or to the write buffer.
-/

namespace Archon

open Program TableStorage MvccStore

/-- Transactions are open only while the database says so. -/
def Database.Idle (db : Database) : Prop := db.inTransaction = false → db.activeTxns = []

/-- Row `id` of a table, as a statement on the database sees it. -/
def Database.visible (db : Database) (n : String) (id : Nat) :
    Option (Outcome DbError (Option Row)) :=
  (db.table n).map fun ts => ts.currentRow (db.activeTxn n) id

theorem Database.visible_eq (db : Database) (n : String) (id : Nat) :
    db.visible n id = (db.readView.table n).map fun rt => rt.rowAt id := by
  simp only [table_readView, Option.map_map]
  rfl

/-! ## Rows under a transaction -/

namespace TableStorage

/-- What a stored row reads as. -/
def readsAs (ts : TableStorage) (id : Nat) (bytes : Bytes) : Outcome DbError (Option Row) := do
  let row ← ts.decode id bytes
  return some row

theorem currentRow_none (ts : TableStorage) (id : Nat) :
    ts.currentRow none id = (ts.tree.find? id).elim (.ok none) (ts.readsAs id) := by
  cases h : ts.tree.find? id <;> simp [currentRow, currentBytes, h, readsAs]

/-- What a transaction sees of a row after a write. -/
theorem currentBytes_write (ts : TableStorage) (txn : Transaction) (id : Nat)
    (tag : UInt8) (bytes : Bytes) (k : Nat) :
    (ts.currentBytes (some (write txn id (tag :: bytes))) k : Outcome ε _) =
      if k = id then .ok (if tag = MVCC_TOMBSTONE then none else some bytes)
      else ts.currentBytes (some txn) k := by
  by_cases hk : k = id
  · simp [currentBytes, Transaction.getWrite, write, hk]
  · simp [currentBytes, Transaction.getWrite, write, SortedMap.find?_insert, hk]

theorem currentRow_write (ts : TableStorage) (txn : Transaction) (id : Nat) (tag : UInt8)
    (bytes : Bytes) (k : Nat) :
    ts.currentRow (some (write txn id (tag :: bytes))) k =
      if k = id then (if tag = MVCC_TOMBSTONE then .ok none else ts.readsAs id bytes)
      else ts.currentRow (some txn) k := by
  unfold currentRow
  rw [currentBytes_write]
  by_cases hk : k = id
  · by_cases htag : tag = MVCC_TOMBSTONE
    · simp [hk, htag]
    · simp [hk, htag, readsAs]
  · simp [hk]

end TableStorage

/-! ## The primitives -/

namespace Database

variable {db db' : Database} {name : String} {id : Nat}

section

variable (db : Database)

theorem ensureTxn_txns (name : String) :
    ∃ txns, db.ensureTxn name = { db with activeTxns := txns } := by
  unfold ensureTxn
  split
  · exact ⟨db.activeTxns, rfl⟩
  · split
    · exact ⟨db.activeTxns, rfl⟩
    · simp

theorem activeTxn_ensureTxn (name n : String) :
    (db.ensureTxn name).activeTxn n =
      (db.activeTxn n).or (if n = name then (db.table name).map (·.mvcc.begin) else none) := by
  unfold ensureTxn
  split
  · next hsome =>
    by_cases hn : n = name
    · grind [Option.or_of_isSome hsome]
    · simp [hn]
  · cases hts : db.table name with
    | none => simp
    | some ts => simp [activeTxn, lookup_append, lookup_cons_eq]

/-- Beginning a transaction on a table shows nothing new. -/
theorem readView_ensureTxn (name : String) : (db.ensureTxn name).readView = db.readView := by
  have hview : ∀ n (t : TableStorage), t.view ((db.ensureTxn name).activeTxn n) =
      t.view (db.activeTxn n) := by
    intro n t
    rw [activeTxn_ensureTxn]
    cases htxn : db.activeTxn n with
    | some txn => simp
    | none =>
      by_cases hn : n = name
      · cases db.table name with
        | none => simp
        | some ts =>
          simp only [hn]
          rfl
      · simp [hn]
  obtain ⟨txns, htxns⟩ := db.ensureTxn_txns name
  simp only [readView, hview]
  rw [htxns]

theorem readView_touch (name : String) :
    (touch name db).2.readView = db.readView ∧ (touch name db).1 = .ok () := by
  cases hin : db.inTransaction with
  | false => simp [touch, update, hin]
  | true => simp [touch, update, hin, readView_ensureTxn]

theorem touch_txns (name : String) :
    ∃ txns, (touch name db).2 = { db with activeTxns := txns } ∧
      (db.inTransaction = false → txns = db.activeTxns) := by
  by_cases hin : db.inTransaction = true
  · obtain ⟨txns, htxns⟩ := db.ensureTxn_txns name
    have hrun : touch name db = (.ok (), db.ensureTxn name) := by simp [touch, update, hin]
    exact ⟨txns, by rw [hrun, htxns], fun hf => absurd (hin.symm.trans hf) (by simp)⟩
  · have hrun : touch name db = (.ok (), db) := by simp [touch, update, hin]
    exact ⟨db.activeTxns, by rw [hrun], fun _ => rfl⟩

theorem activeTxn_touch (name n : String) :
    (touch name db).2.activeTxn n = db.activeTxn n ∨
      n = name ∧ ∃ ts, db.table name = some ts ∧
        (touch name db).2.activeTxn n = some ts.mvcc.begin := by
  by_cases hin : db.inTransaction = true
  · have hrun : (touch name db).2 = db.ensureTxn name := by simp [touch, update, hin]
    rw [hrun, activeTxn_ensureTxn]
    by_cases hn : n = name
    · subst hn
      cases htxn : db.activeTxn n with
      | some txn => simp
      | none => cases hts : db.table n <;> simp
    · simp [hn]
  · have hrun : (touch name db).2 = db := by simp [touch, update, hin]
    simp [hrun]

end

/-- A table in which one row at most reads otherwise. -/
theorem visible_setTable {ts ts' : TableStorage} {r : Outcome DbError (Option Row)}
    (hts : db.table name = some ts) (hrow : ∀ k, ts'.currentRow (db.activeTxn name) k =
      if k = id then r else ts.currentRow (db.activeTxn name) k) (n : String) (k : Nat) :
    (db.setTable name ts').visible n k = if n = name ∧ k = id then some r else db.visible n k := by
  by_cases hn : n = name
  · subst hn
    by_cases hk : k = id <;> simp [visible, hts, hrow, hk]
  · simp [visible, hn]

theorem visible_setTable_same {ts ts' : TableStorage} (hts : db.table name = some ts)
    (hrow : ts'.currentRow = ts.currentRow) (n : String) (k : Nat) :
    (db.setTable name ts').visible n k = db.visible n k := by
  by_cases hn : n = name
  · subst hn
    simp [visible, hts, hrow]
  · simp [visible, hn]

theorem visible_setTxn {ts : TableStorage} {txn : Transaction} (hts : db.table name = some ts)
    (htxn : db.activeTxn name = some txn) (tag : UInt8) (bytes : Bytes) (n : String) (k : Nat) :
    (db.setTxn name (write txn id (tag :: bytes))).visible n k =
      if n = name ∧ k = id then
        some (if tag = MVCC_TOMBSTONE then .ok none else ts.readsAs id bytes)
      else db.visible n k := by
  by_cases hn : n = name
  · subst hn
    by_cases hk : k = id <;> simp [visible, hts, htxn, hk, currentRow_write]
  · simp [visible, hn]

/-- Writing a row shows what its bytes read as, and nothing else new. -/
theorem visible_putRow {row : Row} (hidle : db.Idle) (h : db.putRow name id row = .ok db') :
    ∃ ts, db.table name = some ts ∧ ∀ n k, db'.visible n k =
      if n = name ∧ k = id then some (ts.readsAs id (encodeRow row)) else db.visible n k := by
  obtain ⟨ts, hts, ⟨hin, txn, htxn, rfl⟩ | ⟨hin, ts', hstore, rfl⟩⟩ := putRow_ok h
  · exact ⟨ts, hts, visible_setTxn hts htxn MVCC_LIVE (encodeRow row)⟩
  · obtain ⟨idx, rfl⟩ := store_ok hstore
    have hno : db.activeTxn name = none := by simp [activeTxn, hidle hin]
    refine ⟨ts, hts, visible_setTable hts fun k => ?_⟩
    rw [hno, currentRow_none, currentRow_none, SortedMap.find?_insert]
    by_cases hk : k = id <;> simp [hk] <;> rfl

/-- Deleting a row hides it, and shows nothing else new. -/
theorem visible_dropRow (hidle : db.Idle) (h : db.dropRow name id = .ok db') :
    ∀ n k, db'.visible n k = if n = name ∧ k = id then some (.ok none) else db.visible n k := by
  obtain ⟨ts, hts, ⟨hin, txn, htxn, rfl⟩ | ⟨hin, rfl⟩⟩ := dropRow_ok h
  · exact visible_setTxn hts htxn MVCC_TOMBSTONE []
  · have hno : db.activeTxn name = none := by simp [activeTxn, hidle hin]
    have htree : (ts.discard id).tree = ts.tree.erase id := rfl
    refine visible_setTable hts fun k => ?_
    rw [hno, currentRow_none, currentRow_none, htree,
      SortedMap.find?_erase]
    by_cases hk : k = id <;> simp [hk]
    rfl

theorem visible_allocRow (db : Database) (name : String) (n : String) (k : Nat) :
    (allocRow name db).2.visible n k = db.visible n k := by
  unfold allocRow
  cases hts : db.table name with
  | none => rfl
  | some ts => exact visible_setTable_same hts (by rfl) n k

theorem visible_buildIndexes (h : db.buildIndexes name = .ok db') (n : String) (k : Nat) :
    db'.visible n k = db.visible n k := by
  obtain rfl | ⟨ts, idx, -, hts, rfl⟩ := buildIndexes_ok h
  · rfl
  · exact visible_setTable_same hts (by rfl) n k

end Database

end Archon
