import Archon.Relational.Session

/-!
# Archon.Relational.Effects

What the primitive operations do to tables and to the database, said once:
each keeps everything it does not name.
-/

namespace Archon

open Outcome

variable {db : Database} {f : Row → Outcome DbError Row} {name : String} {ts ts' : TableStorage}

/-! ## Tables -/

namespace TableStorage

theorem maintainVectorIndexesForRow_ok {id : Nat} {row : Row}
    (h : (ts.maintainVectorIndexesForRow id row : Outcome ε TableStorage) = .ok ts') :
    ∃ vectorIndexes, ts' = { ts with vectorIndexes } := by
  obtain ⟨idxs, -, h⟩ := h.bind_ok
  cases h
  simp

theorem store_ok {id : Nat} {bytes : Bytes} {row : Row}
    (h : (ts.store id bytes row : Outcome ε TableStorage) = .ok ts') :
    ∃ vectorIndexes, ts' = { ts with tree := ts.tree.insert id bytes, vectorIndexes } := by
  obtain ⟨idxs, rfl⟩ := maintainVectorIndexesForRow_ok h
  simp

theorem maybeBuildVectorIndexes_ok (h : ts.maybeBuildVectorIndexes = .ok ts') :
    ∃ vectorIndexes, ts' = { ts with vectorIndexes } := by
  unfold maybeBuildVectorIndexes at h
  split at h
  · cases h
    exact ⟨_, rfl⟩
  · split at h
    · cases h
      exact ⟨_, rfl⟩
    · obtain ⟨rows, -, h⟩ := h.bind_ok
      obtain ⟨built, -, h⟩ := h.bind_ok
      cases h
      simp

/-- Inserting a list of entries: the last entry of a key counts. -/
theorem find?_insertAll (rows : List (Nat × Bytes)) (tree : SortedMap Nat Bytes) (id : Nat)
    (hd : (rows.map Prod.fst).Nodup) :
    (rows.foldl (fun tree (id, bytes) => tree.insert id bytes) tree).find? id =
      (rows.lookup id).or (tree.find? id) := by
  induction rows generalizing tree with
  | nil => simp
  | cons r rows ih =>
    obtain ⟨k, b⟩ := r
    rw [List.map_cons, List.nodup_cons] at hd
    rw [List.foldl_cons, ih _ hd.2, lookup_cons_eq, SortedMap.find?_insert]
    by_cases hk : id = k
    · simp [hk, lookup_eq_none hd.1]
    · simp [hk]

/-- One rewritten row: decoded, changed and encoded again. -/
def Rewrites (f : Row → Outcome DbError Row) (bytes bytes' : Bytes) : Prop :=
  ∃ values values', tryDecodeRow bytes = .ok values ∧ f values = .ok values' ∧
    bytes' = encodeRow values'

theorem reencoded_ok {ids : List Nat} {rows : List (Nat × Bytes)}
    (h : ts.reencoded f ids = .ok rows) :
    rows.map Prod.fst = ids.filter (fun id => (ts.tree.find? id).isSome) ∧
      ∀ id bytes', (id, bytes') ∈ rows →
        ∃ bytes, ts.tree.find? id = some bytes ∧ Rewrites f bytes bytes' := by
  induction ids generalizing rows with
  | nil =>
    cases h
    simp
  | cons k ids ih =>
    rw [reencoded] at h
    split at h
    · next hnone => simpa [hnone] using ih h
    · next bytes hsome =>
      obtain ⟨values, hdec, h⟩ := h.bind_ok
      obtain ⟨values', hf, h⟩ := h.bind_ok
      obtain ⟨rest, hrest, h⟩ := h.bind_ok
      cases h
      obtain ⟨hkeys, hmem⟩ := ih hrest
      refine ⟨by simp [hsome, hkeys], fun id b hb => ?_⟩
      obtain heq | hb := List.mem_cons.mp hb
      · cases heq
        exact ⟨bytes, hsome, values, values', hdec, hf, rfl⟩
      · exact hmem id b hb

/-- `ALTER TABLE` rewrites the rows with ids handed out and touches no other. -/
theorem reencode_ok (h : ts.reencode f = .ok ts') :
    ∃ tree, ts' = { ts with tree } ∧ ∀ id bytes', tree.find? id = some bytes' →
      ∃ bytes, ts.tree.find? id = some bytes ∧ (id < ts.nextRowId → Rewrites f bytes bytes') := by
  obtain ⟨rows, hrows, h⟩ := h.bind_ok
  cases h
  refine ⟨_, rfl, fun id bytes' hb => ?_⟩
  obtain ⟨hkeys, hmem⟩ := reencoded_ok hrows
  rw [find?_insertAll rows _ _ (hkeys ▸ List.nodup_range.filter _)] at hb
  cases hl : rows.lookup id with
  | some b =>
    rw [hl] at hb
    cases hb
    obtain ⟨bytes, hold, hrw⟩ := hmem id bytes' (mem_of_lookup hl)
    exact ⟨bytes, hold, fun _ => hrw⟩
  | none =>
    rw [hl] at hb
    refine ⟨bytes', hb, fun hlt => ?_⟩
    -- a committed row with an id handed out is among the rewritten ones
    have hkey : id ∈ rows.map Prod.fst := by simp [hkeys, hlt, show ts.tree.find? id =
        some bytes' from hb]
    grind

theorem reencode_isSome (h : ts.reencode f = .ok ts') (id : Nat) :
    (ts'.tree.find? id).isSome = (ts.tree.find? id).isSome := by
  obtain ⟨rows, hrows, h⟩ := h.bind_ok
  cases h
  obtain ⟨hkeys, hmem⟩ := reencoded_ok hrows
  rw [find?_insertAll rows _ _ (hkeys ▸ List.nodup_range.filter _)]
  cases hl : rows.lookup id with
  | none => simp
  | some b =>
    obtain ⟨bytes, hold, -⟩ := hmem id b (mem_of_lookup hl)
    simp [hold]

/-- Whether the operation rewrites the rows. -/
def rewritesRows : AlterTableOp → Bool
  | .addColumn _ => true
  | .dropColumn _ => true
  | .renameColumn _ _ => false

/-- What `ALTER TABLE` leaves of a table: everything but the schema and the
bytes of the rows. -/
theorem alter_ok {op : AlterTableOp} (h : ts.alter op = .ok ts') :
    (∀ id, ts.tree.find? id = none ∨ rewritesRows op = false →
        ts'.tree.find? id = ts.tree.find? id) ∧
      ts'.nextRowId = ts.nextRowId ∧ ts'.mvcc = ts.mvcc ∧ ts'.vectorIndexes = ts.vectorIndexes := by
  have hre : ∀ {f : Row → Outcome DbError Row} {ts₁ columns types}, ts.reencode f = .ok ts₁ →
      (∀ id, ts.tree.find? id = none ∨ true = false →
        (ts₁.withColumns columns types).tree.find? id = ts.tree.find? id) ∧
        (ts₁.withColumns columns types).nextRowId = ts.nextRowId ∧
        (ts₁.withColumns columns types).mvcc = ts.mvcc ∧
        (ts₁.withColumns columns types).vectorIndexes = ts.vectorIndexes := by
    intro f ts₁ columns types hre
    have hsome := reencode_isSome hre
    obtain ⟨tree, rfl, -⟩ := reencode_ok hre
    refine ⟨fun id hid => ?_, rfl, rfl, rfl⟩
    have hnone : ts.tree.find? id = none := by simpa using hid
    simpa [hnone, withColumns] using hsome id
  cases op with
  | addColumn col =>
    obtain ⟨-, h⟩ := unless_eq_ok.mp h
    obtain ⟨ts₁, hts₁, h⟩ := h.bind_ok
    cases h
    exact hre hts₁
  | dropColumn name =>
    obtain ⟨idx, -, h⟩ := h.bind_ok
    obtain ⟨-, h⟩ := unless_eq_ok.mp h
    obtain ⟨ts₁, hts₁, h⟩ := h.bind_ok
    cases h
    exact hre hts₁
  | renameColumn oldName newName =>
    obtain ⟨idx, -, h⟩ := h.bind_ok
    obtain ⟨-, h⟩ := unless_eq_ok.mp h
    obtain ⟨-, h⟩ := unless_eq_ok.mp h
    cases h
    exact ⟨fun _ _ => rfl, rfl, rfl, rfl⟩

end TableStorage

/-! ## The database -/

namespace Database

@[simp] theorem table_setTable (db : Database) (name : String) (ts : TableStorage) (n : String) :
    (db.setTable name ts).table n =
      if n = name then (db.table n).map fun _ => ts else db.table n :=
  lookup_modifyKey name n _ db.tables

theorem table_setTable_self (hts : db.table name = some ts) (ts' : TableStorage) :
    (db.setTable name ts').table name = some ts' := by
  simp [hts]

/-- What a replaced table keeps, the database keeps of every table. -/
theorem map_table_setTable {f : TableStorage → τ} (hts : db.table name = some ts)
    (h : f ts' = f ts) (n : String) : ((db.setTable name ts').table n).map f =
      (db.table n).map f := by
  rw [table_setTable]
  split
  · next hn => simp [hn, hts, h]
  · rfl

section

variable (db : Database) (name : String)

@[simp] theorem names_setTable (ts : TableStorage) :
    (db.setTable name ts).tables.map Prod.fst = db.tables.map Prod.fst :=
  map_fst_modifyKey name _ db.tables

@[simp] theorem activeTxn_setTable (ts : TableStorage) (n : String) :
    (db.setTable name ts).activeTxn n = db.activeTxn n := rfl

@[simp] theorem tables_setTxn (txn : Transaction) :
    (db.setTxn name txn).tables = db.tables := rfl

@[simp] theorem table_setTxn (txn : Transaction) (n : String) :
    (db.setTxn name txn).table n = db.table n := rfl

@[simp] theorem activeTxn_setTxn (txn : Transaction) (n : String) :
    (db.setTxn name txn).activeTxn n =
      if n = name then (db.activeTxn n).map fun _ => txn else db.activeTxn n :=
  lookup_modifyKey name n _ db.activeTxns

end

@[simp] theorem table_readView (db : Database) (n : String) :
    db.readView.table n = (db.table n).map fun ts => ts.view (db.activeTxn n) :=
  lookup_map (fun n ts => TableStorage.view ts (db.activeTxn n)) db.tables n

variable {db' : Database}

/-- Writing a row outside a transaction changes one row of one tree, inside
one it changes the open transaction. -/
theorem putRow_ok {id : Nat} {row : Row} (h : db.putRow name id row = .ok db') :
    ∃ ts, db.table name = some ts ∧
      ((db.inTransaction = true ∧ ∃ txn, db.activeTxn name = some txn ∧
          db' = db.setTxn name (MvccStore.write txn id (mvccWrapRow row))) ∨
        (db.inTransaction = false ∧ ∃ ts', ts.store id (encodeRow row) row =
          (.ok ts' : Outcome DbError _) ∧ db' = db.setTable name ts')) := by
  obtain ⟨ts, hts, h⟩ := h.bind_ok
  refine ⟨ts, okOr_eq_ok.mp hts, ?_⟩
  cases hin : db.inTransaction with
  | true =>
    rw [if_pos hin] at h
    obtain ⟨txn, htxn, h⟩ := h.bind_ok
    cases h
    exact .inl ⟨rfl, txn, expect_eq_ok.mp htxn, rfl⟩
  | false =>
    rw [if_neg (by simp [hin])] at h
    obtain ⟨ts', hstore, h⟩ := h.bind_ok
    cases h
    exact .inr ⟨rfl, ts', hstore, rfl⟩

theorem dropRow_ok {id : Nat} (h : db.dropRow name id = .ok db') :
    ∃ ts, db.table name = some ts ∧
      ((db.inTransaction = true ∧ ∃ txn, db.activeTxn name = some txn ∧
          db' = db.setTxn name (MvccStore.write txn id mvccWrapTombstone)) ∨
        (db.inTransaction = false ∧ db' = db.setTable name (ts.discard id))) := by
  obtain ⟨ts, hts, h⟩ := h.bind_ok
  refine ⟨ts, okOr_eq_ok.mp hts, ?_⟩
  cases hin : db.inTransaction with
  | true =>
    rw [if_pos hin] at h
    obtain ⟨txn, htxn, h⟩ := h.bind_ok
    cases h
    exact .inl ⟨rfl, txn, expect_eq_ok.mp htxn, rfl⟩
  | false =>
    rw [if_neg (by simp [hin])] at h
    cases h
    simp

theorem buildIndexes_ok (h : db.buildIndexes name = .ok db') :
    db' = db ∨ ∃ ts vectorIndexes, db.inTransaction = false ∧ db.table name = some ts ∧
      db' = db.setTable name { ts with vectorIndexes } := by
  unfold buildIndexes at h
  split at h
  · cases h
    exact .inl rfl
  · next hin =>
    obtain ⟨ts, hts, h⟩ := h.bind_ok
    obtain ⟨ts', hbuild, h⟩ := h.bind_ok
    cases h
    obtain ⟨idx, rfl⟩ := TableStorage.maybeBuildVectorIndexes_ok hbuild
    exact .inr ⟨ts, idx, by simpa using hin, okOr_eq_ok.mp hts, rfl⟩

section

variable {f : TableStorage → τ} (hf : ∀ ts tree idx, f { ts with tree, vectorIndexes :=
  idx } = f ts)
  {db' : Database} {id : Nat}
include hf

/-- Writing a row leaves all of the tables but rows and indexes. -/
theorem map_table_putRow {row : Row} (h : db.putRow name id row = .ok db') (n : String) :
    (db'.table n).map f = (db.table n).map f := by
  obtain ⟨ts, hts, ⟨-, txn, -, rfl⟩ | ⟨-, ts', hstore, rfl⟩⟩ := putRow_ok h
  · rfl
  · obtain ⟨idx, rfl⟩ := TableStorage.store_ok hstore
    exact map_table_setTable hts (hf ..) n

theorem map_table_dropRow (h : db.dropRow name id = .ok db') (n : String) :
    (db'.table n).map f = (db.table n).map f := by
  obtain ⟨ts, hts, ⟨-, txn, -, rfl⟩ | ⟨-, rfl⟩⟩ := dropRow_ok h
  · rfl
  · exact map_table_setTable hts (hf ..) n

theorem map_table_buildIndexes (h : db.buildIndexes name = .ok db') (n : String) :
    (db'.table n).map f = (db.table n).map f := by
  obtain rfl | ⟨ts, idx, -, hts, rfl⟩ := buildIndexes_ok h
  · rfl
  · exact map_table_setTable hts (hf ts ts.tree idx) n

end

end Database

end Archon
