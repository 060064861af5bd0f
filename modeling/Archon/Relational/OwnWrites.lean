import Archon.Relational.QueryAgree
import Archon.Relational.Shadow

/-!
# Archon.Relational.OwnWrites

A transaction reads its own writes: a query inside it answers as on the
committed rows with its buffered writes laid over them.

Scans look into the write buffer, nearest-neighbour queries do not: they read
the tree, or the index over it.
-/

namespace Archon

open SortedMap

/-! ## The overlaid database -/

namespace TableStorage

/-- Lay one buffered write over a table.  A row that does not decode is not
indexed. -/
def overlayWrite (ts : TableStorage) (w : Nat × Bytes) : TableStorage :=
  match writtenRow w.2 with
  | none => ts.discard w.1
  | some bytes =>
    match ts.decode w.1 bytes with
    | .ok row =>
      match (ts.store w.1 bytes row : Outcome DbError TableStorage) with
      | .ok ts' => ts'
      | .error _ => { ts with tree := ts.tree.insert w.1 bytes }
    | .error _ => { ts with tree := ts.tree.insert w.1 bytes }

/-- The table with the writes of a transaction laid over it. -/
def overlaid (ts : TableStorage) (txn : Option Transaction) : TableStorage :=
  match txn with
  | none => ts
  | some txn => txn.writesIter.foldl overlayWrite ts

theorem overlayWrite_spec (ts : TableStorage) (w : Nat × Bytes) :
    (ts.overlayWrite w).schema = ts.schema ∧ (ts.overlayWrite w).nextRowId = ts.nextRowId ∧
      ∀ k, (ts.overlayWrite w).tree.find? k =
        if k = w.1 then writtenRow w.2 else ts.tree.find? k := by
  have hinsert : ∀ bytes k, (ts.tree.insert w.1 bytes).find? k =
      if k = w.1 then some bytes else ts.tree.find? k := fun bytes k =>
        find?_insert _ _ _ _
  unfold overlayWrite
  split
  · next hnone =>
    refine ⟨rfl, rfl, fun k => ?_⟩
    show (ts.tree.erase w.1).find? k = _
    rw [find?_erase, hnone]
  · next bytes hsome =>
    rw [hsome]
    split
    · split
      · next ts' hstore =>
        obtain ⟨idx, rfl⟩ := store_ok hstore
        exact ⟨rfl, rfl, hinsert bytes⟩
      · exact ⟨rfl, rfl, hinsert bytes⟩
    · exact ⟨rfl, rfl, hinsert bytes⟩

theorem foldl_overlayWrite {ws : List (Nat × Bytes)} (hasc : Ascending ws) (ts : TableStorage) :
    (ws.foldl overlayWrite ts).schema = ts.schema ∧
      (ws.foldl overlayWrite ts).nextRowId = ts.nextRowId ∧
      ∀ k, (ws.foldl overlayWrite ts).tree.find? k =
        ((findIn k ws).map writtenRow).getD (ts.tree.find? k) := by
  induction ws generalizing ts with
  | nil => exact ⟨rfl, rfl, fun _ => rfl⟩
  | cons w ws ih =>
    obtain ⟨id, bytes⟩ := w
    obtain ⟨hschema, hnext, htree⟩ := ih hasc.cons.2 (ts.overlayWrite (id, bytes))
    obtain ⟨hschema₁, hnext₁, htree₁⟩ := ts.overlayWrite_spec (id, bytes)
    refine ⟨hschema.trans hschema₁, hnext.trans hnext₁, fun k => ?_⟩
    have hnone := findIn_tail_eq_none hasc
    rw [List.foldl_cons, htree, findIn]
    grind

/-- A statement inside the transaction sees the rows of the overlaid table. -/
theorem currentRow_overlaid {ts : TableStorage} {txn : Option Transaction}
    (h : ∀ t, txn = some t → ts.Holds .any t) (id : Nat) :
    (ts.overlaid txn).currentRow none id = ts.currentRow txn id := by
  cases txn with
  | none => rfl
  | some txn =>
    obtain ⟨hschema, -, htree⟩ := foldl_overlayWrite txn.writes.ascending ts
    have hover : ((ts.overlaid (some txn)).currentBytes none id : Outcome DbError _) =
        .ok (((txn.getWrite id).map writtenRow).getD (ts.tree.find? id)) :=
      congrArg Except.ok (htree id)
    refine currentRow_eq hschema (hover.trans ?_)
    rw [currentBytes, Option.bind_some]
    cases hw : txn.getWrite id with
    | none => simp
    | some bytes =>
      obtain rfl | ⟨b, rfl, -⟩ := ((h txn rfl).writes id bytes hw).2
      · rfl
      · rfl

theorem overlaid_view (ts : TableStorage) (txn : Option Transaction) :
    (ts.overlaid txn).schema = ts.schema ∧ (ts.overlaid txn).nextRowId = ts.nextRowId := by
  cases txn with
  | none => exact ⟨rfl, rfl⟩
  | some txn =>
    have h := foldl_overlayWrite txn.writes.ascending ts
    exact ⟨h.1, h.2.1⟩

end TableStorage

/-- The committed rows overlaid with the open transaction's writes. -/
def Database.overlaid (db : Database) : Database :=
  { db with
    tables := db.tables.map fun e => (e.1, e.2.overlaid (db.activeTxn e.1))
    inTransaction := false
    activeTxns := [] }

theorem Database.table_overlaid (db : Database) (n : String) :
    db.overlaid.table n = (db.table n).map fun ts => ts.overlaid (db.activeTxn n) :=
  lookup_map (fun n ts => TableStorage.overlaid ts (db.activeTxn n)) db.tables n

/-! ## Queries -/

/-- The tables the open transaction has not written. -/
def Database.Unwritten (db : Database) (name : String) : Prop :=
  ∀ txn, db.activeTxn name = some txn → txn.writesIter = []

theorem scanTable_congr {v v' : ReadView} {n : String}
    (h : (v.table n).map (fun rt => (rt.schema.columns, rt.nextRowId, rt.rowAt)) =
      (v'.table n).map fun rt => (rt.schema.columns, rt.nextRowId, rt.rowAt)) :
    scanTable v n = scanTable v' n := by
  have hrows : ∀ (rt rt' : ReadTable), rt.rowAt = rt'.rowAt → ∀ ids, rt.rows ids =
      rt'.rows ids := by
    intro rt rt' hat ids
    induction ids with
    | nil => rfl
    | cons id ids ih => simp [ReadTable.rows, hat, ih]
  cases hrt : v.table n with
  | none =>
    have hrt' : v'.table n = none := by simpa [hrt] using h.symm
    simp [scanTable, hrt, hrt']
  | some rt =>
    obtain ⟨rt', hrt', heq⟩ : ∃ rt', v'.table n = some rt' ∧
        (rt'.schema.columns, rt'.nextRowId, rt'.rowAt) =
          (rt.schema.columns, rt.nextRowId, rt.rowAt) := by
      simpa [hrt] using h.symm
    obtain ⟨hcols, hrest⟩ := Prod.mk.inj heq
    obtain ⟨hnext, hat⟩ := Prod.mk.inj hrest
    simp [scanTable, hrt, hrt', Outcome.okOr, hcols, hnext, hrows rt' rt hat]

/-- A database agrees with its overlay, under nearest-neighbour queries on the
tables the transaction has not written. -/
theorem Database.Sound.agrees_overlaid {hidden : List TableTxns} {db : Database}
    (h : db.Sound .any hidden) : db.readView.Agrees db.Unwritten db.overlaid.readView := by
  have hview : ∀ n, db.overlaid.readView.table n =
      (db.table n).map fun ts => (ts.overlaid (db.activeTxn n)).view none := by
    intro n
    rw [Database.table_readView, Database.table_overlaid, Option.map_map]
    rfl
  refine ⟨rfl, fun n => scanTable_congr ?_, fun n => ?_, fun n hn => ?_⟩
  · rw [Database.table_readView, hview]
    cases hts : db.table n with
    | none => rfl
    | some ts =>
      obtain ⟨hschema, hnext⟩ := ts.overlaid_view (db.activeTxn n)
      have hrow : (ts.overlaid (db.activeTxn n)).currentRow none = ts.currentRow (db.activeTxn n) :=
        funext (TableStorage.currentRow_overlaid (h.holds hts))
      simp [TableStorage.view, hschema, hnext, hrow]
  · simp [hview]
  · rw [Database.table_readView, hview]
    cases db.table n with
    | none => rfl
    | some ts =>
      have hsame : ts.overlaid (db.activeTxn n) = ts := by
        cases htxn : db.activeTxn n with
        | none => rfl
        | some txn => simp [TableStorage.overlaid, hn txn htxn]
      simp [hsame, TableStorage.view]

/-- The `SELECT`s of a query. -/
def Statement.selects : Statement → List SelectStatement
  | .select s => [s]
  | .compound cm => cm.first :: cm.operations.map Prod.snd
  | _ => []

def Statement.isQuery : Statement → Bool
  | .select _ | .selectLiteral _ | .compound _ => true
  | _ => false

/-- In the query, the queries inside it and the views these name, nearest-
neighbour queries are on tables the transaction has not written. -/
def NearestUnwritten (db : Database) (stmt : Statement) : Prop :=
  ∃ A, ClosedQueries db.views A ∧ (∀ s, A s → s.NearestIn db.Unwritten) ∧
    ∀ s ∈ stmt.selects, A s

theorem execute_overlaid {hidden : List TableTxns} {db : Database}
    (h : db.Sound .any hidden) {stmt : Statement} (hq : stmt.isQuery = true)
    (hn : NearestUnwritten db stmt) (depth : Nat) (params : Params) :
    (execute depth stmt params db).1 = (execute depth stmt params db.overlaid).1 := by
  obtain ⟨A, hA, hN, hs⟩ := hn
  cases stmt with
  | select s =>
    exact runSelect_agree h.agrees_overlaid hA hN (hs s (by simp [Statement.selects])) depth params
  | compound cm =>
    refine runCompound_agree h.agrees_overlaid hA hN (hs _ (by simp [Statement.selects]))
      (fun e he => hs e.2 ?_) depth params
    exact List.mem_cons_of_mem _ (List.mem_map_of_mem he)
  | selectLiteral items => rfl
  | _ => cases hq

/-- `SELECT * FROM t`. -/
def selectAll (name : String) : SelectStatement where
  columns := []
  star := true
  table := .named name none
  filter := none
  joins := []
  groupBy := []
  aggregates := []
  windowFuncs := []
  orderBy := []
  orderByCosine := none
  limit := none
  having := none
  withCtes := []

/-- `SELECT * FROM t ORDER BY cosine(v, $1) LIMIT 1`. -/
def selectNearest : SelectStatement :=
  { selectAll "t" with orderByCosine := some ⟨"v", 1, 1⟩ }

/-- `CREATE TABLE t (v VECTOR); BEGIN; INSERT INTO t (v) VALUES ([0.0])`. -/
def vectorCalls : List ClientCall :=
  [.execute (.createTable ⟨"t", [⟨"v", .vector, []⟩], []⟩) [], .execute .begin [],
    .execute (.insert ⟨"t", ["v"], [[.vector [F32.zero]]]⟩) []]

end Archon
