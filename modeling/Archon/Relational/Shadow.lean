import Archon.Relational.CommitAtomic

/-!
# Archon.Relational.Shadow

Autocommit and a transaction side by side.  A database in autocommit mode
*shadows* one inside a transaction if its rows are what the transaction sees.
Then statements read the same, and what they write keeps the one the shadow of
the other; at the commit the two meet.

Tables have no vector columns here, so no statement reads a vector index.
-/

namespace Archon

open Program Outcome Database MvccStore

variable {txn : Option Transaction} {ta tt : TableStorage}
variable {id : Nat} {row : Row} {ta' ts : TableStorage}

/-! ## Shadows -/

/-- The rows of `ta` are those of `tt` as the transaction sees them. -/
structure Overlays (ta tt : TableStorage) (txn : Option Transaction) : Prop where
  schema : ta.schema = tt.schema
  nextRowId : ta.nextRowId = tt.nextRowId
  bytes : ∀ id, (tt.currentBytes txn id : Outcome DbError (Option Bytes)) = .ok (ta.tree.find? id)
  snapshot : ∀ x, txn = some x → x.snapshot = tt.mvcc.clock
  plain : .vector ∉ tt.schema.types

/-- `a` in autocommit mode has the rows `t` has inside its transaction. -/
structure Shadows (a t : Database) : Prop where
  views : a.views = t.views
  names : a.tables.map Prod.fst = t.tables.map Prod.fst
  nodup : (a.tables.map Prod.fst).Nodup
  outside : a.inTransaction = false
  idle : a.activeTxns = []
  inside : t.inTransaction = true
  tables : ∀ n, Option.Rel (fun ta tt => Overlays ta tt (t.activeTxn n)) (a.table n) (t.table n)

theorem TableStorage.currentRow_eq {txn' : Option Transaction} (hs : ta.schema = tt.schema)
    (hb : (ta.currentBytes txn id : Outcome DbError (Option Bytes)) = tt.currentBytes txn' id) :
    ta.currentRow txn id = tt.currentRow txn' id := by
  simp [hb, decode, hs, currentRow]

/-- Without vector columns no query gets to the rows of an index. -/
theorem TableStorage.nearest_eq (hs : ta.schema = tt.schema) (hp : .vector ∉ tt.schema.types) :
    ta.nearest = tt.nearest := by
  funext column query k
  simp only [nearest, hs]
  refine congrArg _ (funext fun slot => ?_)
  cases ht : tt.schema.types[slot]? with
  | none => simp [index, ht, panicked]
  | some type =>
    have hne : type ≠ .vector := fun h => hp (h ▸ List.mem_of_getElem? ht)
    simp [index, ht, hne]

theorem Overlays.view (h : Overlays ta tt txn) : ta.view none = tt.view txn := by
  have hrow : ta.currentRow none = tt.currentRow txn :=
    funext fun id => TableStorage.currentRow_eq h.schema (h.bytes id).symm
  simp [TableStorage.view, h.schema, h.nextRowId, hrow, TableStorage.nearest_eq h.schema h.plain]

namespace Shadows

variable {a t : Database} {name : String}

variable (h : Shadows a t)
include h

/-- Statements read the same in both. -/
theorem readView : a.readView = t.readView := by
  have htables : a.readView.tables = t.readView.tables := by
    refine eq_of_lookup ?_ ?_ fun n _ => ?_
    · simpa [Database.readView, Function.comp_def] using h.names
    · simpa [Database.readView, Function.comp_def] using h.nodup
    · have hno : a.activeTxn n = none := by simp [Database.activeTxn, h.idle]
      have ha : a.readView.table n = (a.table n).map fun ts => ts.view none := by
        rw [Database.table_readView, hno]
      show a.readView.table n = t.readView.table n
      rw [ha, Database.table_readView]
      have hrel := h.tables n
      generalize a.table n = x, t.table n = y at hrel
      cases hrel with
      | none => rfl
      | some hov => simp [hov.view]
  have hviews : a.readView.views = t.readView.views := h.views
  cases hv : a.readView
  simp_all

theorem table_some (ht : t.table name = some tt) :
    ∃ ta, a.table name = some ta ∧ Overlays ta tt (t.activeTxn name) := by
  have hrel := h.tables name
  rw [ht] at hrel
  cases hta : a.table name with
  | none => simp [hta] at hrel
  | some ta =>
    rw [hta] at hrel
    cases hrel with
    | some hov => exact ⟨ta, rfl, hov⟩

theorem table_none (ht : t.table name = none) : a.table name = none := by
  have hrel := h.tables name
  rw [ht] at hrel
  cases hta : a.table name with
  | none => rfl
  | some ta => simp [hta] at hrel

section

variable (hta : a.table name = some ta) (htt : t.table name = some tt)
include hta htt

theorem setTables {tt' : TableStorage} (hov : Overlays ta' tt' (t.activeTxn name)) :
    Shadows (a.setTable name ta') (t.setTable name tt') := by
  refine ⟨h.views, by simpa using h.names, by simpa using h.nodup, h.outside, h.idle, h.inside,
    fun n => ?_⟩
  by_cases hn : n = name
  · subst hn
    simpa [hta, htt] using Option.Rel.some hov
  · simpa [hn] using h.tables n

/-- A write on each side: into the tree, and into the open transaction. -/
theorem write {txn : Transaction} {bytes : Bytes} (htxn : t.activeTxn name = some txn)
    (hov : Overlays ta' tt (some (write txn id bytes))) :
    Shadows (a.setTable name ta') (t.setTxn name (write txn id bytes)) := by
  refine ⟨h.views, by simpa using h.names, by simpa using h.nodup, h.outside, h.idle, h.inside,
    fun n => ?_⟩
  by_cases hn : n = name
  · subst hn
    simpa [hta, htt, htxn] using Option.Rel.some hov
  · simpa [hn] using h.tables n

end

theorem ensureTxn (name : String) : Shadows a (t.ensureTxn name) := by
  unfold Database.ensureTxn
  split
  · exact h
  · next hnone =>
    split
    · exact h
    · next tt htt =>
      refine ⟨h.views, h.names, h.nodup, h.outside, h.idle, h.inside, fun n => ?_⟩
      have hrel := h.tables n
      have htxn : Database.activeTxn
          { t with activeTxns := t.activeTxns ++ [(name, tt.mvcc.begin)] } n =
            (t.activeTxn n).or (if n = name then some tt.mvcc.begin else none) := by
        simp [Database.activeTxn, lookup_append, lookup_cons_eq]
      show Option.Rel _ (a.table n) (t.table n)
      rw [htxn]
      by_cases hn : n = name
      · subst hn
        have hno : t.activeTxn n = none := by simpa using hnone
        obtain ⟨ta, hta, hov⟩ := h.table_some htt
        rw [hno] at hov ⊢
        rw [hta, htt, if_pos rfl]
        refine .some ⟨hov.schema, hov.nextRowId, hov.bytes, fun x hx => ?_, hov.plain⟩
        cases hx
        rfl
      · simpa [hn] using hrel

end Shadows

/-! ## Rows have the table's length -/

theorem insertRows_length {v : ReadView} {depth : Nat} {stmt : InsertStatement} {rt : ReadTable}
    {slots : List Nat} {rows : List Row} (hrt : v.table stmt.table = some rt)
    (h : insertRows v depth stmt = .ok (slots, rows)) :
    ∀ row ∈ rows, row.length = rt.schema.columns.length := by
  obtain ⟨rt', hrt', -, hrows, -⟩ := insertRows_ok h
  rw [hrt] at hrt'
  cases hrt'
  intro row hrow
  obtain ⟨lits, -, hfill⟩ := Except.mem_of_mapM_eq_ok hrows row hrow
  exact fillRow_keeps (P := (·.length = _)) (by simp) (by simp) hfill

theorem withImplicitId_length {slots : List Nat} {row' : Row}
    (h : withImplicitId slots id row = .ok row') : row'.length = row.length := by
  obtain ⟨-, rfl⟩ | ⟨-, rfl⟩ := withImplicitId_ok h <;> simp

theorem TableStorage.currentRow_length (h : ts.currentRow txn id = .ok (some row)) :
    row.length = ts.schema.columns.length := by
  obtain ⟨bytes?, -, h⟩ := h.bind_ok
  cases bytes? with
  | none => cases h
  | some bytes =>
    obtain ⟨row', hdec, h⟩ := h.bind_ok
    cases h
    exact (decodeRowValidated_eq_ok.mp hdec).2

theorem updatedRow_length {db : Database} {depth : Nat} {stmt : UpdateStatement}
    (hts : db.table stmt.table = some ts)
    (h : updatedRow db.readView depth stmt id = .ok (some row)) :
    row.length = ts.schema.columns.length := by
  obtain ⟨rt, old, hrt, hat, hassign, -⟩ := updatedRow_ok h
  rw [table_readView, hts] at hrt
  cases hrt
  rw [assignRow_keeps (P := (·.length = old.length)) (by simp) rfl hassign]
  exact TableStorage.currentRow_length hat

/-- A row of the table's length updates the indexes. -/
theorem TableStorage.maintain_total (hl : row.length = ts.schema.columns.length) :
    ∃ vectorIndexes, (ts.maintainVectorIndexesForRow id row : Outcome ε TableStorage) =
      .ok { ts with vectorIndexes } := by
  have hone : ∀ e ∈ ts.vectorIndexes, ∃ idx, (do
      let idx ← maintainIndex ts.schema id row e.1 e.2
      return (e.1, idx) : Outcome ε _) = .ok idx := by
    intro e _
    unfold maintainIndex
    split
    · simp
    · next slot hslot =>
      have hlt : slot < row.length := by simp [hl, (List.findIdx?_eq_some_iff_getElem.mp hslot).1]
      simp only [index, List.getElem?_eq_getElem hlt]
      cases row[slot] <;> exact ⟨_, rfl⟩
  obtain ⟨out, hout⟩ := Except.mapM_total hone
  exact ⟨out, by rw [maintainVectorIndexesForRow, hout]; rfl⟩

theorem TableStorage.store_total (id : Nat) (bytes : Bytes)
    (hl : row.length = ts.schema.columns.length) :
    ∃ vectorIndexes, (ts.store id bytes row : Outcome ε TableStorage) =
      .ok { ts with tree := ts.tree.insert id bytes, vectorIndexes } := by
  exact maintain_total hl

/-! ## One row -/

namespace Overlays

variable {ta tt : TableStorage} {txn : Transaction}

theorem put (h : Overlays ta tt (some txn)) (id : Nat) (row : Row)
    (vectorIndexes : List (String × IvfFlatIndex)) :
    Overlays { ta with tree := ta.tree.insert id (encodeRow row), vectorIndexes } tt
      (some (write txn id (mvccWrapRow row))) := by
  have hsnap : txn.snapshot = tt.mvcc.clock := h.snapshot txn rfl
  have hbytes : ∀ k, (tt.currentBytes (some (write txn id (mvccWrapRow row))) k :
      Outcome DbError _) = .ok ((ta.tree.insert id (encodeRow row)).find? k) := by
    intro k
    rw [mvccWrapRow, TableStorage.currentBytes_write, SortedMap.find?_insert]
    by_cases hk : k = id
    · simp [hk, MVCC_LIVE, MVCC_TOMBSTONE]
    · simp [hk, h.bytes k]
  exact ⟨h.schema, h.nextRowId, hbytes, fun x hx => by cases hx; exact hsnap, h.plain⟩

theorem drop (h : Overlays ta tt (some txn)) (id : Nat) :
    Overlays (ta.discard id) tt (some (write txn id mvccWrapTombstone)) := by
  have hsnap : txn.snapshot = tt.mvcc.clock := h.snapshot txn rfl
  have hbytes : ∀ k, (tt.currentBytes (some (write txn id mvccWrapTombstone)) k :
      Outcome DbError _) = .ok ((ta.tree.erase id).find? k) := by
    intro k
    rw [mvccWrapTombstone, TableStorage.currentBytes_write, SortedMap.find?_erase]
    by_cases hk : k = id
    · simp [hk]
    · simp [hk, h.bytes k]
  exact ⟨h.schema, h.nextRowId, hbytes, fun x hx => by cases hx; exact hsnap, h.plain⟩

theorem alloc {txn : Option Transaction} (h : Overlays ta tt txn) :
    Overlays { ta with nextRowId := ta.nextRowId + 1 } { tt with nextRowId := tt.nextRowId + 1 }
      txn := by
  have hn : ta.nextRowId + 1 = tt.nextRowId + 1 := by rw [h.nextRowId]
  exact ⟨h.schema, hn, h.bytes, h.snapshot, h.plain⟩

end Overlays

/-- A table without vector columns has no index to build. -/
theorem TableStorage.pendingCols_eq_nil (h : .vector ∉ ts.schema.types) : ts.pendingCols = [] := by
  unfold pendingCols
  rw [List.filterMap_eq_nil_iff]
  intro e he
  obtain ⟨i, hi, rfl⟩ := List.mem_mapIdx.mp he
  have hlt : i < ts.schema.types.length := by simp at hi; omega
  have hne : ts.schema.types[i] ≠ .vector := fun heq => h (heq ▸ List.getElem_mem hlt)
  simp [hne]

theorem TableStorage.maybeBuild_eq (h : .vector ∉ ts.schema.types) :
    ts.maybeBuildVectorIndexes = .ok ts := by
  unfold maybeBuildVectorIndexes
  simp [pendingCols_eq_nil h]

/-! ## Statements -/

/-- Shadows at work on one table: the transaction is open on it, and rows have
its length. -/
structure AtTable (name : String) (cols : Nat) (a t : Database) : Prop where
  shadows : Shadows a t
  ready : ∃ tt txn, t.table name = some tt ∧ tt.schema.columns.length = cols ∧
    t.activeTxn name = some txn

namespace AtTable

variable {name : String} {cols : Nat} {a t : Database}

/-- The table on both sides, with the open transaction. -/
theorem tables (h : AtTable name cols a t) :
    ∃ ta tt txn, a.table name = some ta ∧ t.table name = some tt ∧ t.activeTxn name = some txn ∧
      Overlays ta tt (some txn) ∧ ta.schema.columns.length = cols := by
  obtain ⟨tt, txn, htt, hcols, htxn⟩ := h.ready
  obtain ⟨ta, hta, hov⟩ := h.shadows.table_some htt
  rw [htxn] at hov
  exact ⟨ta, tt, txn, hta, htt, htxn, hov, by rw [hov.schema]; exact hcols⟩

theorem write (h : AtTable name cols a t) {txn : Transaction} {bytes : Bytes}
    (hta : a.table name = some ta) (htt : t.table name = some tt)
    (htxn : t.activeTxn name = some txn)
    (hov : Overlays ta' tt (some (MvccStore.write txn id bytes))) :
    AtTable name cols (a.setTable name ta') (t.setTxn name (MvccStore.write txn id bytes)) := by
  obtain ⟨tt', txn', htt', hcols, -⟩ := h.ready
  refine ⟨h.shadows.write hta htt htxn hov, tt', MvccStore.write txn id bytes, htt', hcols, ?_⟩
  simp [htxn]

theorem putRow_sim (hrow : row.length = cols) :
    Sim (AtTable name cols) (update fun db => db.putRow name id row)
      (update fun db => db.putRow name id row) := by
  refine sim_update fun a t h => ?_
  obtain ⟨ta, tt, txn, hta, htt, htxn, hov, hcols⟩ := h.tables
  obtain ⟨idx, hidx⟩ := ta.store_total (ε := DbError) id (encodeRow row) (hrow.trans hcols.symm)
  refine .inl ⟨_, _, ?_, ?_, h.write hta htt htxn (hov.put id row idx)⟩
  · simp [putRow, hta, okOr, h.shadows.outside, hidx]
  · simp [putRow, htt, okOr, h.shadows.inside, htxn, expect]

theorem dropRow_sim :
    Sim (AtTable name cols) (update fun db => db.dropRow name id)
      (update fun db => db.dropRow name id) := by
  refine sim_update fun a t h => ?_
  obtain ⟨ta, tt, txn, hta, htt, htxn, hov, -⟩ := h.tables
  refine .inl ⟨_, _, ?_, ?_, h.write hta htt htxn (hov.drop id)⟩
  · simp [dropRow, hta, okOr, h.shadows.outside]
  · simp [dropRow, htt, okOr, h.shadows.inside, htxn, expect]

theorem allocRow_sim : Sim (AtTable name cols) (allocRow name) (allocRow name) := by
  intro a t h
  obtain ⟨ta, tt, txn, hta, htt, htxn, hov, -⟩ := h.tables
  have hov' : Overlays { ta with nextRowId := ta.nextRowId + 1 }
      { tt with nextRowId := tt.nextRowId + 1 } (t.activeTxn name) := htxn ▸ hov.alloc
  obtain ⟨tt', txn', htt', hcols, htxn'⟩ := h.ready
  rw [htt] at htt'
  cases htt'
  simp only [allocRow, hta, htt]
  refine ⟨by rw [hov.nextRowId], h.shadows.setTables hta htt hov',
    { tt with nextRowId := tt.nextRowId + 1 }, txn', ?_, hcols, htxn'⟩
  simp [htt]

/-- There is nothing to index on either side. -/
theorem buildIndexes_sim : Sim (AtTable name cols) (update fun db => db.buildIndexes name)
    (update fun db => db.buildIndexes name) := by
  refine sim_update fun a t h => ?_
  obtain ⟨ta, tt, txn, hta, htt, htxn, hov, -⟩ := h.tables
  have hbuild : ta.maybeBuildVectorIndexes = .ok ta :=
    TableStorage.maybeBuild_eq (by rw [hov.schema]; exact hov.plain)
  have hsame : a.setTable name ta = a := by
    simp [setTable, modifyKey_of_lookup (show a.tables.lookup name = some ta from hta)]
  refine .inl ⟨a, t, ?_, ?_, h⟩
  · simp [buildIndexes, hta, okOr, hbuild, hsame]
  · simp [buildIndexes, h.shadows.inside]

theorem insertRow_sim {slots : List Nat} (hrow : row.length = cols) :
    Sim (AtTable name cols) (insertRow name slots row) (insertRow name slots row) := by
  refine sim_bind allocRow_sim fun id _ _ _ _ => ?_
  refine sim_bind (sim_read fun _ _ _ => rfl) fun row' _ _ _ hid => ?_
  have hrow' : row'.length = cols := (withImplicitId_length hid).trans hrow
  exact sim_bind (putRow_sim hrow') fun _ _ _ _ _ => buildIndexes_sim

theorem updateRow_sim {depth : Nat} {stmt : UpdateStatement} (id : Nat) :
    Sim (AtTable stmt.table cols) (updateRow depth stmt id) (updateRow depth stmt id) := by
  refine sim_bind (sim_read fun a t h => by rw [h.shadows.readView]) fun row? a t h hup => ?_
  cases row? with
  | none => exact sim_pure ()
  | some row =>
    obtain ⟨ta, tt, txn, hta, -, -, -, hcols⟩ := h.tables
    exact putRow_sim ((updatedRow_length hta hup).trans hcols)

theorem deleteRow_sim {stmt : DeleteStatement} (id : Nat) :
    Sim (AtTable stmt.table cols) (deleteRow stmt id) (deleteRow stmt id) := by
  refine sim_bind (sim_read fun a t h => by rw [h.shadows.readView]) fun gone _ _ _ _ => ?_
  cases gone with
  | true => exact dropRow_sim
  | false => exact sim_pure ()

end AtTable

namespace Shadows

variable {a t : Database} {depth : Nat}

/-- The first use of a table begins a transaction on it on one side only. -/
theorem touch_run (h : Shadows a t) {name : String} (htt : t.table name = some tt)
    {m m' : DbProgram α} (hm : Sim (AtTable name tt.schema.columns.length) m m') :
    ((do touch name; m : DbProgram α) a).1 = ((do touch name; m' : DbProgram α) t).1 ∧
      Shadows ((do touch name; m : DbProgram α) a).2 ((do touch name; m' : DbProgram α) t).2 := by
  have ha : (do touch name; m : DbProgram α) a = m a := by
    simp [bind_run, touch, update, h.outside]
  have ht : (do touch name; m' : DbProgram α) t = m' (t.ensureTxn name) := by
    simp [bind_run, touch, update, h.inside]
  have hat : AtTable name tt.schema.columns.length a (t.ensureTxn name) := by
    refine ⟨h.ensureTxn name, ?_⟩
    unfold Database.ensureTxn
    split
    · next hopen =>
      obtain ⟨txn, htxn⟩ := Option.isSome_iff_exists.mp hopen
      exact ⟨tt, txn, htt, rfl, htxn⟩
    · next hnone =>
      have hno : t.activeTxns.lookup name = none := Option.not_isSome_iff_eq_none.mp hnone
      simp only [htt]
      exact ⟨tt, tt.mvcc.begin, htt, rfl, by simp [Database.activeTxn, lookup_append, hno]⟩
  rw [ha, ht]
  exact ⟨(hm a _ hat).1, (hm a _ hat).2.shadows⟩

theorem insert_sim (stmt : InsertStatement) :
    Sim Shadows (runInsertStmt depth stmt) (runInsertStmt depth stmt) := by
  intro a t h
  cases htt : t.table stmt.table with
  | none =>
    have hta := h.table_none htt
    have hins : ∀ db : Database, db.table stmt.table = none →
        insertRows db.readView depth stmt = fail (.unknownTable stmt.table) := by
      intro db hdb
      simp [insertRows, hdb, okOr, fail]
    have htouch : (if t.inTransaction then t.ensureTxn stmt.table else t) = t := by
      simp [Database.ensureTxn, htt]
    simp [runInsertStmt, bind_run, touch, update, htouch, h.outside, Program.read, hins a hta,
      hins t htt, fail, h]
  | some tt =>
    refine h.touch_run htt (sim_bind (sim_read fun a t h => by rw [h.shadows.readView]) ?_)
    intro p a t h hins
    obtain ⟨ta, -, -, hta, -, -, -, hcols⟩ := h.tables
    have hrt : a.readView.table stmt.table = some (ta.view (a.activeTxn stmt.table)) :=
        by simp [hta]
    have hrows := insertRows_length hrt hins
    refine sim_bind (sim_forEach fun row hrow => ?_) fun _ _ _ _ _ => sim_pure _
    exact AtTable.insertRow_sim ((hrows row hrow).trans hcols)

/-- A loop over the matching rows. -/
theorem matching_sim {name : String} {filter : Option Expr} {body : Nat → DbProgram Unit}
    (hbody : ∀ cols id, Sim (AtTable name cols) (body id) (body id)) :
    let m : DbProgram Nat := do
      let ids ← read fun db => matchingRowIds db.readView depth name filter
      touch name
      forEach body ids
      return ids.length
    Sim Shadows m m := by
  intro m a t h
  simp only [m, bind_run, Program.read, h.readView]
  cases hids : matchingRowIds t.readView depth name filter with
  | error e => exact ⟨rfl, h⟩
  | ok ids =>
    obtain ⟨tt, htt, -⟩ := matchingRowIds_lt hids
    exact h.touch_run htt (sim_bind (sim_forEach fun id _ => hbody _ id) fun _ _ _ _ _ =>
      sim_pure _)

theorem update_sim (stmt : UpdateStatement) :
    Sim Shadows (runUpdate depth stmt) (runUpdate depth stmt) :=
  matching_sim fun _ id => AtTable.updateRow_sim id

theorem delete_sim (stmt : DeleteStatement) :
    Sim Shadows (runDelete depth stmt) (runDelete depth stmt) :=
  matching_sim fun _ id => AtTable.deleteRow_sim id

end Shadows

/-- Queries and changes of rows. -/
def Statement.isQueryOrDml : Statement → Bool
  | .select _ | .selectLiteral _ | .compound _ | .insert _ | .update _ | .delete _ => true
  | _ => false

/-- Queries and changes of rows answer alike in autocommit mode and inside a
transaction. -/
theorem execute_sim (depth : Nat) {stmt : Statement} (hs : stmt.isQueryOrDml = true)
    (params : Params) : Sim Shadows (execute depth stmt params) (execute depth stmt params) := by
  unfold Statement.isQueryOrDml at hs
  split at hs
  · exact sim_read fun a t h => by rw [h.readView]
  · exact sim_pure _
  · exact sim_read fun a t h => by rw [h.readView]
  · exact sim_bind (Shadows.insert_sim _) fun _ _ _ _ _ => sim_pure _
  · exact sim_bind (Shadows.update_sim _) fun _ _ _ _ _ => sim_pure _
  · exact sim_bind (Shadows.delete_sim _) fun _ _ _ _ _ => sim_pure _
  · contradiction

end Archon
