import Archon.Relational.StatementSound

/-!
# Archon.Relational.RowLaw

Stored rows match their table's schema: as many values as columns, each of
its column's kind.

`ALTER TABLE` re-encodes the rows of the tree but not the rows other open
transactions have buffered, so the invariant needs that there are none.
-/

namespace Archon

open Outcome List

variable {row : Row} {schema : Schema}
variable {schema' : Schema} {ts ts' : TableStorage}

/-- Columns and types go together, the first column is the row id, and the
codec has room for the count. -/
structure Schema.Proper (schema : Schema) : Prop where
  length : schema.types.length = schema.columns.length
  id : schema.types[0]? = some .int
  count : schema.columns.length < 2 ^ 16

/-- A row of the table: a value of the right kind for each column. -/
structure RowOf (schema : Schema) (row : Row) : Prop where
  length : row.length = schema.types.length
  kinds : ∀ (i : Nat) (t : ColumnType) v, schema.types[i]? = some t → row[i]? = some v → t.Holds v
  values : ∀ v ∈ row, v.Fits

/-- The law of stored rows. -/
def rowLaw : StorageLaw where
  schema := Schema.Proper
  row schema bytes := ∃ row, bytes = encodeRow row ∧ RowOf schema row

/-! ## Rows -/

namespace RowOf

variable {schema : Schema} {row : Row}

theorem fits (h : RowOf schema row) (hs : schema.Proper) : RowFits row :=
  ⟨by rw [h.length, hs.length]; exact hs.count, h.values⟩

theorem set {i : Nat} {t : ColumnType} {v : Value} (h : RowOf schema row)
    (ht : schema.types[i]? = some t) (hv : t.Holds v) (hf : v.Fits) :
    RowOf schema (row.set i v) := by
  refine ⟨by simpa using h.length, fun j t' w ht' hw => ?_, fun w hw => ?_⟩
  · rw [getElem?_set] at hw
    split at hw
    · next hij =>
      split at hw
      · cases hw
        rw [← hij, ht] at ht'
        cases ht'
        exact hv
      · cases hw
    · exact h.kinds j t' w ht' hw
  · rcases mem_or_eq_of_mem_set hw with hw | rfl
    · exact h.values w hw
    · exact hf

theorem replicate_null (hs : schema.Proper) :
    RowOf schema (List.replicate schema.columns.length .null) := by
  refine ⟨by simp [hs.length], fun i t v _ hv => ?_, fun v hv => ?_⟩
  · obtain ⟨-, rfl⟩ := mem_replicate.mp (mem_of_getElem? hv)
    cases t <;> trivial
  · obtain ⟨-, rfl⟩ := mem_replicate.mp hv
    trivial

/-- A column more, `NULL` in every row. -/
theorem append_null (h : RowOf schema row) {t : ColumnType}
    (ht : schema'.types = schema.types ++ [t]) : RowOf schema' (row ++ [.null]) := by
  refine ⟨by simp [ht, h.length], fun i t' v ht' hv => ?_, fun v hv => ?_⟩
  · rw [ht, getElem?_append] at ht'
    rw [getElem?_append, h.length] at hv
    split at ht'
    · next hi =>
      rw [if_pos hi] at hv
      exact h.kinds i t' v ht' hv
    · next hi =>
      rw [if_neg hi] at hv
      have hv : v = .null := by simpa using mem_of_getElem? hv
      subst hv
      cases t' <;> trivial
  · rcases mem_append.mp hv with hv | hv
    · exact h.values v hv
    · cases mem_singleton.mp hv
      trivial

theorem eraseIdx (h : RowOf schema row) {i : Nat} (ht : schema'.types = schema.types.eraseIdx i) :
    RowOf schema' (row.eraseIdx i) := by
  refine ⟨by simp [ht, length_eraseIdx, h.length], fun j t v ht' hv => ?_,
    fun v hv => h.values v (mem_of_mem_eraseIdx hv)⟩
  rw [ht, getElem?_eraseIdx] at ht'
  rw [getElem?_eraseIdx] at hv
  split at ht'
  · next hj =>
    rw [if_pos hj] at hv
    exact h.kinds j t v ht' hv
  · next hj =>
    rw [if_neg hj] at hv
    exact h.kinds (j + 1) t v ht' hv

theorem decode (h : RowOf ts.schema row) (hs : ts.schema.Proper) (id : Nat) :
    ts.decode id (encodeRow row) = .ok row := by
  have hl : ts.schema.columns.length = row.length := by rw [h.length, hs.length]
  rw [TableStorage.decode, hl]
  simp [decodeRowValidated, tryDecodeRow_encodeRow (h.fits hs)]

end RowOf

/-! ## Literals -/

variable {slot depth id : Nat} {lit : Literal} {v : Value} {row' : Row} {slots : List Nat}
  {txn : Option Transaction} {db : Database} {ct : CreateTableStatement}

theorem literalToValue_ok (h : literalToValue schema slot lit = .ok v) :
    ∃ t, schema.types[slot]? = some t ∧ t.accept lit = some v := by
  obtain ⟨t, ht, h⟩ := h.bind_ok
  refine ⟨t, index_eq_ok.mp ht, ?_⟩
  cases ha : t.accept lit with
  | none =>
    simp only [ha] at h
    obtain ⟨name, -, h⟩ := h.bind_ok
    cases h
  | some w =>
    simp only [ha] at h
    cases h
    rfl

/-- Storing a literal keeps a row a row of the table. -/
theorem RowOf.setLiteral (h : RowOf schema row) (hf : lit.Fits)
    (hv : literalToValue schema slot lit = .ok v) : RowOf schema (row.set slot v) := by
  obtain ⟨t, ht, ha⟩ := literalToValue_ok hv
  exact h.set ht (ColumnType.accept_holds ha) (ColumnType.accept_fits ha hf)

/-! ## INSERT -/

theorem insertRows_rowOf {v : ReadView} {stmt : InsertStatement} {rt : ReadTable} {rows : List Row}
    (hrt : v.table stmt.table = some rt) (hs : rt.schema.Proper)
    (hf : ∀ lits ∈ stmt.values, ∀ lit ∈ lits, lit.Fits)
    (h : insertRows v depth stmt = .ok (slots, rows)) : ∀ row ∈ rows, RowOf rt.schema row := by
  obtain ⟨rt', hrt', -, hrows, -⟩ := insertRows_ok h
  rw [hrt] at hrt'
  cases hrt'
  intro row hrow
  obtain ⟨lits, hlits, hfill⟩ := Except.mem_of_mapM_eq_ok hrows row hrow
  refine fillRow_keeps (fun p hp _ _ hv h => h.setLiteral ?_ hv) (.replicate_null hs) hfill
  exact hf lits hlits p.2 (of_mem_zip hp).2

theorem withImplicitId_rowOf (hs : schema.Proper) (h : RowOf schema row)
    (hid : withImplicitId slots id row = .ok row') : RowOf schema row' := by
  obtain ⟨-, rfl⟩ | ⟨-, rfl⟩ := withImplicitId_ok hid
  · exact h
  · exact h.set hs.id trivial trivial

/-! ## UPDATE -/

/-- The row a statement sees is stored somewhere. -/
theorem currentRow_law {L : StorageLaw} (hs : ts.Sound L) (ht : ∀ t, txn = some t → ts.Holds L t)
    (h : ts.currentRow txn id = .ok (some row)) :
    ∃ bytes, L.row ts.schema bytes ∧ ts.decode id bytes = .ok row := by
  obtain ⟨bytes?, hb, h⟩ := h.bind_ok
  cases bytes? with
  | none => cases h
  | some bytes =>
    obtain ⟨row', hdec, h⟩ := h.bind_ok
    cases h
    refine ⟨bytes, ?_, hdec⟩
    unfold TableStorage.currentBytes at hb
    split at hb
    · cases hb
    · next tag b hw =>
      obtain ⟨t, rfl, hw⟩ := Option.bind_eq_some_iff.mp hw
      rcases ((ht t rfl).writes id _ hw).2 with hw | ⟨b', hw, hlaw⟩
      · cases hw
        cases hb
      · cases hw
        cases hb
        exact hlaw
    · exact (hs.rows id bytes (Except.ok.inj hb)).2

theorem currentRow_rowOf (hs : ts.Sound rowLaw) (ht : ∀ t, txn = some t → ts.Holds rowLaw t)
    (h : ts.currentRow txn id = .ok (some row)) : RowOf ts.schema row := by
  obtain ⟨bytes, ⟨row', rfl, hrow⟩, hdec⟩ := currentRow_law hs ht h
  rw [hrow.decode hs.schema id] at hdec
  cases hdec
  exact hrow

theorem updatedRow_rowOf {hidden : List TableTxns} {stmt : UpdateStatement}
    (hs : db.Sound rowLaw hidden) (hts : db.table stmt.table = some ts)
    (hf : ∀ a ∈ stmt.assignments, a.value.Fits)
    (h : updatedRow db.readView depth stmt id = .ok (some row)) : RowOf ts.schema row := by
  obtain ⟨rt, old, hrt, hat, hassign, -⟩ := updatedRow_ok h
  rw [Database.table_readView, hts] at hrt
  cases hrt
  exact assignRow_keeps (fun a ha _ _ _ _ _ hv h => h.setLiteral (hf a ha) hv)
    (currentRow_rowOf (hs.tables _ ts hts) (hs.holds hts) hat) hassign

/-! ## Data definition -/

theorem addColumnConstraint_ok {name : String} {c : ColumnConstraint}
    (h : addColumnConstraint name schema c = .ok schema') :
    schema'.columns = schema.columns ∧ schema'.types = schema.types := by
  cases c <;> simp only [addColumnConstraint] at h
  · cases h
    simp
  · split at h
    · cases h
    · cases h
      simp
  · cases h
    simp

theorem addColumnDef_ok {c : ColumnDef} (h : addColumnDef schema c = .ok schema') :
    schema'.columns = schema.columns ++ [c.name] ∧ schema'.types = schema.types ++ [c.ctype] := by
  refine Except.foldlM_keeps (P := fun s => s.columns = schema.columns ++ [c.name] ∧
    s.types = schema.types ++ [c.ctype]) (fun s k s' hs hk => ?_) ⟨rfl, rfl⟩ h
  obtain ⟨hc, ht⟩ := addColumnConstraint_ok hk
  exact ⟨hc.trans hs.1, ht.trans hs.2⟩

theorem addColumnDefs_ok {cols : List ColumnDef}
    (h : cols.foldlM addColumnDef schema = .ok schema') :
    schema'.columns = schema.columns ++ cols.map ColumnDef.name ∧
      schema'.types = schema.types ++ cols.map ColumnDef.ctype := by
  induction cols generalizing schema with
  | nil =>
    cases h
    simp
  | cons c cols ih =>
    obtain ⟨s, hs, h⟩ := h.bind_ok
    obtain ⟨hc, ht⟩ := addColumnDef_ok hs
    simpa [hc, ht] using ih h

theorem addTableConstraint_ok {c : TableConstraint}
    (h : addTableConstraint schema c = .ok schema') :
    schema'.columns = schema.columns ∧ schema'.types = schema.types := by
  cases c <;> simp only [addTableConstraint] at h
  · split at h
    · cases h
    · obtain ⟨-, -, h⟩ := h.bind_ok
      cases h
      simp
  · obtain ⟨-, -, h⟩ := h.bind_ok
    cases h
    simp
  · obtain ⟨-, -, h⟩ := h.bind_ok
    cases h
    simp
  · cases h
    simp

/-- A new table has the implicit id and the declared columns. -/
theorem createSchema_ok (h : createSchema ct = .ok schema) :
    schema.columns = "id" :: ct.columns.map ColumnDef.name ∧
      schema.types = .int :: ct.columns.map ColumnDef.ctype := by
  obtain ⟨s, hs, h⟩ := h.bind_ok
  obtain ⟨hc, ht⟩ := addColumnDefs_ok hs
  refine Except.foldlM_keeps (P := fun s => s.columns = "id" :: ct.columns.map ColumnDef.name ∧
    s.types = .int :: ct.columns.map ColumnDef.ctype) (fun s k s' hs hk => ?_) ⟨hc, ht⟩ h
  obtain ⟨hc, ht⟩ := addTableConstraint_ok hk
  exact ⟨hc.trans hs.1, ht.trans hs.2⟩

theorem createSchema_proper (hcount : ct.columns.length + 1 < 2 ^ 16)
    (h : createSchema ct = .ok schema) : schema.Proper := by
  obtain ⟨hc, ht⟩ := createSchema_ok h
  exact ⟨by simp [hc, ht], by simp [ht], by simpa [hc] using hcount⟩

namespace TableStorage

/-- The rows of a table whose rows were rewritten and whose schema was replaced. -/
theorem Sound.reencode (h : ts.Sound rowLaw) {f : Row → Outcome DbError Row}
    {columns : List String} {types : List ColumnType} (hre : ts.reencode f = .ok ts')
    (hs : (ts.withColumns columns types).schema.Proper)
    (hf : ∀ row row', RowOf ts.schema row → f row = .ok row' →
      RowOf (ts.withColumns columns types).schema row') :
    (ts'.withColumns columns types).Sound rowLaw := by
  obtain ⟨tree, rfl, hrows⟩ := reencode_ok hre
  refine ⟨hs, h.mvcc, h.versions, fun id bytes' hb => ?_⟩
  obtain ⟨bytes, hbytes, hrw⟩ := hrows id bytes' hb
  obtain ⟨hid, row, rfl, hrow⟩ := h.rows id bytes hbytes
  obtain ⟨values, values', hdec, hval, rfl⟩ := hrw hid
  rw [tryDecodeRow_encodeRow (hrow.fits h.schema)] at hdec
  cases hdec
  exact ⟨hid, values', rfl, hf row values' hrow hval⟩

/-- `ALTER TABLE` keeps the rows of the tree in step with the schema. -/
theorem Sound.alter (h : ts.Sound rowLaw) {op : AlterTableOp}
    (hcount : ∀ col, op = .addColumn col → ts.schema.columns.length + 1 < 2 ^ 16)
    (ha : ts.alter op = .ok ts') : ts'.Sound rowLaw := by
  cases op with
  | addColumn col =>
    obtain ⟨-, ha⟩ := unless_eq_ok.mp ha
    obtain ⟨ts₁, hre, ha⟩ := ha.bind_ok
    cases ha
    obtain ⟨tree, rfl, -⟩ := reencode_ok hre
    refine h.reencode hre ⟨?_, ?_, ?_⟩ fun row row' hrow hf => ?_
    · simp [withColumns, h.schema.length]
    · obtain ⟨hpos, hint⟩ := List.getElem?_eq_some_iff.mp h.schema.id
      simp [withColumns, hpos, hint]
    · simpa [withColumns] using hcount col rfl
    · cases hf
      exact hrow.append_null rfl
  | dropColumn name =>
    obtain ⟨idx, -, ha⟩ := ha.bind_ok
    obtain ⟨hidx, ha⟩ := unless_eq_ok.mp ha
    obtain ⟨ts₁, hre, ha⟩ := ha.bind_ok
    cases ha
    obtain ⟨tree, rfl, -⟩ := reencode_ok hre
    refine h.reencode hre ⟨?_, ?_, ?_⟩ fun row row' hrow hf => ?_
    · simp [withColumns, List.length_eraseIdx, h.schema.length]
    · simp [withColumns, List.getElem?_eraseIdx, Nat.pos_of_ne_zero hidx, h.schema.id]
    · have hle := List.length_eraseIdx_le ts.schema.columns idx
      exact Nat.lt_of_le_of_lt hle h.schema.count
    · unfold removeValue at hf
      split at hf
      · cases hf
        exact hrow.eraseIdx rfl
      · cases hf
  | renameColumn oldName newName =>
    obtain ⟨idx, -, ha⟩ := ha.bind_ok
    obtain ⟨-, ha⟩ := unless_eq_ok.mp ha
    obtain ⟨-, ha⟩ := unless_eq_ok.mp ha
    cases ha
    refine ⟨⟨?_, h.schema.id, ?_⟩, h.mvcc, h.versions, fun id bytes hb => ?_⟩
    · simp [withColumns, h.schema.length]
    · simpa [withColumns] using h.schema.count
    · obtain ⟨hid, row, rfl, hrow⟩ := h.rows id bytes hb
      exact ⟨hid, row, rfl, hrow.length, hrow.kinds, hrow.values⟩

end TableStorage

/-! ## Every run -/

/-- The transaction has buffered deletes only. -/
def Transaction.OnlyDeletes (txn : Transaction) : Prop :=
  ∀ id bytes, txn.getWrite id = some bytes → bytes = mvccWrapTombstone

/-- Counts fit the row codec, and no open transaction has buffered rows of a
table that gains or loses a column. -/
def RowSafe (db : Database) : Statement → Prop
  | .insert i => ∀ lits ∈ i.values, ∀ lit ∈ lits, lit.Fits
  | .update u => ∀ a ∈ u.assignments, a.value.Fits
  | .createTable ct => ct.columns.length + 1 < 2 ^ 16
  | .alterTable ⟨table, .addColumn _⟩ =>
    (∀ ts, db.table table = some ts → ts.schema.columns.length + 1 < 2 ^ 16) ∧
      ∀ txn, db.OpenTxn [] table txn → txn.OnlyDeletes
  | .alterTable ⟨table, .dropColumn _⟩ => ∀ txn, db.OpenTxn [] table txn → txn.OnlyDeletes
  | _ => True

theorem TableStorage.Holds.onlyDeletes {txn : Transaction} {op : AlterTableOp}
    (h : ts.Holds rowLaw txn) (hd : txn.OnlyDeletes) (ha : ts.alter op = .ok ts') :
    ts'.Holds rowLaw txn := by
  obtain ⟨-, hn, hm, -⟩ := TableStorage.alter_ok ha
  refine ⟨hm ▸ h.snapshot, fun id bytes hb => ⟨hn ▸ (h.writes id bytes hb).1,
    .inl (hd id bytes hb)⟩⟩

theorem TableStorage.Holds.rename {txn : Transaction} {oldName newName : String}
    (h : ts.Holds rowLaw txn) (ha : ts.alter (.renameColumn oldName newName) = .ok ts') :
    ts'.Holds rowLaw txn := by
  obtain ⟨idx, -, ha⟩ := ha.bind_ok
  obtain ⟨-, ha⟩ := unless_eq_ok.mp ha
  obtain ⟨-, ha⟩ := unless_eq_ok.mp ha
  cases ha
  refine ⟨h.snapshot, fun id bytes hb => ⟨(h.writes id bytes hb).1, ?_⟩⟩
  refine (h.writes id bytes hb).2.imp_right fun ⟨b, hb, row, hrow, hof⟩ => ⟨b, hb, row, hrow, ?_⟩
  exact ⟨hof.length, hof.kinds, hof.values⟩

/-- Safe statements obey the law of stored rows. -/
theorem RowSafe.obeys {stmt : Statement} (depth : Nat) (h : RowSafe db stmt) :
    Obeys rowLaw [] depth db stmt := by
  cases stmt with
  | insert i =>
    intro s ts slots rows hs hts hins row hrow id row' hid
    have hrt : s.readView.table i.table = some (ts.view (s.activeTxn i.table)) := by simp [hts]
    have hproper := (hs.tables _ ts hts).schema
    exact ⟨row', rfl, withImplicitId_rowOf hproper
      (insertRows_rowOf hrt hproper h hins row hrow) hid⟩
  | update u => exact fun s ts id row hs hts hup => ⟨row, rfl, updatedRow_rowOf hs hts h hup⟩
  | createTable ct => exact fun schema hs => createSchema_proper h hs
  | alterTable a =>
    obtain ⟨table, op⟩ := a
    intro ts ts' hts hs ha
    cases op with
    | addColumn col =>
      exact ⟨hs.alter (fun _ _ => h.1 ts hts) ha, fun txn ht hh => hh.onlyDeletes (h.2 txn ht) ha⟩
    | dropColumn name =>
      exact ⟨hs.alter (fun _ hop => by cases hop) ha, fun txn ht hh => hh.onlyDeletes (h txn ht) ha⟩
    | renameColumn oldName newName =>
      exact ⟨hs.alter (fun _ hop => by cases hop) ha, fun txn _ hh => hh.rename ha⟩
  | _ => trivial

/-- The bytes decode to a value per column, `NULL` or of the column's kind. -/
def TableStorage.HoldsRow (ts : TableStorage) (id : Nat) (bytes : Bytes) : Prop :=
  ∃ row, decodeRowValidated id bytes ts.schema.columns.length = .ok row ∧
    row.length = ts.schema.columns.length ∧ List.Forall₂ ColumnType.Holds ts.schema.types row

/-- Every stored row and every live buffered row matches its table. -/
structure Database.RowsMatch (db : Database) : Prop where
  stored : ∀ name ts id bytes, db.table name = some ts → ts.tree.find? id = some bytes →
    ts.HoldsRow id bytes
  buffered : ∀ name txn id tag bytes, db.OpenTxn [] name txn →
    txn.getWrite id = some (tag :: bytes) → tag ≠ MVCC_TOMBSTONE →
    ∃ ts, db.table name = some ts ∧ ts.HoldsRow id bytes

theorem TableStorage.Sound.holdsRow (h : ts.Sound rowLaw) {bytes : Bytes}
    (hb : rowLaw.row ts.schema bytes) (id : Nat) : ts.HoldsRow id bytes := by
  obtain ⟨row, rfl, hrow⟩ := hb
  refine ⟨row, hrow.decode h.schema id, hrow.length.trans h.schema.length, ?_⟩
  refine List.forall₂_iff_get.mpr ⟨hrow.length.symm, fun i ht hr => ?_⟩
  exact hrow.kinds i _ _ (getElem?_eq_getElem ht) (getElem?_eq_getElem hr)

theorem Database.Sound.rowsMatch (h : db.Sound rowLaw []) : db.RowsMatch := by
  refine ⟨fun name ts id bytes hts hb => ?_, fun name txn id tag bytes ho hw htag => ?_⟩
  · exact (h.tables name ts hts).holdsRow ((h.tables name ts hts).rows id bytes hb).2 id
  · have hfits : ∃ ts, db.table name = some ts ∧ ts.Holds rowLaw txn := by
      rcases ho with ho | ⟨txns, hm, -⟩ | ⟨sid, st, hst, ho⟩
      · exact h.active.held name txn ho
      · cases hm
      · exact (h.sessions sid st hst).held name txn ho
    obtain ⟨ts, hts, hh⟩ := hfits
    refine ⟨ts, hts, (h.tables name ts hts).holdsRow ?_ id⟩
    rcases (hh.writes id _ hw).2 with hw | ⟨b, hw, hlaw⟩
    · exact absurd (List.cons.inj hw).1 htag
    · cases hw
      exact hlaw

/-- `CREATE TABLE t (a INT)`. -/
def createT : Statement := .createTable ⟨"t", [⟨"a", .int, []⟩], []⟩

/-- `INSERT INTO t (a) VALUES (n)`. -/
def insertT (n : Int64) : Statement := .insert ⟨"t", ["a"], [[.int n]]⟩

@[simp] theorem rowSafe_createT (db : Database) : RowSafe db createT := by
  simp [createT, RowSafe]

@[simp] theorem rowSafe_begin (db : Database) : RowSafe db .begin := trivial

@[simp] theorem rowSafe_insertT (db : Database) (n : Int64) : RowSafe db (insertT n) := by
  simp [insertT, RowSafe, Literal.Fits, Literal.toValue, Value.Fits]

end Archon
