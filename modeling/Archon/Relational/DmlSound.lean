import Archon.Relational.Visible

/-!
# Archon.Relational.DmlSound

What `INSERT`, `UPDATE` and `DELETE` can do to a sound database: inside a
transaction they only fill its write buffer, outside they change only rows
they have picked (`DmlFrame`), and either way the database stays sound as long
as the rows they write obey the law.
-/

namespace Archon

open Program Database MvccStore

variable {db : Database} {filter : Option Expr} {ts : TableStorage}

/-- Only rows that satisfy `P` change, and none while writes are buffered; the
version store stays. -/
structure TableFrame (buffered : Bool) (P : Nat → Prop) (ts ts' : TableStorage) : Prop where
  evolves : ts.Evolves ts'
  mvcc : ts'.mvcc = ts.mvcc
  kept : buffered = true → ts'.tree = ts.tree ∧ ts'.vectorIndexes = ts.vectorIndexes
  tree : ∀ id, ¬ P id → ts'.tree.find? id = ts.tree.find? id

namespace TableFrame

variable {buffered : Bool} {P : Nat → Prop} {ts ts' ts'' : TableStorage}

theorem refl (ts : TableStorage) : TableFrame buffered P ts ts :=
  ⟨.refl ts, rfl, fun _ => ⟨rfl, rfl⟩, fun _ _ => rfl⟩

theorem trans (h : TableFrame buffered P ts ts') (h' : TableFrame buffered P ts' ts'') :
    TableFrame buffered P ts ts'' := by
  refine ⟨h.evolves.trans h'.evolves, h'.mvcc.trans h.mvcc, fun hb => ?_, fun id hid => ?_⟩
  · exact ⟨(h'.kept hb).1.trans (h.kept hb).1, (h'.kept hb).2.trans (h.kept hb).2⟩
  · rw [h'.tree id hid, h.tree id hid]

theorem currentRow (h : TableFrame buffered P ts ts') (txn : Option Transaction) {id : Nat}
    (hid : ¬ P id) : ts'.currentRow txn id = ts.currentRow txn id := by
  simp [TableStorage.currentRow, TableStorage.currentBytes, TableStorage.decode, h.evolves.schema,
    h.tree id hid]

end TableFrame

/-- Outside a transaction only rows of table `name` that satisfy `P` change,
inside none; the sessions and the snapshots stay, and the other rows are seen
as before. -/
structure DmlFrame (name : String) (P : Nat → Prop) (db db' : Database) : Prop where
  names : db'.tables.map Prod.fst = db.tables.map Prod.fst
  views : db'.views = db.views
  parameters : db'.sessionParameters = db.sessionParameters
  inTransaction : db'.inTransaction = db.inTransaction
  sessions : db'.sessionTxns = db.sessionTxns
  tables : ∀ n ts, db.table n = some ts → ∃ ts', db'.table n = some ts' ∧ (n ≠ name → ts' = ts) ∧
    TableFrame db.inTransaction P ts ts'
  txns : ∀ n txn, db.activeTxn n = some txn →
    ∃ txn', db'.activeTxn n = some txn' ∧ txn'.snapshot = txn.snapshot
  rest : ∀ n, n ≠ name → db'.activeTxn n = db.activeTxn n
  rows : ∀ id, ¬ P id → db'.visible name id = db.visible name id

namespace DmlFrame

variable {name : String} {P : Nat → Prop}

variable {db' : Database} {ts' : TableStorage}

theorem of_txns (h : db' = { db with activeTxns := db'.activeTxns })
    (ht : ∀ n txn, db.activeTxn n = some txn →
      ∃ txn', db'.activeTxn n = some txn' ∧ txn'.snapshot = txn.snapshot)
    (hrest : ∀ n, n ≠ name → db'.activeTxn n = db.activeTxn n)
    (hrows : ∀ id, ¬ P id → db'.visible name id = db.visible name id) :
    DmlFrame name P db db' := by
  rw [h] at hrows ⊢
  exact ⟨rfl, rfl, rfl, rfl, rfl, fun _ ts hts => ⟨ts, hts, fun _ => rfl, .refl ts⟩, ht, hrest,
    hrows⟩

theorem refl (db : Database) : DmlFrame name P db db :=
  of_txns rfl (fun _ txn h => ⟨txn, h, rfl⟩) (fun _ _ => rfl) fun _ _ => rfl

theorem trans {db'' : Database} (h : DmlFrame name P db db') (h' : DmlFrame name P db' db'') :
    DmlFrame name P db db'' := by
  refine ⟨h'.names.trans h.names, h'.views.trans h.views, h'.parameters.trans h.parameters,
    h'.inTransaction.trans h.inTransaction, h'.sessions.trans h.sessions,
    fun n ts hts => ?_, fun n txn htxn => ?_, fun n hn => (h'.rest n hn).trans (h.rest n hn),
    fun id hid => (h'.rows id hid).trans (h.rows id hid)⟩
  · obtain ⟨ts', hts', hn, hf⟩ := h.tables n ts hts
    obtain ⟨ts'', hts'', hn', hf'⟩ := h'.tables n ts' hts'
    rw [h.inTransaction] at hf'
    exact ⟨ts'', hts'', fun hne => (hn' hne).trans (hn hne), hf.trans hf'⟩
  · obtain ⟨txn', htxn', hs⟩ := h.txns n txn htxn
    obtain ⟨txn'', htxn'', hs'⟩ := h'.txns n txn' htxn'
    exact ⟨txn'', htxn'', hs'.trans hs⟩

theorem setTable (hts : db.table name = some ts) (hf : TableFrame db.inTransaction P ts ts') :
    DmlFrame name P db (db.setTable name ts') := by
  refine ⟨by simp, rfl, rfl, rfl, rfl, fun n t hn => ?_, fun n txn h => ⟨txn, h, rfl⟩,
    fun _ _ => rfl, fun id hid => by simp [visible, hts, hf.currentRow _ hid]⟩
  by_cases h : n = name
  · subst h
    rw [hts] at hn
    cases hn
    exact ⟨ts', by simp [hts], fun hne => absurd rfl hne, hf⟩
  · exact ⟨t, by simpa [h] using hn, fun _ => rfl, .refl t⟩

theorem setTxn {txn : Transaction} (htxn : db.activeTxn name = some txn) {id : Nat} (hP : P id)
    (bytes : Bytes) : DmlFrame name P db (db.setTxn name (write txn id bytes)) := by
  refine of_txns rfl (fun n t h => ?_) (fun n hn => by simp [hn]) fun k hk => ?_
  · by_cases hn : n = name
    · subst hn
      rw [htxn] at h
      cases h
      exact ⟨write txn id bytes, by simp [htxn], rfl⟩
    · exact ⟨t, by simpa [hn] using h, rfl⟩
  · have hne : k ≠ id := fun hkid => hk (hkid ▸ hP)
    simp [visible, htxn, TableStorage.currentRow, TableStorage.currentBytes,
      Transaction.getWrite, write, SortedMap.find?_insert, hne]

theorem ensureTxn (db : Database) : DmlFrame name P db (db.ensureTxn name) := by
  obtain ⟨txns, htxns⟩ := db.ensureTxn_txns name
  refine of_txns (by rw [htxns]) (fun n txn h => ⟨txn, ?_, rfl⟩) (fun n hn => ?_) fun id _ => ?_
  · simp [db.activeTxn_ensureTxn, h]
  · simp [db.activeTxn_ensureTxn, hn]
  · simp [visible_eq, db.readView_ensureTxn]

theorem table_some (h : DmlFrame name P db db') {n : String} (hts' : db'.table n = some ts') :
    ∃ ts, db.table n = some ts ∧ (n ≠ name → ts' = ts) ∧ TableFrame db.inTransaction P ts ts' := by
  cases hts : db.table n with
  | some ts =>
    obtain ⟨t, ht, hne, hf⟩ := h.tables n ts hts
    rw [hts'] at ht
    cases ht
    exact ⟨ts, rfl, hne, hf⟩
  | none =>
    have hmem : n ∈ db.tables.map Prod.fst := by
      rw [← h.names]
      exact List.mem_map_of_mem (f := Prod.fst) (mem_of_lookup hts')
    obtain ⟨e, he, rfl⟩ := List.mem_map.mp hmem
    have hne := List.lookup_eq_none_iff.mp hts e he
    simp at hne

end DmlFrame

section

variable (L : StorageLaw) (hidden : List TableTxns) (name : String)

/-- A framed step to a sound database. -/
def Moves (P : Nat → Prop) (db db' : Database) : Prop := DmlFrame name P db db' ∧ db'.Sound L hidden

/-- The table is there, with this schema and at least `n` ids handed out. -/
structure Ready (schema : Schema) (n : Nat) (db : Database) : Prop where
  sound : db.Sound L hidden
  table : ∃ ts, db.table name = some ts ∧ ts.schema = schema ∧ n ≤ ts.nextRowId

end

variable {L : StorageLaw} {hidden : List TableTxns} {name : String}
  {P : Nat → Prop} {schema : Schema} {n : Nat}

theorem Moves.trans (db db' db'' : Database) (h : Moves L hidden name P db db')
    (h' : Moves L hidden name P db' db'') : Moves L hidden name P db db'' :=
  ⟨h.1.trans h'.1, h'.2⟩

theorem Ready.refl (db : Database) (h : Ready L hidden name schema n db) :
    Moves L hidden name P db db := ⟨.refl db, h.sound⟩

/-- What a framed step leaves ready. -/
theorem Ready.moves {db' : Database} (h : Ready L hidden name schema n db)
    (hm : Moves L hidden name P db db') : Ready L hidden name schema n db' := by
  obtain ⟨ts, hts, hschema, hn⟩ := h.table
  obtain ⟨ts', hts', -, hf⟩ := hm.1.tables name ts hts
  exact ⟨hm.2, ts', hts', hf.evolves.schema.trans hschema, Nat.le_trans hn hf.evolves.nextRowId⟩

namespace Ready

variable {db db' : Database} {id : Nat}

theorem mono {m : Nat} (h : Ready L hidden name schema n db) (hm : m ≤ n) :
    Ready L hidden name schema m db := by
  obtain ⟨ts, hts, hschema, hn⟩ := h.table
  exact ⟨h.sound, ts, hts, hschema, Nat.le_trans hm hn⟩

theorem lt (h : Ready L hidden name schema n db) (hid : id < n) (ts : TableStorage)
    (hts : db.table name = some ts) : id < ts.nextRowId := by
  obtain ⟨t, ht, -, hn⟩ := h.table
  rw [hts] at ht
  cases ht
  omega

/-- A write joins the open transaction. -/
theorem bufferWrite {txn : Transaction} {bytes : Bytes} (h : Ready L hidden name schema n db)
    (hts : db.table name = some ts) (hin : db.inTransaction = true)
    (htxn : db.activeTxn name = some txn) (hid : id < ts.nextRowId) (hP : P id)
    (hb : bytes = mvccWrapTombstone ∨ ∃ b, bytes = MVCC_LIVE :: b ∧ L.row ts.schema b) :
    Moves L hidden name P db (db.setTxn name (write txn id bytes)) := by
  have hh := h.sound.active.holds hts txn htxn
  exact ⟨.setTxn htxn hP _, h.sound.setActive (h.sound.active.setTxn hts (hh.write hid hb)) hin⟩

/-- Writing a row that obeys the law under an id handed out. -/
theorem putRow {row : Row} (h : Ready L hidden name schema n db)
    (hid : ∀ ts, db.table name = some ts → id < ts.nextRowId) (hP : P id)
    (hrow : L.row schema (encodeRow row)) (hput : db.putRow name id row = .ok db') :
    Moves L hidden name P db db' := by
  obtain ⟨ts₀, hts₀, hschema, -⟩ := h.table
  obtain ⟨ts, hts, ⟨hin, txn, htxn, rfl⟩ | ⟨hin, ts', hstore, rfl⟩⟩ := putRow_ok hput
  · rw [hts₀] at hts
    exact h.bufferWrite hts₀ hin htxn (hid ts₀ hts₀) hP (.inr ⟨_, rfl, hschema ▸ hrow⟩)
  · rw [hts₀] at hts
    cases hts
    obtain ⟨idx, rfl⟩ := TableStorage.store_ok hstore
    have he : ts₀.Evolves { ts₀ with
        tree := ts₀.tree.insert id (encodeRow row), vectorIndexes := idx } :=
      ⟨rfl, Nat.le_refl _, Nat.le_refl _⟩
    refine ⟨.setTable hts₀ ⟨he, rfl, fun hb => absurd hb (by simp [hin]), fun k hk => ?_⟩,
      h.sound.setTable hts₀
        ((h.sound.tables name ts₀ hts₀).insert (hid ts₀ hts₀) (hschema ▸ hrow) idx) he⟩
    have hne : k ≠ id := fun hkid => hk (hkid ▸ hP)
    simp [SortedMap.find?_insert, hne]

theorem dropRow (h : Ready L hidden name schema n db)
    (hid : ∀ ts, db.table name = some ts → id < ts.nextRowId) (hP : P id)
    (hdrop : db.dropRow name id = .ok db') : Moves L hidden name P db db' := by
  obtain ⟨ts, hts, ⟨hin, txn, htxn, rfl⟩ | ⟨hin, rfl⟩⟩ := dropRow_ok hdrop
  · exact h.bufferWrite hts hin htxn (hid ts hts) hP (.inl rfl)
  · have he : ts.Evolves (ts.discard id) := ⟨rfl, Nat.le_refl _, Nat.le_refl _⟩
    refine ⟨.setTable hts ⟨he, rfl, fun hb => absurd hb (by simp [hin]), fun k hk => ?_⟩,
      h.sound.setTable hts ((h.sound.tables name ts hts).discard id) he⟩
    have hne : k ≠ id := fun hkid => hk (hkid ▸ hP)
    show (ts.tree.erase id).find? k = _
    simp [SortedMap.find?_erase, hne]

theorem buildIndexes (h : Ready L hidden name schema n db)
    (hbuild : db.buildIndexes name = .ok db') : Moves L hidden name P db db' := by
  obtain rfl | ⟨ts, idx, hin, hts, rfl⟩ := buildIndexes_ok hbuild
  · exact ⟨.refl _, h.sound⟩
  · have he : ts.Evolves { ts with vectorIndexes := idx } := ⟨rfl, Nat.le_refl _, Nat.le_refl _⟩
    have hs := h.sound.tables name ts hts
    exact ⟨.setTable hts ⟨he, rfl, fun hb => absurd hb (by simp [hin]), fun _ _ => rfl⟩,
      h.sound.setTable hts ⟨hs.schema, hs.mvcc, hs.versions, hs.rows⟩ he⟩

end Ready

/-! ## Statements -/

/-- A statement on the table is framed and stays sound from `pre` on. -/
abbrev DmlKeeps (L : StorageLaw) (hidden : List TableTxns) (name : String)
    (P : Nat → Prop) (pre : Database → Prop) (m : DbProgram α) (post : α → Database →
      Prop) : Prop :=
  Keeps (Moves L hidden name P) pre m post

theorem allocRow_keeps : DmlKeeps L hidden name P (Ready L hidden name schema n) (allocRow name)
    fun id db => Ready L hidden name schema (id + 1) db ∧ n ≤ id := by
  intro db h _
  obtain ⟨ts, hts, hschema, hn⟩ := h.table
  have he : ts.Evolves { ts with nextRowId := ts.nextRowId + 1 } :=
    ⟨rfl, Nat.le_succ _, Nat.le_refl _⟩
  have hs := h.sound.tables name ts hts
  have hmoves : Moves L hidden name P db
      (db.setTable name { ts with nextRowId := ts.nextRowId + 1 }) := by
    refine ⟨.setTable hts ⟨he, rfl, fun _ => ⟨rfl, rfl⟩, fun _ _ => rfl⟩,
      h.sound.setTable hts ⟨hs.schema, hs.mvcc, ?_, ?_⟩ he⟩
    · intro id hid
      exact Nat.lt_succ_of_lt (hs.versions id hid)
    · intro id b hb
      exact ⟨Nat.lt_succ_of_lt (hs.rows id b hb).1, (hs.rows id b hb).2⟩
  simp only [allocRow, hts]
  refine ⟨hmoves, fun id hid => ?_⟩
  cases hid
  exact ⟨⟨hmoves.2, _, table_setTable_self hts _, hschema, Nat.le_refl _⟩, hn⟩

theorem insertRow_keeps {slots : List Nat} {row : Row} (hP : ∀ id, n ≤ id → P id)
    (hrow : ∀ id row', withImplicitId slots id row = .ok row' → L.row schema (encodeRow row')) :
    DmlKeeps L hidden name P (Ready L hidden name schema n) (insertRow name slots row)
      fun _ => Ready L hidden name schema n := by
  refine keeps_bind Moves.trans _ allocRow_keeps fun id => ?_
  refine keeps_bind Moves.trans _ (keeps_read (fun db h => h.1.refl db) _) fun row' => ?_
  refine keeps_bind Moves.trans (fun _ => Ready L hidden name schema n)
    (keeps_update (fun db h => h.1.1.refl db) fun db db' h hput => ?_)
    fun _ => keeps_update (fun db h => h.refl db) fun db db' h hbuild => ?_
  · obtain ⟨⟨hready, hn⟩, himplicit⟩ := h
    have hm := hready.putRow (hready.lt (Nat.lt_succ_self id)) (hP id hn)
      (hrow id row' himplicit) hput
    exact ⟨hm, (hready.moves hm).mono (by omega)⟩
  · exact ⟨h.buildIndexes hbuild, h.moves (h.buildIndexes (P := P) hbuild)⟩

/-- A sound database with these tables. -/
def SoundWith (L : StorageLaw) (hidden : List TableTxns)
    (tables : List (String × TableStorage)) (db : Database) : Prop :=
  db.Sound L hidden ∧ db.tables = tables

variable {tables : List (String × TableStorage)} {depth : Nat}

theorem SoundWith.ready (h : SoundWith L hidden tables db) (hts : tables.lookup name = some ts)
    (hn : n ≤ ts.nextRowId) : Ready L hidden name ts.schema n db :=
  ⟨h.1, ts, by rw [table, h.2, hts], rfl, hn⟩

theorem touch_keeps : DmlKeeps L hidden name P (SoundWith L hidden tables) (touch name)
    fun _ => SoundWith L hidden tables := by
  refine keeps_update (fun db h => ⟨.refl db, h.1⟩) fun db db' h htouch => ?_
  cases htouch
  cases hin : db.inTransaction with
  | false => exact ⟨⟨.refl db, h.1⟩, h⟩
  | true =>
    have hs := h.1.ensureTxn hin name
    refine ⟨⟨.ensureTxn db, hs⟩, hs, ?_⟩
    rw [← h.2]
    unfold ensureTxn
    grind

theorem Database.Sound.touch (h : db.Sound L hidden) (name : String) :
    SoundWith L hidden db.tables (touch name db).2 := by
  have hdone := (db.readView_touch name).2
  exact (touch_keeps (P := fun _ => True) db ⟨h, rfl⟩ (by rw [hdone]; trivial)).2 () hdone

/-- A loop over rows, then the count. -/
theorem count_keeps {α : Type} {body : α → DbProgram Unit} {as : List α} (count : Nat)
    (hbody : ∀ a ∈ as, DmlKeeps L hidden name P (Ready L hidden name schema n) (body a)
      fun _ => Ready L hidden name schema n) :
    DmlKeeps L hidden name P (Ready L hidden name schema n)
      (do
        forEach body as
        return count) fun _ _ => True :=
  keeps_return Moves.trans (keeps_forEach Ready.refl Moves.trans hbody) Ready.refl count

/-- `INSERT` changes only rows with ids not handed out before. -/
theorem runInsertStmt_keeps {stmt : InsertStatement}
    (hP : ∀ ts, tables.lookup stmt.table = some ts → ∀ id, ts.nextRowId ≤ id → P id)
    (hrow : ∀ (db : Database) ts slots rows, db.Sound L hidden → db.table stmt.table = some ts →
      insertRows db.readView depth stmt = .ok (slots, rows) → ∀ row ∈ rows, ∀ id row',
        withImplicitId slots id row = .ok row' → L.row ts.schema (encodeRow row')) :
    DmlKeeps L hidden stmt.table P (SoundWith L hidden tables) (runInsertStmt depth stmt)
      fun _ _ => True := by
  refine keeps_bind Moves.trans _ touch_keeps fun _ => ?_
  refine keeps_bind Moves.trans _ (keeps_read (fun db h => ⟨.refl db, h.1⟩) _) ?_
  intro ⟨slots, rows⟩ db ⟨h, hins⟩
  obtain ⟨rt, hrt, -⟩ := hins.bind_ok
  rw [Outcome.okOr_eq_ok, table_readView] at hrt
  obtain ⟨ts, hts, -⟩ := Option.map_eq_some_iff.mp hrt
  have hlookup : tables.lookup stmt.table = some ts := h.2 ▸ hts
  refine count_keeps rows.length (fun row hmem => ?_) db (h.ready hlookup (Nat.le_refl _))
  exact insertRow_keeps (hP ts hlookup) (hrow db ts slots rows h.1 hts hins row hmem)

/-! ### Rows picked by a filter -/

variable {ids : List Nat}

theorem matchingIds_ok {rt : ReadTable} {keep : Row → Outcome DbError Bool} {out : List Nat}
    (h : matchingIds rt keep ids = .ok out) :
    out.Sublist ids ∧ ∀ id ∈ out, ∃ row, rt.rowAt id = .ok (some row) := by
  induction ids generalizing out with
  | nil =>
    cases h
    simp
  | cons k ids ih =>
    obtain ⟨row, hrow, h⟩ := h.bind_ok
    cases row with
    | none => exact ⟨(ih h).1.cons k, (ih h).2⟩
    | some row =>
      obtain ⟨b, -, h⟩ := h.bind_ok
      obtain ⟨rest, hrest, h⟩ := h.bind_ok
      cases h
      obtain ⟨hsub, hrows⟩ := ih hrest
      cases b with
      | false => exact ⟨hsub.cons k, hrows⟩
      | true =>
        refine ⟨hsub.cons_cons k, fun id hid => ?_⟩
        obtain rfl | hid := List.mem_cons.mp hid
        · exact ⟨row, hrow⟩
        · exact hrows id hid

/-- The rows that match are rows of the table, each once. -/
theorem matchingRowIds_ok {v : ReadView} (h : matchingRowIds v depth name filter = .ok ids) :
    ∃ rt, v.table name = some rt ∧ ids.Sublist (List.range rt.nextRowId) ∧
      ∀ id ∈ ids, ∃ row, rt.rowAt id = .ok (some row) := by
  obtain ⟨rt, hrt, h⟩ := h.bind_ok
  refine ⟨rt, Outcome.okOr_eq_ok.mp hrt, ?_⟩
  cases filter with
  | none => exact matchingIds_ok h
  | some expr =>
    obtain ⟨cache, -, h⟩ := h.bind_ok
    exact matchingIds_ok h

theorem matchingRowIds_lt (h : matchingRowIds db.readView depth name filter = .ok ids) :
    ∃ ts, db.table name = some ts ∧ ∀ id ∈ ids, id < ts.nextRowId := by
  obtain ⟨rt, hrt, hsub, -⟩ := matchingRowIds_ok h
  rw [table_readView] at hrt
  obtain ⟨ts, hts, rfl⟩ := Option.map_eq_some_iff.mp hrt
  exact ⟨ts, hts, fun id hid => List.mem_range.mp (hsub.subset hid)⟩

/-- A statement that picks rows by a filter, then changes them one by one. -/
theorem runMatching_keeps {body : Nat → DbProgram Unit}
    (hP : ∀ ids, matchingRowIds db.readView depth name filter = .ok ids → ∀ id ∈ ids, P id)
    (hbody : ∀ id n ts, db.table name = some ts → id < n → P id →
      DmlKeeps L hidden name P (Ready L hidden name ts.schema n) (body id)
        fun _ => Ready L hidden name ts.schema n) :
    DmlKeeps L hidden name P (fun s => s = db ∧ s.Sound L hidden)
      (do
        let ids ← read fun db => matchingRowIds db.readView depth name filter
        touch name
        forEach body ids
        return ids.length) fun _ _ => True := by
  refine keeps_bind Moves.trans _ (keeps_read (fun s h => ⟨.refl s, h.2⟩) _) fun ids => ?_
  rintro s ⟨⟨rfl, h⟩, hids⟩
  obtain ⟨ts, hts, hlt⟩ := matchingRowIds_lt hids
  have hrest := count_keeps (L := L) ids.length fun id hid =>
    hbody id ts.nextRowId ts hts (hlt id hid) (hP ids hids id hid)
  exact keeps_bind Moves.trans _ touch_keeps
    (fun _ => hrest.imp (fun _ ht => ht.ready hts (Nat.le_refl _)) fun _ _ h => h) s ⟨h, rfl⟩

/-- `UPDATE` changes only matching rows. -/
theorem runUpdate_keeps {stmt : UpdateStatement}
    (hP : ∀ ids, matchingRowIds db.readView depth stmt.table stmt.filter = .ok ids →
      ∀ id ∈ ids, P id)
    (hrow : ∀ (db : Database) ts id row, db.Sound L hidden → db.table stmt.table = some ts →
      updatedRow db.readView depth stmt id = .ok (some row) → L.row ts.schema (encodeRow row)) :
    DmlKeeps L hidden stmt.table P (fun s => s = db ∧ s.Sound L hidden) (runUpdate depth stmt)
      fun _ _ => True := by
  refine runMatching_keeps hP fun id n ts hts hid hPid => ?_
  refine keeps_bind Moves.trans _ (keeps_read Ready.refl _) fun row? => ?_
  cases row? with
  | none => exact keeps_pure fun s h => ⟨h.1.refl s, h.1⟩
  | some row =>
    refine keeps_update (fun s h => h.1.refl s) fun s s' h hput => ?_
    obtain ⟨t, ht, hschema, -⟩ := h.1.table
    have hm := h.1.putRow (h.1.lt hid) hPid (hschema ▸ hrow s t id row h.1.sound ht h.2) hput
    exact ⟨hm, h.1.moves hm⟩

/-- `DELETE` removes only matching rows. -/
theorem runDelete_keeps {stmt : DeleteStatement}
    (hP : ∀ ids, matchingRowIds db.readView depth stmt.table stmt.filter = .ok ids →
      ∀ id ∈ ids, P id) :
    DmlKeeps L hidden stmt.table P (fun s => s = db ∧ s.Sound L hidden) (runDelete depth stmt)
      fun _ _ => True := by
  refine runMatching_keeps hP fun id n ts hts hid hPid => ?_
  refine keeps_bind Moves.trans _ (keeps_read Ready.refl _) fun b => ?_
  cases b with
  | false => exact keeps_pure fun s h => ⟨h.1.refl s, h.1⟩
  | true =>
    refine keeps_update (fun s h => h.1.refl s) fun s s' h hdrop => ?_
    have hm := h.1.dropRow (h.1.lt hid) hPid hdrop
    exact ⟨hm, h.1.moves hm⟩

end Archon
