import Archon.Relational.ConstraintLaw
import Archon.Relational.StatementAtomic

/-!
# Archon.Relational.UniqueRows

The keys of the rows a statement sees stay unique when it writes.  `UPDATE`
checks each row against the others as they are then.  `INSERT` checks all its
rows first, against the table and against each other, which comes to the same.
-/

namespace Archon

open Program Database

variable {db db' : Database}
variable {before : List Row} {row : Row} {ts : TableStorage}
variable {depth : Nat} {name : String} {hidden : List TableTxns}
  {schema : Schema} {n : Nat}

/-! ## What a statement sees -/

/-- The row behind an id, if a transaction sees one. -/
def TableStorage.rowsUnder (ts : TableStorage) (txn : Option Transaction) (id : Nat) : Option Row :=
  (ts.currentRow txn id).toOption.join

theorem TableStorage.rowsUnder_eq_some {txn : Option Transaction} {id : Nat} :
    ts.rowsUnder txn id = some row ↔ ts.currentRow txn id = .ok (some row) := by
  unfold rowsUnder
  cases ts.currentRow txn id <;> simp [Except.toOption]

namespace Database

def schemaOf (db : Database) (n : String) : Option Schema := (db.table n).map TableStorage.schema

/-- The rows of a table that a statement on the database sees. -/
def seen (db : Database) (n : String) (id : Nat) : Option Row :=
  (db.table n).bind fun ts => ts.rowsUnder (db.activeTxn n) id

theorem seen_eq_some {n : String} {id : Nat} :
    db.seen n id = some row ↔ db.visible n id = some (.ok (some row)) := by
  unfold seen visible
  cases db.table n with
  | none => simp
  | some ts => simp [TableStorage.rowsUnder_eq_some]

theorem seen_congr {n : String} {id : Nat} (h : db'.visible n id = db.visible n id) :
    db'.seen n id = db.seen n id := by
  apply Option.ext
  simp [seen_eq_some, h]

/-- No two rows of a table clash. -/
def Keyed (db : Database) : Prop :=
  ∀ n schema, db.schemaOf n = some schema → Distinct (Clash schema) (db.seen n)

section

variable (h : db.Keyed) (hschema : ∀ n, db'.schemaOf n = db.schemaOf n)
include h hschema

theorem Keyed.submap (hseen : ∀ n, Submap (db'.seen n) (db.seen n)) : db'.Keyed :=
  fun n schema hs => (h n schema (hschema n ▸ hs)).submap (hseen n)

theorem Keyed.of_visible (hvis : ∀ n k, db'.visible n k = db.visible n k) : db'.Keyed := by
  refine h.submap hschema fun n k row hrow => ?_
  rwa [seen_congr (hvis n k)] at hrow

end

/-! ## Schemas stay -/

section

variable {db db' : Database} {id : Nat}

theorem schemaOf_putRow (h : db.putRow name id row = .ok db') (n : String) :
    db'.schemaOf n = db.schemaOf n := map_table_putRow (fun _ _ _ => rfl) h n

theorem schemaOf_dropRow (h : db.dropRow name id = .ok db') (n : String) :
    db'.schemaOf n = db.schemaOf n := map_table_dropRow (fun _ _ _ => rfl) h n

theorem schemaOf_buildIndexes (h : db.buildIndexes name = .ok db') (n : String) :
    db'.schemaOf n = db.schemaOf n := map_table_buildIndexes (fun _ _ _ => rfl) h n

section

variable (db : Database) (name : String) (n : String)

theorem schemaOf_allocRow : (allocRow name db).2.schemaOf n = db.schemaOf n := by
  unfold allocRow
  cases hts : db.table name with
  | none => rfl
  | some ts => exact map_table_setTable hts (by rfl) n

theorem schemaOf_touch : (touch name db).2.schemaOf n = db.schemaOf n := by
  obtain ⟨txns, htxns, -⟩ := db.touch_txns name
  rw [htxns]
  rfl

end

/-! ## Writing a row -/

/-- A row may be written that clashes with no other one seen. -/
theorem Keyed.putRow (h : db.Keyed) (hidle : db.Idle) (hts : db.table name = some ts)
    (hreads : ts.readsAs id (encodeRow row) = .ok (some row))
    (hnew : ∀ k r, k ≠ id → db.seen name k = some r → ¬ Clash ts.schema row r)
    (hput : db.putRow name id row = .ok db') : db'.Keyed := by
  obtain ⟨ts', hts', hvis⟩ := visible_putRow hidle hput
  rw [hts] at hts'
  cases hts'
  intro n schema hschema
  rw [schemaOf_putRow hput] at hschema
  have hold := h n schema hschema
  by_cases hn : n = name
  · subst hn
    have hs : schema = ts.schema := by simpa [schemaOf, hts, eq_comm] using hschema
    subst hs
    refine hold.set (fun a b hab => hab.symm) hnew (fun k hk => ?_) ?_
    · exact seen_congr (by simp [hvis, hk])
    · rw [seen_eq_some, hvis, if_pos ⟨rfl, rfl⟩, hreads]
  · refine hold.submap fun k r hr => ?_
    rwa [seen_congr (show db'.visible n k = db.visible n k by simp [hvis, hn])] at hr

theorem Keyed.dropRow (h : db.Keyed) (hidle : db.Idle) (hdrop : db.dropRow name id = .ok db') :
    db'.Keyed := by
  refine h.submap (schemaOf_dropRow hdrop) fun n k row hrow => ?_
  rw [seen_eq_some, visible_dropRow hidle hdrop] at hrow
  split at hrow
  · cases hrow
  · exact seen_eq_some.mpr hrow

theorem Keyed.touch (h : db.Keyed) (name : String) : (touch name db).2.Keyed :=
  h.of_visible (db.schemaOf_touch name) fun n k => visible_of_unseen (.touch db name) n k

end

end Database

/-! ## Rows picked by a filter -/

section

variable {L : StorageLaw} {Inv : Database → Prop} {α : Type} {filter : Option Expr}
  {check : ReadView → Nat → Outcome DbError α} {change : Nat → α → DbProgram Unit}

/-- What each change of a row keeps, the loop over the rows keeps. -/
theorem matchingLoop_inv (htouch : ∀ db, Inv db → Inv (touch name db).2)
    (hbody : ∀ schema n id a, id < n → Keeps (fun _ db => Inv db)
      (fun db => (Ready L hidden name schema n db ∧ Inv db) ∧ check db.readView id = .ok a)
      (change id a) fun _ db => Ready L hidden name schema n db ∧ Inv db)
     (h : db.Sound L hidden) (hinv : Inv db)
    (hret : (matchingLoop depth name filter check change db).1.Returns) :
    Inv (matchingLoop depth name filter check change db).2 := by
  cases hids : matchingRowIds db.readView depth name filter with
  | error f =>
    have hrun : (matchingLoop depth name filter check change db).2 = db := by
      simp [matchingLoop, bind_run, Program.read, hids]
    rwa [hrun]
  | ok ids =>
    obtain ⟨ts, hts, hlt⟩ := matchingRowIds_lt hids
    have hready := (h.touch name).ready hts (Nat.le_refl _)
    rw [matchingLoop_run hids] at hret ⊢
    have hloop : Keeps (fun _ db => Inv db)
        (fun db => Ready L hidden name ts.schema ts.nextRowId db ∧ Inv db)
        (forEach (checkThen check change) ids)
        fun _ db => Ready L hidden name ts.schema ts.nextRowId db ∧ Inv db := by
      refine keeps_forEach (fun _ hs => hs.2) (fun _ _ _ _ hu => hu) fun id hid => ?_
      exact keeps_bind (fun _ _ _ _ hu => hu) _ (keeps_read (fun _ hs => hs.2) _) fun a =>
        hbody ts.schema ts.nextRowId id a (hlt id hid)
    exact (keeps_return (fun _ _ _ _ hu => hu) hloop (fun _ hs => hs.2) ids.length _
      ⟨hready, htouch db hinv⟩ hret).1

end

theorem RowOf.readsAs (h : RowOf ts.schema row) (hs : ts.schema.Proper) (id : Nat) :
    ts.readsAs id (encodeRow row) = .ok (some row) := by
  simp [TableStorage.readsAs, h.decode hs id]

/-- There are no rows behind ids not handed out. -/
theorem Database.Sound.seen_lt {L : StorageLaw} (h : db.Sound L hidden)
    (hts : db.table name = some ts) {k : Nat} {r : Row} (hr : db.seen name k = some r) :
    k < ts.nextRowId ∧ (ts.view (db.activeTxn name)).rowAt k = .ok (some r) := by
  have hat : ts.currentRow (db.activeTxn name) k = .ok (some r) := by
    simpa [seen, hts, TableStorage.rowsUnder_eq_some] using hr
  refine ⟨Nat.lt_of_not_le fun hle => ?_, hat⟩
  grind [(h.tables name ts hts).currentRow_none (h.holds hts) hle]

/-! ## Statements that keep a property -/

section

variable {R : Database → Prop} (h : db.Sound constraintLaw hidden)
include h

/-- What every row that `UPDATE` may write keeps, the statement keeps. -/
theorem runUpdate_inv {stmt : UpdateStatement} (hf : ∀ a ∈ stmt.assignments, a.value.Fits)
    (htouch : ∀ s, R s → R (touch stmt.table s).2)
    (hput : ∀ s s' ts id row, s.Sound constraintLaw hidden → R s → s.table stmt.table = some ts →
      updatedRow s.readView depth stmt id = .ok (some row) →
      ts.readsAs id (encodeRow row) = .ok (some row) → s.putRow stmt.table id row = .ok s' → R s')
    (hr : R db) (hret : (runUpdate depth stmt db).1.Returns) : R (runUpdate depth stmt db).2 := by
  rw [runUpdate_eq] at hret ⊢
  refine matchingLoop_inv htouch (fun schema n id row? hid => ?_) h hr hret
  cases row? with
  | none => exact keeps_pure fun s hs => ⟨hs.1.2, hs.1⟩
  | some row =>
    refine keeps_update (fun s hs => hs.1.2) fun s s' hs hs' => ?_
    obtain ⟨⟨hready, hr⟩, hup⟩ := hs
    obtain ⟨ts, hts, rfl, -⟩ := hready.table
    obtain ⟨hof, hholds⟩ := updatedRow_law hready.sound hts hf hup
    have hr' := hput s s' ts id row hready.sound hr hts hup
      (hof.readsAs (hready.sound.tables _ ts hts).schema.1 id) hs'
    have hmoves := hready.putRow (P := fun _ => True) (hready.lt hid) trivial
      ⟨row, rfl, hof, hholds⟩ hs'
    exact ⟨hr', hready.moves hmoves, hr'⟩

theorem runDelete_inv {stmt : DeleteStatement} (htouch : ∀ s, R s → R (touch stmt.table s).2)
    (hdrop : ∀ s s' id, s.Sound constraintLaw hidden → R s →
      deletesRow s.readView stmt id = .ok true → s.dropRow stmt.table id = .ok s' → R s')
    (hr : R db) (hret : (runDelete depth stmt db).1.Returns) : R (runDelete depth stmt db).2 := by
  rw [runDelete_eq] at hret ⊢
  refine matchingLoop_inv htouch (fun schema n id gone hid => ?_) h hr hret
  cases gone with
  | false => exact keeps_pure fun s hs => ⟨hs.1.2, hs.1⟩
  | true =>
    refine keeps_update (fun s hs => hs.1.2) fun s s' hs hs' => ?_
    obtain ⟨⟨hready, hr⟩, hdel⟩ := hs
    have hr' := hdrop s s' id hready.sound hr hdel hs'
    have hmoves := hready.dropRow (P := fun _ => True) (hready.lt hid) trivial hs'
    exact ⟨hr', hready.moves hmoves, hr'⟩

end

/-- What holds once the first rows of a batch are inserted, and then the next. -/
structure InsertInv (hidden : List TableTxns) (name : String)
    (ts : TableStorage) (slots : List Nat) (rows : List Row) (R : Database → Prop)
    (Inv : List Row → Database → Prop) : Prop where
  result : ∀ {before db}, Inv before db → R db
  unseen : ∀ {before db db'}, Inv before db → (∀ m, db'.schemaOf m = db.schemaOf m) →
    (∀ m k, db'.visible m k = db.visible m k) → Inv before db'
  put : ∀ {before row rest id row' db db'}, rows = before ++ row :: rest → Inv before db →
    db.Sound constraintLaw hidden → (∃ t, db.table name = some t ∧ t.schema = ts.schema ∧
      t.readsAs id (encodeRow row') = .ok (some row')) →
    withImplicitId slots id row = .ok row' → db.seen name id = none →
    db.putRow name id row' = .ok db' → Inv (before ++ [row]) db'

section

variable {R : Database → Prop} {Inv : List Row → Database → Prop} {slots : List Nat}
  {rows rest : List Row}

theorem InsertInv.insertRow (hi : InsertInv hidden name ts slots rows R Inv)
    (hrows : rows = before ++ row :: rest)
    (hlaw : ∀ id row', withImplicitId slots id row = .ok row' →
      RowOf ts.schema row' ∧ RowHolds ts.schema row') :
    Keeps (fun _ db => R db)
      (fun db => Ready constraintLaw hidden name ts.schema ts.nextRowId db ∧ Inv before db)
      (insertRow name slots row) fun _ db =>
        Ready constraintLaw hidden name ts.schema ts.nextRowId db ∧ Inv (before ++ [row]) db := by
  have htrans : ∀ s t u : Database, R t → R u → R u := fun _ _ _ _ hu => hu
  have halloc : Keeps (fun _ db => R db)
      (fun db => Ready constraintLaw hidden name ts.schema ts.nextRowId db ∧ Inv before db)
      (allocRow name) fun id db =>
        (Ready constraintLaw hidden name ts.schema ts.nextRowId db ∧ Inv before db) ∧
        (∀ t, db.table name = some t → id < t.nextRowId) ∧ db.seen name id = none := by
    rintro db ⟨hready, hinv⟩ hret
    obtain ⟨hmoves, hpost⟩ := allocRow_keeps (P := fun _ => True) db hready hret
    have hnext := hi.unseen hinv (db.schemaOf_allocRow name) (db.visible_allocRow name)
    refine ⟨hi.result hnext, fun id hid => ⟨⟨hready.moves hmoves, hnext⟩,
      (hpost id hid).1.lt (Nat.lt_succ_self id), ?_⟩⟩
    -- nothing was seen under the id before it was handed out
    obtain ⟨t, ht, -, -⟩ := hready.table
    have hnew : id = t.nextRowId := by
      simp only [allocRow, ht] at hid
      exact (Except.ok.inj hid).symm
    rw [seen_congr (db.visible_allocRow name name id)]
    cases hseen : db.seen name id with
    | none => rfl
    | some r =>
      have hlt := (hready.sound.seen_lt ht hseen).1
      omega
  refine keeps_bind htrans _ halloc fun id => ?_
  refine keeps_bind htrans _ (keeps_read (fun db h => hi.result h.1.2) _) fun row' => ?_
  refine keeps_bind htrans (fun _ db => Ready constraintLaw hidden name ts.schema ts.nextRowId db ∧
    Inv (before ++ [row]) db) ?_ fun _ => ?_
  · refine keeps_update (fun db h => hi.result h.1.1.2) fun db db' h hput => ?_
    obtain ⟨⟨⟨hready, hinv⟩, hid, hfresh⟩, himplicit⟩ := h
    obtain ⟨hof, hholds⟩ := hlaw id row' himplicit
    obtain ⟨t, ht, hschema, -⟩ := hready.table
    have hreads := (hschema ▸ hof).readsAs (hready.sound.tables _ t ht).schema.1 id
    have hnext := hi.put hrows hinv hready.sound ⟨t, ht, hschema, hreads⟩ himplicit hfresh hput
    have hmoves := hready.putRow (P := fun _ => True) hid trivial ⟨row', rfl, hof, hholds⟩ hput
    exact ⟨hi.result hnext, hready.moves hmoves, hnext⟩
  · refine keeps_update (fun db h => hi.result h.2) fun db db' h hbuild => ?_
    have hmoves := h.1.buildIndexes (P := fun _ => True) hbuild
    have hnext := hi.unseen h.2 (schemaOf_buildIndexes hbuild)
      (visible_buildIndexes hbuild)
    exact ⟨hi.result hnext, h.1.moves hmoves, hnext⟩

theorem InsertInv.forEach (hi : InsertInv hidden name ts slots rows R Inv)
    (hlaw : ∀ row ∈ rows, ∀ id row', withImplicitId slots id row = .ok row' →
      RowOf ts.schema row' ∧ RowHolds ts.schema row') (hrows : rows = before ++ rest) :
    Keeps (fun _ db => R db)
      (fun db => Ready constraintLaw hidden name ts.schema ts.nextRowId db ∧ Inv before db)
      (forEach (Archon.insertRow name slots) rest) fun _ db => R db := by
  induction rest generalizing before with
  | nil => exact keeps_pure fun db h => ⟨hi.result h.2, hi.result h.2⟩
  | cons row rest ih =>
    exact keeps_bind (fun _ _ _ _ hu => hu) _
      (hi.insertRow hrows (hlaw row (by simp [hrows]))) fun _ => ih (by simp [hrows])

/-- What the rows of a batch keep one after the other, `INSERT` keeps. -/
theorem runInsertStmt_inv {stmt : InsertStatement} (h : db.Sound constraintLaw hidden)
    (hf : ∀ lits ∈ stmt.values, ∀ lit ∈ lits, lit.Fits) (hstart : R (touch stmt.table db).2)
    (hinv : ∀ t ts slots rows, t.Sound constraintLaw hidden →
      (∀ m, t.schemaOf m = db.schemaOf m) → R t → t.table stmt.table = some ts →
      insertRows t.readView depth stmt = .ok (slots, rows) →
      ∃ Inv, Inv [] t ∧ InsertInv hidden stmt.table ts slots rows R Inv)
    (hret : (runInsertStmt depth stmt db).1.Returns) : R (runInsertStmt depth stmt db).2 := by
  have hview := (db.readView_touch stmt.table).1
  have hschemas := db.schemaOf_touch stmt.table
  have hsound := (h.touch stmt.table).1
  cases hins : insertRows db.readView depth stmt with
  | error f =>
    rw [runInsertStmt_refused hins]
    exact hstart
  | ok r =>
    obtain ⟨slots, rows⟩ := r
    rw [runInsertStmt_run hins] at hret ⊢
    rw [← hview] at hins
    generalize (touch stmt.table db).2 = t at hschemas hstart hsound hins hret ⊢
    obtain ⟨rt, hrt, -⟩ := insertRows_ok hins
    rw [table_readView] at hrt
    obtain ⟨ts, hts, -⟩ := Option.map_eq_some_iff.mp hrt
    obtain ⟨Inv, hnil, hi⟩ := hinv t ts slots rows hsound hschemas hstart hts hins
    have hloop := hi.forEach
      (fun row hmem id row' hid => insertRows_law hsound hts hf hins hmem hid)
        (List.nil_append _).symm
    exact (keeps_return (fun _ _ _ _ hu => hu) hloop (fun _ hs => hs) rows.length t
      ⟨⟨hsound, ts, hts, rfl, Nat.le_refl _⟩, hnil⟩ hret).1

end

/-! ## Unique keys -/

theorem runUpdate_keyed {stmt : UpdateStatement} (h : db.Sound constraintLaw hidden)
    (hk : db.Keyed) (hf : ∀ a ∈ stmt.assignments, a.value.Fits)
    (hret : (runUpdate depth stmt db).1.Returns) : (runUpdate depth stmt db).2.Keyed := by
  refine runUpdate_inv h hf (fun s hk => hk.touch _)
    (fun s s' ts id row hs hk hts hup hreads hput => ?_)
    hk hret
  refine hk.putRow hs.idle hts hreads (fun k r hne hr => ?_) hput
  obtain ⟨rt, old, hrt, -, -, hcheck⟩ := updatedRow_ok hup
  rw [table_readView, hts] at hrt
  cases hrt
  obtain ⟨hlt, hat⟩ := hs.seen_lt hts hr
  exact checkUnique_noClash (enforceConstraints_ok hcheck).unique hlt (by simpa using hne) hat

/-- A row that was checked clashes with no row of the batch. -/
theorem checkRows_noClash {v : ReadView} {rt : ReadTable} {first rows rest : List Row}
    (h : checkRows v depth rt first rows = .ok ()) (hrows : rows = before ++ row :: rest) :
    ∀ b ∈ first ++ before, ¬ Clash rt.schema row b := by
  induction before generalizing first rows with
  | nil =>
    subst hrows
    obtain ⟨_, -, h⟩ := h.bind_ok
    obtain ⟨_, hbatch, -⟩ := h.bind_ok
    exact fun b hb => checkBatch_noClash hbatch b (List.mem_append_left _ (by simpa using hb))
  | cons r before ih =>
    subst hrows
    obtain ⟨_, -, h⟩ := h.bind_ok
    obtain ⟨_, -, h⟩ := h.bind_ok
    simpa using ih h rfl

section

variable (h : db.Sound constraintLaw hidden) (hk : db.Keyed)
include h hk

theorem runInsertStmt_keyed {stmt : InsertStatement}
    (hf : ∀ lits ∈ stmt.values, ∀ lit ∈ lits, lit.Fits)
    (hret : (runInsertStmt depth stmt db).1.Returns) : (runInsertStmt depth stmt db).2.Keyed := by
  refine runInsertStmt_inv h hf (hk.touch _) (fun t ts slots rows hs _ hk hts hins => ?_) hret
  obtain ⟨rt, hrt, -, -, hcheck⟩ := insertRows_ok hins
  rw [table_readView, hts] at hrt
  cases hrt
  -- the rows seen were there before, or are of the batch
  refine ⟨fun before s => s.Keyed ∧ ∀ k r, s.seen stmt.table k = some r →
    t.seen stmt.table k = some r ∨ ∃ b ∈ before, SameButId b r, ⟨hk, fun _ _ hr => .inl hr⟩, ?_⟩
  refine ⟨fun hi => hi.1, fun hi hschema hvis => ⟨hi.1.of_visible hschema hvis, fun k r hr => ?_⟩,
    fun {before row rest id row' s s'} hrows hi hsound htable himplicit hfresh hput => ?_⟩
  · exact hi.2 k r (by rwa [seen_congr (hvis _ k)] at hr)
  · obtain ⟨t', ht', hschema, hreads⟩ := htable
    have hid : t'.schema.HasId := (hsound.tables _ t' ht').schema.2.hasId
    have hpassed := checkRows_ok hcheck row (by simp [hrows])
    have hbatch := checkRows_noClash hcheck hrows
    have hsame : SameButId row row' := withImplicitId_sameButId himplicit
    have hkeyed : s'.Keyed := by
      refine hi.1.putRow hsound.idle ht' hreads (fun k r _ hr hclash => ?_) hput
      rw [hschema] at hid hclash
      obtain hr | ⟨b, hb, hbr⟩ := hi.2 k r hr
      · obtain ⟨hlt, hat⟩ := hs.seen_lt hts hr
        exact checkUnique_noClash hpassed.unique hlt (by simp) hat
          (hclash.sameButId hid hsame.symm (.refl r))
      · exact hbatch b hb (hclash.sameButId hid hsame.symm hbr.symm)
    refine ⟨hkeyed, fun k r hr => ?_⟩
    obtain ⟨t'', ht'', hvis⟩ := visible_putRow hsound.idle hput
    rw [ht'] at ht''
    cases ht''
    rw [seen_eq_some, hvis] at hr
    by_cases hk : k = id
    · rw [if_pos ⟨rfl, hk⟩, hreads] at hr
      cases hr
      exact .inr ⟨row, by simp, hsame⟩
    · rw [if_neg fun hand => hk hand.2] at hr
      refine (hi.2 k r (seen_eq_some.mpr hr)).imp_right fun hb => ?_
      exact hb.imp fun b hb => ⟨List.mem_append_left _ hb.1, hb.2⟩

theorem runDelete_keyed {stmt : DeleteStatement} (hret : (runDelete depth stmt db).1.Returns) :
    (runDelete depth stmt db).2.Keyed :=
  runDelete_inv h (fun _ hk => hk.touch _) (fun _ _ _ hs hk _ hdrop => hk.dropRow hs.idle hdrop)
    hk hret

/-! ## Statements -/

/-- A query or change of rows keeps the keys of the rows seen unique. -/
theorem execute_keyed {stmt : Statement}
    (hq : stmt.isQueryOrDml = true) (hs : SchemaSafe db stmt) {params : Params}
    (hret : (execute depth stmt params db).1.Returns) : (execute depth stmt params db).2.Keyed := by
  cases stmt with
  | select | selectLiteral | compound => exact hk
  | insert i =>
    simp only [execute, affecting_run, returns_map] at hret ⊢
    exact runInsertStmt_keyed h hk hs.1 hret
  | update u =>
    simp only [execute, affecting_run, returns_map] at hret ⊢
    exact runUpdate_keyed h hk hs.1 hret
  | delete d =>
    simp only [execute, affecting_run, returns_map] at hret ⊢
    exact runDelete_keyed h hk hret
  | _ => cases hq

end

end Archon
