import Archon.Relational.DmlSound
import Archon.Relational.StatementSpec

/-!
# Archon.Relational.TxnSound

What a commit does: validation installs versions and touches no row,
applying a transaction makes the tree its overlay, and both keep the
database sound.
-/

namespace Archon

open Program SortedMap TableStorage MvccStore

variable {ts ts' : TableStorage}
variable {db : Database} {txns : TableTxns}
variable {L : StorageLaw} {hidden : List TableTxns}

/-- What a buffered write makes of a row. -/
def writtenRow : Bytes → Option Bytes
  | [] => none
  | tag :: bytes => if tag = MVCC_TOMBSTONE then none else some bytes

/-- The rows a transaction sees: its own writes over the committed rows. -/
def Transaction.overlay (txn : Transaction) (tree : SortedMap Nat Bytes) (id : Nat) :
    Option Bytes :=
  match txn.getWrite id with
  | some bytes => writtenRow bytes
  | none => tree.find? id

/-! ## Applying the writes of one table -/

namespace TableStorage

/-- Only rows among `ids` and the indexes change. -/
structure RowsOnly (ids : Nat → Prop) (ts ts' : TableStorage) : Prop where
  schema : ts'.schema = ts.schema
  nextRowId : ts'.nextRowId = ts.nextRowId
  mvcc : ts'.mvcc = ts.mvcc
  tree : ∀ id, ¬ ids id → ts'.tree.find? id = ts.tree.find? id

namespace RowsOnly

variable {ids : Nat → Prop} {ts ts' ts'' : TableStorage}

theorem refl (ts : TableStorage) : RowsOnly ids ts ts := ⟨rfl, rfl, rfl, fun _ _ => rfl⟩

theorem trans (h : RowsOnly ids ts ts') (h' : RowsOnly ids ts' ts'') : RowsOnly ids ts ts'' :=
  ⟨h'.schema.trans h.schema, h'.nextRowId.trans h.nextRowId, h'.mvcc.trans h.mvcc,
    fun id hid => (h'.tree id hid).trans (h.tree id hid)⟩

/-- Only rows change, so the table evolves. -/
theorem evolves (h : RowsOnly ids ts ts') : ts.Evolves ts' :=
  ⟨h.schema, Nat.le_of_eq h.nextRowId.symm, Nat.le_of_eq (by rw [h.mvcc])⟩

/-- Storing a row changes only that row. -/
theorem insert {id : Nat} (hid : ids id) (bytes : Bytes) (ts : TableStorage)
    (vectorIndexes : List (String × IvfFlatIndex)) :
    RowsOnly ids ts { ts with tree := ts.tree.insert id bytes, vectorIndexes } := by
  refine ⟨rfl, rfl, rfl, fun k hk => ?_⟩
  have hne : k ≠ id := fun h => hk (h ▸ hid)
  simp [find?_insert, hne]

/-- Taking a row out changes only that row. -/
theorem discard {id : Nat} (hid : ids id) (ts : TableStorage) :
    RowsOnly ids ts (ts.discard id) := by
  refine ⟨rfl, rfl, rfl, fun k hk => ?_⟩
  have hne : k ≠ id := fun h => hk (h ▸ hid)
  show (ts.tree.erase id).find? k = _
  simp [find?_erase, hne]

end RowsOnly

/-- A table in order that the transaction fits. -/
def Carries (L : StorageLaw) (txn : Transaction) (ts : TableStorage) : Prop :=
  ts.Sound L ∧ ts.Holds L txn

/-- Rewriting rows among those the transaction wrote, in order. -/
def Applies (L : StorageLaw) (txn : Transaction) (ts ts' : TableStorage) : Prop :=
  RowsOnly (fun id => (txn.getWrite id).isSome) ts ts' ∧ ts'.Sound L

variable {txn : Transaction}

theorem Applies.trans (ts ts' ts'' : TableStorage) (h : Applies L txn ts ts')
    (h' : Applies L txn ts' ts'') : Applies L txn ts ts'' := ⟨h.1.trans h'.1, h'.2⟩

theorem Carries.refl (ts : TableStorage) (h : Carries L txn ts) : Applies L txn ts ts :=
  ⟨.refl ts, h.1⟩

/-- The transaction still fits after part of it was applied. -/
theorem Carries.applies (h : Carries L txn ts) (ha : Applies L txn ts ts') :
    Carries L txn ts' := ⟨ha.2, h.2.evolves ha.1.evolves⟩

/-- The writes are read off the buffer. -/
theorem mem_writesIter {w : Nat × Bytes} : w ∈ txn.writesIter ↔ txn.getWrite w.1 = some w.2 :=
  (find?_eq_some_iff txn.writes).symm

/-- Applying a write of a transaction keeps the table sound. -/
theorem applyWrite_keeps {w : Nat × Bytes} (hw : w ∈ txn.writesIter) :
    Keeps (Applies L txn) (Carries L txn) (applyWrite w) fun _ => Carries L txn := by
  obtain ⟨id, bytes⟩ := w
  have hget : txn.getWrite id = some bytes := mem_writesIter.mp hw
  have hsome : (txn.getWrite id).isSome := by simp [hget]
  cases bytes with
  | nil => exact (keeps_read Carries.refl _).imp (fun _ h => h) fun _ _ h => h.1
  | cons tag bytes =>
    simp only [applyWrite]
    split
    · refine keeps_update Carries.refl fun ts ts' h hts => ?_
      cases hts
      have ha : Applies L txn ts (ts.discard id) := ⟨.discard hsome ts, h.1.discard id⟩
      exact ⟨ha, h.applies ha⟩
    · next htag =>
      refine keeps_bind Applies.trans (fun _ => Carries L txn)
        (keeps_update Carries.refl fun ts ts' h hts => ?_) fun _ => ?_
      · cases hts
        obtain ⟨hid, hb | ⟨b, hb, hrow⟩⟩ := h.2.writes id _ hget
        · exact absurd (List.cons.inj hb).1 htag
        · cases hb
          have ha : Applies L txn ts { ts with tree := ts.tree.insert id bytes } :=
            ⟨.insert hsome bytes ts ts.vectorIndexes, h.1.insert hid hrow ts.vectorIndexes⟩
          exact ⟨ha, h.applies ha⟩
      · refine keeps_bind Applies.trans _ (keeps_read Carries.refl _) fun row => ?_
        refine keeps_update (fun ts h => h.1.refl ts) fun ts ts' h hts => ?_
        obtain ⟨idx, rfl⟩ := maintainVectorIndexesForRow_ok hts
        have ha : Applies L txn ts { ts with vectorIndexes := idx } :=
          ⟨⟨rfl, rfl, rfl, fun _ _ => rfl⟩, h.1.1.schema, h.1.1.mvcc, h.1.1.versions, h.1.1.rows⟩
        exact ⟨ha, h.1.applies ha⟩

/-- Applying all its writes keeps the table sound. -/
theorem applyTxn_keeps :
    Keeps (Applies L txn) (Carries L txn) (applyTxn txn) fun _ => Carries L txn := by
  refine keeps_bind Applies.trans _
    (keeps_forEach Carries.refl Applies.trans fun w hw => applyWrite_keeps hw) fun _ => ?_
  refine keeps_update Carries.refl fun ts ts' h hts => ?_
  obtain ⟨idx, rfl⟩ := maybeBuildVectorIndexes_ok hts
  have ha : Applies L txn ts { ts with vectorIndexes := idx } :=
    ⟨⟨rfl, rfl, rfl, fun _ _ => rfl⟩, h.1.schema, h.1.mvcc, h.1.versions, h.1.rows⟩
  exact ⟨ha, h.applies ha⟩

/-- The row written is found afterwards. -/
theorem applyWrite_ok {id : Nat} {bytes : Bytes} (h : applyWrite (id, bytes) ts = (.ok (), ts'))
    (k : Nat) : ts'.tree.find? k = if k = id then writtenRow bytes else ts.tree.find? k := by
  cases bytes with
  | nil => cases h
  | cons tag bytes =>
    simp only [applyWrite] at h
    split at h
    · next htag =>
      cases h
      show (ts.tree.erase id).find? k = _
      simp [find?_erase, writtenRow, htag]
    · next htag =>
      obtain ⟨_, ts₁, h₁, h⟩ := bind_ok.mp h
      obtain ⟨row, ts₂, h₂, h⟩ := bind_ok.mp h
      obtain ⟨-, rfl⟩ := read_ok.mp h₂
      obtain ⟨idx, rfl⟩ := maintainVectorIndexesForRow_ok (update_ok.mp h)
      cases update_ok.mp h₁
      simp [find?_insert, writtenRow, htag]

/-- The rows written by several writes are found. -/
theorem applyWrites_ok {ws : List (Nat × Bytes)} (hasc : Ascending ws)
    (h : forEach applyWrite ws ts = (.ok (), ts')) (k : Nat) :
    ts'.tree.find? k =
      match SortedMap.findIn k ws with
      | some bytes => writtenRow bytes
      | none => ts.tree.find? k := by
  induction ws generalizing ts with
  | nil =>
    cases h
    rfl
  | cons w ws ih =>
    have hnone := findIn_tail_eq_none hasc
    obtain ⟨_, ts₁, h₁, h⟩ := bind_ok.mp h
    rw [ih hasc.cons.2 h, applyWrite_ok h₁, findIn]
    grind

/-- An applied transaction leaves its overlay. -/
theorem applyTxn_ok (h : applyTxn txn ts = (.ok (), ts')) (id : Nat) :
    ts'.tree.find? id = txn.overlay ts.tree id := by
  obtain ⟨_, ts₁, h₁, h⟩ := bind_ok.mp h
  obtain ⟨idx, rfl⟩ := maybeBuildVectorIndexes_ok (update_ok.mp h)
  exact applyWrites_ok txn.writes.ascending h₁ id

/-! ## Validating one table -/

/-- Validation fails on a conflict; the store has the versions otherwise. -/
theorem commitMvcc_run (name : String) (txn : Transaction) (ts : TableStorage) :
    commitMvcc name txn ts =
      (if ts.mvcc.conflicts txn then
          Outcome.fail (.transactionError ("commit conflict on table '" ++ name ++ "'"))
        else .ok (), { ts with mvcc := (ts.mvcc.commit txn).2 }) := by
  cases h : ts.mvcc.conflicts txn <;> simp [commitMvcc, commit, h]

/-- New versions are of rows the transaction wrote. -/
theorem Carries.versions_commit (h : Carries L txn ts) (id : Nat)
    (hid : ((ts.mvcc.commit txn).2.versions.find? id).isSome) : id < ts.nextRowId := by
  cases hc : ts.mvcc.conflicts txn with
  | true => exact h.1.versions id (by simpa [commit, hc] using hid)
  | false =>
    simp [commit, hc, find?_foldl_push _ txn.writes.ascending] at hid
    rw [show SortedMap.findIn id txn.writes.entries = txn.getWrite id from rfl] at hid
    cases hw : txn.getWrite id with
    | none => exact h.1.versions id (by simpa [hw] using hid)
    | some bytes => exact (h.2.writes id bytes hw).1

/-- Validation keeps the table sound. -/
theorem Carries.commitMvcc (h : Carries L txn ts) :
    ts.Evolves { ts with mvcc := (ts.mvcc.commit txn).2 } ∧
      Sound L { ts with mvcc := (ts.mvcc.commit txn).2 } :=
  ⟨⟨rfl, Nat.le_refl _, ts.mvcc.clock_commit txn⟩, h.1.schema, h.1.mvcc.commit txn,
    h.versions_commit, h.1.rows⟩

/-- A step of a commit on one table. -/
def CommitStep (L : StorageLaw) (txn : Transaction)
    (p : Program DbError TableStorage Unit) : Prop :=
  Keeps (fun ts ts' => ts.Evolves ts' ∧ ts'.Sound L) (Carries L txn) p fun _ => Carries L txn

/-- Validation is a step of a commit. -/
theorem commitMvcc_step (name : String) : CommitStep L txn (commitMvcc name txn) := by
  intro ts h _
  rw [commitMvcc_run]
  exact ⟨h.commitMvcc, fun _ _ => ⟨h.commitMvcc.2, h.2.evolves h.commitMvcc.1⟩⟩

/-- Applying the writes is a step of a commit. -/
theorem applyTxn_step : CommitStep L txn (applyTxn txn) := fun ts h hret =>
  have ha := applyTxn_keeps ts h hret
  ⟨⟨ha.1.1.evolves, ha.1.2⟩, ha.2⟩

/-- Two steps make one. -/
theorem CommitStep.bind {p q : Program DbError TableStorage Unit} (hp : CommitStep L txn p)
    (hq : CommitStep L txn q) : CommitStep L txn (do p; q) :=
  keeps_bind (fun _ _ _ h h' => ⟨h.1.trans h'.1, h'.2⟩) _ hp fun _ => hq

end TableStorage

/-- Validating and applying one table's part of a transaction. -/
def commitTable (name : String) (txn : Transaction) : Program DbError TableStorage Unit := do
  commitMvcc name txn
  applyTxn txn

/-- A session commits a table in one step. -/
theorem commitTable_step (name : String) (txn : Transaction) :
    TableStorage.CommitStep L txn (commitTable name txn) :=
  (commitMvcc_step name).bind applyTxn_step

/-! ## All tables of a transaction -/

/-- The validation phase of a commit. -/
def validateTables (txns : TableTxns) : DbProgram Unit :=
  forEach (fun e => onTable e.1 (commitMvcc e.1 e.2)) txns

/-- The apply phase. -/
def applyTables (txns : TableTxns) : DbProgram Unit :=
  forEach (fun e => onTable e.1 (applyTxn e.2)) txns

/-- Both, table by table. -/
def commitTables (txns : TableTxns) : DbProgram Unit :=
  forEach (fun e => onTable e.1 (commitTable e.1 e.2)) txns

/-- `COMMIT` validates all tables before it applies any. -/
theorem runCommit_of_open (hin : db.inTransaction = true) :
    runCommit db = (do
      validateTables db.activeTxns
      applyTables db.activeTxns : DbProgram Unit)
        { db with inTransaction := false, activeTxns := [] } := by
  unfold runCommit
  rw [bind_run]
  simp only [takeTxns, hin]
  rfl

/-- `COMMIT` fails outside a transaction. -/
theorem runCommit_of_closed (hin : db.inTransaction = false) :
    runCommit db = (Outcome.fail (.transactionError "no active transaction"), db) := by
  simp [bind_run, takeTxns, hin, Outcome.fail, runCommit]

/-- `COMMIT` of a session, over what it takes out of the session. -/
theorem sessionCommit_run (sid : Nat) (db : Database) :
    (∃ st, db.sessionTxns.find? sid = some st ∧ st.inTransaction = true ∧
        sessionCommit sid db = commitTables st.activeTxns (db.setSession sid {})) ∨
      db.sessionInTransaction sid = false ∧ sessionCommit sid db =
        (Outcome.fail (.transactionError "no active transaction for this session"), db) := by
  unfold sessionCommit
  rw [bind_run]
  obtain ⟨st, hst, hin, htake⟩ | ⟨hin, htake⟩ := takeSessionTxns_run sid db
  · exact .inl ⟨st, hst, hin, by rw [htake]; rfl⟩
  · exact .inr ⟨hin, by rw [htake]; rfl⟩

/-- A program on one table leaves what does not depend on it. -/
theorem leaves_onTable {f : Database → τ} {name : String} {p : Program DbError TableStorage α}
    (h : ∀ db ts, db.table name = some ts → f (db.setTable name (p ts).2) = f db) :
    Leaves f (onTable name p) := by
  intro db
  unfold onTable
  split
  · rfl
  · next ts hts => exact h db ts hts

/-- Validation leaves all but the version stores. -/
theorem leaves_validateTables {f : TableStorage → τ} (hf : ∀ ts mvcc, f { ts with mvcc } = f ts)
    (txns : TableTxns) (n : String) :
    Leaves (fun db : Database => (db.table n).map f) (validateTables txns) := by
  refine leaves_forEach fun e _ => leaves_onTable fun db ts hts => ?_
  rw [commitMvcc_run]
  exact Database.map_table_setTable hts (hf ts _) n

/-- Each transaction held back fits its table. -/
theorem Database.Sound.carries (h : db.Sound L (txns :: hidden)) {e : String × Transaction}
    (he : e ∈ txns) : ∃ ts, db.table e.1 = some ts ∧ TableStorage.Carries L e.2 ts := by
  have hfits := h.hidden txns (.head _)
  obtain ⟨ts, hts, hh⟩ := hfits.held e.1 e.2 (lookup_of_mem hfits.names he)
  exact ⟨ts, hts, h.tables e.1 ts hts, hh⟩

variable {p : String → Transaction → Program DbError TableStorage Unit}

/-- Steps on the tables of a transaction that has been set aside. -/
theorem forEachTable_keeps {rel : Database → Database → Prop}
    (hidden : List TableTxns) (txns : TableTxns)
    (hrefl : ∀ db, db.Sound L (txns :: hidden) → rel db db)
    (htrans : ∀ db db' db'', rel db db' → rel db' db'' → rel db db'')
    (hp : ∀ name txn, TableStorage.CommitStep L txn (p name txn))
    (hset : ∀ (db : Database) name txn ts, db.table name = some ts →
      TableStorage.Carries L txn ts → (p name txn ts).1.Returns →
      (db.setTable name (p name txn ts).2).Sound L (txns :: hidden) →
      rel db (db.setTable name (p name txn ts).2)) :
    Keeps rel (fun db => db.Sound L (txns :: hidden))
      (forEach (fun e => onTable e.1 (p e.1 e.2)) txns)
      fun _ db => db.Sound L (txns :: hidden) := by
  refine keeps_forEach hrefl htrans fun ⟨name, txn⟩ hmem db h hret => ?_
  obtain ⟨ts, hts, hcarries⟩ := h.carries hmem
  simp only [onTable, hts] at hret ⊢
  have hstep := (hp name txn ts hcarries hret).1
  have hsound := h.setTable hts hstep.2 hstep.1
  exact ⟨hset db name txn ts hts hcarries hret hsound, fun _ _ => hsound⟩

/-- Steps of a commit, table by table, keep the database sound. -/
theorem forEachTable_sound (hidden : List TableTxns) (txns : TableTxns)
    (hp : ∀ name txn, TableStorage.CommitStep L txn (p name txn)) :
    Keeps (fun _ db => db.Sound L (txns :: hidden)) (fun db => db.Sound L (txns :: hidden))
      (forEach (fun e => onTable e.1 (p e.1 e.2)) txns)
      fun _ db => db.Sound L (txns :: hidden) :=
  forEachTable_keeps hidden txns (fun _ h => h) (fun _ _ _ _ h => h) hp
    fun _ _ _ _ _ _ _ h => h

namespace Database

/-- Whether transactions fit depends on the tables only. -/
theorem Fits.of_tables {db' : Database} (h : db.Fits L txns) (ht : db'.tables = db.tables) :
    db'.Fits L txns :=
  ⟨h.names, fun name txn hl => by
    obtain ⟨ts, hts, hh⟩ := h.held name txn hl
    exact ⟨ts, by rw [Database.table, ht]; exact hts, hh⟩⟩

theorem fits_nil (db : Database) : db.Fits L [] := ⟨.nil, fun _ _ h => by cases h⟩

/-- A transaction no longer held back can be forgotten. -/
theorem Sound.forget (h : db.Sound L (txns :: hidden)) : db.Sound L hidden :=
  ⟨h.names, h.tables, h.active, h.idle, h.sessions,
    fun t ht => h.hidden t (.tail txns ht)⟩

section

variable (h : db.Sound L hidden)
include h

/-- Closing the database's transaction sets it aside. -/
theorem Sound.close :
    Sound L (db.activeTxns :: hidden) { db with inTransaction := false, activeTxns := [] } := by
  refine ⟨h.names, h.tables, fits_nil _, fun _ => rfl,
    fun sid st hst => (h.sessions sid st hst).of_tables rfl, fun t ht => ?_⟩
  rcases List.mem_cons.mp ht with rfl | ht
  · exact h.active.of_tables rfl
  · exact (h.hidden t ht).of_tables rfl

/-- A session may be given transactions that fit. -/
theorem Sound.setSession {sid : Nat} {st : SessionTxn} (hst : db.Fits L st.activeTxns) :
    (db.setSession sid st).Sound L hidden := by
  refine ⟨h.names, h.tables, h.active.of_tables rfl, h.idle, fun s st' hs => ?_,
    fun t ht => (h.hidden t ht).of_tables rfl⟩
  simp only [Database.setSession, find?_insert] at hs
  split at hs
  · cases hs
    exact hst.of_tables rfl
  · exact (h.sessions s st' hs).of_tables rfl

/-- Transactions that fit can be held back. -/
theorem Sound.hide (ht : db.Fits L txns) : db.Sound L (txns :: hidden) :=
  ⟨h.names, h.tables, h.active, h.idle, h.sessions, fun t hm => by
    rcases List.mem_cons.mp hm with rfl | hm
    · exact ht
    · exact h.hidden t hm⟩

/-- Closing a session's transaction sets it aside. -/
theorem Sound.takeSession {sid : Nat} {st : SessionTxn} (hst : db.sessionTxns.find? sid = some st) :
    (db.setSession sid {}).Sound L (st.activeTxns :: hidden) :=
  (h.setSession (fits_nil db)).hide ((h.sessions sid st hst).of_tables rfl)

end

end Database

/-- `COMMIT` keeps the database sound. -/
theorem runCommit_sound (h : db.Sound L hidden) (hret : (runCommit db).1.Returns) :
    (runCommit db).2.Sound L hidden := by
  cases hin : db.inTransaction with
  | false =>
    rw [runCommit_of_closed hin]
    exact h
  | true =>
    rw [runCommit_of_open hin] at hret ⊢
    have hvalidate := forEachTable_sound (L := L) hidden db.activeTxns
      fun name _ => commitMvcc_step name
    have happly := forEachTable_sound (L := L) hidden db.activeTxns
      fun _ _ => applyTxn_step
    exact (keeps_bind (fun _ _ _ _ h => h) _ hvalidate (fun _ => happly) _ h.close hret).1.forget

/-- `COMMIT` of a session keeps the database sound. -/
theorem sessionCommit_sound (h : db.Sound L hidden) {sid : Nat}
    (hret : (sessionCommit sid db).1.Returns) : (sessionCommit sid db).2.Sound L hidden := by
  obtain ⟨st, hst, -, hrun⟩ | ⟨-, hrun⟩ := sessionCommit_run sid db
  · rw [hrun] at hret ⊢
    exact (forEachTable_sound hidden st.activeTxns commitTable_step _ (h.takeSession hst)
      hret).1.forget
  · rw [hrun]
    exact h

end Archon
