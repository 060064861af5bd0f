import Archon.Relational.LostUpdate
import Archon.Relational.RowLaw

/-!
# Archon.Relational.CommitAtomic

`COMMIT` over several tables.  `runCommit` validates every table before it
applies one; `sessionCommit` validates and applies table by table, so a
conflict on a later table leaves the earlier ones applied.
-/

namespace Archon

open Program Outcome TableStorage

variable {txns : TableTxns}
variable {db : Database} {ts : TableStorage}

/-- The rows and vector indexes of every table are the same. -/
def SameRows (db db' : Database) : Prop :=
  ∀ n, (db'.table n).map (fun ts => (ts.tree, ts.vectorIndexes)) =
    (db.table n).map fun ts => (ts.tree, ts.vectorIndexes)

theorem SameRows.refl (db : Database) : SameRows db db := fun _ => rfl

theorem SameRows.setTable {name : String} {ts' : TableStorage} (hts : db.table name = some ts)
    (htree : ts'.tree = ts.tree) (hidx : ts'.vectorIndexes = ts.vectorIndexes) :
    SameRows db (db.setTable name ts') :=
  Database.map_table_setTable hts (by rw [htree, hidx])

/-! ## Applying returns no error -/

namespace TableStorage

variable {txn : Transaction}

theorem Sound.decode_ok (h : ts.Sound rowLaw) {bytes : Bytes} (hb : rowLaw.row ts.schema bytes)
    (id : Nat) : ∃ row, ts.decode id bytes = .ok row := by
  obtain ⟨row, rfl, hrow⟩ := hb
  exact ⟨row, hrow.decode h.schema id⟩

theorem noErr_maintain (ts : TableStorage) (id : Nat) (row : Row) :
    Outcome.NoErr (ts.maintainVectorIndexesForRow id row : Outcome ε TableStorage) := by
  refine noErr_bind (noErr_mapM fun e _ => ?_) fun _ _ => noErr_ok _
  refine noErr_bind ?_ fun _ _ => noErr_ok _
  unfold maintainIndex
  split
  · exact noErr_ok _
  · refine noErr_bind (noErr_index row _) fun v _ => ?_
    split <;> exact noErr_ok _

theorem noErr_build (vectors : List (Nat × List F32)) :
    Outcome.NoErr (IvfFlatIndex.build vectors : Outcome ε IvfFlatIndex) := by
  unfold IvfFlatIndex.build Scoring.build
  split
  · exact noErr_panicked
  · exact noErr_bind (noErr_mapM fun i _ => noErr_index _ _)
      fun _ _ => noErr_ok _

theorem noErr_vectorsAt (slot : Nat) (rows : List (Nat × Row)) :
    Outcome.NoErr (vectorsAt slot rows : Outcome ε _) := by
  induction rows with
  | nil => exact noErr_ok _
  | cons e rows ih =>
    refine noErr_bind (noErr_index _ _) fun v _ => ?_
    refine noErr_bind ih fun rest _ => ?_
    split <;> exact noErr_ok _

theorem noErr_buildIndexes (rows : List (Nat × Row)) (cols : List (Nat × String)) :
    Outcome.NoErr (buildIndexes rows cols : Outcome ε _) := by
  induction cols with
  | nil => exact noErr_ok _
  | cons c cols ih =>
    refine noErr_bind (noErr_vectorsAt _ rows) fun vectors _ => ?_
    refine noErr_bind ih fun rest _ => ?_
    split
    · exact noErr_ok _
    · exact noErr_bind (noErr_build vectors) fun _ _ => noErr_ok _

theorem Sound.committedRows_ok (h : ts.Sound rowLaw) (ids : List Nat) :
    ∃ rows, ts.committedRows ids = .ok rows := by
  induction ids with
  | nil => exact ⟨[], rfl⟩
  | cons id ids ih =>
    obtain ⟨rows, hrows⟩ := ih
    unfold committedRows
    split
    · exact ⟨rows, hrows⟩
    · next bytes hb =>
      obtain ⟨row, hrow⟩ := h.decode_ok (h.rows id bytes hb).2 id
      simp [hrow, hrows]

theorem Sound.noErr_maybeBuild (h : ts.Sound rowLaw) :
    Outcome.NoErr ts.maybeBuildVectorIndexes := by
  unfold maybeBuildVectorIndexes
  split
  · exact noErr_ok _
  · split
    · exact noErr_ok _
    · obtain ⟨rows, hrows⟩ := h.committedRows_ok (List.range ts.nextRowId)
      rw [hrows, Except.ok_bind]
      exact noErr_bind (noErr_buildIndexes rows _) fun _ _ => noErr_ok _

section

variable (h : Carries rowLaw txn ts)
include h

/-- Buffered rows decode, so applying them returns no error. -/
theorem Carries.noErr_applyWrite {w : Nat × Bytes} (hw : w ∈ txn.writesIter) :
    (applyWrite w ts).1.NoErr := by
  obtain ⟨id, bytes⟩ := w
  have hget : txn.getWrite id = some bytes := mem_writesIter.mp hw
  cases bytes with
  | nil => exact noErr_panicked
  | cons tag bytes =>
    simp only [applyWrite]
    split
    · exact noErr_update (noErr_ok _)
    · next htag =>
      refine noErr_bind (noErr_update (noErr_ok _)) fun _ _ => ?_
      refine noErr_bind ?_ fun row _ => noErr_update (noErr_maintain _ id row)
      obtain hb | ⟨b, hb, hlaw⟩ := (h.2.writes id _ hget).2
      · exact absurd (List.cons.inj hb).1 htag
      · cases hb
        obtain ⟨row, hrow⟩ := h.1.decode_ok hlaw id
        show Outcome.NoErr (ts.decode id bytes)
        simp [hrow, noErr_ok _]

theorem Carries.noErr_applyTxn : (applyTxn txn ts).1.NoErr := by
  have hloop : Keeps (Applies rowLaw txn) (Carries rowLaw txn) (forEach applyWrite txn.writesIter)
      fun _ => Carries rowLaw txn :=
    keeps_forEach Carries.refl Applies.trans fun w hw => applyWrite_keeps hw
  refine noErr_bind (noErr_forEach (fun w hw => applyWrite_keeps hw)
    (fun w hw s hs => hs.noErr_applyWrite hw) h) fun u hu => noErr_update ?_
  exact ((hloop ts h (by rw [hu]; trivial)).2 u hu).1.noErr_maybeBuild

/-- A table that does not conflict commits without an error. -/
theorem Carries.noErr_commitTable {name : String} (hc : ts.mvcc.conflicts txn = false) :
    (commitTable name txn ts).1.NoErr := by
  refine noErr_bind ?_ fun _ _ => ?_
  · rw [commitMvcc_run, hc]
    exact noErr_ok _
  · rw [commitMvcc_run]
    exact Carries.noErr_applyTxn ⟨h.commitMvcc.2, h.2.evolves h.commitMvcc.1⟩

end

end TableStorage

/-! ## COMMIT -/

/-- What a `COMMIT` of the parts `txns` may do: an error leaves every row and
vector index, success has applied every buffered write. -/
structure AllOrNothing (txns : TableTxns) (db : Database)
    (r : Outcome DbError ResultSet × Database) : Prop where
  failed : ∀ e, r.1 = .error (.err e) → SameRows db r.2
  applied : ∀ rs, r.1 = .ok rs → ∀ name txn, txns.lookup name = some txn →
    ∃ ts, r.2.table name = some ts ∧
      ∀ id bytes, txn.getWrite id = some bytes → ts.tree.find? id = writtenRow bytes

theorem Transaction.overlay_of_write {txn : Transaction} {id : Nat} {bytes : Bytes}
    (h : txn.getWrite id = some bytes) (tree : SortedMap Nat Bytes) :
    txn.overlay tree id = writtenRow bytes := by
  simp [Transaction.overlay, h]

/-- The result of a statement without rows. -/
theorem AllOrNothing.silent
    {p : DbProgram Unit} (hfail : ∀ e, (p db).1 = .error (.err e) → SameRows db (p db).2)
    (hok : ∀ db', p db = (.ok (), db') → ∀ name txn, txns.lookup name = some txn →
      ∃ ts, db'.table name = some ts ∧
        ∀ id bytes, txn.getWrite id = some bytes → ts.tree.find? id = writtenRow bytes) :
    AllOrNothing txns db (silent p db) := by
  rw [silent_run]
  generalize p db = r at hfail hok
  obtain ⟨_ | _, db'⟩ := r
  · exact ⟨fun e he => hfail e (by cases he; rfl), fun _ hr => (nomatch hr)⟩
  · exact ⟨fun _ he => (nomatch he), fun _ _ => hok db' rfl⟩

variable {hidden : List TableTxns}

/-- The apply phase on a sound database returns no error. -/
theorem applyTables_noErr (h : db.Sound rowLaw (txns :: hidden)) :
    (applyTables txns db).1.NoErr := by
  have hkeeps : ∀ e ∈ txns, Keeps (fun _ _ => True) (fun s : Database =>
      s.Sound rowLaw (txns :: hidden))
      (onTable e.1 (applyTxn e.2)) fun _ s => s.Sound rowLaw (txns :: hidden) := by
    intro e hm s hs hret
    obtain ⟨ts, hts, hc⟩ := hs.carries hm
    simp only [onTable, hts] at hret ⊢
    have hk := applyTxn_step ts hc hret
    exact ⟨trivial, fun _ _ => hs.setTable hts hk.1.2 hk.1.1⟩
  refine noErr_forEach hkeeps (fun e hm s hs => ?_) h
  obtain ⟨ts, hts, hc⟩ := hs.carries hm
  simp [onTable, hts, hc.noErr_applyTxn]

/-- Validated and applied: every table holds the transaction's overlay. -/
theorem written_of_apply {txn : Transaction} {ts₁ ts₂ : TableStorage} {name : String}
    (hv : commitMvcc name txn ts = (.ok (), ts₁))
    (ha : applyTxn txn ts₁ = (.ok (), ts₂)) (id : Nat) :
    ts₂.tree.find? id = txn.overlay ts.tree id := by
  rw [applyTxn_ok ha]
  grind [commitMvcc_run]

/-- `COMMIT` of the database: an error can only come from the validation. -/
theorem runCommit_allOrNothing (h : db.Sound rowLaw hidden) :
    AllOrNothing db.activeTxns db (silent runCommit db) := by
  cases hin : db.inTransaction with
  | false =>
    refine .silent (fun e _ => ?_) fun db' hok => ?_
    · rw [runCommit_of_closed hin]
      exact .refl db
    · simp [runCommit_of_closed hin] at hok
  | true =>
    have hclose := h.close
    refine .silent (fun e he => ?_) fun db' hok name txn hlookup => ?_
    · rw [runCommit_of_open hin] at he ⊢
      have hsame : SameRows _ (validateTables db.activeTxns _).2 := fun n =>
        leaves_validateTables (fun _ _ => rfl) db.activeTxns n
          { db with inTransaction := false, activeTxns := [] }
      have hsound := forEachTable_sound hidden db.activeTxns
        (fun name _ => commitMvcc_step name) _ hclose
      rw [bind_run] at he ⊢
      unfold validateTables at he hsame ⊢
      generalize forEach (fun e => onTable e.1 (commitMvcc e.1 e.2)) db.activeTxns
        { db with inTransaction := false, activeTxns := [] } = v at he hsame hsound ⊢
      obtain ⟨_ | u, db₁⟩ := v
      · exact hsame
      · exact absurd he (applyTables_noErr ((hsound trivial).2 u rfl) e)
    · rw [runCommit_of_open hin] at hok
      obtain ⟨_, db₁, hvalid, happly⟩ := bind_ok.mp hok
      have hmem := mem_of_lookup hlookup
      obtain ⟨ts, hts, -⟩ := h.active.held name txn hlookup
      obtain ⟨ts₁, hv, hts₁⟩ := (forEachTable_ok h.active.names hvalid).2 _ hmem ts hts
      obtain ⟨ts₂, ha, hts₂⟩ := (forEachTable_ok (p := fun _ txn => applyTxn txn)
        h.active.names happly).2 _ hmem ts₁ hts₁
      refine ⟨ts₂, hts₂, fun id bytes hw => ?_⟩
      rw [written_of_apply hv ha, Transaction.overlay_of_write hw]

/-! ## COMMIT of a session -/

/-- Only the first table the session touched can conflict. -/
def ConflictsFirst (db : Database) (sid : Nat) : Prop :=
  ∀ st, db.sessionTxns.find? sid = some st → ∀ e ∈ st.activeTxns.tail, ∀ ts,
    db.table e.1 = some ts → ts.mvcc.conflicts e.2 = false

/-- Tables that do not conflict commit without an error. -/
theorem commitTables_noErr {all : TableTxns}
    (h : db.Sound rowLaw (all :: hidden)) (hsub : ∀ e ∈ txns, e ∈ all)
    (hd : (txns.map Prod.fst).Nodup)
    (hc : ∀ e ∈ txns, ∀ ts, db.table e.1 = some ts → ts.mvcc.conflicts e.2 = false) :
    (commitTables txns db).1.NoErr := by
  induction txns generalizing db with
  | nil => exact noErr_ok _
  | cons e txns ih =>
    rw [List.map_cons, List.nodup_cons] at hd
    obtain ⟨ts, hts, hcarries⟩ := h.carries (hsub e (.head _))
    have hrun : onTable e.1 (commitTable e.1 e.2) db =
        ((commitTable e.1 e.2 ts).1, db.setTable e.1 (commitTable e.1 e.2 ts).2) := by
      simp [onTable, hts]
    show ((onTable e.1 (commitTable e.1 e.2) >>= fun _ => commitTables txns) db).1.NoErr
    refine noErr_bind ?_ fun u hu => ?_
    · rw [hrun]
      exact hcarries.noErr_commitTable (hc e (.head _) ts hts)
    · rw [hrun] at hu ⊢
      have hk := (commitTable_step e.1 e.2 ts hcarries (by rw [hu]; trivial)).1
      refine ih (h.setTable hts hk.2 hk.1) (fun e' hm => hsub e' (.tail e hm)) hd.2
        fun e' hm ts' hts' => ?_
      -- the other tables are as before
      have hne : e'.1 ≠ e.1 := fun heq => hd.1 (heq ▸ List.mem_map_of_mem (f := Prod.fst) hm)
      exact hc e' (.tail e hm) ts' (by simpa [hne] using hts')

/-- A commit whose first table alone can conflict changes nothing if it fails. -/
theorem commitTables_sameRows (h : db.Sound rowLaw (txns :: hidden))
    (hc : ∀ e ∈ txns.tail, ∀ ts, db.table e.1 = some ts → ts.mvcc.conflicts e.2 = false)
    {e : DbError} (he : (commitTables txns db).1 = .error (.err e)) :
    SameRows db (commitTables txns db).2 := by
  have hfits := h.hidden txns (.head _)
  cases txns with
  | nil => cases he
  | cons first rest =>
    obtain ⟨ts, hts, -⟩ := h.carries (.head _)
    cases hconf : ts.mvcc.conflicts first.2 with
    | true =>
      have hrun : onTable first.1 (commitTable first.1 first.2) db =
          (fail (.transactionError ("commit conflict on table '" ++ first.1 ++ "'")),
            db.setTable first.1 { ts with mvcc := (ts.mvcc.commit first.2).2 }) := by
        simp [onTable, hts, commitTable, bind_run, commitMvcc_run, hconf, fail]
      simpa [bind_run, hrun, commitTables, forEach] using .setTable hts rfl rfl
    | false =>
      refine absurd he (commitTables_noErr h (fun _ hm => hm) hfits.names ?_ e)
      intro e' hm ts' hts'
      rcases List.mem_cons.mp hm with rfl | hm
      · rw [hts] at hts'
        cases hts'
        exact hconf
      · exact hc e' hm ts' hts'

theorem sessionCommit_allOrNothing (h : db.Sound rowLaw hidden) {sid : Nat}
    (hc : ConflictsFirst db sid) {st : SessionTxn} (hst : db.sessionTxns.find? sid = some st) :
    AllOrNothing st.activeTxns db (silent (sessionCommit sid) db) := by
  have hfits := h.sessions sid st hst
  obtain ⟨st', hst', -, hrun⟩ | ⟨-, hrun⟩ := sessionCommit_run sid db
  · rw [hst] at hst'
    cases hst'
    refine .silent (fun e he => ?_) fun db' hok name txn hlookup => ?_
    · rw [hrun] at he ⊢
      exact commitTables_sameRows (h.takeSession hst) (hc st hst) he
    · rw [hrun] at hok
      obtain ⟨ts, hts, -⟩ := hfits.held name txn hlookup
      obtain ⟨ts₂, hp, hts₂⟩ := (forEachTable_ok hfits.names hok).2 _ (mem_of_lookup hlookup) ts hts
      obtain ⟨_, ts₁, hv, ha⟩ := bind_ok.mp hp
      refine ⟨ts₂, hts₂, fun id bytes hw => ?_⟩
      rw [written_of_apply hv ha, Transaction.overlay_of_write hw]
  · refine .silent (fun e _ => ?_) fun db' hok => ?_
    · rw [hrun]
      exact .refl db
    · simp [hrun] at hok

/-! ## Every run -/

/-- A database just made, with a proper schema. -/
def Database.Initial (db : Database) : Prop :=
  db = .empty ∨ ∃ schema, schema.Proper ∧ db = .new schema

theorem Database.Initial.sound (h : db.Initial) : db.Sound rowLaw [] := by
  rcases h with rfl | ⟨schema, hs, rfl⟩
  · exact Database.sound_empty
  · exact Database.sound_new hs

/-- `CREATE TABLE name (a INT)`. -/
def createNamed (name : String) : Statement := .createTable ⟨name, [⟨"a", .int, []⟩], []⟩

/-- `INSERT INTO name (a) VALUES (n)`. -/
def insertInto (name : String) (n : Int64) : Statement := .insert ⟨name, ["a"], [[.int n]]⟩

/-- `UPDATE name SET a = n`. -/
def updateNamed (name : String) (n : Int64) : Statement := .update ⟨name, [⟨"a", .int n⟩], none⟩

end Archon
