import Archon.Relational.UniqueRuns

/-!
# Archon.Relational.RowIds

Row ids come from a counter of the table.  While it counts up, the tree, the
version store and the write buffers hold ids already handed out, no id is handed
out twice, and a scan up to the counter misses no row.

The counter is a `u64` and wraps round.  `run64` are the calls as compiled: they
do what `run` says as long as the rows of an `INSERT` have ids left below
2 ^ 64, and after that they hand out the first ids once more (`row_id_reused`).
-/

namespace Archon

open Program Database List ClientCall Option

variable {db db' : Database} {depth : Nat} {name : String} {c : ClientCall} {stmt : Statement}
  {params : Params} {hidden : List TableTxns}
  {ts ts' : TableStorage} {cs : List ClientCall} {slots : List Nat} {row : Row} {rows : List Row}

/-! ## The counter -/

namespace Database

/-- The counter of a table, 0 as long as there is no such table. -/
def nextRowId (db : Database) (n : String) : Nat :=
  ((db.table n).map TableStorage.nextRowId).getD 0

theorem nextRowId_of_table (h : db.table name = some ts) : db.nextRowId name = ts.nextRowId := by
  simp [nextRowId, h]

/-- No counter has gone back. -/
def Counts (db db' : Database) : Prop := ∀ n, db.nextRowId n ≤ db'.nextRowId n

namespace Counts

theorem of_tables (h : db'.tables = db.tables) : db.Counts db' := by
  simp [Counts, nextRowId, table, h]

theorem trans {db'' : Database} (h : db.Counts db') (h' : db'.Counts db'') : db.Counts db'' :=
  fun n => Nat.le_trans (h n) (h' n)

theorem setTable (hts : db.table name = some ts) (h : ts.nextRowId ≤ ts'.nextRowId) :
    db.Counts (db.setTable name ts') := by
  intro n
  by_cases hn : n = name
  · subst hn
    simpa [nextRowId, hts] using h
  · simp [nextRowId, hn]

theorem of_frame {P : String → Nat → Prop} (h : StatementFrame P db db') : db.Counts db' := by
  intro n
  cases hts : db.table n with
  | none => simp [nextRowId, hts]
  | some ts =>
    obtain ⟨ts', hts', hv⟩ := h.tables n ts hts
    simpa [nextRowId, hts, hts'] using hv.nextRowId

end Counts

end Database

theorem forEachTable_counts (hidden : List TableTxns)
    (txns : TableTxns)
    {p : String → Transaction → Program DbError TableStorage Unit}
    (hp : ∀ name txn, TableStorage.CommitStep .any txn (p name txn)) :
    Keeps Database.Counts (fun db => db.Sound .any (txns :: hidden))
      (forEach (fun e => onTable e.1 (p e.1 e.2)) txns)
      fun _ db => db.Sound .any (txns :: hidden) :=
  forEachTable_keeps hidden txns (fun _ _ => .of_tables rfl) (fun _ _ _ h h' => h.trans h') hp
    fun _ name txn ts hts hcarries hret _ =>
      .setTable hts (hp name txn ts hcarries hret).1.1.nextRowId

section

variable (h : db.Sound .any hidden)
include h

theorem runCommit_counts (hret : (runCommit db).1.Returns) : db.Counts (runCommit db).2 := by
  cases hin : db.inTransaction with
  | false =>
    rw [runCommit_of_closed hin]
    exact .of_tables rfl
  | true =>
    rw [runCommit_of_open hin] at hret ⊢
    have hvalidate := forEachTable_counts hidden db.activeTxns
      fun name _ => TableStorage.commitMvcc_step name
    have happly := forEachTable_counts hidden db.activeTxns fun _ _ => TableStorage.applyTxn_step
    exact .trans (.of_tables rfl) (keeps_bind (fun _ _ _ h h' => h.trans h') _ hvalidate
      (fun _ => happly) _ h.close hret).1

theorem sessionCommit_counts {sid : Nat} (hret : (sessionCommit sid db).1.Returns) :
    db.Counts (sessionCommit sid db).2 := by
  obtain ⟨st, hst, -, hrun⟩ | ⟨-, hrun⟩ := sessionCommit_run sid db
  · rw [hrun] at hret ⊢
    have hframe := (commitTables_frame st.activeTxns _ (h.takeSession hst) hret).1
    exact (Database.Counts.of_frame hframe :)
  · rw [hrun]
    exact .of_tables rfl

theorem execute_counts (hret : (execute depth stmt params db).1.Returns) :
    db.Counts (execute depth stmt params db).2 := by
  cases hctl : stmt.isTxnControl with
  | false => exact .of_frame (execute_frame h hctl hret)
  | true =>
    have hx := execute_spec depth stmt params db
    generalize (execute depth stmt params db).1.Returns = returns at hx hret
    generalize (execute depth stmt params db).2 = db' at hx
    cases hx with
    | same hs => exact .of_tables hs.tables
    | begin | rollback => exact .of_tables rfl
    | commit => exact runCommit_counts h hret
    | _ => cases hctl

end

/-- No call makes a counter go back. -/
theorem ClientCall.run_counts (h : db.Sound .any []) (hret : (c.run depth db).1.Returns) :
    db.Counts (c.run depth db).2 := by
  cases c with
  | execute => exact execute_counts h hret
  | inSession sid stmt params =>
    have hx := executeInSession_spec depth sid stmt params db
    simp only [run] at hret ⊢
    generalize (executeInSession depth sid stmt params db).1.Returns = returns at hx hret
    generalize (executeInSession depth sid stmt params db).2 = db' at hx
    cases hx with
    | inside =>
      have henter : db.Counts (db.enterSession sid) := .of_tables rfl
      exact (henter.trans (execute_counts (h.enterSession sid) hret)).trans (.of_tables rfl)
    | outside => exact execute_counts h hret
    | begin | rollback | idle => exact .of_tables rfl
    | commit => exact sessionCommit_counts h hret

/-! ## The calls as compiled -/

/-- Hand out the next row id; the counter wraps round. -/
def allocRow64 (name : String) : DbProgram Nat := fun db =>
  match db.table name with
  | none => (Outcome.fail (.unknownTable name), db)
  | some ts =>
    (.ok ts.nextRowId, db.setTable name { ts with nextRowId := (ts.nextRowId + 1) % 2 ^ 64 })

def insertRow64 (name : String) (slots : List Nat) (row : Row) : DbProgram Unit := do
  let id ← allocRow64 name
  let row ← read fun _ => withImplicitId slots id row
  update fun db => db.putRow name id row
  update fun db => db.buildIndexes name

def runInsertStmt64 (depth : Nat) (stmt : InsertStatement) : DbProgram Nat := do
  touch stmt.table
  let (slots, rows) ← read fun db => insertRows db.readView depth stmt
  forEach (insertRow64 stmt.table slots) rows
  return rows.length

/-- Run a program on the database the client sees. -/
def ClientCall.within (p : DbProgram α) : ClientCall → DbProgram α
  | .execute _ _ => p
  | .inSession sid _ _ => fun db =>
    if db.sessionInTransaction sid then
      let (r, after) := p (db.enterSession sid)
      (r, after.leaveSession sid db)
    else p db

/-- A call; only an `INSERT` counts. -/
def ClientCall.run64 (depth : Nat) (c : ClientCall) : DbProgram ResultSet :=
  match c.stmt with
  | .insert i => c.within (affecting (runInsertStmt64 depth i))
  | _ => c.run depth

/-- The database after a list of calls, if each of them returns. -/
def runCalls64 (depth : Nat) : List ClientCall → Database → Option Database
  | [], db => some db
  | c :: cs, db =>
    match c.run64 depth db with
    | (.ok _, db') => runCalls64 depth cs db'
    | (.error (.err _), db') => runCalls64 depth cs db'
    | (.error _, _) => none

/-- The rows of an `INSERT` have ids left. -/
def ClientCall.HasRoom (c : ClientCall) (db : Database) : Prop :=
  match c.stmt with
  | .insert i => db.nextRowId i.table + i.values.length < 2 ^ 64
  | _ => True

/-- So has every call, in the database it is made in. -/
def AllHaveRoom (depth : Nat) : List ClientCall → Database → Prop
  | [], _ => True
  | c :: cs, db => c.HasRoom db ∧ AllHaveRoom depth cs (c.run64 depth db).2

theorem leaves_nextRowId {p : DbProgram α}
    (h : ∀ n, Leaves (fun db : Database => (db.table n).map TableStorage.nextRowId) p) :
    Leaves nextRowId p := fun db => funext fun n => congrArg (Option.getD · 0) (h n db)

/-- Storing a row hands out no id. -/
theorem leaves_storeRow (name : String) (id : Nat) (row : Row) (slots : List Nat) :
    Leaves nextRowId (do
      let row ← read fun _ => withImplicitId slots id row
      update fun db => db.putRow name id row
      update fun db => db.buildIndexes name : DbProgram Unit) := by
  exact leaves_nextRowId fun n => leaves_bind (leaves_read _) fun row =>
    leaves_bind (leaves_update fun _ _ h => map_table_putRow (fun _ _ _ => rfl) h n)
      fun _ => leaves_update fun _ _ h => map_table_buildIndexes (fun _ _ _ => rfl) h n

theorem leaves_touch_nextRowId (name : String) : Leaves nextRowId (touch name) := by
  refine leaves_nextRowId fun n => leaves_update fun db db' h => ?_
  cases h
  unfold ensureTxn
  grind [table]

/-- However inserting a row ends, one id is used up. -/
theorem nextRowId_insertRow (hts : db.table name = some ts) (slots : List Nat)
    (row : Row) : (allocRow name db).1 = .ok (db.nextRowId name) ∧
      (insertRow name slots row db).2.nextRowId name = db.nextRowId name + 1 := by
  have hrest := leaves_storeRow name ts.nextRowId row slots
    (db.setTable name { ts with nextRowId := ts.nextRowId + 1 })
  refine ⟨by rw [allocRow_run hts, nextRowId_of_table hts], ?_⟩
  unfold insertRow
  rw [bind_run, allocRow_run hts]
  simp only [hrest]
  simp [nextRowId, hts]

theorem allocRow64_eq (h : db.nextRowId name + 1 < 2 ^ 64) :
    allocRow64 name db = allocRow name db := by
  unfold allocRow64 allocRow
  cases hts : db.table name with
  | none => rfl
  | some ts =>
    rw [nextRowId_of_table hts] at h
    simp only [Nat.mod_eq_of_lt h]

theorem insertRow64_eq (h : db.nextRowId name + 1 < 2 ^ 64) :
    insertRow64 name slots row db = insertRow name slots row db := by
  rw [insertRow64, insertRow, bind_run, bind_run, allocRow64_eq h]

theorem forEach_insertRow64 (h : db.nextRowId name + rows.length < 2 ^ 64) :
    forEach (insertRow64 name slots) rows db = forEach (insertRow name slots) rows db := by
  induction rows generalizing db with
  | nil => rfl
  | cons row rows ih =>
    rw [length_cons] at h
    rw [forEach, forEach, bind_run, bind_run, insertRow64_eq (by omega)]
    cases hts : db.table name with
    | none => simp [insertRow, bind_run, allocRow, hts, Outcome.fail]
    | some ts =>
      have hnext := (nextRowId_insertRow hts slots row).2
      generalize insertRow name slots row db = r at hnext
      obtain ⟨_ | _, db'⟩ := r
      · rfl
      · exact ih (by simp only at hnext; omega)

theorem length_insertRows {v : ReadView} {i : InsertStatement}
    (h : insertRows v depth i = .ok (slots, rows)) : rows.length = i.values.length := by
  obtain ⟨rt, -, -, hrows, -⟩ := insertRows_ok h
  exact Except.length_of_mapM_eq_ok hrows

theorem runInsertStmt64_eq {i : InsertStatement}
    (h : db.nextRowId i.table + i.values.length < 2 ^ 64) :
    runInsertStmt64 depth i db = runInsertStmt depth i db := by
  rw [← leaves_touch_nextRowId i.table db] at h
  rw [runInsertStmt64, runInsertStmt, touch_then, touch_then, bind_run, bind_run]
  cases hins : insertRows (touch i.table db).2.readView depth i with
  | error f => simp [Program.read, hins]
  | ok r =>
    obtain ⟨slots, rows⟩ := r
    rw [← length_insertRows hins] at h
    simp [Program.read, hins, bind_run, forEach_insertRow64 h]

/-- With room the machine's counter is the counter. -/
theorem ClientCall.run64_eq (h : c.HasRoom db) : c.run64 depth db = c.run depth db := by
  cases hi : c.stmt with
  | insert i =>
    simp only [HasRoom, hi] at h
    simp only [run64, hi]
    cases c with
    | execute stmt params =>
      obtain rfl : stmt = .insert i := hi
      rw [within, run, Archon.execute, affecting_run, affecting_run, runInsertStmt64_eq h]
    | inSession sid stmt params =>
      obtain rfl : stmt = .insert i := hi
      have henter : (db.enterSession sid).nextRowId i.table + i.values.length < 2 ^ 64 := h
      rw [within, run, executeInSession_of_ordinary rfl]
      simp only [Archon.execute, affecting_run, runInsertStmt64_eq h, runInsertStmt64_eq henter]
  | _ => simp only [run64, hi]

/-! ## Ids handed out -/

/-- The ids the rows of an `INSERT` get, up to the first that fails. -/
def rowIds (name : String) (slots : List Nat) : List Row → Database → List Nat
  | [], _ => []
  | row :: rows, db =>
    match (allocRow64 name db).1 with
    | .error _ => []
    | .ok id =>
      match insertRow64 name slots row db with
      | (.ok (), db') => id :: rowIds name slots rows db'
      | (.error _, _) => [id]

/-- The ids a call hands out, each with its table. -/
def ClientCall.assigns (depth : Nat) (c : ClientCall) (db : Database) : List (String × Nat) :=
  match c.stmt with
  | .insert i =>
    match insertRows (c.runsOn db).readView depth i with
    | .ok (slots, rows) =>
      (rowIds i.table slots rows (touch i.table (c.runsOn db)).2).map fun id => (i.table, id)
    | .error _ => []
  | _ => []

/-- The ids a list of calls hands out. -/
def assignedIds (depth : Nat) : List ClientCall → Database → List (String × Nat)
  | [], _ => []
  | c :: cs, db => c.assigns depth db ++ assignedIds depth cs (c.run64 depth db).2

theorem rowIds_spec (slots : List Nat) (h : db.nextRowId name + rows.length < 2 ^ 64) :
    db.nextRowId name ≤ (forEach (insertRow name slots) rows db).2.nextRowId name ∧
      (rowIds name slots rows db).Pairwise (· < ·) ∧ ∀ id ∈ rowIds name slots rows db,
        db.nextRowId name ≤ id ∧
          id < (forEach (insertRow name slots) rows db).2.nextRowId name := by
  induction rows generalizing db with
  | nil => simp [rowIds, forEach, pure_run]
  | cons row rows ih =>
    rw [length_cons] at h
    unfold forEach rowIds
    rw [bind_run, allocRow64_eq (by omega), insertRow64_eq (by omega)]
    cases hts : db.table name with
    | none => simp [insertRow, bind_run, allocRow, hts, Outcome.fail]
    | some ts =>
      obtain ⟨halloc, hnext⟩ := nextRowId_insertRow hts slots row
      rw [halloc]
      generalize insertRow name slots row db = r at hnext
      obtain ⟨_ | a, db'⟩ := r
      · simp_all
      · have := @ih db'
        simp_all
        grind

theorem counted_run (p : DbProgram Unit) (n : Nat) (db : Database) :
    ((do p; return n : DbProgram Nat) db).2 = (p db).2 := by
  rw [bind_run]
  rcases p db with ⟨_ | _, _⟩ <;> rfl

/-- A call hands out ids from the counter before it to the counter after it. -/
theorem ClientCall.assigns_spec (hroom : c.HasRoom db) :
    (c.assigns depth db).Nodup ∧ ∀ e ∈ c.assigns depth db,
      db.nextRowId e.1 ≤ e.2 ∧ e.2 < (c.run depth db).2.nextRowId e.1 := by
  unfold assigns
  split
  · next i hi =>
    obtain ⟨hstart, hend⟩ : (c.runsOn db).nextRowId = db.nextRowId ∧ (c.run depth db).2.nextRowId =
        (runInsertStmt depth i (c.runsOn db)).2.nextRowId := by
      obtain ⟨params, hon, hrun⟩ | ⟨sid, params, -, hon, hrun⟩ :=
        @run_dml depth c (by simp [hi, Statement.isDml]) db
      · simp [hrun, hi, hon, Archon.execute, affecting_run]
      · simp [hrun, hi, hon, Archon.execute, affecting_run]
        exact ⟨rfl, rfl⟩
    simp only [HasRoom, hi] at hroom
    rw [← hstart, ← leaves_touch_nextRowId i.table (c.runsOn db)] at hroom
    rw [hend, ← hstart, ← leaves_touch_nextRowId i.table (c.runsOn db)]
    split
    · next slots rows hins =>
      rw [← length_insertRows hins] at hroom
      obtain ⟨-, hasc, hids⟩ := rowIds_spec slots hroom
      rw [runInsertStmt_run hins, counted_run]
      have hnodup : (rowIds i.table slots rows (touch i.table (c.runsOn db)).2).Nodup :=
        hasc.imp Nat.ne_of_lt
      exact ⟨hnodup.map fun _ _ h => (Prod.mk.inj h).2, by grind⟩
    · simp
  · simp

theorem runCalls_cons (h : runCalls depth (c :: cs) db = some db') :
    (c.run depth db).1.Returns ∧ runCalls depth cs (c.run depth db).2 = some db' := by
  unfold runCalls at h
  split at h <;> simp_all [Outcome.Returns]

theorem runCalls64_eq (h : AllHaveRoom depth cs db) :
    runCalls64 depth cs db = runCalls depth cs db := by
  induction cs generalizing db with
  | nil => rfl
  | cons c cs ih =>
    obtain ⟨hroom, hrest⟩ := h
    rw [run64_eq hroom] at hrest
    rw [runCalls64, runCalls, run64_eq hroom]
    split <;> simp_all

/-- A run of calls: what each hands out is above what the calls before it did. -/
theorem runCalls_ids (h : db.Sound .any []) (hroom : AllHaveRoom depth cs db)
    (hr : runCalls depth cs db = some db') :
    (assignedIds depth cs db).Nodup ∧ ∀ e ∈ assignedIds depth cs db, db.nextRowId e.1 ≤ e.2 := by
  induction cs generalizing db with
  | nil => simp [assignedIds]
  | cons c cs ih =>
    obtain ⟨hret, hrest⟩ := runCalls_cons hr
    obtain ⟨hc, hcs⟩ := hroom
    rw [assignedIds]
    rw [run64_eq hc] at hcs ⊢
    have hcounts := c.run_counts h hret
    obtain ⟨hnodup, hle⟩ := ih (c.run_sound h (obeys_any [] depth db c.stmt) hret) hcs hrest
    obtain ⟨hnodup₀, hids⟩ := @assigns_spec db depth c hc
    refine ⟨nodup_append.mpr ⟨hnodup₀, hnodup, ?_⟩, ?_⟩
    · intro e he e' he' heq
      grind
    · intro e he
      rcases mem_append.mp he with he | he
      · exact (hids e he).1
      · exact Nat.le_trans (hcounts e.1) (hle e he)

/-! ## Scans -/

/-- Below the counter a sorted map is read off key by key. -/
theorem SortedMap.range_filterMap (m : SortedMap Nat ν) {n : Nat}
    (h : ∀ k, (m.find? k).isSome → k < n) :
    ((List.range n).filterMap fun k => (m.find? k).map (k, ·)) = m.entries := by
  refine Ascending.eq_of_mem_iff ?_ m.ascending fun e => ?_
  · refine pairwise_filterMap.mpr (pairwise_lt_range.imp ?_)
    simp only [map_eq_some_iff]
    grind
  · have := m.find?_eq_some_iff (k := e.1) (v := e.2)
    simp only [mem_filterMap, mem_range, map_eq_some_iff]
    grind

/-- The rows up to the counter are those of the tree. -/
theorem TableStorage.rows_range (ts : TableStorage)
    (h : ∀ id, (ts.tree.find? id).isSome → id < ts.nextRowId) :
    ((ts.view none).rows (List.range ts.nextRowId)).map (fun rows => rows.map Prod.snd) =
      ts.tree.entries.mapM fun e => ts.decode e.1 e.2 := by
  rw [← ts.tree.range_filterMap h]
  generalize List.range ts.nextRowId = ids
  induction ids with
  | nil => rfl
  | cons id ids ih =>
    have hat : (ts.view none).rowAt id = ts.currentRow none id := rfl
    cases hid : ts.tree.find? id with
    | none => simpa [ReadTable.rows, hat, currentRow, currentBytes, hid] using ih
    | some bytes =>
      have hrow : ts.currentRow none id = (ts.decode id bytes).map some := by
        simp [currentRow, currentBytes, hid]
        rfl
      simp only [ReadTable.rows, hat, hrow, hid, filterMap_cons, map_some,
        mapM_cons, ← ih]
      cases ts.decode id bytes with
      | error => rfl
      | ok row => cases (ts.view none).rows ids <;> rfl

theorem overlaid_below {txn : Option Transaction} (h : ts.Sound .any)
    (ht : ∀ t, txn = some t → ts.Holds .any t) (id : Nat)
    (hid : ((ts.overlaid txn).tree.find? id).isSome) : id < (ts.overlaid txn).nextRowId := by
  rw [(ts.overlaid_view txn).2]
  have hrow : ∀ {id}, (ts.tree.find? id).isSome → id < ts.nextRowId := fun hid => by
    obtain ⟨bytes, hbytes⟩ := isSome_iff_exists.mp hid
    exact (h.rows _ bytes hbytes).1
  cases txn with
  | none => exact hrow hid
  | some txn =>
    have htree := (TableStorage.foldl_overlayWrite txn.writes.ascending ts).2.2 id
    rw [show (ts.overlaid (some txn)).tree.find? id = _ from htree] at hid
    cases hw : txn.getWrite id with
    | none =>
      rw [show SortedMap.findIn id txn.writes.entries = none from hw] at hid
      exact hrow hid
    | some bytes => exact ((ht txn rfl).writes id bytes hw).1

theorem ClientCall.runsOn_sound (c : ClientCall) (h : db.Sound .any []) :
    ∃ hidden, (c.runsOn db).Sound .any hidden := by
  cases c with
  | execute => exact ⟨[], h⟩
  | inSession sid =>
    simp only [runsOn, Database.inSession]
    split
    · exact ⟨_, h.enterSession sid⟩
    · exact ⟨_, h⟩

/-- A scan reads the rows of the overlaid tree, one after the other. -/
theorem scanTable_overlaid (h : db.Sound .any hidden) {n : String}
    (hts : db.overlaid.table n = some ts) :
    scanTable db.readView n = (ts.tree.entries.mapM fun e => ts.decode e.1 e.2).map
      fun rows => ⟨ts.schema.columns, rows⟩ := by
  have hover := hts
  rw [table_overlaid] at hts
  obtain ⟨ts₀, hts₀, rfl⟩ := map_eq_some_iff.mp hts
  rw [h.agrees_overlaid.scan n,
    ← TableStorage.rows_range _ (overlaid_below (h.tables n ts₀ hts₀) (h.holds hts₀))]
  have hview : db.overlaid.readView.table n = some ((ts₀.overlaid (db.activeTxn n)).view none) := by
    rw [table_readView, hover]
    rfl
  generalize ts₀.overlaid (db.activeTxn n) = ts at hview ⊢
  rw [scanTable, hview]
  change ((ts.view none).rows (List.range ts.nextRowId) >>= _) = _
  cases (ts.view none).rows (List.range ts.nextRowId) <;> rfl

/-- All rows are at ids that have been handed out. -/
structure Database.IdsBelow (db : Database) : Prop where
  tree : ∀ n ts id, db.table n = some ts → (ts.tree.find? id).isSome → id < ts.nextRowId
  versions : ∀ n ts id, db.table n = some ts → (ts.mvcc.versions.find? id).isSome →
    id < ts.nextRowId
  active : ∀ n txn id, db.activeTxn n = some txn → (txn.getWrite id).isSome → id < db.nextRowId n
  sessions : ∀ sid n txn id, db.sessionTxn sid n = some txn → (txn.getWrite id).isSome →
    id < db.nextRowId n

theorem Database.Sound.idsBelow (h : db.Sound .any []) : db.IdsBelow := by
  have hbelow : ∀ {txns}, db.Fits .any txns → ∀ n txn id, txns.lookup n = some txn →
      (txn.getWrite id).isSome → id < db.nextRowId n := by
    intro txns hfits n txn id ht hid
    obtain ⟨ts, hts, hh⟩ := hfits.held n txn ht
    obtain ⟨bytes, hbytes⟩ := isSome_iff_exists.mp hid
    rw [nextRowId_of_table hts]
    exact (hh.writes id bytes hbytes).1
  refine ⟨fun n ts id hts hid => ?_, fun n ts id hts => (h.tables n ts hts).versions id,
    hbelow h.active, fun sid n txn id ht => ?_⟩
  · obtain ⟨bytes, hbytes⟩ := isSome_iff_exists.mp hid
    exact ((h.tables n ts hts).rows id bytes hbytes).1
  · obtain ⟨st, hst, ht⟩ := bind_eq_some_iff.mp ht
    exact hbelow (h.sessions sid st hst) n txn id ht

/-- In every database the calls of any clients lead to, as long as no counter
runs out: all rows are at ids below the counters, no id of a table has been
handed out twice, and a scan returns the rows of the tree under the reader's own
writes, one for each id in ascending order. -/
theorem row_ids {init : Database} (hinit : init.Fresh) (hroom : AllHaveRoom depth cs init)
    (hr : runCalls64 depth cs init = some db) :
    db.IdsBelow ∧ (assignedIds depth cs init).Nodup ∧
      ∀ (c : ClientCall) n ts, (c.runsOn db).overlaid.table n = some ts →
        scanTable (c.runsOn db).readView n =
          (ts.tree.entries.mapM fun e => ts.decode e.1 e.2).map
            fun rows => ⟨ts.schema.columns, rows⟩ := by
  rw [runCalls64_eq hroom] at hr
  have hsound : db.Sound .any [] :=
    (reaches_of_runCalls hr).sound (fun db c _ _ => obeys_any [] depth db c.stmt) hinit.sound.1
  refine ⟨hsound.idsBelow, (runCalls_ids hinit.sound.1 hroom hr).1, fun c n ts hts => ?_⟩
  obtain ⟨hidden, hs⟩ := c.runsOn_sound hsound
  exact scanTable_overlaid hs hts

/-- An insert in autocommit, and two in a session's transaction. -/
def threeInserts : List ClientCall :=
  [.execute (.createTable ⟨"t", [⟨"v", .int, []⟩], []⟩) [],
    .execute (.insert ⟨"t", ["v"], [[.int 7]]⟩) [], .inSession 1 .begin [],
    .inSession 1 (.insert ⟨"t", ["v"], [[.int 8], [.int 9]]⟩) []]

theorem row_ids_inserts : ∃ db, runCalls64 1 threeInserts .empty = some db ∧
    assignedIds 1 threeInserts .empty = [("t", 0), ("t", 1), ("t", 2)] ∧ db.IdsBelow := by
  obtain ⟨db, hdb, hids⟩ : ∃ db, runCalls64 1 threeInserts .empty = some db ∧
      assignedIds 1 threeInserts .empty = [("t", 0), ("t", 1), ("t", 2)] := by
    decide +kernel
  have hroom : AllHaveRoom 1 threeInserts .empty :=
    ⟨trivial, (by decide +kernel : _ + _ < 2 ^ 64), trivial, (by decide +kernel : _ + _ < 2 ^ 64),
      trivial⟩
  exact ⟨db, hdb, hids, (row_ids (.inl rfl) hroom hdb).1⟩

/-- A table in which `n` ids were handed out and no row is left. -/
def countedTo (n : Nat) : Database :=
  { empty with
    tables := [("t", { TableStorage.new { columns := ["id", "v"], types := [.int, .int] } with
      nextRowId := n })]
    sessionTxns := SortedMap.empty.insert 1 {} }

/-- An insert that is rolled back. -/
def insertRound (cs : List ClientCall) : List ClientCall :=
  .inSession 1 .begin [] :: .inSession 1 (.insert ⟨"t", ["v"], [[.int 7]]⟩) [] ::
    .inSession 1 .rollback [] :: cs

theorem insertRound_run (n : Nat) (cs : List ClientCall) :
    runCalls64 1 (insertRound cs) (countedTo n) = runCalls64 1 cs (countedTo ((n + 1) % 2 ^ 64)) ∧
      assignedIds 1 (insertRound cs) (countedTo n) =
        ("t", n) :: assignedIds 1 cs (countedTo ((n + 1) % 2 ^ 64)) :=
  ⟨rfl, rfl⟩

theorem exists_insertRounds (n k : Nat) (hk : k < 2 ^ 64) : ∃ cs db,
    runCalls64 1 cs (countedTo k) = some db ∧
      ("t", (k + n) % 2 ^ 64) ∈ assignedIds 1 cs (countedTo k) := by
  induction n generalizing k with
  | zero =>
    obtain ⟨hrun, hids⟩ := insertRound_run k []
    rw [Nat.add_zero, Nat.mod_eq_of_lt hk]
    exact ⟨insertRound [], _, hrun, by simp [hids]⟩
  | succ n ih =>
    obtain ⟨cs, db, hcs, hmem⟩ := ih ((k + 1) % 2 ^ 64) (Nat.mod_lt _ (by decide))
    obtain ⟨hrun, hids⟩ := insertRound_run k cs
    rw [Nat.mod_add_mod, show k + 1 + n = k + (n + 1) by omega] at hmem
    refine ⟨insertRound cs, db, hrun.trans hcs, ?_⟩
    rw [hids]
    exact .tail _ hmem

/-- After 2 ^ 64 inserts that were rolled back the next one gets the id of the
first. -/
theorem row_id_reused : ∃ cs db, runCalls64 1 cs .empty = some db ∧
    ¬ (assignedIds 1 cs .empty).Nodup := by
  obtain ⟨cs, db, hcs, hmem⟩ := exists_insertRounds (2 ^ 64 - 1) 1 (by decide)
  obtain ⟨hrun, hids⟩ := insertRound_run 0 cs
  let setup : List ClientCall := [.execute (.createTable ⟨"t", [⟨"v", .int, []⟩], []⟩) [],
    .inSession 1 .begin [], .inSession 1 .rollback []]
  refine ⟨setup ++ insertRound cs, db, hrun.trans hcs, ?_⟩
  have hassigned : assignedIds 1 (setup ++ insertRound cs) .empty =
      assignedIds 1 (insertRound cs) (countedTo 0) := rfl
  rw [hassigned, hids, nodup_cons]
  exact fun h => h.1 hmem

end Archon
