import Archon.Lib.Trace
import Archon.Pgwire.Status
import Archon.Relational.Isolation
import Mathlib.Data.List.Find

/-!
# Archon.Pgwire.FailedTxn

A transaction in which a statement has failed.

The wire layer marks the session as failed and goes on executing.  Changes of
rows stay in the transaction's buffer, but DDL takes effect at once, and a
`COMMIT` applies the buffer (`failed_rule_iff`).
-/

namespace Archon

open Program Database TableStorage Outcome MvccStore List QueryTurn Transaction

variable {db db' : Database} {depth : Nat} {stmt : Statement} {ts : TableStorage}
variable {params : Params} {txns : TableTxns} {ts' : TableStorage}

/-! ## What is committed -/

/-- Rows, schemas and views. -/
def SameCommitted (db db' : Database) : Prop :=
  db'.views = db.views ∧ ∀ n, (db'.table n).map (fun ts => (ts.schema, ts.tree)) =
    (db.table n).map fun ts => (ts.schema, ts.tree)

/-- Nothing of a transaction has been applied: neither rows nor versions. -/
def NothingApplied (db db' : Database) : Prop :=
  ∀ n, (db'.table n).map (fun ts => (ts.schema, ts.tree, ts.mvcc.versions)) =
    (db.table n).map fun ts => (ts.schema, ts.tree, ts.mvcc.versions)

theorem SameCommitted.of_tables (ht : db'.tables = db.tables) (hv : db'.views = db.views) :
    SameCommitted db db' :=
  ⟨hv, fun n => by rw [table, table, ht]⟩

theorem NothingApplied.of_tables (ht : db'.tables = db.tables) : NothingApplied db db' :=
  fun n => by rw [table, table, ht]

theorem NothingApplied.trans {db'' : Database} (h : NothingApplied db db')
    (h' : NothingApplied db' db'') : NothingApplied db db'' := fun n => (h' n).trans (h n)

theorem NothingApplied.setTable {name : String} (hts : db.table name = some ts)
    (hschema : ts'.schema = ts.schema) (htree : ts'.tree = ts.tree)
    (hversions : ts'.mvcc.versions = ts.mvcc.versions) : NothingApplied db (db.setTable name ts') :=
  map_table_setTable hts (by rw [hschema, htree, hversions])

/-! ## Data definition -/

theorem Schema.indexOf_lt {s : Schema} {name : String} {idx : Nat} (h : s.indexOf name = some idx) :
    idx < s.columns.length :=
  (findIdx?_eq_some_iff_getElem.mp h).1

theorem TableStorage.schema_reencode {f : Row → Outcome DbError Row} (h : ts.reencode f = .ok ts') :
    ts'.schema = ts.schema := by
  obtain ⟨rows, _, h⟩ := h.bind_ok
  cases h
  rfl

/-- `ALTER TABLE` changes the columns. -/
theorem TableStorage.alter_columns {op : AlterTableOp} (h : ts.alter op = .ok ts') :
    ts'.schema.columns ≠ ts.schema.columns := by
  intro heq
  cases op with
  | addColumn col =>
    obtain ⟨-, h⟩ := unless_eq_ok.mp h
    obtain ⟨ts₁, hts₁, h⟩ := h.bind_ok
    cases h
    have hlen := congrArg List.length heq
    simp [withColumns, schema_reencode hts₁] at hlen
  | dropColumn name =>
    obtain ⟨idx, hidx, h⟩ := h.bind_ok
    obtain ⟨-, h⟩ := unless_eq_ok.mp h
    obtain ⟨ts₁, hts₁, h⟩ := h.bind_ok
    cases h
    have hlt := Schema.indexOf_lt (okOr_eq_ok.mp hidx)
    have hlen := congrArg List.length heq
    simp only [withColumns, schema_reencode hts₁, length_eraseIdx, if_pos hlt] at hlen
    omega
  | renameColumn oldName newName =>
    obtain ⟨idx, hidx, h⟩ := h.bind_ok
    obtain ⟨-, h⟩ := unless_eq_ok.mp h
    obtain ⟨hnew, h⟩ := unless_eq_ok.mp h
    cases h
    have hlt := Schema.indexOf_lt (okOr_eq_ok.mp hidx)
    have hmem : newName ∈ ts.schema.columns.set idx newName := mem_set hlt newName
    replace heq : ts.schema.columns.set idx newName = ts.schema.columns := heq
    rw [heq] at hmem
    exact hnew (by simpa using hmem)

/-- DDL that succeeds has changed a schema or a view. -/
theorem ddl_changes (hddl : stmt.isDdl = true) {rs : ResultSet}
    (h : execute depth stmt params db = (.ok rs, db')) : ¬ SameCommitted db db' := by
  rintro ⟨hviews, htables⟩
  cases stmt with
  | createTable ct =>
    obtain ⟨_, _, h, hpure⟩ := bind_ok.mp h
    cases hpure
    obtain ⟨schema, -, hnone, rfl⟩ := createTable_ok (update_ok.mp h)
    have htable := htables ct.table
    simp only [table] at hnone
    simp [table, lookup_append, hnone] at htable
  | createView cv =>
    obtain ⟨_, _, h, hpure⟩ := bind_ok.mp h
    cases hpure
    replace h := update_ok.mp h
    obtain ⟨-, h⟩ := unless_eq_ok.mp h
    obtain ⟨-, h⟩ := unless_eq_ok.mp h
    cases h
    simp at hviews
  | dropView name =>
    obtain ⟨_, _, h, hpure⟩ := bind_ok.mp h
    cases hpure
    obtain ⟨pos, hpos, h⟩ := Except.bind_eq_ok.mp (update_ok.mp h)
    cases h
    have hlt := (findIdx?_eq_some_iff_getElem.mp (okOr_eq_ok.mp hpos)).1
    grind
  | alterTable a =>
    obtain ⟨_, _, h, hpure⟩ := bind_ok.mp h
    cases hpure
    obtain ⟨ts, ts', hts, halter, rfl⟩ := alterTable_ok (update_ok.mp h)
    have htable := htables a.table
    simp only [hts, table_setTable_self, Option.map_some, Option.some.injEq,
      Prod.mk.injEq] at htable
    exact alter_columns halter (congrArg Schema.columns htable.1)
  | _ => contradiction

/-- The engine refuses the statement, if it is DDL. -/
def RefusesDdl (db : Database) : Statement → Prop
  | .createTable ct => ∀ db', db.createTable ct ≠ .ok db'
  | .createView cv => ∀ db', db.createView cv ≠ .ok db'
  | .dropView name => ∀ db', db.dropView name ≠ .ok db'
  | .alterTable a => ∀ db', db.alterTable a ≠ .ok db'
  | _ => True

/-- DDL replaces the database, or fails and leaves it. -/
theorem ddl_run (hddl : stmt.isDdl = true) : ∃ f : Database → Outcome DbError Database,
    execute depth stmt params = silent (update f) ∧
      (RefusesDdl db stmt ↔ ∀ db', f db ≠ .ok db') := by
  cases stmt with
  | createTable | createView | dropView | alterTable => exact ⟨_, rfl, .rfl⟩
  | _ => contradiction

theorem refusesDdl_iff (hddl : stmt.isDdl = true) :
    RefusesDdl db stmt ↔ ¬ ∃ rs, (execute depth stmt params db).1 = .ok rs := by
  obtain ⟨f, hrun, hrefuses⟩ := @ddl_run db depth stmt params hddl
  rw [hrefuses, hrun, silent_run, update]
  cases f db <;> simp [Except.map]

theorem ddl_failed (hddl : stmt.isDdl = true) {e : Failure DbError}
    (h : (execute depth stmt params db).1 = .error e) : (execute depth stmt params db).2 = db := by
  obtain ⟨f, hrun, -⟩ := @ddl_run db depth stmt params hddl
  rw [hrun, silent_run, update] at h ⊢
  cases hdb : f db with
  | error e' => rfl
  | ok db' =>
    rw [hdb] at h
    contradiction

/-! ## Statements inside the transaction -/

section

variable {depth : Nat} {sid : Nat} {db : Database} {stmt : Statement}

theorem SameCommitted.of_outside (h : Outside sid db db') : SameCommitted db db' := by
  refine ⟨h.views, ?_⟩
  intro n
  have hrel := h.tables n
  generalize db.table n = x, db'.table n = y at hrel
  cases hrel with
  | none => rfl
  | some hg => rw [hg.same]; rfl

/-- An ordinary statement inside a transaction changes what is committed only
if it is DDL and succeeds. -/
theorem sameCommitted_iff (h : db.Sound .any []) (hin : db.sessionInTransaction sid = true)
    (hctl : stmt.isTxnControl = false) (hret : (executeInSession depth sid stmt [] db).1.Returns) :
    SameCommitted db (executeInSession depth sid stmt [] db).2 ↔
      RefusesDdl (db.enterSession sid) stmt := by
  cases hddl : stmt.isDdl with
  | true =>
    rw [refusesDdl_iff hddl, executeInSession_of_ordinary hctl, if_pos hin]
    cases hr : (execute depth stmt [] (db.enterSession sid)).1 with
    | ok rs =>
      have hchanged := ddl_changes hddl (Prod.ext hr rfl)
      simp only [Except.ok.injEq, exists_eq', not_true_eq_false, iff_false]
      exact hchanged
    | error e =>
      have hsame := ddl_failed hddl hr
      simpa [hsame] using .of_tables rfl rfl
  | false =>
    have hrefuses : RefusesDdl (db.enterSession sid) stmt := by
      cases stmt <;> trivial
    refine iff_of_true ?_ hrefuses
    cases hdml : stmt.isQueryOrDml with
    | true => exact .of_outside (OwnStep.outside h ⟨hin, stmt, [], hdml, hret, rfl⟩).1
    | false =>
      rw [executeInSession_of_ordinary hctl, if_pos hin]
      -- what is left are the session parameters
      cases stmt with
      | setParameter | showParameter | resetParameter | resetAll => exact .of_tables rfl rfl
      | _ => contradiction

theorem begin_sameCommitted : SameCommitted db (executeInSession depth sid .begin [] db).2 := by
  have hrun : executeInSession depth sid .begin [] db = silent (sessionBegin sid) db := rfl
  rw [hrun, silent_run, sessionBegin]
  split <;> exact .of_tables rfl rfl

end

/-! ## COMMIT -/

/-- The transaction has buffered a write. -/
def Transaction.hasWrites (txn : Transaction) : Bool := !txn.writes.entries.isEmpty

/-- Committing one table conflicts. -/
def conflictsIn (db : Database) (e : String × Transaction) : Bool :=
  (db.table e.1).any fun ts => ts.mvcc.conflicts e.2

/-- The vector indexes that one table is due cannot be built. -/
def indexesFail (db : Database) (e : String × Transaction) : Bool :=
  (db.table e.1).any fun ts => ts.maybeBuildVectorIndexes.toOption.isNone

/-- The commit gets past the table without having done anything. -/
def getsPast (db : Database) (e : String × Transaction) : Bool :=
  !(e.2.hasWrites || conflictsIn db e || indexesFail db e)

/-- The first table with writes conflicts, if the commit gets there. -/
def CommitsNothing (db : Database) (txns : TableTxns) : Prop :=
  ∀ e, txns.find? (fun e => !getsPast db e) = some e → e.2.hasWrites = true →
    conflictsIn db e = true

/-- Only the tables of the transactions matter. -/
theorem commitsNothing_congr (h : ∀ e ∈ txns, db'.table e.1 = db.table e.1) :
    CommitsNothing db' txns ↔ CommitsNothing db txns := by
  have hfind : txns.find? (fun e => !getsPast db' e) = txns.find? (fun e => !getsPast db e) := by
    apply find?_congr
    intro e he
    simp [getsPast, conflictsIn, indexesFail, h e he]
  unfold CommitsNothing
  rw [hfind]
  constructor
  · intro hc e he hw
    simpa [conflictsIn, h e (mem_of_find?_eq_some he)] using hc e he hw
  · intro hc e he hw
    simpa [conflictsIn, h e (mem_of_find?_eq_some he)] using hc e he hw

/-! ### One table -/

section

variable {name : String} {txn : Transaction} {ts : TableStorage}

theorem commitTable_run (name : String) (txn : Transaction) (ts : TableStorage) :
    commitTable name txn ts =
      if ts.mvcc.conflicts txn then
        (Outcome.fail (.transactionError ("commit conflict on table '" ++ name ++ "'")), ts)
      else applyTxn txn { ts with mvcc := (ts.mvcc.commit txn).2 } := by
  unfold commitTable
  rw [bind_run, commitMvcc_run]
  cases hc : ts.mvcc.conflicts txn with
  | true =>
    have hsame : (ts.mvcc.commit txn).2 = ts.mvcc := by simp [commit, hc]
    simp [fail, hsame]
  | false => simp

/-- Applying writes leaves the versions alone. -/
theorem leaves_applyWrite (w : Nat × Bytes) :
    Leaves mvcc (applyWrite w) := by
  obtain ⟨id, _ | ⟨tag, bytes⟩⟩ := w
  · exact leaves_read _
  · rw [applyWrite]
    split
    · apply leaves_update
      intro ts ts' h
      cases h
      rfl
    · refine leaves_bind (leaves_update ?_) fun _ =>
        leaves_bind (leaves_read _) fun row => leaves_update ?_
      · simp
      · intro ts ts' h
        obtain ⟨idx, rfl⟩ := maintainVectorIndexesForRow_ok h
        rfl

theorem leaves_applyTxn (txn : Transaction) :
    Leaves mvcc (applyTxn txn) := by
  refine leaves_bind (leaves_forEach fun w _ => leaves_applyWrite w) fun _ => leaves_update ?_
  intro ts ts' h
  obtain ⟨idx, rfl⟩ := maybeBuildVectorIndexes_ok h
  rfl

theorem TableStorage.maybeBuildVectorIndexes_mvcc (ts : TableStorage) (mvcc : MvccStore) :
    { ts with mvcc }.maybeBuildVectorIndexes =
      ts.maybeBuildVectorIndexes.map fun ts' => { ts' with mvcc } := by
  have hrows : ∀ ids, { ts with mvcc }.committedRows ids =
      (ts.committedRows ids : Outcome DbError (List (Nat × Row))) := by
    intro ids
    induction ids with
    | nil => rfl
    | cons id ids ih => simp only [committedRows, ih]; rfl
  have hcols : { ts with mvcc }.pendingCols = ts.pendingCols := rfl
  unfold maybeBuildVectorIndexes
  rw [hrows, hcols]
  split
  · rfl
  split
  · rfl
  cases ts.committedRows (List.range ts.nextRowId) with
  | error e => rfl
  | ok rows =>
    simp only [Except.ok_bind]
    cases buildIndexes rows ts.pendingCols <;> rfl

/-- A table without writes is left as it is; its indexes may be built. -/
theorem commitTable_no_writes (h : txn.hasWrites = false) :
    ((commitTable name txn ts).1 = .ok () ↔
      ts.mvcc.conflicts txn = false ∧ ts.maybeBuildVectorIndexes.toOption.isNone = false) ∧
      (commitTable name txn ts).2.schema = ts.schema ∧
      (commitTable name txn ts).2.tree = ts.tree ∧
      (commitTable name txn ts).2.mvcc.versions = ts.mvcc.versions := by
  have hnil : txn.writes.entries = [] := by simpa [hasWrites] using h
  have hrun : applyTxn txn = update maybeBuildVectorIndexes := by
    funext ts
    simp [applyTxn, writesIter, hnil, forEach, bind_run, pure_run]
  rw [commitTable_run, hrun]
  cases hc : ts.mvcc.conflicts txn with
  | true => simp
  | false =>
    have hversions : (ts.mvcc.commit txn).2.versions = ts.mvcc.versions := by
      simp [commit, hc, hnil]
    simp only [update, maybeBuildVectorIndexes_mvcc]
    cases hb : ts.maybeBuildVectorIndexes with
    | error e => simp [Except.map, Except.toOption, hversions]
    | ok ts' =>
      obtain ⟨idx, rfl⟩ := maybeBuildVectorIndexes_ok hb
      simp [Except.map, Except.toOption, hversions]

/-- A table with writes that does not conflict gets new versions. -/
theorem commitTable_writes (hw : txn.hasWrites = true) (hc : ts.mvcc.conflicts txn = false) :
    (commitTable name txn ts).2.mvcc.versions ≠ ts.mvcc.versions := by
  intro heq
  have hmvcc : (commitTable name txn ts).2.mvcc = (ts.mvcc.commit txn).2 := by
    rw [commitTable_run, hc]
    exact leaves_applyTxn txn _
  obtain ⟨⟨id, bytes⟩, hmem⟩ : ∃ w, w ∈ txn.writesIter := by
    apply exists_mem_of_ne_nil
    simpa [hasWrites, writesIter] using hw
  have hfind : txn.writes.find? id = some bytes := mem_writesIter.mp hmem
  -- the version installed for the row shows
  have hchain := chain_commit hc id
  rw [hfind, MvccStore.chain, ← hmvcc, heq] at hchain
  have hlen := congrArg List.length hchain
  simp [MvccStore.chain] at hlen

end

/-! ### All tables -/

theorem commitTables_table {n : String} (h : n ∉ txns.map Prod.fst) (db : Database) :
    (commitTables txns db).2.table n = db.table n := by
  have hleaves : Leaves (fun db : Database => db.table n) (commitTables txns) := by
    refine leaves_forEach fun e he => leaves_onTable fun db ts hts => ?_
    have hne : n ≠ e.1 := by
      rintro rfl
      exact h (mem_map_of_mem (f := Prod.fst) he)
    simp [hne]
  exact hleaves db

theorem nothingApplied_iff (hd : (txns.map Prod.fst).Nodup)
    (hheld : ∀ e ∈ txns, ∃ ts, db.table e.1 = some ts) (hret : (commitTables txns db).1.Returns) :
    NothingApplied db (commitTables txns db).2 ↔ CommitsNothing db txns := by
  induction txns generalizing db with
  | nil => exact ⟨fun _ => by simp [CommitsNothing], fun _ => .of_tables rfl⟩
  | cons e rest ih =>
    obtain ⟨name, txn⟩ := e
    rw [map_cons, nodup_cons] at hd
    obtain ⟨ts, hts⟩ := hheld (name, txn) (.head _)
    have hrest : ∀ e ∈ rest, e.1 ≠ name := by
      intro e he heq
      have hmem := mem_map_of_mem (f := Prod.fst) he
      rw [heq] at hmem
      exact hd.1 hmem
    have hstep : onTable name (commitTable name txn) db =
        ((commitTable name txn ts).1, db.setTable name (commitTable name txn ts).2) := by
      simp [onTable, hts]
    have hcons : commitTables ((name, txn) :: rest) db =
        (onTable name (commitTable name txn) >>= fun _ => commitTables rest) db := rfl
    rw [bind_run, hstep] at hcons
    have hfinal : (commitTables ((name, txn) :: rest) db).2.table name =
        some (commitTable name txn ts).2 := by
      rw [hcons]
      cases (commitTable name txn ts).1 with
      | error f => simp [hts]
      | ok _ => simp [commitTables_table hd.1, hts]
    cases hw : txn.hasWrites with
    | true =>
      have hfirst : CommitsNothing db ((name, txn) :: rest) ↔ ts.mvcc.conflicts txn = true := by
        simp [CommitsNothing, getsPast, hw, conflictsIn, hts]
      rw [hfirst]
      constructor
      · intro hnothing
        by_contra hc
        have hsame := hnothing name
        rw [hfinal, hts] at hsame
        simp only [Option.map_some, Option.some.injEq, Prod.mk.injEq] at hsame
        exact commitTable_writes hw (by simpa using hc) hsame.2.2
      · intro hc
        rw [hcons, commitTable_run, hc]
        exact .setTable hts rfl rfl rfl
    | false =>
      obtain ⟨hresult, hschema, htree, hversions⟩ := @commitTable_no_writes name txn ts hw
      have hkeep : NothingApplied db (db.setTable name (commitTable name txn ts).2) :=
        .setTable hts hschema htree hversions
      rw [hcons] at hret ⊢
      cases hr : (commitTable name txn ts).1 with
      | error f =>
        -- the commit stops here
        have hpast : getsPast db (name, txn) = false := by
          rw [hr] at hresult
          simpa [getsPast, conflictsIn, indexesFail, hts, hw] using hresult
        have hstops : CommitsNothing db ((name, txn) :: rest) := by
          simp [CommitsNothing, hpast, hw]
        exact ⟨fun _ => hstops, fun _ => hkeep⟩
      | ok u =>
        have hpast : getsPast db (name, txn) = true := by
          simpa [getsPast, conflictsIn, indexesFail, hts, hw] using hresult.mp hr
        have hnext : CommitsNothing db ((name, txn) :: rest) ↔ CommitsNothing db rest := by
          simp [CommitsNothing, hpast]
        have hothers : ∀ e ∈ rest, (db.setTable name (commitTable name txn ts).2).table e.1 =
            db.table e.1 := by
          intro e he
          simp [hrest e he]
        rw [hr] at hret
        rw [hnext, ← commitsNothing_congr hothers, ← ih hd.2 ?_ hret]
        · constructor
          · intro h n
            exact (h n).trans (hkeep n).symm
          · exact hkeep.trans
        · intro e he
          obtain ⟨ts', hts'⟩ := hheld e (.tail _ he)
          exact ⟨ts', (hothers e he).trans hts'⟩

/-- The `COMMIT` of a session applies nothing exactly if its tables say so. -/
theorem commit_nothingApplied_iff {sid : Nat} (h : db.Sound .any []) {st : SessionTxn}
    (hst : db.sessionTxns.find? sid = some st) (hin : st.inTransaction = true)
    (hret : (executeInSession depth sid .commit [] db).1.Returns) :
    NothingApplied db (executeInSession depth sid .commit [] db).2 ↔
      CommitsNothing db st.activeTxns := by
  have hfits := h.sessions sid st hst
  have hrun : executeInSession depth sid .commit [] db = silent (sessionCommit sid) db := rfl
  have hcommit : sessionCommit sid db = commitTables st.activeTxns (db.setSession sid {}) := by
    obtain ⟨st', hst', _, hcommit⟩ | ⟨hclosed, _⟩ := sessionCommit_run sid db
    · rw [hst] at hst'
      cases hst'
      exact hcommit
    · simp [sessionInTransaction, hst, hin] at hclosed
  rw [hrun, silent_run, hcommit, returns_map] at hret
  rw [hrun, silent_run, hcommit]
  have hheld : ∀ e ∈ st.activeTxns, ∃ ts, (db.setSession sid {}).table e.1 = some ts := by
    rintro ⟨name, txn⟩ he
    obtain ⟨ts, hts, _⟩ := hfits.held name txn (lookup_of_mem hfits.names he)
    exact ⟨ts, hts⟩
  have htables : CommitsNothing (db.setSession sid {}) st.activeTxns ↔
      CommitsNothing db st.activeTxns := commitsNothing_congr fun _ _ => rfl
  rw [← htables, ← nothingApplied_iff hfits.names hheld hret]
  rfl

/-! ## Runs -/

/-- The statement that got to the engine. -/
def QueryTurn.statement : QueryTurn → Option Statement
  | .executed stmt _ | .failed stmt _ _ => some stmt
  | _ => none

instance (t : QueryTurn) : Decidable t.Fails := by
  cases t <;> unfold QueryTurn.Fails <;> infer_instance

namespace Server

/-- One piece of a query of a connection.  The reply also says whether the
connection was in a transaction. -/
def piece (fe : FrontEnd) (s : Server) (c : Nat × Text) : Option ((Bool × QueryTurn) × Server) :=
  match h : turn fe c.2 (s.sessions c.1) s.db with
  | none => none
  | some (t, session, db) =>
    some ((s.db.sessionInTransaction c.1, t),
      s.setSession c.1 session db ((turn_step h).id.trans (s.ids c.1)))

theorem piece_eq {fe : FrontEnd} {s s' : Server} {c : Nat × Text} {r : Bool × QueryTurn}
    (h : s.piece fe c = some (r, s')) :
    r.1 = s.db.sessionInTransaction c.1 ∧
      TurnStep fe c.2 (s.sessions c.1) s.db r.2 (s'.sessions c.1) s'.db := by
  simp only [piece] at h
  split at h
  · cases h
  · next t session db hturn =>
    cases h
    simpa [setSession] using turn_step hturn

end Server

/-- Whether the transaction is one in which a statement has failed, after one
more turn. -/
def failedAfter (failed inTransaction : Bool) (t : QueryTurn) : Bool :=
  match t.statement with
  | some .commit | some .rollback => false
  | _ => failed || (inTransaction && decide t.Fails)

/-- A statement has failed in the transaction the connection is in. -/
def failedIn (sid : Nat) (trace : List ((Nat × Text) × (Bool × QueryTurn))) : Bool :=
  trace.foldl (fun failed e => if e.1.1 = sid then failedAfter failed e.2.1 e.2.2 else failed) false

/-- What a statement may do in such a transaction. -/
def FailedRule (sid : Nat) (t : QueryTurn) (db db' : Database) : Prop :=
  match t.statement with
  | some .commit => db'.sessionInTransaction sid = false ∧ NothingApplied db db'
  | some .rollback => True
  | _ => SameCommitted db db'

/-- The piece is neither DDL that the engine takes, nor a `COMMIT` with
something to apply. -/
def Harmless (fe : FrontEnd) (sid : Nat) (raw : Text) (db : Database) : Prop :=
  ∀ stmt, fe.parseSql raw = .ok stmt → fe.handleCatalog stmt db = none →
    RefusesDdl (db.enterSession sid) stmt ∧
    (stmt = .commit → ∀ st, db.sessionTxns.find? sid = some st → CommitsNothing db st.activeTxns)

section

variable {fe : FrontEnd} {raw : Text} {session session' : Session} {db db' : Database}
  {t : QueryTurn}

section

variable (h : TurnStep fe raw session db t session' db')
include h

theorem TurnStep.sound (hs : db.Sound .any [] ∧ db.inTransaction = false) :
    db'.Sound .any [] ∧ db'.inTransaction = false := by
  have hengine : ∀ stmt : Statement, (executeInSession fe.depth session.id stmt [] db).1.Returns →
      (executeInSession fe.depth session.id stmt [] db).2.Sound .any [] ∧
        (executeInSession fe.depth session.id stmt [] db).2.inTransaction = false := by
    intro stmt hret
    exact ⟨executeInSession_sound hs.1 (obeys_any [] fe.depth db stmt) hret,
      (executeInSession_frame hs.1 hs.2 hret).inTransaction⟩
  cases h with
  | @executed stmt _ _ _ _ _ he | @failed stmt _ _ _ _ _ he =>
    simpa [he] using hengine stmt (by rw [he]; trivial)
  | _ => exact hs

/-- Only `COMMIT` and `ROLLBACK` close a transaction. -/
theorem TurnStep.open (hin : db.sessionInTransaction session.id = true)
    (hne : t.statement ≠ some .commit ∧ t.statement ≠ some .rollback) :
    db'.sessionInTransaction session.id = true := by
  have hengine : ∀ stmt : Statement, stmt ≠ .commit → stmt ≠ .rollback →
      (executeInSession fe.depth session.id stmt [] db).2.sessionInTransaction session.id =
        true := by
    intro stmt hcommit hrollback
    cases hctl : stmt.isTxnControl with
    | false => rw [executeInSession_flags hctl, hin]
    | true =>
      cases stmt with
      | begin => simp [(begin_flags []).2]
      | commit => exact absurd rfl hcommit
      | rollback => exact absurd rfl hrollback
      | _ => contradiction
  cases h with
  | @executed stmt _ _ _ _ _ he | @failed stmt _ _ _ _ _ he =>
    simpa [he] using hengine stmt (by simpa [statement] using hne.1)
      (by simpa [statement] using hne.2)
  | _ => exact hin

/-- The flags of the other sessions stay. -/
theorem TurnStep.flags {s : Nat} (hs : s ≠ session.id) :
    db'.sessionInTransaction s = db.sessionInTransaction s := by
  have hengine : ∀ stmt : Statement,
      (executeInSession fe.depth session.id stmt [] db).2.sessionInTransaction s =
        db.sessionInTransaction s := by
    intro stmt
    refine (ClientCall.run_flag s (.inSession session.id stmt []) db).trans ?_
    cases stmt <;> simp [ClientCall.flag, hs]
  cases h with
  | @executed stmt _ _ _ _ _ he | @failed stmt _ _ _ _ _ he => simpa [he] using hengine stmt
  | _ => rfl

end

theorem harmless_of_timeout {sid : Nat} {value : Text} (hp : fe.parseSql raw = .ok stmt)
    (hv : timeoutValue stmt = some value) : Harmless fe sid raw db := by
  intro stmt' hp' _
  rw [hp] at hp'
  cases hp'
  cases stmt <;> first | contradiction | exact ⟨trivial, fun h => by cases h⟩

/-- The rule, for one statement that gets to the engine. -/
theorem engine_rule_iff {sid : Nat} (hs : db.Sound .any [])
    (hin : db.sessionInTransaction sid = true) (ht : t.statement = some stmt)
    (hret : (executeInSession fe.depth sid stmt [] db).1.Returns) :
    FailedRule sid t db (executeInSession fe.depth sid stmt [] db).2 ↔
      RefusesDdl (db.enterSession sid) stmt ∧ (stmt = .commit →
        ∀ st, db.sessionTxns.find? sid = some st → CommitsNothing db st.activeTxns) := by
  cases hctl : stmt.isTxnControl with
  | false =>
    have hne : stmt ≠ .commit := by
      rintro rfl
      contradiction
    have hrule : FailedRule sid t db (executeInSession fe.depth sid stmt [] db).2 ↔
        SameCommitted db (executeInSession fe.depth sid stmt [] db).2 := by
      unfold FailedRule
      cases stmt <;> first | contradiction | rw [ht]
    rw [hrule, sameCommitted_iff hs hin hctl hret]
    simp [hne]
  | true =>
    cases stmt with
    | begin => simp [FailedRule, ht, begin_sameCommitted, RefusesDdl]
    | commit =>
      obtain ⟨st, hst, hopen, _⟩ | ⟨hclosed, _⟩ := takeSessionTxns_run sid db
      case inr => simp [hin] at hclosed
      simp [FailedRule, ht, commit_flags, RefusesDdl, hst,
        commit_nothingApplied_iff hs hst hopen hret]
    | rollback => simp [FailedRule, ht, RefusesDdl]
    | _ => contradiction

end

section

variable {fe : FrontEnd} {init s s' : Server} {trace : List ((Nat × Text) × (Bool × QueryTurn))}
  {sid : Nat}

/-- A transaction in which a statement has failed is still open. -/
theorem failedIn_open (hinit : init.db.Fresh)
    (hrun : TraceRun (Server.piece fe) (fun _ _ => True) init trace s) :
    (s.db.Sound .any [] ∧ s.db.inTransaction = false) ∧
      (failedIn sid trace = true → s.db.sessionInTransaction sid = true) := by
  refine hrun.keeps (P := fun trace s => (s.db.Sound .any [] ∧ s.db.inTransaction = false) ∧
    (failedIn sid trace = true → s.db.sessionInTransaction sid = true)) ?_ ?_
  · exact ⟨hinit.sound, fun h => by simp [failedIn] at h⟩
  · rintro trace s ⟨other, raw⟩ ⟨inTransaction, t⟩ s' ⟨hsound, hopen⟩ - hstep
    obtain ⟨hflag, hturn⟩ := Server.piece_eq hstep
    refine ⟨hturn.sound hsound, ?_⟩
    have hid := s.ids other
    by_cases hother : other = sid
    · subst hother
      intro hfailed
      have hafter : failedAfter (failedIn other trace) inTransaction t = true := by
        simpa [failedIn] using hfailed
      have hne : t.statement ≠ some .commit ∧ t.statement ≠ some .rollback := by
        constructor <;> intro heq <;> simp [failedAfter, heq] at hafter
      have hin : s.db.sessionInTransaction other = true := by
        unfold failedAfter at hafter
        split at hafter
        · contradiction
        · contradiction
        · simp only [Bool.or_eq_true, Bool.and_eq_true] at hafter
          exact hafter.elim hopen fun h => hflag ▸ h.1
      rw [← hid] at hin ⊢
      exact hturn.open hin hne
    · have hsame : failedIn sid (trace ++ [((other, raw), (inTransaction, t))]) =
          failedIn sid trace := by simp [failedIn, hother]
      rw [hsame, hturn.flags (by rw [hid]; exact Ne.symm hother)]
      exact hopen

/-- In every run, a statement of a transaction in which one has failed keeps
the rule exactly if it is harmless. -/
theorem failed_rule_iff (hinit : init.db.Fresh)
    (hrun : TraceRun (Server.piece fe) (fun _ _ => True) init trace s)
    (hfailed : failedIn sid trace = true) {raw : Text} {r : Bool × QueryTurn}
    (hstep : s.piece fe (sid, raw) = some (r, s')) :
    FailedRule sid r.2 s.db s'.db ↔ Harmless fe sid raw s.db := by
  obtain ⟨⟨hsound, -⟩, hopen⟩ := @failedIn_open fe init s trace sid hinit hrun
  have hin := hopen hfailed
  obtain ⟨inTransaction, t⟩ := r
  obtain ⟨-, hturn⟩ := Server.piece_eq hstep
  have hid := s.ids sid
  generalize s'.sessions sid = session', s'.db = db' at hturn
  cases hturn with
  | unparsed hp => simp [FailedRule, statement, Harmless, hp, SameCommitted]
  | catalog hp hc => simp [FailedRule, statement, Harmless, hp, hc, SameCommitted]
  | timeoutSet hp hc hv hms | timeoutRefused hp hc hv hms =>
    have hharmless : Harmless fe sid raw s.db := harmless_of_timeout hp hv
    simp [FailedRule, statement, hharmless, SameCommitted]
  | @executed stmt rs _ hp hc hv he =>
    rw [hid] at he
    have hrule := engine_rule_iff (t := .executed stmt rs) hsound hin rfl (by rw [he]; trivial)
    simpa [Harmless, hp, hc, he] using hrule
  | @failed stmt e _ hp hc hv he =>
    rw [hid] at he
    have hrule := engine_rule_iff (t := .failed stmt e raw) hsound hin rfl (by rw [he]; trivial)
    simpa [Harmless, hp, hc, he] using hrule

end

/-! ## A lost error -/

/-- One table and one row, besides the keywords. -/
def parseSample (sql : Text) : Except Text Statement :=
  if sql = "CREATE TABLE t (a INT)".toList then .ok (createNamed "t")
  else if sql = "INSERT INTO t (a) VALUES (1)".toList then .ok (insertInto "t" 1)
  else parseKeyword sql

def sample : FrontEnd := ⟨parseSample, fun _ _ => none, 1⟩

/-- A row is inserted in a transaction, and a statement fails. -/
def failingPieces : List (Nat × Text) :=
  [(1, "CREATE TABLE t (a INT)".toList), (1, "BEGIN".toList),
    (1, "INSERT INTO t (a) VALUES (1)".toList), (1, "OOPS".toList)]

/-- The commit that follows gets the row into the table. -/
def commitApplies (r : (Bool × QueryTurn) × Server) : Bool :=
  match r.1.2.statement with
  | some .commit => (r.2.db.committed "t" 0).isSome
  | _ => false

theorem exists_failing : ∃ trace s r s',
    TraceRun (Server.piece sample) (fun _ _ => True) freshServer trace s ∧
      failedIn 1 trace = true ∧ (s.db.committed "t" 0).isNone = true ∧
      s.piece sample (1, "COMMIT".toList) = some (r, s') ∧ commitApplies (r, s') = true := by
  obtain ⟨trace, s, hrun, h⟩ := exists_traceRun (Server.piece sample) (fun _ _ => True) freshServer
    failingPieces (fun run => failedIn 1 run.1 && (run.2.db.committed "t" 0).isNone &&
      (run.2.piece sample (1, "COMMIT".toList)).any commitApplies) (by decide +kernel)
  simp only [Bool.and_eq_true] at h
  obtain ⟨⟨hfailed, hnone⟩, happlies⟩ := h
  cases hstep : s.piece sample (1, "COMMIT".toList) with
  | none => grind
  | some r =>
    rw [hstep] at happlies
    exact ⟨trace, s, r.1, r.2, hrun, hfailed, hnone, hstep, happlies⟩

theorem failed_rule_iff_commit : ∃ trace s r s',
    TraceRun (Server.piece sample) (fun _ _ => True) freshServer trace s ∧
      s.piece sample (1, "COMMIT".toList) = some (r, s') ∧
      (FailedRule 1 r.2 s.db s'.db ↔ Harmless sample 1 "COMMIT".toList s.db) := by
  obtain ⟨trace, s, r, s', hrun, hfailed, -, hstep, -⟩ := exists_failing
  exact ⟨trace, s, r, s', hrun, hstep, failed_rule_iff (.inl rfl) hrun hfailed hstep⟩

/-- The row of the failed transaction is committed. -/
theorem commit_applies_failed : ∃ trace s r s',
    TraceRun (Server.piece sample) (fun _ _ => True) freshServer trace s ∧
      failedIn 1 trace = true ∧ s.piece sample (1, "COMMIT".toList) = some (r, s') ∧
      ¬ FailedRule 1 r.2 s.db s'.db := by
  obtain ⟨trace, s, r, s', hrun, hfailed, hnone, hstep, happlies⟩ := exists_failing
  refine ⟨trace, s, r, s', hrun, hfailed, hstep, ?_⟩
  unfold commitApplies at happlies
  split at happlies
  · next hcommit =>
    rw [FailedRule, hcommit]
    rintro ⟨-, hnothing⟩
    have hsame : s'.db.committed "t" 0 = s.db.committed "t" 0 := by
      have hrow := congrArg (Option.bind · fun p => p.2.1.find? 0) (hnothing "t")
      simpa [committed, Option.bind_map, Function.comp_def] using hrow
    simp [hsame, Option.isNone_iff_eq_none.mp hnone] at happlies
  · contradiction

end Archon
