import Archon.Relational.UniqueClients

/-!
# Archon.Relational.UniqueRuns

Uniqueness over whole runs of any number of clients: commits, data definition,
transaction control, and any number of calls.
-/

namespace Archon

open Program Database TableStorage

variable {db : Database}
variable {db' : Database} {txns : TableTxns}
  {p : String → Transaction → Program DbError TableStorage Unit}
variable {depth : Nat} {name : String} {hidden : List TableTxns}

/-! ## Commits -/

/-- A table at a commit: as it was, or with the transaction applied. -/
structure CommitsTable (txn : Transaction) (ts ts' : TableStorage) : Prop where
  schema : ts'.schema = ts.schema
  rows : (∀ id, ts'.tree.find? id = ts.tree.find? id) ∨
    ∀ id, ts'.tree.find? id = txn.overlay ts.tree id

namespace TableStorage

variable {txn : Transaction} {ts : TableStorage}

theorem Carries.applyTxn_commits (h : Carries rowLaw txn ts)
    (hret : (applyTxn txn ts).1.Returns) : CommitsTable txn ts (applyTxn txn ts).2 := by
  have hno := h.noErr_applyTxn
  have hkeeps := applyTxn_keeps ts h hret
  generalize hr : applyTxn txn ts = r at hret hno hkeeps
  obtain ⟨o, ts'⟩ := r
  cases o with
  | ok u => exact ⟨hkeeps.1.1.schema, .inr (applyTxn_ok hr)⟩
  | error f =>
    cases f with
    | err e => exact absurd rfl (hno e)
    | panic | stackOverflow => exact hret.elim

theorem Carries.commitTable_commits (h : Carries rowLaw txn ts)
    (hret : (commitTable name txn ts).1.Returns) :
    CommitsTable txn ts (commitTable name txn ts).2 := by
  unfold commitTable at hret ⊢
  rw [bind_run, commitMvcc_run] at hret ⊢
  cases hc : ts.mvcc.conflicts txn with
  | true => exact ⟨rfl, .inl fun _ => rfl⟩
  | false =>
    simp only [hc] at hret ⊢
    have hcarries : Carries rowLaw txn { ts with mvcc := (ts.mvcc.commit txn).2 } :=
      ⟨h.commitMvcc.2, h.2.evolves h.commitMvcc.1⟩
    have hcommits := hcarries.applyTxn_commits hret
    exact ⟨hcommits.schema, hcommits.rows⟩

end TableStorage

/-- A loop over the tables of a transaction, that may stop early. -/
theorem forEachTable_each {Q : Transaction → TableStorage → TableStorage → Prop}
    (hd : (txns.map Prod.fst).Nodup)
    (hp : ∀ e ∈ txns, ∃ ts, db.table e.1 = some ts ∧
      ((p e.1 e.2 ts).1.Returns → Q e.2 ts (p e.1 e.2 ts).2))
    (hret : (forEach (fun e => onTable e.1 (p e.1 e.2)) txns db).1.Returns) {n : String}
    {ts' : TableStorage}
    (hts' : (forEach (fun e => onTable e.1 (p e.1 e.2)) txns db).2.table n = some ts') :
    db.table n = some ts' ∨
      ∃ txn ts, (n, txn) ∈ txns ∧ db.table n = some ts ∧ Q txn ts ts' := by
  induction txns generalizing db with
  | nil => exact .inl hts'
  | cons e txns ih =>
    rw [List.map_cons, List.nodup_cons] at hd
    obtain ⟨ts, hts, hq⟩ := hp e (.head _)
    have hrun : onTable e.1 (p e.1 e.2) db =
        ((p e.1 e.2 ts).1, db.setTable e.1 (p e.1 e.2 ts).2) := by simp [onTable, hts]
    -- the table of the head, and the others
    have hhead : ∀ t, (db.setTable e.1 (p e.1 e.2 ts).2).table n = some t →
        (p e.1 e.2 ts).1.Returns → db.table n = some t ∨
          ∃ txn ts, (n, txn) ∈ e :: txns ∧ db.table n = some ts ∧ Q txn ts t := by
      intro t ht hreturns
      by_cases hn : n = e.1
      · subst hn
        rw [table_setTable_self hts] at ht
        cases ht
        exact .inr ⟨e.2, ts, List.mem_cons_self, hts, hq hreturns⟩
      · exact .inl (by simpa [hn] using ht)
    unfold forEach at hret hts'
    rw [bind_run, hrun] at hret hts'
    generalize hr : (p e.1 e.2 ts).1 = o at hret hts' hhead
    cases o with
    | error f => exact hhead ts' hts' hret
    | ok u =>
      have hp' : ∀ e' ∈ txns, ∃ t, (db.setTable e.1 (p e.1 e.2 ts).2).table e'.1 = some t ∧
          ((p e'.1 e'.2 t).1.Returns → Q e'.2 t (p e'.1 e'.2 t).2) := by
        intro e' hm
        have hne : e'.1 ≠ e.1 := fun heq => hd.1 (heq ▸ List.mem_map_of_mem (f := Prod.fst) hm)
        obtain ⟨t, ht, hqt⟩ := hp e' (.tail e hm)
        exact ⟨t, by simpa [hne] using ht, hqt⟩
      obtain hsame | ⟨txn, t, hm, ht, hqt⟩ := ih hd.2 hp' hret hts'
      · exact hhead ts' hsame trivial
      · have hne : n ≠ e.1 := fun heq => hd.1 (heq ▸ List.mem_map_of_mem (f := Prod.fst) hm)
        exact .inr ⟨txn, t, List.mem_cons_of_mem e hm, by simpa [hne] using ht, hqt⟩

/-- The tables of a database at a commit of some transactions. -/
def CommitsTables (txns : TableTxns) (db db' : Database) : Prop :=
  ∀ n ts', db'.table n = some ts' → ∃ ts, db.table n = some ts ∧ ts'.schema = ts.schema ∧
    ((∀ id, ts'.tree.find? id = ts.tree.find? id) ∨
      ∃ txn, txns.lookup n = some txn ∧ ∀ id, ts'.tree.find? id = txn.overlay ts.tree id)

theorem validateTables_stored (txns : TableTxns) (db : Database) :
    SameStored db (validateTables txns db).2 := by
  intro n ts' hts'
  have hsame := @leaves_validateTables _ (fun ts => (ts.schema, ts.tree)) (fun _ _ => rfl) txns n db
  simp only [hts', Option.map_some] at hsame
  obtain ⟨ts, hts, heq⟩ := Option.map_eq_some_iff.mp hsame.symm
  obtain ⟨hschema, htree⟩ := Prod.mk.inj heq
  exact ⟨ts, hts, hschema.symm, fun id => by rw [htree]⟩

/-- A loop that commits each table, or leaves it. -/
theorem forEachTable_commits (h : db.Sound rowLaw (txns :: hidden))
    (hp : ∀ {name txn ts}, TableStorage.Carries rowLaw txn ts → (p name txn ts).1.Returns →
      CommitsTable txn ts (p name txn ts).2)
    (hret : (forEach (fun e => onTable e.1 (p e.1 e.2)) txns db).1.Returns) :
    CommitsTables txns db (forEach (fun e => onTable e.1 (p e.1 e.2)) txns db).2 := by
  have hnames := (h.hidden txns (.head _)).names
  intro n ts' hts'
  have heach : ∀ e ∈ txns, ∃ ts, db.table e.1 = some ts ∧ ((p e.1 e.2 ts).1.Returns →
      CommitsTable e.2 ts (p e.1 e.2 ts).2) := by
    intro e hm
    obtain ⟨ts, hts, hc⟩ := h.carries hm
    exact ⟨ts, hts, hp hc⟩
  obtain hsame | ⟨txn, ts, hm, hts, hcommits⟩ := forEachTable_each hnames heach hret hts'
  · exact ⟨ts', hsame, rfl, .inl fun _ => rfl⟩
  · exact ⟨ts, hts, hcommits.schema, hcommits.rows.imp_right fun hrows =>
      ⟨txn, lookup_of_mem hnames hm, hrows⟩⟩

theorem runCommit_commits (h : db.Sound rowLaw hidden) (hret : (runCommit db).1.Returns) :
    CommitsTables db.activeTxns db (runCommit db).2 := by
  cases hin : db.inTransaction with
  | false =>
    rw [runCommit_of_closed hin]
    exact fun n ts hts => ⟨ts, hts, rfl, .inl fun _ => rfl⟩
  | true =>
    have hsound := forEachTable_sound hidden db.activeTxns
      (fun name _ => commitMvcc_step name) _ h.close
    have hstored := validateTables_stored db.activeTxns
      { db with inTransaction := false, activeTxns := [] }
    rw [runCommit_of_open hin, bind_run] at hret ⊢
    unfold validateTables at hret hstored ⊢
    generalize forEach (fun e => onTable e.1 (commitMvcc e.1 e.2)) db.activeTxns
      { db with inTransaction := false, activeTxns := [] } = v at hret hsound hstored ⊢
    obtain ⟨o, db₁⟩ := v
    intro n ts' hts'
    cases o with
    | error f =>
      obtain ⟨ts, hts, hschema, hrows⟩ := hstored n ts' hts'
      exact ⟨ts, hts, hschema, .inl hrows⟩
    | ok u =>
      obtain ⟨ts₁, hts₁, hschema, hrows⟩ := forEachTable_commits ((hsound trivial).2 u rfl)
        TableStorage.Carries.applyTxn_commits hret n ts' hts'
      obtain ⟨ts, hts, hschema₁, hrows₁⟩ := hstored n ts₁ hts₁
      have htree : ts₁.tree = ts.tree := SortedMap.ext_find? hrows₁
      rw [htree] at hrows
      exact ⟨ts, hts, hschema.trans hschema₁, hrows⟩

/-- The transaction of client `w` is committed, or parts of it are. -/
theorem ClientsKeyed.commit {w : Option Nat} (h : ClientsKeyed db) (hfits : db.Fits rowLaw txns)
    (hw : ∀ n, db.txnOf w n = txns.lookup n) (htables : CommitsTables txns db db')
    (hclosed : ∀ n, db'.txnOf w n = none)
    (htxns : ∀ c n txn, db'.txnOf c n = some txn → db.txnOf c n = some txn) : ClientsKeyed db' := by
  refine h.store (fun n ts' hts' => ?_) htxns
  obtain ⟨ts, hts, hschema, hsame | ⟨txn, htxn, hrows⟩⟩ := htables n ts' hts'
  · refine ⟨ts, hts, hschema, ?_, .inl fun id b hb => (hsame id).symm.trans hb⟩
    rw [hschema, rowsUnder_congr hschema hsame]
    exact h.committed n ts hts
  · have hh := hfits.holds hts txn htxn
    have hown : db.txnOf w n = some txn := (hw n).trans htxn
    refine ⟨ts, hts, hschema, ?_, ?_⟩
    · rw [hschema, rowsUnder_overlay hh hschema hrows]
      exact h.clients w n ts txn hts hown
    · by_cases hd : txn.OnlyDeletes
      · exact .inl fun id b hb => hd.overlay_submap ts.tree id b ((hrows id).symm.trans hb)
      · refine .inr fun c txn' htxn' => ?_
        obtain ⟨v, hv⟩ := h.writer n
        have hvw : w = v := Decidable.byContradiction fun hne => hd (hv w hne txn hown)
        grind

/-- A loop over tables changes no transaction. -/
theorem leaves_forEachTable (txns : TableTxns) (c : Option Nat) (n : String) :
    Leaves (fun db : Database => db.txnOf c n) (forEach (fun e => onTable e.1 (p e.1 e.2)) txns) :=
  leaves_forEach fun e _ => leaves_onTable fun _ _ _ => by cases c <;> rfl

/-- The database's transaction is gone after its `COMMIT`, with an error too. -/
theorem runCommit_txns (hidle : db.Idle) (c : Option Nat) (n : String) :
    (runCommit db).2.txnOf c n = if c = none then none else db.txnOf c n := by
  cases hin : db.inTransaction with
  | false =>
    rw [runCommit_of_closed hin]
    cases c with
    | none => simp [txnOf, activeTxn, hidle hin]
    | some sid => rfl
  | true =>
    rw [runCommit_of_open hin]
    have hleaves := leaves_bind (@leaves_forEachTable commitMvcc db.activeTxns c n)
      fun _ => @leaves_forEachTable (fun _ => applyTxn) db.activeTxns c n
    refine (hleaves _).trans ?_
    cases c <;> rfl

section

variable {db : Database} (hk : ClientsKeyed db) (h : db.Sound constraintLaw [])
include hk h

theorem ClientsKeyed.runCommit (hret : (runCommit db).1.Returns) :
    ClientsKeyed (Archon.runCommit db).2 := by
  have hrow := h.mono constraintLaw_implies
  have htxns := runCommit_txns h.idle
  refine hk.commit (w := none) hrow.active (fun _ => rfl) (runCommit_commits hrow hret)
    (fun n => ?_)
    fun c n txn htxn => ?_
  · rw [htxns, if_pos rfl]
  · rw [htxns] at htxn
    split at htxn
    · cases htxn
    · exact htxn

theorem ClientsKeyed.sessionCommit {sid : Nat} (hret : (sessionCommit sid db).1.Returns) :
    ClientsKeyed (Archon.sessionCommit sid db).2 := by
  have hrow := h.mono constraintLaw_implies
  obtain ⟨st, hst, -, hrun⟩ | ⟨-, hrun⟩ := sessionCommit_run sid db
  · rw [hrun] at hret ⊢
    have htxns : ∀ c n, (commitTables st.activeTxns (db.setSession sid {})).2.txnOf c n =
        if c = some sid then none else db.txnOf c n := by
      intro c n
      exact (leaves_forEachTable _ c n _).trans (db.txnOf_setSession sid {} c n)
    refine hk.commit (w := some sid) (hrow.sessions sid st hst) (fun n => ?_)
      (forEachTable_commits (hrow.takeSession hst) TableStorage.Carries.commitTable_commits hret)
      (fun n => ?_) fun c n txn htxn => ?_
    · simp [txnOf, sessionTxn, hst]
    · exact (htxns (some sid) n).trans (if_pos rfl)
    · replace htxn := (htxns c n).symm.trans htxn
      split at htxn
      · cases htxn
      · exact htxn
  · rw [hrun]
    exact hk

end

/-! ## Other statements -/

/-- New tables are empty, and nothing else changes in the tables and
transactions. -/
structure TablesAdded (db db' : Database) : Prop where
  tables : ∀ n ts', db'.table n = some ts' →
    db.table n = some ts' ∨ db.table n = none ∧ ∃ schema, ts' = .new schema
  kept : ∀ n ts, db.table n = some ts → db'.table n = some ts
  active : db'.activeTxns = db.activeTxns
  sessions : db'.sessionTxns = db.sessionTxns

theorem TablesAdded.of_same (h : SameData db db') : TablesAdded db db' :=
  ⟨fun n ts' hts' => .inl (by rw [table, ← h.tables]; exact hts'),
    fun n ts hts => by rw [table, h.tables]; exact hts, h.activeTxns, h.sessionTxns⟩

theorem TablesAdded.createTable {ct : CreateTableStatement} (h : db.createTable ct = .ok db') :
    TablesAdded db db' := by
  obtain ⟨schema, -, hnone, rfl⟩ := createTable_ok h
  refine ⟨fun n ts' hts' => ?_, fun n ts hts => ?_, rfl, rfl⟩
  rotate_left
  · rw [table, lookup_append]
    exact Option.or_eq_some_iff.mpr (.inl hts)
  rw [table, lookup_append] at hts'
  obtain hold | ⟨hn, hnew⟩ := Option.or_eq_some_iff.mp hts'
  · exact .inl hold
  · rw [lookup_cons_eq] at hnew
    split at hnew
    · cases hnew
      exact .inr ⟨hn, schema, rfl⟩
    · cases hnew

theorem execute_tablesAdded {stmt : Statement} (hc : stmt.isTxnControl = false)
    (hq : stmt.isQueryOrDml = false) (ha : ∀ a, stmt ≠ .alterTable a) (params : Params) :
    TablesAdded db (execute depth stmt params db).2 := by
  have hx := execute_spec depth stmt params db
  generalize (execute depth stmt params db).1.Returns = returns at hx
  generalize (execute depth stmt params db).2 = db' at hx ⊢
  cases hx with
  | same h => exact .of_same h
  | createTable h => exact .createTable h
  | @alterTable a => exact absurd rfl (ha a)
  | insert | update | delete => cases hq
  | _ => cases hc

theorem ClientsKeyed.extend {L : StorageLaw} (hk : ClientsKeyed db) (h : db.Sound L hidden)
    (htables : ∀ n ts', db'.table n = some ts' →
      db.table n = some ts' ∨ db.table n = none ∧ ∃ schema, ts' = .new schema)
    (htxns : ∀ c n, db'.txnOf c n = db.txnOf c n) : ClientsKeyed db' := by
  refine ⟨fun n ts' hts' => ?_, fun c n ts' txn hts' htxn => ?_, fun n => ?_⟩
  · obtain hold | ⟨-, schema, rfl⟩ := htables n ts' hts'
    · exact hk.committed n ts' hold
    · intro i j a b _ hi
      cases hi
  · rw [htxns] at htxn
    obtain ⟨ts, hts, -⟩ := h.txnOf_table htxn
    obtain hold | ⟨hnone, -⟩ := htables n ts' hts'
    · exact hk.clients c n ts' txn hold htxn
    · grind
  · obtain ⟨w, hw⟩ := hk.writer n
    exact ⟨w, fun c hc txn htxn => hw c hc txn (htxns c n ▸ htxn)⟩

theorem ClientsKeyed.added {L : StorageLaw} (hk : ClientsKeyed db) (h : db.Sound L hidden)
    (hadd : TablesAdded db db') : ClientsKeyed db' := by
  refine hk.extend h hadd.tables fun c n => ?_
  cases c with
  | none => simp [txnOf, activeTxn, hadd.active]
  | some sid => simp [txnOf, sessionTxn, hadd.sessions]

/-! ## Calls and runs -/

section

variable {db : Database} (hk : ClientsKeyed db)
include hk

theorem ClientsKeyed.drop (inTransaction : Bool) :
    ClientsKeyed { db with inTransaction := inTransaction, activeTxns := [] } := by
  refine hk.close (.of_tables rfl) fun c n txn htxn => ?_
  cases c with
  | none => cases htxn
  | some sid => exact htxn

theorem ClientsKeyed.setSession {sid : Nat} {st : SessionTxn}
    (hst : ∀ n txn, st.activeTxns.lookup n = some txn → db.sessionTxn sid n = some txn) :
    ClientsKeyed (db.setSession sid st) := by
  refine hk.close (.of_tables rfl) fun c n txn htxn => ?_
  rw [db.txnOf_setSession] at htxn
  split at htxn
  · next hc =>
    rw [hc]
    exact hst n txn htxn
  · exact htxn

variable (h : db.Sound constraintLaw [])
include h

theorem ClientsKeyed.run_execute {stmt : Statement} {params : Params}
    (hs : SchemaSafe db stmt) (hw : SoleWriter db (.execute stmt params))
    (hret : (Archon.execute depth stmt params db).1.Returns) :
    ClientsKeyed (Archon.execute depth stmt params db).2 := by
  cases hq : stmt.isQueryOrDml with
  | true => exact hk.execute h hq hs hw hret
  | false =>
    have hx := execute_spec depth stmt params db
    generalize (Archon.execute depth stmt params db).1.Returns = returns at hx hret
    generalize (Archon.execute depth stmt params db).2 = db' at hx ⊢
    cases hx with
    | same hsame => exact hk.added h (.of_same hsame)
    | createTable hct => exact hk.added h (.createTable hct)
    | @alterTable a => exact absurd rfl (hs.2 a)
    | begin => exact hk.drop true
    | commit => exact hk.runCommit h hret
    | rollback => exact hk.drop false
    | _ => cases hq

theorem ClientsKeyed.run_inSession {sid : Nat} {stmt : Statement} {params : Params}
    (hs : SchemaSafe db stmt) (hw : SoleWriter db (.inSession sid stmt params))
    (hret : (executeInSession depth sid stmt params db).1.Returns) :
    ClientsKeyed (executeInSession depth sid stmt params db).2 := by
  have hx := executeInSession_spec depth sid stmt params db
  generalize (executeInSession depth sid stmt params db).1.Returns = returns at hx hret
  generalize (executeInSession depth sid stmt params db).2 = db' at hx ⊢
  unfold SoleWriter ClientCall.client at hw
  cases hx with
  | inside hc hin =>
    simp only [hin] at hw
    cases hq : stmt.isQueryOrDml with
    | true => exact hk.session h hq hs hw hret
    | false =>
      have hext : TablesAdded (db.enterSession sid)
          (Archon.execute depth stmt params (db.enterSession sid)).2 :=
        execute_tablesAdded hc hq hs.2 params
      refine hk.extend h hext.tables fun c n => ?_
      rw [txnOf_leaveSession hext.sessions]
      split
      · next hcs => rw [hcs, activeTxn, hext.active]; exact db.activeTxn_enterSession sid n
      · rfl
  | outside hc hin =>
    simp only [hin] at hw
    exact hk.run_execute h hs hw hret
  | begin hin hst =>
    refine hk.setSession fun n txn htxn => ?_
    obtain rfl | hnil := hst
    · unfold sessionTxn
      cases hst : db.sessionTxns.find? sid with
      | none => simp [hst] at htxn
      | some st => simpa [hst] using htxn
    · grind
  | commit => exact hk.sessionCommit h hret
  | rollback => exact hk.setSession fun n txn htxn => (by cases htxn)
  | idle hin => exact hk

theorem ClientsKeyed.run {c : ClientCall} (hs : SchemaSafe db c.stmt) (hw : SoleWriter db c)
    (hret : (c.run depth db).1.Returns) : ClientsKeyed (c.run depth db).2 := by
  cases c with
  | execute stmt params => exact hk.run_execute h hs hw hret
  | inSession sid stmt params => exact hk.run_inSession h hs hw hret

end

/-- A database just made, with a declared schema. -/
def Database.Blank (db : Database) : Prop :=
  db = .empty ∨ ∃ schema, constraintLaw.schema schema ∧ db = .new schema

theorem Database.Blank.sound (h : db.Blank) : db.Sound constraintLaw [] := by
  obtain rfl | ⟨schema, hs, rfl⟩ := h
  · exact sound_empty
  · exact sound_new hs

/-- It has no rows and no transactions. -/
theorem Database.Blank.keyed (h : db.Blank) : ClientsKeyed db := by
  have hnone : ∀ c n, db.txnOf c n = none := by
    intro c n
    obtain rfl | ⟨schema, -, rfl⟩ := h <;> cases c <;> rfl
  refine ⟨fun n ts hts => ?_, fun c n ts txn _ htxn => ?_, fun n => ⟨none, fun c _ txn htxn => ?_⟩⟩
  · obtain rfl | ⟨schema, -, rfl⟩ := h
    · cases hts
    · rw [table, new, lookup_cons_eq] at hts
      split at hts
      · cases hts
        intro i j a b _ hi
        cases hi
      · cases hts
  · grind
  · grind

/-- Calls whose counts fit the row codec, that change no columns, and that
write a table only while no other open transaction has. -/
def UniqueSafe (db : Database) (c : ClientCall) : Prop := SchemaSafe db c.stmt ∧ SoleWriter db c

theorem ClientsKeyed.reaches {init : Database} (hinit : init.Blank)
    (hr : Reaches depth UniqueSafe init db) : ClientsKeyed db ∧ db.Sound constraintLaw [] := by
  induction hr with
  | refl => exact ⟨hinit.keyed, hinit.sound⟩
  | tail _ hstep ih =>
    obtain ⟨c, ⟨hs, hw⟩, hret, rfl⟩ := hstep
    exact ⟨ih.1.run ih.2 hs hw hret, c.run_sound ih.2 (hs.obeys depth) hret⟩

/-- `CREATE TABLE t (a INT UNIQUE)`. -/
def createUnique : Statement := .createTable ⟨"t", [⟨"a", .int, [.unique]⟩], []⟩

theorem SoleWriter.of_none {c : ClientCall} (h : ∀ c' n, c' ≠ c.client db → db.txnOf c' n = none) :
    SoleWriter db c := by
  intro n _ c' hne txn htxn
  grind

end Archon
