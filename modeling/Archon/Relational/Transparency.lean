import Archon.Relational.SessionFlags
import Archon.Relational.Shadow

/-!
# Archon.Relational.Transparency

`BEGIN; S; COMMIT` of one client against `S` in autocommit mode.  The two
databases shadow each other from `BEGIN` on (`execute_sim`); here they meet
again at the `COMMIT`.

A row with more columns than the codec counts is stored in autocommit mode
without being read back, but does not decode at the commit.
-/

namespace Archon

open Program Database Outcome List

variable {db : Database} {S : List (Statement × Params)}
  {p : String → Transaction → Program DbError TableStorage Unit} {ts : TableStorage}
variable {txn : Transaction} {depth : Nat}

/-! ## A commit that cannot fail -/

/-- Nothing was committed since the snapshot. -/
theorem MvccStore.Ordered.conflicts_eq_false {s : MvccStore} (h : s.Ordered)
    (hs : txn.snapshot = s.clock) : s.conflicts txn = false := by
  unfold MvccStore.conflicts
  rw [any_eq_false]
  intro key _
  cases hl : s.latestCommitTs key with
  | none => simp
  | some latest =>
    have hle : latest ≤ s.clock := h.latest_le hl
    simp [hs, hle]

namespace TableStorage

/-- Buffered rows of a sound table apply. -/
theorem Carries.applyWrite_total (h : Carries rowLaw txn ts) {w : Nat × Bytes}
    (hw : w ∈ txn.writesIter) :
    ∃ ts', applyWrite w ts = (.ok (), ts') ∧ Applies rowLaw txn ts ts' := by
  suffices hex : ∃ ts', applyWrite w ts = (.ok (), ts') by
    obtain ⟨ts', hts'⟩ := hex
    have hk := applyWrite_keeps hw ts h (by rw [hts']; trivial)
    rw [hts'] at hk
    exact ⟨ts', hts', hk.1⟩
  obtain ⟨id, bytes⟩ := w
  have hget : txn.getWrite id = some bytes := mem_writesIter.mp hw
  obtain rfl | ⟨b, rfl, row, rfl, hrow⟩ := (h.2.writes id bytes hget).2
  · exact ⟨_, rfl⟩
  · have hdec : decode { ts with tree := ts.tree.insert id (encodeRow row) } id (encodeRow row) =
        .ok row := hrow.decode h.1.schema id
    have hlen : row.length = ts.schema.columns.length := by
      rw [hrow.length, h.1.schema.length]
    obtain ⟨idx, hidx⟩ := ts.store_total (ε := DbError) id (encodeRow row) hlen
    unfold store at hidx
    simp [applyWrite, MVCC_LIVE, MVCC_TOMBSTONE, bind_run, update, Program.read, hdec, hidx]

theorem Carries.applyTxn_total (h : Carries rowLaw txn ts) (hp : .vector ∉ ts.schema.types) :
    ∃ ts', applyTxn txn ts = (.ok (), ts') ∧ Applies rowLaw txn ts ts' := by
  have hstep : ∀ w ∈ txn.writesIter, ∀ s, Applies rowLaw txn ts s →
      ∃ s', applyWrite w s = (.ok (), s') ∧ Applies rowLaw txn ts s' := by
    intro w hw s hs
    obtain ⟨s', hrun, hs'⟩ := (h.applies hs).applyWrite_total hw
    exact ⟨s', hrun, hs.trans _ _ _ hs'⟩
  obtain ⟨ts₁, hrun, happ⟩ := forEach_total hstep (Carries.refl ts h)
  have hbuild : ts₁.maybeBuildVectorIndexes = .ok ts₁ :=
    maybeBuild_eq (by rw [happ.1.schema]; exact hp)
  exact ⟨ts₁, by simp [applyTxn, bind_run, hrun, update, hbuild], happ⟩

/-- What a transaction sees is what its commit leaves. -/
theorem currentBytes_eq_overlay {id : Nat} {b : Option Bytes}
    (h : (ts.currentBytes (some txn) id : Outcome ε _) = .ok b) : txn.overlay ts.tree id = b := by
  unfold currentBytes at h
  unfold Transaction.overlay
  cases hw : txn.getWrite id with
  | none => simpa [hw] using h
  | some bytes =>
    cases bytes with
    | nil => simp [hw, panicked] at h
    | cons tag bytes => simpa [hw, writtenRow] using h

end TableStorage

/-- A loop over the tables of a transaction, each of which succeeds. -/
theorem forEachTable_total {txns : TableTxns} (hd : (txns.map Prod.fst).Nodup)
    (h : ∀ e ∈ txns, ∃ ts ts', db.table e.1 = some ts ∧ p e.1 e.2 ts = (.ok (), ts')) :
    ∃ db', forEach (fun e => onTable e.1 (p e.1 e.2)) txns db = (.ok (), db') := by
  induction txns generalizing db with
  | nil => exact ⟨db, rfl⟩
  | cons e txns ih =>
    rw [map_cons, nodup_cons] at hd
    obtain ⟨ts, ts', hts, hp⟩ := h e (.head _)
    have hhead : onTable e.1 (p e.1 e.2) db = (.ok (), db.setTable e.1 ts') := by
      simp [onTable, hts, hp]
    have htail : ∀ e' ∈ txns, ∃ ts₁ ts₂, (db.setTable e.1 ts').table e'.1 = some ts₁ ∧
        p e'.1 e'.2 ts₁ = (.ok (), ts₂) := by
      intro e' hm
      have hne : e'.1 ≠ e.1 := fun heq => hd.1 (heq ▸ mem_map_of_mem (f := Prod.fst) hm)
      obtain ⟨ts₁, ts₂, hts₁, hp₁⟩ := h e' (.tail e hm)
      exact ⟨ts₁, ts₂, by simpa [hne] using hts₁, hp₁⟩
    obtain ⟨db', hdb'⟩ := ih hd.2 htail
    simp [forEach, bind_run, hhead, hdb']

/-! ## The commit -/

/-- The same schemas, row ids and rows. -/
def SameTables (a b : Database) : Prop :=
  ∀ n, Option.Rel (fun ta tb => ta.schema = tb.schema ∧ ta.nextRowId = tb.nextRowId ∧
    ta.tree = tb.tree) (a.table n) (b.table n)

/-- One table of a transaction that validates and applies: its rows are then
those the transaction saw. -/
theorem Overlays.commit {ta tt : TableStorage} (h : Overlays ta tt (some txn))
    (hc : TableStorage.Carries rowLaw txn tt) (name : String) :
    ∃ ts₁ ts₂, TableStorage.commitMvcc name txn tt = (.ok (), ts₁) ∧
      TableStorage.applyTxn txn ts₁ = (.ok (), ts₂) ∧
      ta.schema = ts₂.schema ∧ ta.nextRowId = ts₂.nextRowId ∧ ta.tree = ts₂.tree := by
  have hno : tt.mvcc.conflicts txn = false :=
    hc.1.mvcc.conflicts_eq_false (h.snapshot txn rfl)
  have hvalid : TableStorage.commitMvcc name txn tt =
      (.ok (), { tt with mvcc := (tt.mvcc.commit txn).2 }) := by
    simp [TableStorage.commitMvcc_run, hno]
  have hc₁ : TableStorage.Carries rowLaw txn { tt with mvcc := (tt.mvcc.commit txn).2 } :=
    ⟨hc.commitMvcc.2, hc.2.evolves hc.commitMvcc.1⟩
  obtain ⟨ts₂, happly, hrows, -⟩ := hc₁.applyTxn_total h.plain
  refine ⟨_, ts₂, hvalid, happly, h.schema.trans hrows.schema.symm,
    h.nextRowId.trans hrows.nextRowId.symm, SortedMap.ext_find? fun id => ?_⟩
  rw [written_of_apply hvalid happly, TableStorage.currentBytes_eq_overlay (h.bytes id)]

theorem Shadows.commit {a t : Database} (h : Shadows a t) (hs : t.Sound rowLaw []) :
    ∃ db', runCommit t = (.ok (), db') ∧ SameTables a db' := by
  let t₀ : Database := { t with inTransaction := false, activeTxns := [] }
  have hopen : ∀ e ∈ t.activeTxns, ∃ ta tt, a.table e.1 = some ta ∧ t₀.table e.1 = some tt ∧
      Overlays ta tt (some e.2) ∧ TableStorage.Carries rowLaw e.2 tt := by
    intro e hm
    have htxn : t.activeTxn e.1 = some e.2 := lookup_of_mem hs.active.names hm
    obtain ⟨tt, htt, hh⟩ := hs.active.held e.1 e.2 htxn
    obtain ⟨ta, hta, hov⟩ := h.table_some htt
    rw [htxn] at hov
    exact ⟨ta, tt, hta, htt, hov, hs.tables e.1 tt htt, hh⟩
  have hvalid : ∀ e ∈ t.activeTxns, ∃ ts ts', t₀.table e.1 = some ts ∧
      TableStorage.commitMvcc e.1 e.2 ts = (.ok (), ts') := by
    intro e hm
    obtain ⟨ta, tt, -, htt, hov, hc⟩ := hopen e hm
    obtain ⟨ts₁, -, hv, -⟩ := hov.commit hc e.1
    exact ⟨tt, ts₁, htt, hv⟩
  obtain ⟨t₁, ht₁⟩ := forEachTable_total hs.active.names hvalid
  obtain ⟨hother₁, hat₁⟩ := forEachTable_ok hs.active.names ht₁
  have happly : ∀ e ∈ t.activeTxns, ∃ ts ts', t₁.table e.1 = some ts ∧
      TableStorage.applyTxn e.2 ts = (.ok (), ts') := by
    intro e hm
    obtain ⟨ta, tt, -, htt, hov, hc⟩ := hopen e hm
    obtain ⟨ts₁, ts₂, hv, ha, -⟩ := hov.commit hc e.1
    obtain ⟨ts₁', hv', hts₁⟩ := hat₁ e hm tt htt
    rw [hv] at hv'
    cases hv'
    exact ⟨ts₁, ts₂, hts₁, ha⟩
  obtain ⟨t₂, ht₂⟩ := forEachTable_total (p := fun _ txn => TableStorage.applyTxn txn)
    hs.active.names happly
  obtain ⟨hother₂, hat₂⟩ := forEachTable_ok (p := fun _ txn => TableStorage.applyTxn txn)
    hs.active.names ht₂
  refine ⟨t₂, ?_, fun n => ?_⟩
  · simp [runCommit_of_open h.inside, bind_run, validateTables, applyTables, t₀, ht₁, ht₂]
  · cases htxn : t.activeTxn n with
    | none =>
      have hn : n ∉ t.activeTxns.map Prod.fst := by
        intro hm
        obtain ⟨e, he, rfl⟩ := mem_map.mp hm
        have hsome := lookup_of_mem hs.active.names (show (e.1, e.2) ∈ t.activeTxns from he)
        simp [activeTxn, hsome] at htxn
      rw [hother₂ n hn, hother₁ n hn]
      have hrel := h.tables n
      rw [htxn] at hrel
      show Option.Rel _ (a.table n) (t.table n)
      generalize a.table n = x, t.table n = y at hrel
      cases hrel with
      | none => exact .none
      | some hov =>
        refine .some ⟨hov.schema, hov.nextRowId, SortedMap.ext_find? fun id => ?_⟩
        exact (Except.ok.inj (hov.bytes id)).symm
    | some txn =>
      have hm : (n, txn) ∈ t.activeTxns := mem_of_lookup htxn
      obtain ⟨ta, tt, hta, htt, hov, hc⟩ := hopen _ hm
      obtain ⟨ts₁, ts₂, hv, ha, hsame⟩ := hov.commit hc n
      obtain ⟨ts₁', hv', hts₁⟩ := hat₁ _ hm tt htt
      rw [hv] at hv'
      cases hv'
      obtain ⟨ts₂', ha', hts₂⟩ := hat₂ _ hm ts₁ hts₁
      rw [ha] at ha'
      cases ha'
      rw [hta, hts₂]
      exact .some hsame

/-! ## Runs of one client -/

/-- The outcomes of statements run one after another, and the database after
them. -/
def runAll (depth : Nat) : List (Statement × Params) → Database →
    List (Outcome DbError ResultSet) × Database
  | [], db => ([], db)
  | (stmt, params) :: rest, db =>
    let r := execute depth stmt params db
    let rs := runAll depth rest r.2
    (r.1 :: rs.1, rs.2)

/-- Running `S` between `BEGIN` and `COMMIT` is running `S`. -/
structure Transparent (depth : Nat) (db : Database) (S : List (Statement × Params)) :
    Prop where
  begins : (execute depth .begin [] db).1 = .ok {}
  outcomes : (runAll depth S (execute depth .begin [] db).2).1 = (runAll depth S db).1
  commits : (∀ r ∈ (runAll depth S db).1, r.Returns) →
    ∃ db', execute depth .commit [] (runAll depth S (execute depth .begin [] db).2).2 =
      (.ok {}, db') ∧ SameTables (runAll depth S db).2 db'

/-- Counts fit the row codec. -/
def CountsFit (db : Database) : Statement → Prop
  | .insert i => ∀ lits ∈ i.values, ∀ lit ∈ lits, lit.Fits
  | .update u => ∀ a ∈ u.assignments, a.value.Fits
  | .createTable ct => ct.columns.length + 1 < 2 ^ 16
  | .alterTable ⟨table, .addColumn _⟩ =>
    ∀ ts, db.table table = some ts → ts.schema.columns.length + 1 < 2 ^ 16
  | _ => True

/-- A call of the one client: not within a session, and DDL only outside
transactions. -/
def OneClient (db : Database) : ClientCall → Prop
  | .execute stmt _ => stmt.isDdl = true → db.inTransaction = false
  | .inSession _ _ _ => False

/-- Such a call with counts within the codec. -/
def OneClientFits (db : Database) (c : ClientCall) : Prop := OneClient db c ∧ CountsFit db c.stmt

/-- A table without vector columns, each of them. -/
def Database.Plain (db : Database) : Prop :=
  ∀ name ts, db.table name = some ts → .vector ∉ ts.schema.types

theorem CountsFit.rowSafe {stmt : Statement} (h : CountsFit db stmt)
    (hno : stmt.isDdl = true → ∀ name txn, ¬ db.OpenTxn [] name txn) : RowSafe db stmt := by
  cases stmt with
  | alterTable a =>
    obtain ⟨table, op⟩ := a
    cases op with
    | addColumn col => exact ⟨h, fun txn ho => absurd ho (hno rfl table txn)⟩
    | dropColumn name => exact fun txn ho => absurd ho (hno rfl table txn)
    | renameColumn oldName newName => trivial
  | insert | update | createTable => exact h
  | _ => trivial

/-- One client's database: sound, and no session has a transaction. -/
structure Database.Single (db : Database) : Prop where
  sound : db.Sound rowLaw []
  sessions : db.sessionTxns = .empty

theorem Database.Single.no_open (h : db.Single) (hin : db.inTransaction = false) (name : String)
    (txn : Transaction) : ¬ db.OpenTxn [] name txn := by
  rintro (ho | ⟨txns, hm, -⟩ | ⟨sid, st, hst, -⟩)
  · simp [activeTxn, h.sound.idle hin] at ho
  · cases hm
  · rw [h.sessions] at hst
    cases hst

theorem Database.Single.execute (h : db.Single) {stmt : Statement} {params : Params}
    (hc : OneClientFits db (.execute stmt params))
    (hret : (execute depth stmt params db).1.Returns) :
    (Archon.execute depth stmt params db).2.Single := by
  have hsafe : RowSafe db stmt := hc.2.rowSafe fun hddl => h.no_open (hc.1 hddl)
  exact ⟨execute_sound h.sound (hsafe.obeys depth) hret,
    (execute_sessions depth stmt params db).trans h.sessions⟩

theorem Database.Initial.single (h : db.Initial) : db.Single := by
  refine ⟨h.sound, ?_⟩
  obtain rfl | ⟨schema, -, rfl⟩ := h <;> rfl

theorem Database.Single.reaches {db' : Database} (h : db.Single)
    (hr : Reaches depth OneClientFits db db') : db'.Single := by
  induction hr with
  | refl => exact h
  | tail _ hstep ih =>
    obtain ⟨c, hc, hret, rfl⟩ := hstep
    cases c with
    | execute stmt params => exact ih.execute hc hret
    | inSession sid stmt params => exact hc.1.elim

/-! ## Transparency -/

theorem Shadows.begin (hs : db.Sound rowLaw []) (hin : db.inTransaction = false) (hp : db.Plain) :
    Shadows db { db with inTransaction := true, activeTxns := [] } := by
  refine ⟨rfl, rfl, hs.names, hin, hs.idle hin, rfl, fun n => ?_⟩
  show Option.Rel _ (db.table n) (db.table n)
  cases hts : db.table n with
  | none => exact .none
  | some ts =>
    have hbytes : ∀ id, (ts.currentBytes none id : Outcome DbError _) = .ok (ts.tree.find? id) :=
      fun _ => rfl
    exact .some ⟨rfl, rfl, hbytes, fun x hx => (by cases hx), hp n ts hts⟩

/-- Statement by statement the two answer alike. -/
theorem runAll_sim (depth : Nat) {a t : Database} (h : Shadows a t)
    (hS : ∀ s ∈ S, s.1.isQueryOrDml = true) :
    (runAll depth S a).1 = (runAll depth S t).1 ∧
      Shadows (runAll depth S a).2 (runAll depth S t).2 := by
  induction S generalizing a t with
  | nil => exact ⟨rfl, h⟩
  | cons s S ih =>
    obtain ⟨stmt, params⟩ := s
    have hhead := execute_sim depth (hS _ (.head _)) params a t h
    have htail := ih hhead.2 fun s hs => hS s (.tail _ hs)
    exact ⟨by simp [runAll, hhead.1, htail.1], htail.2⟩

theorem runAll_sound (h : db.Sound rowLaw [])
    (hS : ∀ s ∈ S, s.1.isQueryOrDml = true ∧ CountsFit db s.1)
    (hret : ∀ r ∈ (runAll depth S db).1, r.Returns) : (runAll depth S db).2.Sound rowLaw [] := by
  induction S generalizing db with
  | nil => exact h
  | cons s S ih =>
    obtain ⟨stmt, params⟩ := s
    have hsafe : RowSafe db stmt := by
      have hstmt := hS _ (.head _)
      refine hstmt.2.rowSafe fun hddl => ?_
      cases stmt <;> simp [Statement.isDdl, Statement.isQueryOrDml] at hddl hstmt
    have hhead := execute_sound h (hsafe.obeys depth) (hret _ (.head _))
    refine ih hhead (fun s hs => ?_) fun r hr => hret r (.tail _ hr)
    obtain ⟨hkind, hfit⟩ := hS s (.tail _ hs)
    obtain ⟨stmt', params'⟩ := s
    -- only `ADD COLUMN` counts the columns of a table
    cases stmt' <;> first | exact ⟨hkind, hfit⟩ | cases hkind

/-- `CREATE TABLE t (c INT, ..., c INT)` with `n + 1` columns. -/
def createWide (n : Nat) : Statement :=
  .createTable ⟨"t", List.replicate (n + 1) ⟨"c", .int, []⟩, []⟩

def wideSchema (n : Nat) : Schema :=
  { columns := "id" :: List.replicate (n + 1) "c", types := .int :: List.replicate (n + 1) .int }

/-- `INSERT INTO t (c) VALUES (NULL)`. -/
def insertNull : Statement := .insert ⟨"t", ["c"], [[.null]]⟩

theorem foldlM_addColumnDef (n : Nat) (schema : Schema) :
    (List.replicate n ⟨"c", .int, []⟩).foldlM addColumnDef schema =
      .ok { schema with
        columns := schema.columns ++ List.replicate n "c"
        types := schema.types ++ List.replicate n .int } := by
  induction n generalizing schema with
  | zero => simp
  | succ n ih => simp [replicate_succ, addColumnDef, ih]

theorem execute_createWide (n : Nat) :
    execute 1 (createWide n) [] .empty = (.ok {}, .new (wideSchema n)) := by
  simp [execute, createWide, silent_run, update, createTable, empty, table,
    createSchema, foldlM_addColumnDef, Except.map, new, wideSchema]

/-- The row it inserts. -/
def wideRow (n : Nat) : Row := .int 0 :: .null :: List.replicate n .null

theorem insertRows_insertNull (n : Nat) (rt : ReadTable) (v : ReadView)
    (hrt : v.table "t" = some rt) (hs : rt.schema = wideSchema n) :
    insertRows v 1 ⟨"t", ["c"], [[.null]]⟩ =
      .ok ([1], [.null :: .null :: List.replicate n .null]) := by
  have hslot : columnPosition ("id" :: "c" :: List.replicate n "c") "c" = some 1 := by rfl
  simp [insertRows, hrt, Outcome.okOr, hs, insertSlots, Schema.indexOf, wideSchema, hslot,
    candidateRows, fillRow, literalToValue, Outcome.index, replicate_succ, ColumnType.accept,
    Outcome.set, checkRows, enforceConstraints, checkNotNull, checkUnique, uniqueGroups, checkExprs,
    checkForeignKeys, checkBatch]

/-- The transaction with the row. -/
def wideTxn (n : Nat) : Transaction :=
  MvccStore.write MvccStore.new.begin 0 (mvccWrapRow (wideRow n))

/-- The table inside a transaction, before and after the `INSERT`. -/
def wideBegun (n : Nat) : Database :=
  { Database.new (wideSchema n) with inTransaction := true, activeTxns := [] }

def wideInserted (n : Nat) : Database :=
  { Database.new (wideSchema n) with
    tables := [("t", { TableStorage.new (wideSchema n) with nextRowId := 1 })]
    inTransaction := true
    activeTxns := [("t", wideTxn n)] }

theorem execute_insertNull (n : Nat) :
    execute 1 insertNull [] (wideBegun n) = (.ok { affected := some 1 }, wideInserted n) := by
  have hins : ∀ db : Database, db.table "t" = some (.new (wideSchema n)) →
      insertRows db.readView 1 ⟨"t", ["c"], [[.null]]⟩ =
        .ok ([1], [.null :: .null :: List.replicate n .null]) := by
    intro db hdb
    exact insertRows_insertNull n (TableStorage.view (.new (wideSchema n)) (db.activeTxn "t")) _
      (by simp [hdb]) rfl
  simp [execute, insertNull, affecting_run, runInsertStmt, bind_run, touch, update, wideBegun,
    ensureTxn, activeTxn, table, new, Program.read, hins]
  exact ⟨rfl, rfl⟩

/-- A count of 65536 is written as 0. -/
theorem decode_wideRow {n : Nat} (hn : n + 2 = 2 ^ 16) (id : Nat) :
    decodeRowValidated id (encodeRow (wideRow n)) (n + 2) = fail (.corruptRow id) := by
  have hlen : (wideRow n).length = 65536 := by simp [wideRow]; omega
  have hsplit : splitBytes 2 (encodeRow (wideRow n)) =
      some (leBytes 2 65536, (wideRow n).flatMap encodeValue) := by
    simp [encodeRow, hlen]
  have hcount : ofLeBytes (leBytes 2 65536) = 0 := by decide
  have hdec : tryDecodeRow (encodeRow (wideRow n)) = .ok [] := by
    simp [tryDecodeRow, hsplit, hcount, decodeValues, okOr]
  simp [decodeRowValidated, hdec]

theorem applyTxn_wideTxn {n : Nat} (hn : n + 2 = 2 ^ 16) (hs : ts.schema = wideSchema n) :
    (TableStorage.applyTxn (wideTxn n) ts).1 = fail (.corruptRow 0) := by
  have hcols : (wideSchema n).columns.length = n + 2 := by simp [wideSchema]
  have hdec : ∀ tree, TableStorage.decode { ts with tree } 0 (encodeRow (wideRow n)) =
      fail (.corruptRow 0) := by
    simp [TableStorage.decode, hs, hcols, decode_wideRow hn]
  have hwrites : (wideTxn n).writesIter = [(0, MVCC_LIVE :: encodeRow (wideRow n))] := rfl
  have hlive : MVCC_LIVE ≠ MVCC_TOMBSTONE := by decide
  simp [TableStorage.applyTxn, bind_run, hwrites, forEach, TableStorage.applyWrite, hlive, update,
    Program.read, hdec, fail]

theorem commit_wideInserted {n : Nat} (hn : n + 2 = 2 ^ 16) :
    (execute 1 .commit [] (wideInserted n)).1 = fail (.corruptRow 0) := by
  let ts : TableStorage := { TableStorage.new (wideSchema n) with nextRowId := 1 }
  have hvalid : (validateTables [("t", wideTxn n)]
      { wideInserted n with inTransaction := false, activeTxns := [] }) =
        (.ok (), { wideInserted n with
          tables := [("t", { ts with mvcc := (ts.mvcc.commit (wideTxn n)).2 })]
          inTransaction := false
          activeTxns := [] }) := by
    rfl
  have happly : (TableStorage.applyTxn (wideTxn n)
      { ts with mvcc := (ts.mvcc.commit (wideTxn n)).2 }).1 = fail (.corruptRow 0) :=
    applyTxn_wideTxn hn rfl
  have hrun : (runCommit (wideInserted n)).1 = fail (.corruptRow 0) := by
    rw [runCommit_of_open rfl, bind_run, show (wideInserted n).activeTxns =
      [("t", wideTxn n)] from rfl,
      hvalid]
    simp only [applyTables, forEach, bind_run, onTable, table, lookup_cons_eq, if_true]
    generalize TableStorage.applyTxn (wideTxn n) _ = r at happly
    obtain ⟨o, ts'⟩ := r
    cases happly
    rfl
  simp [execute, silent_run, hrun, Except.map, fail]

end Archon
