import Archon.Relational.TxnSound

/-!
# Archon.Relational.StatementSound

Every statement keeps the database sound for a law its rows obey, on the
database and within a session.
-/

namespace Archon

open Database

variable {db db' : Database}
variable {L : StorageLaw} {hidden : List TableTxns} {depth : Nat}

/-! ## What a law asks of a statement -/

/-- The transactions open on a table, the database's own, those of sessions
and those set aside. -/
def Database.OpenTxn (hidden : List TableTxns) (db : Database) (name : String)
    (txn : Transaction) : Prop :=
  db.activeTxn name = some txn ∨ (∃ txns ∈ hidden, txns.lookup name = some txn) ∨
    ∃ sid st, db.sessionTxns.find? sid = some st ∧ st.activeTxns.lookup name = some txn

/-- The rows and schemas a statement makes obey the law. -/
def Obeys (L : StorageLaw) (hidden : List TableTxns) (depth : Nat)
    (db : Database) : Statement → Prop
  | .insert i => ∀ (s : Database) ts slots rows, s.Sound L hidden → s.table i.table = some ts →
      insertRows s.readView depth i = .ok (slots, rows) → ∀ row ∈ rows, ∀ id row',
        withImplicitId slots id row = .ok row' → L.row ts.schema (encodeRow row')
  | .update u => ∀ (s : Database) ts id row, s.Sound L hidden → s.table u.table = some ts →
      updatedRow s.readView depth u id = .ok (some row) → L.row ts.schema (encodeRow row)
  | .createTable ct => ∀ schema, createSchema ct = .ok schema → L.schema schema
  | .alterTable a => ∀ ts ts', db.table a.table = some ts → ts.Sound L → ts.alter a.op = .ok ts' →
      ts'.Sound L ∧ ∀ txn, db.OpenTxn hidden a.table txn → ts.Holds L txn → ts'.Holds L txn
  | _ => True

/-! ## Data definition -/

section

variable {ct : CreateTableStatement} {stmt : Statement} {returns : Prop} {params : Params}
  {sid : Nat}

theorem Database.createTable_ok (h : db.createTable ct = .ok db') :
    ∃ schema, createSchema ct = .ok schema ∧
      db.table ct.table = none ∧
      db' = { db with tables := db.tables ++ [(ct.table, .new schema)] } := by
  obtain ⟨hnone, h⟩ := Outcome.unless_eq_ok.mp h
  obtain ⟨-, h⟩ := Outcome.unless_eq_ok.mp h
  obtain ⟨schema, hs, h⟩ := h.bind_ok
  cases h
  exact ⟨schema, hs, by simpa using hnone, rfl⟩

theorem Database.Sound.createTable (h : db.Sound L hidden)
    (hl : ∀ schema, createSchema ct = .ok schema → L.schema schema)
    (hc : db.createTable ct = .ok db') : db'.Sound L hidden := by
  obtain ⟨schema, hs, hnone, rfl⟩ := createTable_ok hc
  have hfresh : ct.table ∉ db.tables.map Prod.fst := by
    intro hm
    obtain ⟨⟨n, ts⟩, ht, rfl⟩ := List.mem_map.mp hm
    grind [table]
  have hold : ∀ txns, db.Fits L txns →
      Database.Fits L { db with tables := db.tables ++ [(ct.table, .new schema)] } txns := by
    refine fun txns hf => ⟨hf.names, fun name txn hl => ?_⟩
    obtain ⟨ts, hts, hh⟩ := hf.held name txn hl
    exact ⟨ts, by simpa [table, lookup_append] using .inl hts, hh⟩
  refine ⟨?_, fun name ts hts => ?_, hold _ h.active, h.idle,
    fun sid st hst => hold _ (h.sessions sid st hst), fun txns ht => hold _ (h.hidden txns ht)⟩
  · simpa using List.Nodup.append h.names (List.nodup_singleton ct.table) (by simpa using hfresh)
  · rw [table, lookup_append] at hts
    rcases Option.or_eq_some_iff.mp hts with hts | ⟨-, hts⟩
    · exact h.tables name ts hts
    · rw [lookup_cons_eq] at hts
      split at hts
      · cases hts
        exact ⟨hl schema hs, MvccStore.ordered_new, fun _ hv => (by cases hv), fun id b hb =>
          by cases hb⟩
      · cases hts

theorem Database.alterTable_ok {stmt : AlterTableStatement} (h : db.alterTable stmt = .ok db') :
    ∃ ts ts', db.table stmt.table = some ts ∧
      ts.alter stmt.op = .ok ts' ∧ db' = db.setTable stmt.table ts' := by
  obtain ⟨ts, hts, h⟩ := h.bind_ok
  obtain ⟨ts', halter, h⟩ := h.bind_ok
  cases h
  exact ⟨ts, ts', Outcome.okOr_eq_ok.mp hts, halter, rfl⟩

theorem Database.Sound.alterTable (h : db.Sound L hidden) {stmt : AlterTableStatement}
    (hl : Obeys L hidden depth db (.alterTable stmt)) (ha : db.alterTable stmt = .ok db') :
    db'.Sound L hidden := by
  obtain ⟨ts, ts', hts, halter, rfl⟩ := alterTable_ok ha
  obtain ⟨hs, hopen⟩ := hl ts ts' hts (h.tables _ ts hts) halter
  refine ⟨by simpa using h.names, fun n t ht => ?_, ?_, h.idle,
    fun sid st hst => ?_, fun txns hm => ?_⟩
  rotate_left
  · exact h.active.setTable hts fun txn ht => hopen txn (.inl ht)
  · exact (h.sessions sid st hst).setTable hts fun txn ht =>
      hopen txn (.inr (.inr ⟨sid, st, hst, ht⟩))
  · exact (h.hidden txns hm).setTable hts fun txn ht => hopen txn (.inr (.inl ⟨txns, hm, ht⟩))
  by_cases hn : n = stmt.table
  · subst hn
    simp only [table_setTable, hts] at ht
    cases ht
    exact hs
  · simp only [table_setTable, if_neg hn] at ht
    exact h.tables n t ht

theorem Database.Sound.of_same (h : db.Sound L hidden) (hs : SameData db db') :
    db'.Sound L hidden :=
  ⟨hs.tables ▸ h.names,
    fun n ts hts => h.tables n ts (by rw [table, ← hs.tables]; exact hts),
    hs.activeTxns ▸ h.active.of_tables hs.tables,
    fun hin => hs.activeTxns ▸ h.idle (hs.inTransaction ▸ hin),
    fun sid st hst => (h.sessions sid st (hs.sessionTxns ▸ hst)).of_tables hs.tables,
    fun txns hm => (h.hidden txns hm).of_tables hs.tables⟩

/-! ## Statements -/

theorem Executed.sound (hx : Executed depth db stmt returns db') (h : db.Sound L hidden)
    (hl : Obeys L hidden depth db stmt) (hret : returns) : db'.Sound L hidden := by
  cases hx with
  | same hs => exact h.of_same hs
  | insert i =>
    exact (runInsertStmt_keeps (P := fun _ => True) (fun _ _ _ _ => trivial) hl db
      ⟨h, rfl⟩ hret).1.2
  | update u =>
    exact (runUpdate_keeps (P := fun _ => True) (fun _ _ _ _ => trivial) hl db ⟨rfl, h⟩ hret).1.2
  | delete d =>
    exact (runDelete_keeps (P := fun _ => True) (fun _ _ _ _ => trivial) db ⟨rfl, h⟩ hret).1.2
  | createTable hc => exact h.createTable hl hc
  | alterTable ha => exact h.alterTable hl ha
  | begin =>
    exact ⟨h.names, h.tables, fits_nil _, fun _ => rfl,
      fun sid st hst => (h.sessions sid st hst).of_tables rfl,
      fun t ht => (h.hidden t ht).of_tables rfl⟩
  | commit => exact runCommit_sound h hret
  | rollback => exact h.close.forget

/-- A statement that obeys the law keeps the database sound. -/
theorem execute_sound (h : db.Sound L hidden) (hl : Obeys L hidden depth db stmt)
    (hret : (execute depth stmt params db).1.Returns) :
    (execute depth stmt params db).2.Sound L hidden :=
  (execute_spec depth stmt params db).sound h hl hret

/-! ## Sessions -/

/-- A session's transaction is open whether or not it is in the database's
place. -/
theorem Database.OpenTxn.of_enterSession {name : String} {txn : Transaction}
    (h : (db.enterSession sid).OpenTxn (db.activeTxns :: hidden) name txn) :
    db.OpenTxn hidden name txn := by
  rcases h with h | ⟨txns, hm, h⟩ | ⟨s, st, hs, h⟩
  · cases hst : db.sessionTxns.find? sid with
    | none => simp [activeTxn, enterSession, hst] at h
    | some st =>
      simp only [enterSession, hst] at h
      exact .inr (.inr ⟨sid, st, hst, h⟩)
  · rcases List.mem_cons.mp hm with rfl | hm
    · exact .inl h
    · exact .inr (.inl ⟨txns, hm, h⟩)
  · simp only [enterSession, setSession, SortedMap.find?_insert] at hs
    split at hs
    · grind
    · exact .inr (.inr ⟨s, st, hs, h⟩)

/-- What is asked of a statement does not change when a session's transaction
takes the database's place. -/
theorem Obeys.enterSession (h : Obeys L hidden depth db stmt) (sid : Nat) :
    Obeys L (db.activeTxns :: hidden) depth (db.enterSession sid) stmt := by
  cases stmt with
  | insert i => exact fun s ts slots rows hs => h s ts slots rows hs.forget
  | update u => exact fun s ts id row hs => h s ts id row hs.forget
  | createTable ct => exact h
  | alterTable a =>
    intro ts ts' hts hs halter
    exact (h ts ts' hts hs halter).imp_right fun hold txn ht => hold txn ht.of_enterSession
  | _ => trivial

theorem Database.Sound.fits_session (h : db.Sound L hidden) (sid : Nat) :
    db.Fits L ((db.sessionTxns.find? sid).getD {}).activeTxns := by
  cases hst : db.sessionTxns.find? sid with
  | none => exact fits_nil db
  | some st => exact h.sessions sid st hst

theorem Database.Sound.enterSession (h : db.Sound L hidden) (sid : Nat) :
    (db.enterSession sid).Sound L (db.activeTxns :: hidden) := by
  have hs : (db.setSession sid { inTransaction := true }).Sound L (db.activeTxns :: hidden) :=
    (h.hide h.active).setSession (fits_nil db)
  exact ⟨hs.names, hs.tables, (h.fits_session sid).of_tables rfl, fun hf => (nomatch hf),
    fun s st hst => (hs.sessions s st hst).of_tables rfl,
    fun txns hm => (hs.hidden txns hm).of_tables rfl⟩

theorem Database.Sound.leaveSession {before : Database}
    (h : db.Sound L (before.activeTxns :: hidden))
    (hidle : before.inTransaction = false → before.activeTxns = []) (sid : Nat) :
    (db.leaveSession sid before).Sound L hidden := by
  refine ⟨h.names, h.tables, (h.hidden _ (.head _)).of_tables rfl, hidle,
    fun s st hst => ?_, fun txns hm => (h.hidden txns (.tail _ hm)).of_tables rfl⟩
  simp only [Database.leaveSession] at hst
  split at hst
  · exact (h.sessions s st hst).of_tables rfl
  · rw [SortedMap.find?_insert] at hst
    split at hst
    · cases hst
      exact h.active.of_tables rfl
    · exact (h.sessions s st hst).of_tables rfl

theorem SessionExecuted.sound (hx : SessionExecuted depth sid params db stmt returns db')
    (h : db.Sound L hidden) (hl : Obeys L hidden depth db stmt) (hret : returns) :
    db'.Sound L hidden := by
  cases hx with
  | inside hctl hin =>
    exact (execute_sound (h.enterSession sid) (hl.enterSession sid) hret).leaveSession h.idle sid
  | outside hctl hin => exact execute_sound h hl hret
  | begin hin hst =>
    refine h.setSession ?_
    obtain rfl | hnil := hst
    · exact h.fits_session sid
    · rw [hnil]
      exact fits_nil db
  | commit => exact sessionCommit_sound h hret
  | rollback => exact h.setSession (fits_nil db)
  | idle hin => exact h

theorem executeInSession_sound (h : db.Sound L hidden) (hl : Obeys L hidden depth db stmt)
    (hret : (executeInSession depth sid stmt params db).1.Returns) :
    (executeInSession depth sid stmt params db).2.Sound L hidden :=
  (executeInSession_spec depth sid stmt params db).sound h hl hret

end

/-! ## Runs -/

/-- A call of a client: on the database, or within a session. -/
inductive ClientCall where
  | execute (stmt : Statement) (params : Params)
  | inSession (sid : Nat) (stmt : Statement) (params : Params)

namespace ClientCall

def stmt : ClientCall → Statement
  | .execute stmt _ => stmt
  | .inSession _ stmt _ => stmt

def run (depth : Nat) : ClientCall → DbProgram ResultSet
  | .execute stmt params => Archon.execute depth stmt params
  | .inSession sid stmt params => executeInSession depth sid stmt params

theorem run_sound {c : ClientCall} (h : db.Sound L hidden) (hl : Obeys L hidden depth db c.stmt)
    (hret : (c.run depth db).1.Returns) : (c.run depth db).2.Sound L hidden := by
  cases c with
  | execute stmt params => exact execute_sound h hl hret
  | inSession sid stmt params => exact executeInSession_sound h hl hret

end ClientCall

/-- A call that may be made and that returns, with a result or an error. -/
def CallStep (depth : Nat) (allowed : Database → ClientCall → Prop) (db db' : Database) : Prop :=
  ∃ c : ClientCall, allowed db c ∧ (c.run depth db).1.Returns ∧ (c.run depth db).2 = db'

/-- What any number of such calls leads to. -/
abbrev Reaches (depth : Nat) (allowed : Database → ClientCall → Prop) : Database →
    Database → Prop :=
  Relation.ReflTransGen (CallStep depth allowed)

/-- The database after a list of calls, if each of them returns. -/
def runCalls (depth : Nat) : List ClientCall → Database → Option Database
  | [], db => some db
  | c :: cs, db =>
    match c.run depth db with
    | (.ok _, db') => runCalls depth cs db'
    | (.error (.err _), db') => runCalls depth cs db'
    | (.error _, _) => none

variable {allowed : Database → ClientCall → Prop} {cs : List ClientCall}

theorem Reaches.of_runCalls (hcs : ∀ c ∈ cs, ∀ db, allowed db c)
    (h : runCalls depth cs db = some db') : Reaches depth allowed db db' := by
  induction cs generalizing db with
  | nil =>
    cases h
    exact .refl
  | cons c cs ih =>
    have hc := hcs c (.head _) db
    have hcs' : ∀ c ∈ cs, ∀ db, allowed db c := fun c hm => hcs c (.tail _ hm)
    unfold runCalls at h
    split at h
    · next db₁ hrun => exact .head ⟨c, hc, by rw [hrun]; trivial, by rw [hrun]⟩ (ih hcs' h)
    · next db₁ hrun => exact .head ⟨c, hc, by rw [hrun]; trivial, by rw [hrun]⟩ (ih hcs' h)
    · cases h

theorem reaches_of_runCalls (h : runCalls depth cs db = some db') :
    Reaches depth (fun _ _ => True) db db' :=
  .of_runCalls (fun _ _ _ => trivial) h

/-- What is computed of the database after some calls holds of one that is reached. -/
theorem exists_run {P : Database → Prop} (depth : Nat) (cs : List ClientCall)
    (h : ∃ db, runCalls depth cs .empty = some db ∧ P db) :
    ∃ db, Reaches depth (fun _ _ => True) .empty db ∧ P db :=
  h.imp fun _ hdb => ⟨reaches_of_runCalls hdb.1, hdb.2⟩

/-- A run of calls that obey the law keeps the database sound. -/
theorem Reaches.sound (hl : ∀ db c, db.Sound L [] → allowed db c → Obeys L [] depth db c.stmt)
    (h : db.Sound L []) (hr : Reaches depth allowed db db') : db'.Sound L [] := by
  induction hr with
  | refl => exact h
  | tail _ hstep ih =>
    obtain ⟨c, hc, hret, rfl⟩ := hstep
    exact c.run_sound ih (hl _ c ih hc) hret

theorem Database.sound_empty : Database.empty.Sound L [] :=
  ⟨.nil, fun _ _ h => (nomatch h), fits_nil _, fun _ => rfl, fun _ _ h => (nomatch h),
    fun _ h => (nomatch h)⟩

theorem Database.sound_new {schema : Schema} (hs : L.schema schema) :
    (Database.new schema).Sound L [] := by
  refine ⟨by simp [Database.new], fun name ts hts => ?_, fits_nil _, fun _ => rfl,
    fun _ _ h => (by cases h), fun _ h => (by cases h)⟩
  rw [table, Database.new, lookup_cons_eq] at hts
  split at hts
  · cases hts
    exact ⟨hs, MvccStore.ordered_new, fun _ hv => (by cases hv), fun _ _ hb => (by cases hb)⟩
  · contradiction

end Archon
