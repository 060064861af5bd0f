import Archon.Relational.StatementSound

/-!
# Archon.Relational.SessionStep

What one call of a session can do: to its own transaction, to those of the
other sessions, and to the rows and versions of the tables.

A commit installs a version for every row it changes.  Autocommit statements
and `ALTER TABLE` change rows around the version store; `unversioned` says
which.
-/

namespace Archon

open Program Database TableStorage List

variable {db db' : Database} {P : String → Nat → Prop}
variable {sid : Nat} {name : String}
variable {hidden : List TableTxns} {depth : Nat}

/-- Any statement obeys the law that asks for nothing. -/
theorem obeys_any (hidden : List TableTxns) (depth : Nat) (db : Database)
    (stmt : Statement) : Obeys .any hidden depth db stmt := by
  cases stmt with
  | insert i => exact fun _ _ _ _ _ _ _ _ _ _ _ _ => trivial
  | update u => exact fun _ _ _ _ _ _ _ => trivial
  | createTable ct => exact fun _ _ => trivial
  | alterTable a =>
    intro ts ts' hts hs ha
    obtain ⟨htree, hn, hm, -⟩ := alter_ok ha
    refine ⟨⟨trivial, hm ▸ hs.mvcc, hm ▸ hn ▸ hs.versions, fun id b hb => ⟨?_, trivial⟩⟩,
      fun txn _ hh => ⟨hm ▸ hh.snapshot, ?_⟩⟩
    · cases hold : ts.tree.find? id with
      | none => grind
      | some b' => exact hn ▸ (hs.rows id b' hold).1
    · intro id bytes hb
      obtain ⟨hid, hw⟩ := hh.writes id bytes hb
      exact ⟨hn ▸ hid, hw.imp_right fun ⟨b, hb, _⟩ => ⟨b, hb, trivial⟩⟩
  | _ => trivial

/-! ## Tables -/

namespace TableStorage

/-- A row outside `unversioned` changes only with a version newer than
anything committed before. -/
structure Versioned (unversioned : Nat → Prop) (ts ts' : TableStorage) : Prop where
  nextRowId : ts.nextRowId ≤ ts'.nextRowId
  clock : ts.mvcc.clock ≤ ts'.mvcc.clock
  latest : ∀ id v, ts.mvcc.latestCommitTs id = some v →
    ∃ v', ts'.mvcc.latestCommitTs id = some v' ∧ v ≤ v'
  tree : ∀ id, ¬ unversioned id → ts'.tree.find? id = ts.tree.find? id ∨
    ∃ v, ts'.mvcc.latestCommitTs id = some v ∧ ts.mvcc.clock < v

namespace Versioned

variable {P : Nat → Prop} {ts ts' ts'' : TableStorage}

theorem refl (ts : TableStorage) : Versioned P ts ts :=
  ⟨Nat.le_refl _, Nat.le_refl _, fun _ v h => ⟨v, h, Nat.le_refl _⟩, fun _ _ => .inl rfl⟩

theorem trans (h : Versioned P ts ts') (h' : Versioned P ts' ts'') : Versioned P ts ts'' := by
  refine ⟨Nat.le_trans h.nextRowId h'.nextRowId, Nat.le_trans h.clock h'.clock,
    fun id v hv => ?_, fun id hid => ?_⟩
  · obtain ⟨v', hv', hle⟩ := h.latest id v hv
    obtain ⟨v'', hv'', hle'⟩ := h'.latest id v' hv'
    exact ⟨v'', hv'', Nat.le_trans hle hle'⟩
  · rcases h'.tree id hid with heq' | ⟨v, hv, hlt⟩
    · rcases h.tree id hid with heq | ⟨v, hv, hlt⟩
      · exact .inl (heq'.trans heq)
      · obtain ⟨v', hv', hle⟩ := h'.latest id v hv
        exact .inr ⟨v', hv', Nat.lt_of_lt_of_le hlt hle⟩
    · exact .inr ⟨v, hv, Nat.lt_of_le_of_lt h.clock hlt⟩

theorem of_mvcc (hm : ts'.mvcc = ts.mvcc) (hn : ts.nextRowId ≤ ts'.nextRowId)
    (ht : ∀ id, ¬ P id → ts'.tree.find? id = ts.tree.find? id) : Versioned P ts ts' := by
  refine ⟨hn, by rw [hm], fun id v hv => ⟨v, by rw [hm]; exact hv, Nat.le_refl _⟩, fun id hid => ?_⟩
  exact .inl (ht id hid)

theorem mono {Q : Nat → Prop} (h : Versioned P ts ts') (hPQ : ∀ id, P id → Q id) :
    Versioned Q ts ts' :=
  ⟨h.nextRowId, h.clock, h.latest, fun id hid => h.tree id fun hp => hid (hPQ id hp)⟩

end Versioned

end TableStorage

variable {s : MvccStore} {txn : Transaction} {L : StorageLaw} {stmt : Statement}
  {params : Params}

theorem MvccStore.latestCommitTs_commit (h : s.conflicts txn = false) (k : Nat) :
    (s.commit txn).2.latestCommitTs k =
      if (txn.getWrite k).isSome then some (s.clock + 1) else s.latestCommitTs k := by
  rw [latestCommitTs_eq, latestCommitTs_eq, chain_commit h, Transaction.getWrite]
  cases txn.writes.find? k <;> simp

theorem MvccStore.Ordered.latest_le (h : s.Ordered) {k v : Nat} (hv : s.latestCommitTs k = some v) :
    v ≤ s.clock := by
  rw [latestCommitTs_eq] at hv
  obtain ⟨ver, hlast, rfl⟩ := Option.map_eq_some_iff.mp hv
  exact h.le_clock k ver (mem_of_getLast? hlast)

theorem commitTable_versioned {ts : TableStorage} (h : TableStorage.Carries L txn ts)
    (hret : (commitTable name txn ts).1.Returns) :
    ts.Versioned (fun _ => False) (commitTable name txn ts).2 := by
  unfold commitTable at hret ⊢
  rw [bind_run, commitMvcc_run] at hret ⊢
  cases hc : ts.mvcc.conflicts txn with
  | true =>
    have hsame : (ts.mvcc.commit txn).2 = ts.mvcc := by simp [MvccStore.commit, hc]
    simp only [hsame]
    exact .refl ts
  | false =>
    simp only [hc, Bool.false_eq_true, if_false] at hret ⊢
    have hlatest := MvccStore.latestCommitTs_commit hc
    have hcarries : TableStorage.Carries L txn { ts with mvcc := (ts.mvcc.commit txn).2 } :=
      ⟨h.commitMvcc.2, h.2.evolves h.commitMvcc.1⟩
    obtain ⟨⟨hrows, -⟩, -⟩ := applyTxn_keeps _ hcarries hret
    have hmvcc := hrows.mvcc
    have hclock : (ts.mvcc.commit txn).2.clock = ts.mvcc.clock + 1 := by simp [MvccStore.commit, hc]
    refine ⟨Nat.le_of_eq hrows.nextRowId.symm, ?_, fun id v hv => ?_, fun id _ => ?_⟩
    · simp [hmvcc, hclock]
    · rw [hmvcc, hlatest]
      split
      · exact ⟨_, rfl, Nat.le_succ_of_le (h.1.mvcc.latest_le hv)⟩
      · exact ⟨v, hv, Nat.le_refl _⟩
    · cases hw : (txn.getWrite id).isSome with
      | false => exact .inl (hrows.tree id (by simp [hw]))
      | true =>
        refine .inr ⟨ts.mvcc.clock + 1, ?_, Nat.lt_succ_self _⟩
        rw [hmvcc, hlatest, if_pos hw]

/-! ## Statements -/

/-- The rows a statement may change without a version. -/
def unversioned (depth : Nat) (db : Database) : Statement → String → Nat → Prop
  | .insert i, name, id => db.inTransaction = false ∧ name = i.table ∧
      ∀ ts, db.table name = some ts → ts.nextRowId ≤ id
  | .update u, name, id => db.inTransaction = false ∧ name = u.table ∧
      ∃ ids, matchingRowIds db.readView depth u.table u.filter = .ok ids ∧ id ∈ ids
  | .delete d, name, id => db.inTransaction = false ∧ name = d.table ∧
      ∃ ids, matchingRowIds db.readView depth d.table d.filter = .ok ids ∧ id ∈ ids
  | .alterTable a, name, id => name = a.table ∧ rewritesRows a.op = true ∧
      ∃ ts, db.table name = some ts ∧ (ts.tree.find? id).isSome
  | _, _, _ => False

/-- Sessions and snapshots stay, tables stay, and rows outside `P` change only
with a version. -/
structure StatementFrame (P : String → Nat → Prop) (db db' : Database) : Prop where
  inTransaction : db'.inTransaction = db.inTransaction
  sessions : db'.sessionTxns = db.sessionTxns
  tables : ∀ n ts, db.table n = some ts →
    ∃ ts', db'.table n = some ts' ∧ ts.Versioned (P n) ts'
  txns : ∀ n txn, db.activeTxn n = some txn →
    ∃ txn', db'.activeTxn n = some txn' ∧ txn'.snapshot = txn.snapshot

namespace StatementFrame

variable {P : String → Nat → Prop} {db db' : Database}

theorem of_same (h : SameData db db') : StatementFrame P db db' :=
  ⟨h.inTransaction, h.sessionTxns,
    fun _ ts hts => ⟨ts, by rw [table, h.tables]; exact hts, .refl ts⟩,
    fun _ txn ht => ⟨txn, by rw [activeTxn, h.activeTxns]; exact ht, rfl⟩⟩

theorem refl (db : Database) : StatementFrame P db db := of_same (.refl db)

theorem trans {db'' : Database} (h : StatementFrame P db db') (h' : StatementFrame P db' db'') :
    StatementFrame P db db'' := by
  refine ⟨h'.inTransaction.trans h.inTransaction, h'.sessions.trans h.sessions,
    fun n ts hts => ?_, fun n txn htxn => ?_⟩
  · obtain ⟨ts', hts', hv⟩ := h.tables n ts hts
    obtain ⟨ts'', hts'', hv'⟩ := h'.tables n ts' hts'
    exact ⟨ts'', hts'', hv.trans hv'⟩
  · obtain ⟨txn', htxn', hs⟩ := h.txns n txn htxn
    obtain ⟨txn'', htxn'', hs'⟩ := h'.txns n txn' htxn'
    exact ⟨txn'', htxn'', hs'.trans hs⟩

theorem setTable {ts ts' : TableStorage} (hts : db.table name = some ts)
    (hv : ts.Versioned (P name) ts') : StatementFrame P db (db.setTable name ts') := by
  refine ⟨rfl, rfl, fun n t hn => ?_, fun _ txn h => ⟨txn, h, rfl⟩⟩
  by_cases hne : n = name
  · subst hne
    rw [hts] at hn
    cases hn
    exact ⟨ts', by simp [hts], hv⟩
  · exact ⟨t, by simpa [hne] using hn, .refl t⟩

/-- A DML statement: inside a transaction it changes no row. -/
theorem of_dml {Q : Nat → Prop} (h : DmlFrame name Q db db')
    (hP : ∀ id, db.inTransaction = false → Q id → P name id) : StatementFrame P db db' := by
  refine ⟨h.inTransaction, h.sessions, fun n ts hts => ?_, h.txns⟩
  obtain ⟨ts', hts', hne, hf⟩ := h.tables n ts hts
  refine ⟨ts', hts', ?_⟩
  by_cases hn : n = name
  · subst hn
    refine .of_mvcc hf.mvcc hf.evolves.nextRowId fun id hid => ?_
    cases hin : db.inTransaction with
    | true => rw [(hf.kept hin).1]
    | false => exact hf.tree id fun hq => hid (hP id hin hq)
  · rw [hne hn]
    exact .refl ts

theorem createTable {ct : CreateTableStatement} (h : db.createTable ct = .ok db') :
    StatementFrame P db db' := by
  obtain ⟨schema, -, -, rfl⟩ := createTable_ok h
  refine ⟨rfl, rfl, fun n ts hts => ⟨ts, ?_, .refl ts⟩, fun _ txn h => ⟨txn, h, rfl⟩⟩
  simpa [table, lookup_append] using .inl hts

theorem alterTable {a : AlterTableStatement} (h : db.alterTable a = .ok db') :
    StatementFrame (unversioned depth db (.alterTable a)) db db' := by
  obtain ⟨ts, ts', hts, halter, rfl⟩ := alterTable_ok h
  obtain ⟨htree, hnext, hm, -⟩ := alter_ok halter
  refine .setTable hts (.of_mvcc hm (Nat.le_of_eq hnext.symm) fun id hid => htree id ?_)
  -- a row that is there is left alone only if the operation rewrites none
  cases hrow : ts.tree.find? id with
  | none => exact .inl rfl
  | some b =>
    refine .inr (Bool.eq_false_iff.mpr fun hrw => hid ⟨rfl, hrw, ts, hts, ?_⟩)
    simp [hrow]

end StatementFrame

/-- What a statement other than transaction control does. -/
theorem execute_frame (h : db.Sound .any hidden) (hc : stmt.isTxnControl = false)
    (hret : (execute depth stmt params db).1.Returns) :
    StatementFrame (unversioned depth db stmt) db (execute depth stmt params db).2 := by
  have hx := execute_spec depth stmt params db
  generalize (execute depth stmt params db).1.Returns = returns at hx hret
  generalize (execute depth stmt params db).2 = db' at hx
  cases hx with
  | same hs => exact .of_same hs
  | insert i =>
    have hframe := (runInsertStmt_keeps (P := fun id => ∀ ts, db.table i.table = some ts →
      ts.nextRowId ≤ id) (fun ts hts id hid ts' hts' => ?_) (obeys_any hidden depth db (.insert i))
      db ⟨h, rfl⟩ hret).1.1
    · exact .of_dml hframe fun id hin hq => ⟨hin, rfl, hq⟩
    · have heq : some ts = some ts' := hts.symm.trans hts'
      cases heq
      exact hid
  | update u =>
    exact .of_dml (runUpdate_keeps (P := fun id => ∃ ids, matchingRowIds db.readView depth u.table
      u.filter = .ok ids ∧ id ∈ ids) (fun ids hids id hid => ⟨ids, hids, hid⟩)
      (obeys_any hidden depth db (.update u)) db ⟨rfl, h⟩ hret).1.1 fun id hin hq => ⟨hin, rfl, hq⟩
  | delete d =>
    exact .of_dml (runDelete_keeps (P := fun id => ∃ ids, matchingRowIds db.readView depth d.table
      d.filter = .ok ids ∧ id ∈ ids) (fun ids hids id hid => ⟨ids, hids, hid⟩)
      db ⟨rfl, h⟩ hret).1.1 fun id hin hq => ⟨hin, rfl, hq⟩
  | createTable hct => exact .createTable hct
  | alterTable ha => exact .alterTable ha
  | _ => cases hc

/-! ## Sessions -/

/-- The part of a session's transaction on a table. -/
def Database.sessionTxn (db : Database) (sid : Nat) (name : String) : Option Transaction :=
  (db.sessionTxns.find? sid).bind fun st => st.activeTxns.lookup name

/-- The database a session's statement runs on. -/
def Database.inSession (db : Database) (sid : Nat) : Database :=
  if db.sessionInTransaction sid then db.enterSession sid else db

/-- What a call of a session does when the database itself has no transaction
open. -/
structure SessionFrame (sid : Nat) (P : String → Nat → Prop) (db db' : Database) : Prop where
  inTransaction : db'.inTransaction = false
  others : ∀ s, s ≠ sid → db'.sessionTxns.find? s = db.sessionTxns.find? s
  own : ∀ n txn txn', db.sessionTxn sid n = some txn → db'.sessionTxn sid n = some txn' →
    txn'.snapshot = txn.snapshot
  tables : ∀ n ts, db.table n = some ts →
    ∃ ts', db'.table n = some ts' ∧ ts.Versioned (P n) ts'

/-- Replacing the session's transaction by one that is empty, or the same. -/
theorem SessionFrame.setSession (hin : db.inTransaction = false) {st : SessionTxn}
    (hst : st.activeTxns = [] ∨ st = (db.sessionTxns.find? sid).getD {}) :
    SessionFrame sid P db (db.setSession sid st) := by
  refine ⟨hin, fun s hs => ?_, fun n txn txn' htxn htxn' => ?_, fun _ ts hts => ⟨ts, hts, .refl ts⟩⟩
  · simp [Database.setSession, SortedMap.find?_insert, hs]
  · have hlookup : st.activeTxns.lookup n = some txn' := by
      simpa [Database.sessionTxn, Database.setSession, SortedMap.find?_insert] using htxn'
    rcases hst with hnil | heq
    · grind
    · obtain ⟨st₀, hfind, htxn⟩ := Option.bind_eq_some_iff.mp htxn
      grind

theorem SessionFrame.of_statement {db₁ : Database} (h : SessionFrame sid P db db₁)
    (h' : StatementFrame P db₁ db') (hnone : ∀ n, db₁.sessionTxn sid n = none) :
    SessionFrame sid P db db' := by
  refine ⟨h'.inTransaction.trans h.inTransaction, fun s hs => by rw [h'.sessions, h.others s hs],
    fun n txn txn' _ htxn' => ?_, fun n ts hts => ?_⟩
  · rw [sessionTxn, h'.sessions] at htxn'
    have := hnone n
    simp [sessionTxn, htxn'] at this
  · obtain ⟨ts₁, hts₁, hv⟩ := h.tables n ts hts
    obtain ⟨ts', hts', hv'⟩ := h'.tables n ts₁ hts₁
    exact ⟨ts', hts', hv.trans hv'⟩

theorem onTable_ok {p : Program DbError TableStorage α} {a : α}
    (h : onTable name p db = (.ok a, db')) : ∃ ts ts', db.table name = some ts ∧
      p ts = (.ok a, ts') ∧ db' = db.setTable name ts' := by
  unfold onTable at h
  split at h
  · cases h
  · next ts hts =>
    generalize hp : p ts = r at h
    obtain ⟨o, ts'⟩ := r
    cases h
    exact ⟨ts, ts', hts, hp, rfl⟩

/-- A loop that succeeds has run once on each table. -/
theorem forEachTable_ok {p : String → Transaction → Program DbError TableStorage Unit}
    {txns : TableTxns} (hd : (txns.map Prod.fst).Nodup) {db' : Database}
    (h : forEach (fun e => onTable e.1 (p e.1 e.2)) txns db = (.ok (), db')) :
    (∀ n, n ∉ txns.map Prod.fst → db'.table n = db.table n) ∧
      ∀ e ∈ txns, ∀ ts, db.table e.1 = some ts →
        ∃ ts', p e.1 e.2 ts = (.ok (), ts') ∧ db'.table e.1 = some ts' := by
  induction txns generalizing db with
  | nil =>
    cases h
    exact ⟨fun _ _ => rfl, fun _ hm => (nomatch hm)⟩
  | cons e txns ih =>
    rw [map_cons, nodup_cons] at hd
    obtain ⟨_, db₁, h₁, h⟩ := bind_ok.mp h
    obtain ⟨ts₀, ts₁, hts₀, hp, rfl⟩ := onTable_ok h₁
    obtain ⟨hother, hat⟩ := ih hd.2 h
    refine ⟨fun n hn => ?_, fun e' hm ts hts => ?_⟩
    · rw [map_cons, mem_cons, not_or] at hn
      simp [hother n hn.2, hn.1]
    · rcases mem_cons.mp hm with rfl | hm
      · rw [hts] at hts₀
        cases hts₀
        refine ⟨ts₁, hp, ?_⟩
        simp [hother _ hd.1, hts]
      · have hne : e'.1 ≠ e.1 := fun heq => hd.1 (heq ▸ mem_map_of_mem (f := Prod.fst) hm)
        exact hat e' hm ts (by simpa [hne] using hts)

/-- Committing the tables of a transaction that has been set aside. -/
theorem commitTables_frame (txns : TableTxns) :
    Keeps (fun db db' => StatementFrame (fun _ _ => False) db db')
      (fun db => db.Sound L (txns :: hidden)) (commitTables txns)
      fun _ db => db.Sound L (txns :: hidden) :=
  forEachTable_keeps hidden txns (fun db _ => .refl db) (fun _ _ _ h h' => h.trans h')
    commitTable_step
    fun _ _ _ _ hts hcarries hret _ => .setTable hts (commitTable_versioned hcarries hret)

theorem SessionFrame.refl (hin : db.inTransaction = false) : SessionFrame sid P db db := by
  refine ⟨hin, fun _ _ => rfl, fun n txn txn' h h' => ?_, fun _ ts hts => ⟨ts, hts, .refl ts⟩⟩
  grind

theorem SessionFrame.mono {Q : String → Nat → Prop} (h : SessionFrame sid P db db')
    (hPQ : ∀ n id, P n id → Q n id) : SessionFrame sid Q db db' :=
  ⟨h.inTransaction, h.others, h.own, fun n ts hts => by
    obtain ⟨ts', hts', hv⟩ := h.tables n ts hts
    exact ⟨ts', hts', hv.mono (hPQ n)⟩⟩

theorem sessionCommit_frame (h : db.Sound .any []) (hin : db.inTransaction = false)
    (hret : (sessionCommit sid db).1.Returns) :
    SessionFrame sid (fun _ _ => False) db (sessionCommit sid db).2 := by
  obtain ⟨st, hst, -, hrun⟩ | ⟨-, hrun⟩ := sessionCommit_run sid db
  · rw [hrun] at hret ⊢
    refine (SessionFrame.setSession hin (.inl rfl)).of_statement
      (commitTables_frame st.activeTxns _ (h.takeSession hst) hret).1 fun n => ?_
    simp [sessionTxn, setSession]
  · rw [hrun]
    exact .refl hin

theorem SessionFrame.leaveSession (hin : db.inTransaction = false)
    (hsid : db.sessionInTransaction sid = true) (h : StatementFrame P (db.enterSession sid) db') :
    SessionFrame sid P db (db'.leaveSession sid db) := by
  obtain ⟨st, hst⟩ : ∃ st, db.sessionTxns.find? sid = some st := by
    cases hst : db.sessionTxns.find? sid with
    | none => simp [Database.sessionInTransaction, hst] at hsid
    | some st => exact ⟨st, rfl⟩
  have hfind : db'.sessionTxns.find? sid = some { inTransaction := true } := by
    rw [h.sessions]
    simp [Database.enterSession, Database.setSession]
  refine ⟨hin, fun s hs => ?_, fun n txn txn' htxn htxn' => ?_, h.tables⟩
  · simp [Database.leaveSession, h.sessions, Database.enterSession, Database.setSession,
      SortedMap.find?_insert, hs]
  · have henter : (db.enterSession sid).activeTxn n = some txn := by
      simpa [Database.sessionTxn, Database.activeTxn, Database.enterSession, hst] using htxn
    obtain ⟨txn'', hactive, hsnap⟩ := h.txns n txn henter
    have hleave : db'.activeTxn n = some txn' := by
      simpa [Database.sessionTxn, Database.activeTxn, Database.leaveSession, hfind] using htxn'
    rw [hactive] at hleave
    cases hleave
    exact hsnap

theorem SessionFrame.of_autocommit (hin : db.inTransaction = false) (h : StatementFrame P db db') :
    SessionFrame sid P db db' := by
  refine ⟨h.inTransaction.trans hin, fun s _ => by rw [h.sessions], fun n txn txn' ht ht' => ?_,
    h.tables⟩
  rw [sessionTxn, h.sessions, ← sessionTxn, ht] at ht'
  cases ht'
  rfl

theorem executeInSession_frame (h : db.Sound .any []) (hin : db.inTransaction = false)
    (hret : (executeInSession depth sid stmt params db).1.Returns) :
    SessionFrame sid (unversioned depth (db.inSession sid) stmt) db
      (executeInSession depth sid stmt params db).2 := by
  have hx := executeInSession_spec depth sid stmt params db
  generalize (executeInSession depth sid stmt params db).1.Returns = returns at hx hret
  generalize (executeInSession depth sid stmt params db).2 = db' at hx
  cases hx with
  | inside hctl hsid =>
    rw [inSession, if_pos hsid]
    exact .leaveSession hin hsid (execute_frame (h.enterSession sid) hctl hret)
  | outside hctl hsid =>
    rw [inSession, if_neg (Bool.eq_false_iff.mp hsid)]
    exact .of_autocommit hin (execute_frame h hctl hret)
  | begin _ hst => exact .setSession hin hst.symm
  | commit => exact (sessionCommit_frame h hin hret).mono fun _ _ hf => hf.elim
  | rollback => exact .setSession hin (.inl rfl)
  | idle _ => exact .refl hin

end Archon
