import Archon.Relational.SessionStep

/-!
# Archon.Relational.LostUpdate

No lost updates between sessions.  A committed row that changes under a
buffered image of it gets a version newer than the image's snapshot, so the
commit of the image conflicts; a row changed around the version store does
not, and the commit overwrites the change.
-/

namespace Archon

open Program Database

variable {db : Database} {name : String}
variable {depth : Nat}

/-! ## Runs of sessions -/

/-- A call of session `sid` that returns. -/
def SessionStep (depth : Nat) (allowed : Database → Nat → Statement → Prop) (sid : Nat)
    (db db' : Database) : Prop :=
  ∃ stmt params, allowed db sid stmt ∧ (executeInSession depth sid stmt params db).1.Returns ∧
    (executeInSession depth sid stmt params db).2 = db'

/-- Any number of calls of any sessions. -/
abbrev SessionRun (depth : Nat) (allowed : Database → Nat → Statement → Prop) :
    Database → Database → Prop :=
  Relation.ReflTransGen fun db db' => ∃ sid, SessionStep depth allowed sid db db'

/-- A database just made. -/
def Database.Fresh (db : Database) : Prop := db = .empty ∨ ∃ schema, db = .new schema

theorem Database.Fresh.sound (h : db.Fresh) : db.Sound .any [] ∧ db.inTransaction = false := by
  rcases h with rfl | ⟨schema, rfl⟩
  · exact ⟨sound_empty, rfl⟩
  · exact ⟨sound_new trivial, rfl⟩

variable {db' : Database} {txn : Transaction} {id s sid : Nat}

variable {allowed : Database → Nat → Statement → Prop}

/-- Runs of sessions leave the database's own transaction alone. -/
theorem SessionRun.sound (h : db.Sound .any [] ∧ db.inTransaction = false)
    (hr : SessionRun depth allowed db db') : db'.Sound .any [] ∧ db'.inTransaction = false := by
  induction hr with
  | refl => exact h
  | tail _ hstep ih =>
    obtain ⟨sid, stmt, params, -, hret, rfl⟩ := hstep
    exact ⟨executeInSession_sound ih.1 (obeys_any [] depth _ stmt) hret,
      (executeInSession_frame ih.1 ih.2 hret).inTransaction⟩

/-! ## Conflicts -/

theorem MvccStore.conflicts_of_write {s : MvccStore} {v : Nat} (hw : (txn.getWrite id).isSome)
    (hv : s.latestCommitTs id = some v) (hlt : txn.snapshot < v) : s.conflicts txn = true := by
  obtain ⟨bytes, hb⟩ := Option.isSome_iff_exists.mp hw
  refine List.any_eq_true.mpr ⟨id, List.mem_append_right _ ?_, ?_⟩
  · have hmem : (id, bytes) ∈ txn.writesIter := TableStorage.mem_writesIter.mpr hb
    exact List.mem_map_of_mem (f := Prod.fst) hmem
  · simpa [hv] using hlt

/-- A conflict on one table fails the whole loop. -/
theorem commitTables_conflict {txns : TableTxns} {ts : TableStorage}
    (hd : (txns.map Prod.fst).Nodup) (hm : (name, txn) ∈ txns) (hts : db.table name = some ts)
    (hc : ts.mvcc.conflicts txn = true) (db' : Database) :
    commitTables txns db ≠ (.ok (), db') := by
  intro h
  obtain ⟨ts', hp, -⟩ := (forEachTable_ok hd h).2 (name, txn) hm ts hts
  simp [commitTable, bind_run, TableStorage.commitMvcc_run, hc, Outcome.fail] at hp

/-! ## Images of rows -/

/-- The committed version of a row. -/
def Database.committed (db : Database) (name : String) (id : Nat) : Option Bytes :=
  (db.table name).bind fun ts => ts.tree.find? id

/-- The session has buffered an image of the row. -/
def Database.Buffers (db : Database) (sid : Nat) (name : String) (id : Nat) : Prop :=
  ∃ txn, db.sessionTxn sid name = some txn ∧ (txn.getWrite id).isSome

/-- The row has a version newer than the session's snapshot. -/
def Stale (db : Database) (sid : Nat) (name : String) (id : Nat) : Prop :=
  ∃ txn ts v, db.sessionTxn sid name = some txn ∧ db.table name = some ts ∧
    ts.mvcc.latestCommitTs id = some v ∧ txn.snapshot < v

/-- A stale image stays stale as long as it is there. -/
theorem Stale.step {P : String → Nat → Prop} (h : Stale db s name id)
    (hf : SessionFrame sid P db db') (hb : db'.Buffers s name id) : Stale db' s name id := by
  obtain ⟨txn, ts, v, htxn, hts, hv, hlt⟩ := h
  obtain ⟨txn', htxn', -⟩ := hb
  obtain ⟨ts', hts', hver⟩ := hf.tables name ts hts
  obtain ⟨v', hv', hle⟩ := hver.latest id v hv
  refine ⟨txn', ts', v', htxn', hts', hv', ?_⟩
  have hsnap : txn'.snapshot = txn.snapshot := by
    by_cases hs : s = sid
    · subst hs
      exact hf.own name txn txn' htxn htxn'
    · rw [sessionTxn, hf.others s hs, ← sessionTxn] at htxn'
      grind
  omega

theorem Stale.commit_fails (h : Stale db s name id) (hsound : db.Sound .any [])
    (hb : db.Buffers s name id) (db' : Database) : sessionCommit s db ≠ (.ok (), db') := by
  obtain ⟨txn, ts, v, htxn, hts, hv, hlt⟩ := h
  obtain ⟨txn', htxn', hw⟩ := hb
  rw [htxn] at htxn'
  cases htxn'
  obtain ⟨st, hst, hlookup⟩ := Option.bind_eq_some_iff.mp htxn
  intro hcommit
  obtain ⟨st', hst', -, hrun⟩ | ⟨-, hrun⟩ := sessionCommit_run s db
  · rw [hst] at hst'
    cases hst'
    rw [hrun] at hcommit
    have hts' : (db.setSession s {}).table name = some ts := hts
    exact commitTables_conflict (hsound.sessions s st hst).names (mem_of_lookup hlookup) hts'
      (MvccStore.conflicts_of_write hw hv hlt) db' hcommit
  · rw [hrun] at hcommit
    cases hcommit

/-! ## Lost updates -/

/-- Whenever session `s` commits, no other session has changed a row under an
image of it that `s` had buffered by then. -/
def NoLostUpdate (depth : Nat) (allowed : Database → Nat → Statement → Prop) : Prop :=
  ∀ (init db₁ db₂ db₃ db₄ : Database) (s s' : Nat) (name : String) (id : Nat) (rs : ResultSet),
    init.Fresh → SessionRun depth allowed init db₁ → db₁.Buffers s name id → s' ≠ s →
    SessionStep depth allowed s' db₁ db₂ →
    Relation.ReflTransGen (fun db db' => (∃ sid, SessionStep depth allowed sid db db') ∧
      db'.Buffers s name id) db₂ db₃ →
    executeInSession depth s .commit [] db₃ = (.ok rs, db₄) →
    db₂.committed name id = db₁.committed name id

/-- No statement changes, around the version store, a row another session has
an image of. -/
def VersionSafe (depth : Nat) (db : Database) (sid : Nat) (stmt : Statement) : Prop :=
  ∀ name id, unversioned depth (db.inSession sid) stmt name id →
    ∀ s, s ≠ sid → ¬ db.Buffers s name id

/-- An image changed under by another session is stale. -/
theorem stale_of_changed {stmt : Statement} {params : Params} (h : db.Sound .any [])
    (hin : db.inTransaction = false) (hsafe : VersionSafe depth db sid stmt)
    (hret : (executeInSession depth sid stmt params db).1.Returns) (hs : sid ≠ s)
    (hb : db.Buffers s name id)
    (hne : (executeInSession depth sid stmt params db).2.committed name id ≠
      db.committed name id) : Stale (executeInSession depth sid stmt params db).2 s name id := by
  have hf := executeInSession_frame h hin hret
  obtain ⟨txn, htxn, hw⟩ := hb
  obtain ⟨st, hst, hlookup⟩ := Option.bind_eq_some_iff.mp htxn
  obtain ⟨ts, hts, hheld⟩ := (h.sessions s st hst).held name txn hlookup
  obtain ⟨ts', hts', hver⟩ := hf.tables name ts hts
  rcases hver.tree id fun hun => hsafe name id hun s (Ne.symm hs) ⟨txn, htxn, hw⟩ with heq | hnew
  · exact absurd (by simpa [committed, hts, hts'] using heq) hne
  · obtain ⟨v, hv, hlt⟩ := hnew
    refine ⟨txn, ts', v, ?_, hts', hv, Nat.lt_of_le_of_lt hheld.snapshot hlt⟩
    rw [sessionTxn, hf.others s (Ne.symm hs)]
    exact htxn

theorem silent_ok {p : DbProgram Unit} {rs : ResultSet} (h : silent p db = (.ok rs, db')) :
    p db = (.ok (), db') := by
  obtain ⟨_, db₁, h₁, h⟩ := bind_ok.mp h
  cases h
  exact h₁

/-- A table `t (id, a INT)`. -/
def schemaT : Schema := { columns := ["id", "a"], types := [.int, .int] }

/-- `INSERT INTO t (a) VALUES (n)`. -/
def insertA (n : Int64) : Statement := .insert ⟨"t", ["a"], [[.int n]]⟩

/-- `UPDATE t SET a = n`. -/
def updateA (n : Int64) : Statement := .update ⟨"t", [⟨"a", .int n⟩], none⟩

/-- The database after one call of a session. -/
def afterCall (sid : Nat) (stmt : Statement) (db : Database) : Database :=
  (executeInSession 1 sid stmt [] db).2

theorem SessionRun.afterCall {init : Database} (h : SessionRun 1 allowed init db) (sid : Nat)
    (stmt : Statement) (hsafe : allowed db sid stmt)
    (hret : (executeInSession 1 sid stmt [] db).1.Returns) :
    SessionRun 1 allowed init (afterCall sid stmt db) :=
  .tail h ⟨sid, stmt, [], hsafe, hret, rfl⟩

/-- Inside its transaction a session writes no row. -/
theorem versionSafe_insertA (h : (db.inSession sid).inTransaction = true) (n : Int64) :
    VersionSafe 1 db sid (insertA n) := by
  intro name id hun
  exact absurd hun.1 (by simp [h])

/-- Two sessions with a buffered row each. -/
def bothBuffered : Database :=
  afterCall 2 (insertA 6) (afterCall 2 .begin (afterCall 1 (insertA 5)
    (afterCall 1 .begin (.new schemaT))))

theorem bothBuffered_run : SessionRun 1 (VersionSafe 1) (.new schemaT) bothBuffered := by
  have hbegin : ∀ db sid, VersionSafe 1 db sid .begin := fun _ _ _ _ h => h.elim
  refine SessionRun.afterCall
    (SessionRun.afterCall (SessionRun.afterCall (SessionRun.afterCall .refl
    1 .begin (hbegin _ _) ?_) 1 (insertA 5) (versionSafe_insertA ?_ 5) ?_) 2 .begin (hbegin _ _) ?_)
    2 (insertA 6) (versionSafe_insertA ?_ 6) ?_
  all_goals decide +kernel

end Archon
