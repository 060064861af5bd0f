import Archon.Relational.OwnWrites

/-!
# Archon.Relational.Isolation

Sessions do not see each other's open transactions.  A statement inside a
session's transaction changes nothing outside the session but the row id
counters, and no query of another session depends on those: there is no row
behind an id handed out for a buffered one.
-/

namespace Archon

open Program TableStorage Database

variable {db db' : Database} {sid : Nat} {ts : TableStorage}
variable {depth : Nat} {hidden : List TableTxns}

/-! ## Row id counters -/

/-- The same table, with more row ids handed out. -/
structure TableStorage.Grown (ts ts' : TableStorage) : Prop where
  same : ts' = { ts with nextRowId := ts'.nextRowId }
  le : ts.nextRowId ≤ ts'.nextRowId

namespace TableStorage.Grown

variable {ts ts' ts'' : TableStorage}

theorem refl (ts : TableStorage) : ts.Grown ts := ⟨rfl, Nat.le_refl _⟩

theorem trans (h : ts.Grown ts') (h' : ts'.Grown ts'') : ts.Grown ts'' := by
  refine ⟨?_, Nat.le_trans h.le h'.le⟩
  have hsame := h'.same
  rw [h.same] at hsame
  exact hsame

end TableStorage.Grown

theorem ReadTable.rows_append_of_none {rt : ReadTable} {ids : List Nat}
    (h : ∀ id ∈ ids, rt.rowAt id = .ok none) (front : List Nat) :
    rt.rows (front ++ ids) = rt.rows front := by
  induction front with
  | nil =>
    induction ids with
    | nil => rfl
    | cons id ids ih =>
      have htail := ih fun k hk => h k (.tail id hk)
      simp only [List.nil_append] at htail ⊢
      simp [ReadTable.rows, h id (.head _), htail]
  | cons id front ih => simp [ReadTable.rows, ih]

variable {L : StorageLaw} {txn : Option Transaction} {stmt : Statement} {db₁ : Database}

/-- There is no row behind an id not handed out. -/
theorem TableStorage.Sound.currentRow_none (h : ts.Sound L) (ht : ∀ t, txn = some t → ts.Holds L t)
    {id : Nat} (hid : ts.nextRowId ≤ id) : ts.currentRow txn id = .ok none := by
  have hwrite : txn.bind (·.getWrite id) = none := by
    cases hw : txn.bind (·.getWrite id) with
    | none => rfl
    | some bytes =>
      obtain ⟨t, rfl, hget⟩ := Option.bind_eq_some_iff.mp hw
      have hlt := ((ht t rfl).writes id bytes hget).1
      omega
  have htree : ts.tree.find? id = none := by
    cases hf : ts.tree.find? id with
    | none => rfl
    | some bytes =>
      have hlt := (h.rows id bytes hf).1
      omega
  simp [currentRow, currentBytes, hwrite, htree]

/-- So more ids handed out are no more rows, nor candidates of a nearest-
neighbour query. -/
theorem TableStorage.Sound.grown_view {ts' : TableStorage} (h : ts.Sound L) (hg : ts.Grown ts')
    (ht : ∀ t, txn = some t → ts.Holds L t) :
    (ts'.view txn).rows (List.range ts'.nextRowId) = (ts.view txn).rows (List.range ts.nextRowId) ∧
      ts'.nearest = ts.nearest := by
  obtain ⟨d, hd⟩ := Nat.exists_eq_add_of_le hg.le
  have hrange : List.range ts'.nextRowId =
      List.range ts.nextRowId ++ (List.range d).map (ts.nextRowId + ·) := by
    rw [hd, List.range_add]
  have hfresh : ∀ id ∈ (List.range d).map (ts.nextRowId + ·), ts.nextRowId ≤ id := by
    intro id hid
    obtain ⟨k, -, rfl⟩ := List.mem_map.mp hid
    simp
  rw [hg.same]
  constructor
  · have hrows : ∀ ids, (view { ts with nextRowId := ts'.nextRowId } txn).rows ids =
        (ts.view txn).rows ids := by
      intro ids
      induction ids with
      | nil => rfl
      | cons id ids ih =>
        simp only [ReadTable.rows, ih]
        rfl
    rw [hrows, hrange]
    exact ReadTable.rows_append_of_none (fun id hid => h.currentRow_none ht (hfresh id hid)) _
  · funext column query k
    have hnone : ∀ id ∈ (List.range d).map (ts.nextRowId + ·), ts.tree.find? id = none := by
      intro id hid
      cases hf : ts.tree.find? id with
      | none => rfl
      | some bytes =>
        have hlt := (h.rows id bytes hf).1
        have hle := hfresh id hid
        omega
    have hmap : ((List.range d).map (ts.nextRowId + ·)).filterMap
        (fun id => (ts.tree.find? id).map (ts.decode id)) = [] := by
      rw [List.filterMap_eq_nil_iff]
      grind
    cases hidx : ts.vectorIndexes.lookup column with
    | some idx => simp only [nearest, candidateIds, hidx]; rfl
    | none =>
      have hids : (List.range ts'.nextRowId).filterMap
          (fun id => (ts.tree.find? id).map (ts.decode id)) =
            (List.range ts.nextRowId).filterMap fun id => (ts.tree.find? id).map
              (ts.decode id) := by
        rw [hrange, List.filterMap_append, hmap, List.append_nil]
      have hdecode : decode { ts with nextRowId := ts'.nextRowId } = ts.decode := rfl
      simp [nearest, candidateIds, hidx, hdecode, hids]

/-! ## Outside a session -/

/-- Everything but the session's own transaction and the row id counters is the
same. -/
structure Outside (sid : Nat) (db db' : Database) : Prop where
  names : db'.tables.map Prod.fst = db.tables.map Prod.fst
  tables : ∀ n, Option.Rel TableStorage.Grown (db.table n) (db'.table n)
  views : db'.views = db.views
  parameters : db'.sessionParameters = db.sessionParameters
  inTransaction : db'.inTransaction = db.inTransaction
  activeTxns : db'.activeTxns = db.activeTxns
  sessions : ∀ s, s ≠ sid → db'.sessionTxns.find? s = db.sessionTxns.find? s

theorem optionRel_grown_refl (db : Database) (n : String) :
    Option.Rel TableStorage.Grown (db.table n) (db.table n) := by
  cases db.table n with
  | none => exact .none
  | some ts => exact .some (.refl ts)

namespace Outside

variable {sid : Nat} {db db' db'' : Database}

theorem trans (h : Outside sid db db') (h' : Outside sid db' db'') : Outside sid db db'' := by
  refine ⟨h'.names.trans h.names, fun n => ?_, h'.views.trans h.views,
    h'.parameters.trans h.parameters, h'.inTransaction.trans h.inTransaction,
    h'.activeTxns.trans h.activeTxns, fun s hs => (h'.sessions s hs).trans (h.sessions s hs)⟩
  have hrel := h.tables n
  have hrel' := h'.tables n
  generalize db.table n = x, db'.table n = y, db''.table n = z at hrel hrel'
  cases hrel with
  | none =>
    cases hrel' with
    | none => exact .none
  | some hg =>
    cases hrel' with
    | some hg' => exact .some (hg.trans hg')

theorem setSession (db : Database) (st : SessionTxn) : Outside sid db (db.setSession sid st) := by
  refine ⟨rfl, optionRel_grown_refl db, rfl, rfl, rfl, rfl, fun s hs => ?_⟩
  simp [Database.setSession, SortedMap.find?_insert, hs]

end Outside

/-- Inside a transaction a change of rows only hands out row ids. -/
theorem DmlFrame.grown {name : String} {P : Nat → Prop} (h : DmlFrame name P db db')
    (hin : db.inTransaction = true) (n : String) :
    Option.Rel TableStorage.Grown (db.table n) (db'.table n) := by
  cases hts : db.table n with
  | some ts =>
    obtain ⟨ts', hts', -, hf⟩ := h.tables n ts hts
    obtain ⟨htree, hidx⟩ := hf.kept hin
    rw [hts']
    refine .some ⟨?_, hf.evolves.nextRowId⟩
    have hschema := hf.evolves.schema
    have hmvcc := hf.mvcc
    cases ts'
    simp_all
  | none =>
    cases hts' : db'.table n with
    | none => exact .none
    | some ts' =>
      obtain ⟨ts, hts₁, -⟩ := h.table_some hts'
      grind

/-- The table whose rows a statement changes. -/
def Statement.target : Statement → String
  | .insert i => i.table
  | .update u => u.table
  | .delete d => d.table
  | _ => ""

theorem execute_dmlFrame (h : db.Sound .any hidden) (hs : stmt.isQueryOrDml = true)
    {params : Params} (hret : (execute depth stmt params db).1.Returns) :
    DmlFrame stmt.target (fun _ => True) db (execute depth stmt params db).2 := by
  cases stmt with
  | select | selectLiteral | compound => exact .refl db
  | insert i =>
    simp only [execute, affecting_run, returns_map] at hret ⊢
    exact (runInsertStmt_keeps (fun _ _ _ _ => trivial) (obeys_any hidden depth db (.insert i))
      db ⟨h, rfl⟩ hret).1.1
  | update u =>
    simp only [execute, affecting_run, returns_map] at hret ⊢
    exact (runUpdate_keeps (fun _ _ _ _ => trivial) (obeys_any hidden depth db (.update u))
      db ⟨rfl, h⟩ hret).1.1
  | delete d =>
    simp only [execute, affecting_run, returns_map] at hret ⊢
    exact (runDelete_keeps (fun _ _ _ _ => trivial) db ⟨rfl, h⟩ hret).1.1
  | _ => cases hs

/-! ## Steps -/

/-- A query or change of rows in the session's transaction, that returns. -/
def OwnStep (depth : Nat) (sid : Nat) (db db' : Database) : Prop :=
  db.sessionInTransaction sid = true ∧ ∃ stmt params, stmt.isQueryOrDml = true ∧
    (executeInSession depth sid stmt params db).1.Returns ∧
    (executeInSession depth sid stmt params db).2 = db'

/-- A call of another session. -/
def OtherStep (depth : Nat) (sid : Nat) (db db' : Database) : Prop :=
  ∃ other, other ≠ sid ∧ SessionStep depth (fun _ _ _ => True) other db db'

theorem Statement.isTxnControl_of_isQueryOrDml (h : stmt.isQueryOrDml = true) :
    stmt.isTxnControl = false := by
  cases stmt <;> first | rfl | cases h

/-- A session's statement stays within its transaction, and leaves it open. -/
theorem OwnStep.outside (h : db.Sound .any []) (hstep : OwnStep depth sid db db') :
    Outside sid db db' ∧ db'.sessionInTransaction sid = true := by
  obtain ⟨hin, stmt, params, hs, hret, rfl⟩ := hstep
  rw [executeInSession_of_ordinary (Statement.isTxnControl_of_isQueryOrDml hs),
    if_pos hin] at hret ⊢
  have hf := execute_dmlFrame (h.enterSession sid) hs hret
  generalize (execute depth stmt params (db.enterSession sid)).2 = after at hf
  have hown : after.sessionTxns.find? sid = some { inTransaction := true } := by
    rw [hf.sessions]
    simp [enterSession, setSession]
  have hleft : (after.leaveSession sid db).sessionTxns =
      after.sessionTxns.insert sid { inTransaction := true, activeTxns := after.activeTxns } := by
    simp [leaveSession, hown]
  refine ⟨⟨hf.names, hf.grown rfl, hf.views, hf.parameters, rfl, rfl, fun s hs => ?_⟩, ?_⟩
  · simp [hleft, SortedMap.find?_insert, hf.sessions, enterSession,
      setSession, hs]
  · simp [sessionInTransaction, hleft]

/-! ## Queries of other sessions -/

/-- Databases that differ in row id counters agree. -/
theorem Database.Sound.agrees_grown (h : db.Sound .any hidden) (hviews : db'.views = db.views)
    (htxns : ∀ n, db'.activeTxn n = db.activeTxn n)
    (ht : ∀ n, Option.Rel TableStorage.Grown (db.table n) (db'.table n)) :
    db.readView.Agrees (fun _ => True) db'.readView := by
  have hcase : ∀ n, (db.table n = none ∧ db'.table n = none) ∨
      ∃ ts ts', db.table n = some ts ∧ db'.table n = some ts' ∧ ts'.schema = ts.schema ∧
        (ts'.view (db.activeTxn n)).rows (List.range ts'.nextRowId) =
          (ts.view (db.activeTxn n)).rows (List.range ts.nextRowId) ∧
        ts'.nearest = ts.nearest := by
    intro n
    have hrel := ht n
    cases hts : db.table n with
    | none =>
      rw [hts] at hrel
      cases hts' : db'.table n with
      | none => exact .inl ⟨rfl, rfl⟩
      | some ts' => simp [hts'] at hrel
    | some ts =>
      rw [hts] at hrel
      cases hts' : db'.table n with
      | none => simp [hts'] at hrel
      | some ts' =>
        rw [hts'] at hrel
        cases hrel with
        | some hg =>
          refine .inr ⟨ts, ts', rfl, rfl, by rw [hg.same], ?_⟩
          exact (h.tables n ts hts).grown_view hg (h.holds hts)
  refine ⟨hviews.symm, fun n => ?_, fun n => ?_, fun n _ => ?_⟩
  · obtain ⟨hts, hts'⟩ | ⟨ts, ts', hts, hts', hschema, hrows, -⟩ := hcase n
    · simp [scanTable, hts, hts']
    · simp [scanTable, hts, hts', htxns, Outcome.okOr, hschema, view] at hrows ⊢
      simp [hrows]
  · obtain ⟨hts, hts'⟩ | ⟨ts, ts', hts, hts', -⟩ := hcase n
    · simp [hts, hts']
    · simp [hts, hts']
  · obtain ⟨hts, hts'⟩ | ⟨ts, ts', hts, hts', hschema, -, hnear⟩ := hcase n
    · simp [hts, hts']
    · simp [hts, hts', view, hschema, hnear]

/-- A query of another session answers alike. -/
theorem Outside.query {other : Nat} (h : Outside sid db db') (hs : db.Sound .any [])
    (hne : other ≠ sid) {q : Statement} (hq : q.isQuery = true) (params : Params) :
    (executeInSession depth other q params db').1 =
      (executeInSession depth other q params db).1 := by
  have hexec : ∀ {cur cur' : Database} {hidden : List TableTxns},
      cur.Sound .any hidden → cur'.views = cur.views →
      (∀ n, cur'.activeTxn n = cur.activeTxn n) →
      (∀ n, Option.Rel TableStorage.Grown (cur.table n) (cur'.table n)) →
      (execute depth q params cur').1 = (execute depth q params cur).1 := by
    intro cur cur' hidden hsound hviews htxns ht
    have hagree := hsound.agrees_grown hviews htxns ht
    have hN : ∀ stmt : SelectStatement, True → stmt.NearestIn fun _ => True :=
      fun _ _ _ _ _ _ _ => trivial
    cases q with
    | select s => exact (runSelect_agree hagree (.all _) hN trivial depth params).symm
    | compound cm =>
      exact (runCompound_agree hagree (.all _) hN trivial (fun _ _ => trivial) depth params).symm
    | selectLiteral items => rfl
    | _ => cases hq
  have hctl : q.isTxnControl = false := by cases q <;> first | rfl | cases hq
  have hin : db'.sessionInTransaction other = db.sessionInTransaction other := by
    simp [sessionInTransaction, h.sessions other hne]
  rw [executeInSession_of_ordinary hctl, executeInSession_of_ordinary hctl, hin]
  split
  · refine hexec (hs.enterSession other) h.views (fun n => ?_) h.tables
    simp [activeTxn, enterSession, h.sessions other hne]
  · exact hexec hs h.views (fun n => by rw [activeTxn, h.activeTxns]; rfl) h.tables

/-! ## Isolation -/

/-- The states that the session's statements and calls of other sessions lead
to. -/
abbrev Meanwhile (depth : Nat) (sid : Nat) : Database → Database → Prop :=
  Relation.ReflTransGen fun x y => OwnStep depth sid x y ∨ OtherStep depth sid x y

/-- What session `sid` shows of its transaction from `db` on: its statements
change nothing outside it, no query of another session tells them apart, and of
all that happens from a `BEGIN` to a `ROLLBACK` only the calls of the other
sessions change anything outside it. -/
structure Isolated (depth : Nat) (sid : Nat) (db : Database) : Prop where
  statement : ∀ db', OwnStep depth sid db db' → Outside sid db db'
  queries : ∀ db', OwnStep depth sid db db' → ∀ other, other ≠ sid → ∀ q : Statement,
    q.isQuery = true → ∀ depth' params,
      (executeInSession depth' other q params db').1 = (executeInSession depth' other q params db).1
  rollback : ∀ db₁, executeInSession depth sid .begin [] db = (.ok {}, db₁) →
    Outside sid db db₁ ∧ ∀ db₂, Meanwhile depth sid db₁ db₂ →
      (∀ db', OwnStep depth sid db₂ db' → Outside sid db₂ db') ∧
      ∃ db₃, executeInSession depth sid .rollback [] db₂ = (.ok {}, db₃) ∧
        db₃.sessionTxns.find? sid = some {} ∧ Outside sid db₂ db₃ ∧
        (Relation.ReflTransGen (OwnStep depth sid) db₁ db₂ → Outside sid db db₃)

theorem SessionStep.sound {allowed : Database → Nat → Statement → Prop}
    (h : db.Sound .any [] ∧ db.inTransaction = false) (hs : SessionStep depth allowed sid db db') :
    db'.Sound .any [] ∧ db'.inTransaction = false :=
  SessionRun.sound h (.single ⟨sid, hs⟩)

theorem OwnStep.sound (h : db.Sound .any [] ∧ db.inTransaction = false)
    (hstep : OwnStep depth sid db db') : db'.Sound .any [] ∧ db'.inTransaction = false := by
  obtain ⟨-, stmt, params, -, hret, hdb⟩ := hstep
  have hcall : SessionStep depth (fun _ _ _ => True) sid db db' :=
      ⟨stmt, params, trivial, hret, hdb⟩
  exact hcall.sound h

/-- The transaction stays open in between. -/
theorem Meanwhile.keeps {db₂ : Database} (h : db₁.Sound .any [] ∧ db₁.inTransaction = false)
    (hin : db₁.sessionInTransaction sid = true) (hr : Meanwhile depth sid db₁ db₂) :
    (db₂.Sound .any [] ∧ db₂.inTransaction = false) ∧ db₂.sessionInTransaction sid = true := by
  induction hr with
  | refl => exact ⟨h, hin⟩
  | tail _ hstep ih =>
    obtain ⟨hs, hin⟩ := ih
    cases hstep with
    | inl hown => exact ⟨hown.sound hs, (hown.outside hs.1).2⟩
    | inr hother =>
      obtain ⟨other, hne, hcall⟩ := hother
      refine ⟨hcall.sound hs, ?_⟩
      obtain ⟨stmt, params, -, hret, rfl⟩ := hcall
      have hframe := executeInSession_frame hs.1 hs.2 hret
      rw [sessionInTransaction, hframe.others sid (Ne.symm hne)]
      exact hin

theorem begin_ok (h : executeInSession depth sid .begin [] db = (.ok {}, db₁)) :
    db₁ = db.setSession sid { inTransaction := true, activeTxns := [] } := by
  replace h : silent (sessionBegin sid) db = (.ok {}, db₁) := h
  rw [silent_run, sessionBegin] at h
  cases hin : ((db.sessionTxns.find? sid).getD {}).inTransaction with
  | true => simp [hin, Outcome.fail, Except.map] at h
  | false =>
    simp only [hin, Prod.mk.injEq] at h
    exact h.2.symm

theorem rollback_run (h : db.sessionInTransaction sid = true) :
    executeInSession depth sid .rollback [] db = (.ok {}, db.setSession sid {}) := by
  show silent (sessionRollback sid) db = _
  cases hst : db.sessionTxns.find? sid with
  | none => simp [sessionInTransaction, hst] at h
  | some st =>
    have hin : st.inTransaction = true := by
      simpa [sessionInTransaction, hst] using h
    simp [silent_run, sessionRollback, bind_run, takeSessionTxns, hst, hin]
    exact ⟨rfl, rfl⟩

end Archon
