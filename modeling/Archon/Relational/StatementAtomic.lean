import Archon.Relational.Isolation

/-!
# Archon.Relational.StatementAtomic

What a failing `INSERT`, `UPDATE` or `DELETE` leaves behind.  `INSERT` checks
all its rows before it writes the first; `UPDATE` and `DELETE` check and write
row by row, so that a row refused late leaves the earlier ones changed.
-/

namespace Archon

open Program Database Outcome

variable {db : Database} {stmt : InsertStatement} {ts : TableStorage}
variable {db' : Database} {e : DbError} {id : Nat}
variable {depth : Nat} {name : String} {P : Nat → Prop}
  {hidden : List TableTxns}

/-- Nothing is different but which transactions have begun. -/
def Database.Unseen (db db' : Database) : Prop :=
  db'.readView = db.readView ∧ ∃ txns, db' = { db with activeTxns := txns }

theorem Database.Unseen.refl (db : Database) : db.Unseen db := ⟨rfl, db.activeTxns, rfl⟩

theorem Database.Unseen.touch (db : Database) (name : String) : db.Unseen (touch name db).2 := by
  obtain ⟨txns, htxns, -⟩ := db.touch_txns name
  exact ⟨(db.readView_touch name).1, txns, htxns⟩

/-! ## Single rows -/

theorem noErr_putRow (hts : db.table name = some ts) (id : Nat) (row : Row) :
    Outcome.NoErr (db.putRow name id row) := by
  refine noErr_bind (by simpa [okOr, hts] using noErr_ok _) fun ts' _ => ?_
  split
  · exact noErr_bind (noErr_expect _) fun _ _ => noErr_ok _
  · exact noErr_bind (TableStorage.noErr_maintain _ id row) fun _ _ => noErr_ok _

theorem noErr_dropRow (hts : db.table name = some ts) (id : Nat) :
    Outcome.NoErr (db.dropRow name id) := by
  refine noErr_bind (by simpa [okOr, hts] using noErr_ok _) fun ts' _ => ?_
  split
  · exact noErr_bind (noErr_expect _) fun _ _ => noErr_ok _
  · exact noErr_ok _

/-- Write back a changed row. -/
def writeBack (name : String) (id : Nat) : Option Row → DbProgram Unit
  | none => return ()
  | some row => update fun db => db.putRow name id row

/-- Remove a row, if it is to go. -/
def removeIf (name : String) (id : Nat) : Bool → DbProgram Unit
  | true => update fun db => db.dropRow name id
  | false => return ()

section

variable {schema : Schema} {n : Nat} (hid : id < n) (hP : P id)
include hid hP

theorem writeBack_keeps (row? : Option Row) :
    DmlKeeps .any hidden name P (Ready .any hidden name schema n) (writeBack name id row?)
      fun _ => Ready .any hidden name schema n := by
  cases row? with
  | none => exact keeps_pure fun db h => ⟨h.refl db, h⟩
  | some row =>
    refine keeps_update Ready.refl fun db db' h hput => ?_
    have hm := h.putRow (h.lt hid) hP trivial hput
    exact ⟨hm, h.moves hm⟩

theorem removeIf_keeps (gone : Bool) :
    DmlKeeps .any hidden name P (Ready .any hidden name schema n) (removeIf name id gone)
      fun _ => Ready .any hidden name schema n := by
  cases gone with
  | false => exact keeps_pure fun db h => ⟨h.refl db, h⟩
  | true =>
    refine keeps_update Ready.refl fun db db' h hdrop => ?_
    have hm := h.dropRow (h.lt hid) hP hdrop
    exact ⟨hm, h.moves hm⟩

end

/-! ## Row by row -/

/-- Check a row, then change it. -/
def checkThen (check : ReadView → Nat → Outcome DbError α) (change : Nat → α → DbProgram Unit)
    (id : Nat) : DbProgram Unit := do
  let a ← read fun db => check db.readView id
  change id a

/-- Pick rows by a filter, then check and change them one after another. -/
def matchingLoop (depth : Nat) (name : String) (filter : Option Expr)
    (check : ReadView → Nat → Outcome DbError α) (change : Nat → α → DbProgram Unit) :
    DbProgram Nat := do
  let ids ← read fun db => matchingRowIds db.readView depth name filter
  touch name
  forEach (checkThen check change) ids
  return ids.length

theorem runUpdate_eq (stmt : UpdateStatement) :
    runUpdate depth stmt = matchingLoop depth stmt.table stmt.filter
      (fun v id => updatedRow v depth stmt id) (writeBack stmt.table) := by
  rfl

theorem runDelete_eq (stmt : DeleteStatement) :
    runDelete depth stmt = matchingLoop depth stmt.table stmt.filter
      (fun v id => deletesRow v stmt id) (removeIf stmt.table) := by
  have hbody : deleteRow stmt =
      checkThen (fun v id => deletesRow v stmt id) (removeIf stmt.table) := by
    funext id
    refine congrArg (Program.read _ >>= ·) (funext fun gone => ?_)
    cases gone with
    | false | true => rfl
  simp [runDelete, matchingLoop, hbody]

section

variable {α : Type} {filter : Option Expr} {check : ReadView → Nat → Outcome DbError α}
  {change : Nat → α → DbProgram Unit}

/-- No row can be picked, or the first one is refused. -/
def FirstRefused (depth : Nat) (name : String) (filter : Option Expr)
    (check : ReadView → Nat → Outcome DbError α) (v : ReadView) : Prop :=
  (∃ f, matchingRowIds v depth name filter = .error f) ∨
    ∃ id ids f, matchingRowIds v depth name filter = .ok (id :: ids) ∧ check v id = .error f

theorem touch_then (m : DbProgram α) :
    (do touch name; m : DbProgram α) db = m (touch name db).2 := by
  have htouch := (db.readView_touch name).2
  rw [bind_run]
  generalize touch name db = r at htouch
  grind

theorem matchingLoop_run {ids : List Nat}
    (hids : matchingRowIds db.readView depth name filter = .ok ids) :
    matchingLoop depth name filter check change db =
      (do
        forEach (checkThen check change) ids
        return ids.length : DbProgram Nat) (touch name db).2 := by
  unfold matchingLoop
  rw [bind_run]
  simp [Program.read, hids, touch_then _]

/-- Refused at the first row, nothing is seen to have changed. -/
theorem FirstRefused.unseen (h : FirstRefused depth name filter check db.readView) :
    db.Unseen (matchingLoop depth name filter check change db).2 := by
  obtain ⟨f, hf⟩ | ⟨id, ids, f, hids, hcheck⟩ := h
  · have hrun : (matchingLoop depth name filter check change db).2 = db := by
      simp [matchingLoop, bind_run, Program.read, hf]
    rw [hrun]
    exact .refl db
  · have htouch := (db.readView_touch name).1
    have hf : check (touch name db).2.readView id = .error f := by rw [htouch, hcheck]
    have hfirst : checkThen check change id (touch name db).2 = (.error f, (touch name db).2) := by
      simp [checkThen, bind_run, Program.read, hf]
    simpa [matchingLoop_run hids, forEach, bind_run, hfirst] using .touch db name

/-- A loop that fails after the first row went through: the row stays as
changed. -/
theorem matchingLoop_first (h : db.Sound .any hidden) {ids : List Nat} {a : α}
    (hids : matchingRowIds db.readView depth name filter = .ok (id :: ids))
    (hcheck : check db.readView id = .ok a) (hnot : id ∉ ids)
    (hchange : ∀ P schema n id a, id < n → P id →
      DmlKeeps .any hidden name P (Ready .any hidden name schema n) (change id a)
        fun _ => Ready .any hidden name schema n)
    (hno : ∀ t : Database, t.tables = db.tables → (change id a t).1.NoErr)
    (he : (matchingLoop depth name filter check change db).1 = .error (.err e)) :
    ∃ t db₁, t.tables = db.tables ∧ t.Idle ∧ change id a t = (.ok (), db₁) ∧
      (matchingLoop depth name filter check change db).2.visible name id = db₁.visible name id := by
  obtain ⟨ts, hts, hlt⟩ := matchingRowIds_lt hids
  have htouch := (db.readView_touch name).1
  have hsound := h.touch name
  have hready := hsound.ready hts (Nat.le_refl _)
  have hbody : ∀ k ∈ ids, DmlKeeps .any hidden name (· ∈ ids)
      (Ready .any hidden name ts.schema ts.nextRowId) (checkThen check change k)
      fun _ => Ready .any hidden name ts.schema ts.nextRowId := by
    intro k hk
    exact keeps_bind Moves.trans _ (keeps_read Ready.refl _) fun a =>
      (hchange _ _ _ k a (hlt k (.tail _ hk)) hk).imp (fun _ h => h.1) fun _ _ h => h
  have hfirst : checkThen check change id (touch name db).2 = change id a (touch name db).2 := by
    simp [checkThen, bind_run, Program.read, htouch, hcheck]
  have hkept := hchange (· = id) _ _ id a (hlt id (.head _)) rfl (touch name db).2 hready
  have hnoerr := hno _ hsound.2
  rw [matchingLoop_run hids] at he ⊢
  simp only [forEach, bind_run, hfirst] at he ⊢
  generalize hr : change id a (touch name db).2 = r at he hkept hnoerr ⊢
  obtain ⟨o, db₁⟩ := r
  cases o with
  | error f =>
    cases f with
    | err e' => exact absurd rfl (hnoerr e')
    | panic | stackOverflow => simp at he
  | ok u =>
    refine ⟨_, db₁, hsound.2, hsound.1.idle, hr, ?_⟩
    have hloop := keeps_forEach Ready.refl Moves.trans hbody db₁ ((hkept trivial).2 u rfl)
    simp only at he ⊢
    generalize forEach (checkThen check change) ids db₁ = r' at he hloop ⊢
    obtain ⟨o', db₂⟩ := r'
    cases o' with
    | ok u => simp at he
    | error f =>
      cases he
      exact (hloop trivial).1.1.rows id hnot

end

/-! ## Inserting -/

theorem allocRow_run (hts : db.table name = some ts) :
    allocRow name db =
      (.ok ts.nextRowId, db.setTable name { ts with nextRowId := ts.nextRowId + 1 }) := by
  simp [allocRow, hts]

theorem TableStorage.readsAs_ne_none (ts : TableStorage) (id : Nat) (bytes : Bytes) :
    ts.readsAs id bytes ≠ .ok none := by
  unfold readsAs
  cases ts.decode id bytes <;> simp

theorem noErr_withImplicitId (slots : List Nat) (id : Nat) (row : Row) :
    Outcome.NoErr (withImplicitId slots id row) := by
  unfold withImplicitId Outcome.set
  split
  · exact Outcome.noErr_ok _
  · split
    · exact Outcome.noErr_ok _
    · exact Outcome.noErr_panicked

section

variable (h : db.Sound .any hidden) (hts : db.table name = some ts) (slots : List Nat) (row : Row)
include h hts

theorem insertRow_seen (hret : (insertRow name slots row db).1.Returns) :
    (insertRow name slots row db).2.visible name ts.nextRowId ≠ some (.ok none) ∧
      ((insertRow name slots row db).1 = .ok () →
        Ready .any hidden name ts.schema (ts.nextRowId + 1) (insertRow name slots row db).2) := by
  have hready := ((allocRow_keeps (P := fun _ => True) db ⟨h, ts, hts, rfl, Nat.le_refl _⟩
    (by rw [allocRow_run hts]; trivial)).2 ts.nextRowId (by rw [allocRow_run hts])).1
  unfold insertRow at hret ⊢
  rw [bind_run, allocRow_run hts] at hret ⊢
  rw [allocRow_run hts] at hready
  generalize db.setTable name { ts with nextRowId := ts.nextRowId + 1 } = db₁ at hret hready ⊢
  simp only [bind_run, Program.read] at hret ⊢
  cases hrow : withImplicitId slots ts.nextRowId row with
  | error f =>
    rw [hrow] at hret
    cases f with
    | err e => exact absurd hrow (noErr_withImplicitId _ _ _ e)
    | panic | stackOverflow => exact hret.elim
  | ok row' =>
    rw [hrow] at hret
    simp only [update] at hret ⊢
    obtain ⟨ts₁, hts₁, -⟩ := hready.table
    cases hput : db₁.putRow name ts.nextRowId row' with
    | error f =>
      rw [hput] at hret
      cases f with
      | err e => exact absurd hput (noErr_putRow hts₁ _ _ e)
      | panic | stackOverflow => exact hret.elim
    | ok db₂ =>
      obtain ⟨ts₂, -, hvis⟩ := visible_putRow hready.sound.idle hput
      have hready₂ := hready.moves (hready.putRow (P := fun _ => True)
        (hready.lt (Nat.lt_succ_self _)) trivial trivial hput)
      have hseen : db₂.visible name ts.nextRowId ≠ some (.ok none) := by
        rw [hvis, if_pos ⟨rfl, rfl⟩]
        exact fun heq => ts₂.readsAs_ne_none _ _ (Option.some.inj heq)
      simp only
      cases hbuild : db₂.buildIndexes name with
      | error f => exact ⟨hseen, fun hok => by cases hok⟩
      | ok db₃ =>
        refine ⟨?_, fun _ => hready₂.moves (hready₂.buildIndexes (P := fun _ => True) hbuild)⟩
        simp [visible_buildIndexes hbuild, hseen]

/-- After any row has been inserted, the first is seen. -/
theorem insertLoop_seen (rows : List Row)
    (hret : (forEach (insertRow name slots) (row :: rows) db).1.Returns) :
    (forEach (insertRow name slots) (row :: rows) db).2.visible name ts.nextRowId ≠
      some (.ok none) := by
  have hfirst := insertRow_seen h hts slots row
  simp only [forEach, bind_run] at hret ⊢
  generalize insertRow name slots row db = r at hret hfirst ⊢
  obtain ⟨o, db₁⟩ := r
  cases o with
  | error f => exact (hfirst hret).1
  | ok u =>
    obtain ⟨hseen, hready⟩ := hfirst trivial
    -- later rows get later ids
    have hrest := keeps_forEach Ready.refl Moves.trans (fun row' _ => insertRow_keeps
      (P := (ts.nextRowId + 1 ≤ ·)) (fun _ hid => hid) fun _ _ _ => trivial) db₁ (hready rfl) hret
    rw [hrest.1.1.rows ts.nextRowId (by omega)]
    exact hseen

end

/-! ## Statements -/

def Statement.isDml : Statement → Bool
  | .insert _ | .update _ | .delete _ => true
  | _ => false

/-- A statement refused before it has written anything: `INSERT` for any of
its rows, `UPDATE` and `DELETE` for the first of theirs. -/
def Refused (depth : Nat) (db : Database) : Statement → Prop
  | .insert i => ∃ f, insertRows db.readView depth i = .error f
  | .update u =>
    FirstRefused depth u.table u.filter (fun v id => updatedRow v depth u id) db.readView
  | .delete d =>
    FirstRefused depth d.table d.filter (fun v id => deletesRow v d id) db.readView
  | _ => False

/-- An `UPDATE` whose first row is to be rewritten with what it reads as
already. -/
def FirstRewritten (depth : Nat) (db : Database) : Statement → Prop
  | .update u => ∃ id ids row ts,
      matchingRowIds db.readView depth u.table u.filter = .ok (id :: ids) ∧
      updatedRow db.readView depth u id = .ok (some row) ∧ db.table u.table = some ts ∧
      db.visible u.table id = some (ts.readsAs id (encodeRow row))
  | _ => False

variable {slots : List Nat} {rows : List Row} {sid : Nat} {after : Database}

theorem runInsertStmt_run (hins : insertRows db.readView depth stmt = .ok (slots, rows)) :
    runInsertStmt depth stmt db =
      (do
        forEach (insertRow stmt.table slots) rows
        return rows.length : DbProgram Nat) (touch stmt.table db).2 := by
  rw [runInsertStmt, touch_then, bind_run]
  simp [Program.read, (db.readView_touch stmt.table).1, hins]

theorem runInsertStmt_refused {f : Failure DbError}
    (hins : insertRows db.readView depth stmt = .error f) :
    (runInsertStmt depth stmt db).2 = (touch stmt.table db).2 := by
  rw [runInsertStmt, touch_then, bind_run]
  simp [Program.read, (db.readView_touch stmt.table).1, hins]

theorem Refused.unseen {stmt : Statement} (h : Refused depth db stmt) (params : Params) :
    db.Unseen (execute depth stmt params db).2 := by
  cases stmt with
  | insert i =>
    obtain ⟨f, hf⟩ := h
    simp only [execute, affecting_run, runInsertStmt_refused hf]
    exact .touch db i.table
  | update u =>
    simp only [execute, affecting_run, runUpdate_eq]
    exact FirstRefused.unseen h
  | delete d =>
    simp only [execute, affecting_run, runDelete_eq]
    exact FirstRefused.unseen h
  | _ => exact h.elim

/-- The first row picked is one of the table's, and is picked once. -/
theorem matchingRowIds_first {v : ReadView} {filter : Option Expr} {ids : List Nat}
    (h : matchingRowIds v depth name filter = .ok (id :: ids)) :
    id ∉ ids ∧ ∃ rt row, v.table name = some rt ∧ rt.rowAt id = .ok (some row) := by
  obtain ⟨rt, hrt, hsub, hrows⟩ := matchingRowIds_ok h
  obtain ⟨row, hrow⟩ := hrows id (.head _)
  have hnodup : (id :: ids).Nodup := List.nodup_range.sublist hsub
  exact ⟨(List.nodup_cons.mp hnodup).1, rt, row, hrt, hrow⟩

theorem insert_seen (h : db.Sound .any hidden)
    (hins : insertRows db.readView depth stmt = .ok (slots, rows))
    (he : (runInsertStmt depth stmt db).1 = .error (.err e)) :
    ∃ id, (runInsertStmt depth stmt db).2.visible stmt.table id ≠ db.visible stmt.table id := by
  obtain ⟨rt, hrt, -⟩ := hins.bind_ok
  rw [okOr_eq_ok, table_readView] at hrt
  obtain ⟨ts, hts, -⟩ := Option.map_eq_some_iff.mp hrt
  have hnone : db.visible stmt.table ts.nextRowId = some (.ok none) := by
    simp [visible, hts,
      (h.tables _ ts hts).currentRow_none (h.holds hts) (Nat.le_refl ts.nextRowId)]
  have hsound := h.touch stmt.table
  have hts' : (touch stmt.table db).2.table stmt.table = some ts := by
    rw [table, hsound.2]
    exact hts
  rw [runInsertStmt_run hins] at he ⊢
  cases rows with
  | nil => cases he
  | cons row rows =>
    have hseen := insertLoop_seen hsound.1 hts' slots row rows
    rw [bind_run] at he ⊢
    generalize forEach (insertRow stmt.table slots) (row :: rows) (touch stmt.table db).2 = r
      at he hseen ⊢
    obtain ⟨o, db'⟩ := r
    cases o with
    | ok u => cases he
    | error f =>
      cases he
      exact ⟨ts.nextRowId, by rw [hnone]; exact hseen trivial⟩

section

variable {α : Type} {filter : Option Expr} {check : ReadView → Nat → Outcome DbError α}
  {change : Nat → α → DbProgram Unit}

/-- A loop not refused that fails has let its first row through. -/
theorem refused_or_first
    (he : (matchingLoop depth name filter check change db).1 = .error (.err e)) :
    FirstRefused depth name filter check db.readView ∨ ∃ id ids a,
      matchingRowIds db.readView depth name filter = .ok (id :: ids) ∧
        check db.readView id = .ok a := by
  cases hids : matchingRowIds db.readView depth name filter with
  | error f => exact .inl (.inl ⟨f, hids⟩)
  | ok ids =>
    cases ids with
    | nil =>
      rw [matchingLoop_run hids] at he
      cases he
    | cons id ids =>
      cases hcheck : check db.readView id with
      | error f => exact .inl (.inr ⟨id, ids, f, hids, hcheck⟩)
      | ok a => exact .inr ⟨id, ids, a, rfl, hcheck⟩

end

theorem update_refused (h : db.Sound .any hidden) {u : UpdateStatement}
    (he : (runUpdate depth u db).1 = .error (.err e))
    (hsame : ∀ id, (runUpdate depth u db).2.visible u.table id = db.visible u.table id) :
    Refused depth db (.update u) ∨ FirstRewritten depth db (.update u) := by
  rw [runUpdate_eq] at he
  simp only [runUpdate_eq] at hsame
  refine (refused_or_first he).imp_right fun ⟨id, ids, row?, hids, hcheck⟩ => ?_
  obtain ⟨hnot, rt, old, hrt, hold⟩ := matchingRowIds_first hids
  obtain ⟨ts, hts, -⟩ := matchingRowIds_lt hids
  have hsome : ∃ row, row? = some row := by
    simp only [updatedRow, hrt, okOr, Except.ok_bind, hold] at hcheck
    obtain ⟨row, -, hcheck⟩ := hcheck.bind_ok
    obtain ⟨-, -, hcheck⟩ := hcheck.bind_ok
    cases hcheck
    simp
  obtain ⟨row, rfl⟩ := hsome
  have htable : ∀ t : Database, t.tables = db.tables → t.table u.table = some ts := by
    intro t ht
    rw [table, ht]
    exact hts
  have hno : ∀ t : Database, t.tables = db.tables → (writeBack u.table id (some row) t).1.NoErr :=
    fun t ht => noErr_update (noErr_putRow (htable t ht) id row)
  obtain ⟨t, db₁, ht, hidle, hput, hvis⟩ := matchingLoop_first h hids hcheck hnot
    (fun _ _ _ _ row? hid hP => writeBack_keeps hid hP row?) hno he
  have hstep : update (fun db => db.putRow u.table id row) t = (.ok (), db₁) := hput
  rw [hsame] at hvis
  obtain ⟨ts', hts', hnew⟩ := visible_putRow hidle (update_ok.mp hstep)
  rw [htable t ht] at hts'
  cases hts'
  exact ⟨id, ids, row, ts, hids, hcheck, hts, by rw [hvis, hnew, if_pos ⟨rfl, rfl⟩]⟩

theorem delete_refused (h : db.Sound .any hidden) {d : DeleteStatement}
    (he : (runDelete depth d db).1 = .error (.err e))
    (hsame : ∀ id, (runDelete depth d db).2.visible d.table id = db.visible d.table id) :
    Refused depth db (.delete d) := by
  rw [runDelete_eq] at he
  simp only [runDelete_eq] at hsame
  refine (refused_or_first he).resolve_right fun ⟨id, ids, gone, hids, hcheck⟩ => ?_
  obtain ⟨hnot, rt, old, hrt, hold⟩ := matchingRowIds_first hids
  obtain ⟨ts, hts, -⟩ := matchingRowIds_lt hids
  have htrue : gone = true := by
    simp only [deletesRow, hrt, okOr, Except.ok_bind, hold] at hcheck
    obtain ⟨-, -, hcheck⟩ := hcheck.bind_ok
    cases hcheck
    rfl
  subst htrue
  have hno : ∀ t : Database, t.tables = db.tables → (removeIf d.table id true t).1.NoErr := by
    intro t ht
    have hts' : t.table d.table = some ts := by
      rw [table, ht]
      exact hts
    exact noErr_update (noErr_dropRow hts' id)
  obtain ⟨t, db₁, -, hidle, hdrop, hvis⟩ := matchingLoop_first h hids hcheck hnot
    (fun _ _ _ _ gone hid hP => removeIf_keeps hid hP gone) hno he
  have hstep : update (fun db => db.dropRow d.table id) t = (.ok (), db₁) := hdrop
  -- the row was there before
  rw [hsame, visible_dropRow hidle (update_ok.mp hstep), if_pos ⟨rfl, rfl⟩,
    visible_eq, hrt, Option.map_some, hold] at hvis
  cases hvis

/-- A statement not refused that fails has changed a row, or rewritten one. -/
theorem refused_of_same (h : db.Sound .any hidden) {stmt : Statement} (hs : stmt.isDml = true)
    {params : Params} (he : (execute depth stmt params db).1 = .error (.err e))
    (hsame : ∀ n id, (execute depth stmt params db).2.visible n id = db.visible n id) :
    Refused depth db stmt ∨ FirstRewritten depth db stmt := by
  have hmap : ∀ {r : Outcome DbError Nat} {f : Nat → ResultSet}, r.map f = .error (.err e) →
      r = .error (.err e) := by
    intro r f hr
    cases r <;> simp_all [Except.map]
  cases stmt with
  | insert i =>
    simp only [execute, affecting_run] at he hsame
    cases hins : insertRows db.readView depth i with
    | error f => exact .inl ⟨f, hins⟩
    | ok r =>
      obtain ⟨id, hne⟩ := insert_seen h hins (hmap he)
      exact absurd (hsame i.table id) hne
  | update u =>
    simp only [execute, affecting_run] at he hsame
    exact update_refused h (hmap he) (hsame u.table)
  | delete d =>
    simp only [execute, affecting_run] at he hsame
    exact .inl (delete_refused h (hmap he) (hsame d.table))
  | _ => cases hs

/-! ## Clients -/

/-- The database as a client sees it: without a session, or in one. -/
def Database.seenBy (db : Database) : Option Nat → Database
  | none => db
  | some sid => db.inSession sid

/-- All clients see the same rows. -/
def SeenAlike (db db' : Database) : Prop :=
  ∀ client n id, (db'.seenBy client).visible n id = (db.seenBy client).visible n id

/-- The database a call runs on. -/
def ClientCall.runsOn (db : Database) : ClientCall → Database
  | .execute _ _ => db
  | .inSession sid _ _ => db.inSession sid

theorem Database.visible_congr (ht : db'.tables = db.tables) (ha : db'.activeTxns = db.activeTxns)
    (n : String) (id : Nat) : db'.visible n id = db.visible n id := by
  simp [visible, table, activeTxn, ht, ha]

theorem Database.visible_of_unseen (h : db.Unseen db') (n : String) (id : Nat) :
    db'.visible n id = db.visible n id := by
  simp [visible_eq, h.1]

/-- Sessions see what is in the tables and their own transactions. -/
theorem Database.visible_inSession (ht : db'.tables = db.tables)
    (hs : db'.sessionTxns.find? sid = db.sessionTxns.find? sid) {n : String}
    (hself : db'.visible n id = db.visible n id) :
    (db'.inSession sid).visible n id = (db.inSession sid).visible n id := by
  have hin : db'.sessionInTransaction sid = db.sessionInTransaction sid := by
    simp [sessionInTransaction, hs]
  unfold inSession
  rw [hin]
  split
  · have ha : (db'.enterSession sid).activeTxns = (db.enterSession sid).activeTxns := by
      simp [enterSession, hs]
    have ht' : (db'.enterSession sid).tables = (db.enterSession sid).tables := ht
    exact visible_congr ht' ha n id
  · exact hself

theorem Database.Unseen.seenAlike (h : db.Unseen db') : SeenAlike db db' := by
  intro client n id
  have hself := visible_of_unseen h n id
  obtain ⟨txns, htxns⟩ := h.2
  cases client with
  | none => exact hself
  | some sid => exact visible_inSession (by rw [htxns]) (by rw [htxns]) hself

section

variable (hs : after.sessionTxns = (db.enterSession sid).sessionTxns)
include hs

/-- A session that leaves its transaction and enters it again reads what it read. -/
theorem Database.readView_leave :
    ((after.leaveSession sid db).inSession sid).readView = after.readView := by
  have hfind : after.sessionTxns.find? sid = some { inTransaction := true } := by
    rw [hs]
    simp [enterSession, setSession]
  have hleft : (after.leaveSession sid db).sessionTxns.find? sid =
      some { inTransaction := true, activeTxns := after.activeTxns } := by
    simp [leaveSession, hfind]
  have hin : (after.leaveSession sid db).sessionInTransaction sid = true := by
    simp [sessionInTransaction, hleft]
  rw [inSession, if_pos hin]
  simp only [enterSession, hleft]
  rfl

theorem Database.inSession_leave (n : String) (id : Nat) :
    ((after.leaveSession sid db).inSession sid).visible n id = after.visible n id := by
  simp [visible_eq, readView_leave hs]

end

/-- What a session's statement leaves as it was in the session, it leaves as it
was for everybody. -/
theorem Database.Unseen.seenAlike_leave (hin : db.sessionInTransaction sid = true)
    (h : (db.enterSession sid).Unseen after) : SeenAlike db (after.leaveSession sid db) := by
  intro client n id
  obtain ⟨txns, htxns⟩ := h.2
  have htables : (after.leaveSession sid db).tables = db.tables := by rw [htxns]; rfl
  have hself : (after.leaveSession sid db).visible n id = db.visible n id :=
    visible_congr htables rfl n id
  cases client with
  | none => exact hself
  | some s =>
    by_cases hs : s = sid
    · subst hs
      have hsessions : after.sessionTxns = (db.enterSession s).sessionTxns := by rw [htxns]
      simp only [seenBy]
      rw [inSession_leave hsessions, visible_of_unseen h, inSession, if_pos hin]
    · refine visible_inSession htables ?_ hself
      simp [leaveSession, SortedMap.find?_insert, htxns, enterSession, setSession, hs]

/-- A call of a changing statement runs on the database the client sees. -/
theorem ClientCall.run_dml {c : ClientCall} (hc : c.stmt.isDml = true) (db : Database) :
    (∃ params, c.runsOn db = db ∧ c.run depth db = Archon.execute depth c.stmt params db) ∨
      ∃ sid params, db.sessionInTransaction sid = true ∧ c.runsOn db = db.enterSession sid ∧
        c.run depth db = ((Archon.execute depth c.stmt params (db.enterSession sid)).1,
          (Archon.execute depth c.stmt params (db.enterSession sid)).2.leaveSession sid db) := by
  cases c with
  | execute stmt params => exact .inl ⟨params, rfl, rfl⟩
  | inSession sid stmt params =>
    have hctl : stmt.isTxnControl = false := by cases stmt <;> first | rfl | cases hc
    have hrun := @executeInSession_of_ordinary depth stmt hctl sid params db
    simp only [ClientCall.run, ClientCall.runsOn, ClientCall.stmt, Database.inSession, hrun]
    by_cases hin : db.sessionInTransaction sid = true
    · exact .inr ⟨sid, params, hin, by simp [hin], by simp [hin]⟩
    · exact .inl ⟨params, by simp [hin], by simp [hin]⟩

/-- A failed `INSERT`, `UPDATE` or `DELETE` leaves all rows as they were if it
is refused before it writes.  Otherwise it does not, except where the first row
of an `UPDATE` is rewritten as it was. -/
theorem failed_dml_atomic {init db : Database} (hinit : init.Fresh)
    (hr : Reaches depth (fun _ _ => True) init db) {c : ClientCall} (hc : c.stmt.isDml = true)
    {e : DbError} (he : (c.run depth db).1 = .error (.err e)) :
    (Refused depth (c.runsOn db) c.stmt → SeenAlike db (c.run depth db).2) ∧
      (SeenAlike db (c.run depth db).2 →
        Refused depth (c.runsOn db) c.stmt ∨ FirstRewritten depth (c.runsOn db) c.stmt) := by
  have hsound : db.Sound .any [] :=
    Reaches.sound (fun db c _ _ => obeys_any [] depth db c.stmt) hinit.sound.1 hr
  obtain ⟨params, hon, hrun⟩ | ⟨sid, params, hin, hon, hrun⟩ := c.run_dml hc db
  · rw [hrun] at he
    rw [hon, hrun]
    constructor
    · exact fun h => (h.unseen params).seenAlike
    · exact fun h => refused_of_same hsound hc he fun n id => h none n id
  · rw [hrun] at he
    rw [hon, hrun]
    have hret : (execute depth c.stmt params (db.enterSession sid)).1.Returns := by
      rw [he]
      trivial
    have hq : c.stmt.isQueryOrDml = true := by
      generalize c.stmt = stmt at hc
      cases stmt <;> first | rfl | cases hc
    have hframe := execute_dmlFrame (hsound.enterSession sid) hq hret
    constructor
    · exact fun h => (h.unseen params).seenAlike_leave hin
    · refine fun h => refused_of_same (hsound.enterSession sid) hc he fun n id => ?_
      have hown := h (some sid) n id
      simp only [seenBy] at hown
      rw [inSession_leave hframe.sessions, inSession, if_pos hin] at hown
      exact hown

/-- `CREATE TABLE t (a INT UNIQUE)`, with rows 1 and 2. -/
def uniqueCalls : List ClientCall :=
  [.execute (.createTable ⟨"t", [⟨"a", .int, [.unique]⟩], []⟩) [], .execute (insertT 1) [],
    .execute (insertT 2) []]

/-- `UPDATE t SET a = n`. -/
def updateT (n : Int64) : UpdateStatement := ⟨"t", [⟨"a", .int n⟩], none⟩

/-- Setting the first row to the value of the second. -/
theorem failed_dml_atomic_updateT :
    ∃ db, Reaches 1 (fun _ _ => True) .empty db ∧
      (∃ e, ((ClientCall.execute (.update (updateT 2)) []).run 1 db).1 = .error (.err e)) ∧
      SeenAlike db ((ClientCall.execute (.update (updateT 2)) []).run 1 db).2 := by
  obtain ⟨db, hr, ⟨e, he⟩, ⟨_, hids, rfl⟩, f, hf⟩ := exists_run (P := fun db =>
      (∃ e, ((ClientCall.execute (.update (updateT 2)) []).run 1 db).1 = .error (.err e)) ∧
      (∃ ids, matchingRowIds db.readView 1 "t" none = .ok ids ∧ ids = [0, 1]) ∧
      ∃ e, updatedRow db.readView 1 (updateT 2) 0 = .error (.err e)) 1 uniqueCalls
        (by decide +kernel)
  exact ⟨db, hr, ⟨e, he⟩, (failed_dml_atomic (.inl rfl) hr rfl he).1 (.inr ⟨0, [1], _, hids, hf⟩)⟩

/-- Setting both rows to one new value: the second is refused, and the first
stays changed. -/
theorem failed_update_keeps_first :
    ∃ db, Reaches 1 (fun _ _ => True) .empty db ∧
      (∃ e, ((ClientCall.execute (.update (updateT 5)) []).run 1 db).1 = .error (.err e)) ∧
      ¬ SeenAlike db ((ClientCall.execute (.update (updateT 5)) []).run 1 db).2 := by
  obtain ⟨db, hr, herr, hbefore, hafter⟩ := exists_run (P := fun db =>
      (∃ e, ((ClientCall.execute (.update (updateT 5)) []).run 1 db).1 = .error (.err e)) ∧
      (db.visible "t" 0).bind (·.toOption) = some (some [.int 0, .int 1]) ∧
      (((ClientCall.execute (.update (updateT 5)) []).run 1 db).2.visible "t" 0).bind (·.toOption) =
        some (some [.int 0, .int 5])) 1 uniqueCalls (by decide +kernel)
  refine ⟨db, hr, herr, fun hsame => ?_⟩
  have heq := hsame none "t" 0
  simp only [seenBy] at heq
  grind

end Archon
