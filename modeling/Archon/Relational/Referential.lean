import Archon.Relational.ConstraintRuns

/-!
# Archon.Relational.Referential

Referential integrity of the rows a client sees.

A new or changed row is checked against the tables it refers to, and a row is
not deleted while others refer to it.  But `UPDATE` does not look for rows
that refer to the one it changes, and `INSERT` checks a row before it has its
id.
-/

namespace Archon

open Program TableStorage Outcome Database List Option Schema

variable {params : Params} {id : Nat} {ts : TableStorage}
variable {depth : Nat} {name : String} {hidden : List TableTxns}
  {schema : Schema} {n : Nat} {db db' : Database} {row : Row} {fk : ForeignKey}

/-! ## Rows that refer to others -/

/-- Some row of the table referred to has this key. -/
def Database.HasKey (db : Database) (fk : ForeignKey) (key : Row) : Prop :=
  ∃ target id found key', db.schemaOf fk.refTable = some target ∧
    db.seen fk.refTable id = some found ∧
    (keyOf target found fk.refColumns : Outcome DbError Row) = .ok key' ∧ rowEq key' key = true

/-- The row refers to one that is there, unless its key has a `NULL`. -/
def Database.Refers (db : Database) (schema : Schema) (row : Row) (fk : ForeignKey) : Prop :=
  ∃ key, (keyOf schema row fk.columns : Outcome DbError Row) = .ok key ∧
    (hasNull key = false → db.HasKey fk key)

/-- Every row refers to rows that are there. -/
def Database.Referential (db : Database) : Prop :=
  ∀ n schema id row, db.schemaOf n = some schema → db.seen n id = some row →
    ∀ fk ∈ schema.foreignKeys, db.Refers schema row fk

theorem Database.Refers.imp (h : db.Refers schema row fk)
    (himp : ∀ key, (keyOf schema row fk.columns : Outcome DbError Row) = .ok key →
      hasNull key = false → db.HasKey fk key → db'.HasKey fk key) : db'.Refers schema row fk := by
  obtain ⟨key, hkey, hfound⟩ := h
  exact ⟨key, hkey, fun hnull => himp key hkey hnull (hfound hnull)⟩

/-- The row referred to is still there. -/
theorem Database.Refers.mono (h : db.Refers schema row fk)
    (hkept : ∀ target id found, db.schemaOf fk.refTable = some target →
      db.seen fk.refTable id = some found →
      db'.schemaOf fk.refTable = some target ∧ db'.seen fk.refTable id = some found) :
    db'.Refers schema row fk := by
  refine h.imp fun key _ _ hfound => ?_
  obtain ⟨target, id, found, key', htarget, hid, hkey', heq⟩ := hfound
  obtain ⟨htarget', hid'⟩ := hkept target id found htarget hid
  exact ⟨target, id, found, key', htarget', hid', hkey', heq⟩

/-- The same schemas and rows are seen. -/
def Database.SeenAs (db' db : Database) : Prop :=
  ∀ n, db'.schemaOf n = db.schemaOf n ∧ ∀ id, db'.seen n id = db.seen n id

theorem Database.Referential.congr (h : db.Referential) (hsame : db'.SeenAs db) :
    db'.Referential := by
  intro n schema id row hs hrow fk hfk
  rw [(hsame n).1] at hs
  rw [(hsame n).2] at hrow
  refine (h n schema id row hs hrow fk hfk).mono fun target k found htarget hk => ?_
  rw [(hsame fk.refTable).1, (hsame fk.refTable).2]
  exact ⟨htarget, hk⟩

theorem Database.seen_of_rowAt (hts : db.table name = some ts)
    (h : (ts.view (db.activeTxn name)).rowAt id = .ok (some row)) : db.seen name id = some row := by
  rw [seen, hts]
  exact rowsUnder_eq_some.mpr h

/-! ## What the checks establish -/

variable {columns : List String} {rows : List Row} {fks : List ForeignKey} {stmt : DeleteStatement}
  {L : StorageLaw} {c : String} {i : Nat} {as : List Assignment} {old : Row} {slots : List Nat}

theorem anyWithKey_eq_true {key : Row}
    (h : (anyWithKey schema columns key rows : Outcome DbError Bool) = .ok true) :
    ∃ r ∈ rows, ∃ k, (keyOf schema r columns : Outcome DbError Row) = .ok k ∧ rowEq k key =
      true := by
  induction rows with
  | nil => cases h
  | cons r rows ih =>
    obtain ⟨k, hk, h⟩ := h.bind_ok
    cases heq : rowEq k key with
    | true => exact ⟨r, mem_cons_self, k, hk, heq⟩
    | false =>
      simp only [heq] at h
      obtain ⟨r', hr', hfound⟩ := ih h
      exact ⟨r', mem_cons_of_mem r hr', hfound⟩

/-- A row that passed refers to rows that are there. -/
theorem checkForeignKeys_ok (h : checkForeignKeys db.readView schema row fks = .ok ()) :
    ∀ fk ∈ fks, db.Refers schema row fk := by
  induction fks with
  | nil => simp
  | cons fk fks ih =>
    obtain ⟨key, hkey, h⟩ := h.bind_ok
    have hboth : db.Refers schema row fk ∧ checkForeignKeys db.readView schema row fks =
        .ok () := by
      cases hnull : hasNull key with
      | true =>
        simp only [hnull] at h
        exact ⟨⟨key, hkey, fun hf => absurd (hnull.symm.trans hf) (by simp)⟩, h⟩
      | false =>
        simp only [hnull] at h
        obtain ⟨rt, hrt, h⟩ := h.bind_ok
        obtain ⟨rows, hrows, h⟩ := h.bind_ok
        obtain ⟨found, hfound, hrest⟩ := h.bind_ok
        cases found with
        | false => cases hrest
        | true =>
          rw [okOr_eq_ok, table_readView] at hrt
          obtain ⟨ts, hts, rfl⟩ := map_eq_some_iff.mp hrt
          obtain ⟨r, hr, k, hk, heq⟩ := anyWithKey_eq_true hfound
          obtain ⟨⟨id, r'⟩, hmem, rfl⟩ := mem_map.mp hr
          have hat := ((allRows_ok hrows).mp hmem).2.2
          have htarget : db.schemaOf fk.refTable = some ts.schema := by
            simp [schemaOf, hts]
          exact ⟨⟨key, hkey, fun _ => ⟨ts.schema, id, r', k, htarget,
            seen_of_rowAt hts hat, hk, heq⟩⟩, hrest⟩
    intro fk' hfk'
    obtain rfl | hfk' := mem_cons.mp hfk'
    · exact hboth.1
    · exact ih hboth.2 fk' hfk'

/-- No row of a table refers to one that may be deleted. -/
theorem checkReferences_ok {otherName : String} {other : ReadTable}
    (h : checkReferences name schema row otherName other fks = .ok ()) (hmem : fk ∈ fks)
    (href : fk.refTable = name) :
    ∃ key, (keyOf schema row fk.refColumns : Outcome DbError Row) = .ok key ∧
      (hasNull key = false → ∀ id r, id < other.nextRowId → other.rowAt id = .ok (some r) →
        ∃ k, (keyOf other.schema r fk.columns : Outcome DbError Row) = .ok k ∧ rowEq k key =
          false) := by
  induction fks with
  | nil => cases hmem
  | cons g fks ih =>
    unfold checkReferences at h
    by_cases hg : g.refTable = name
    · simp only [hg, bne_self_eq_false] at h
      obtain ⟨key, hkey, h⟩ := h.bind_ok
      cases hnull : hasNull key with
      | true =>
        simp only [hnull] at h
        obtain rfl | hmem := mem_cons.mp hmem
        · exact ⟨key, hkey, fun hf => absurd (hnull.symm.trans hf) (by simp)⟩
        · exact ih h hmem
      | false =>
        simp only [hnull] at h
        obtain ⟨rows, hrows, h⟩ := h.bind_ok
        obtain ⟨found, hfound, h⟩ := h.bind_ok
        cases found with
        | true => cases h
        | false =>
          obtain rfl | hmem := mem_cons.mp hmem
          · refine ⟨key, hkey, fun _ id r hid hr => ?_⟩
            refine anyWithKey_eq_false hfound r (mem_map.mpr ⟨(id, r), ?_, rfl⟩)
            exact (allRows_ok hrows).mpr ⟨hid, by simp, hr⟩
          · exact ih h hmem
    · have hne : (g.refTable != name) = true := by simp [hg]
      simp only [hne] at h
      obtain rfl | hmem := mem_cons.mp hmem
      · exact absurd href hg
      · exact ih h hmem

theorem enforceFkOnDelete_ok {tables : List (String × ReadTable)}
    (h : enforceFkOnDelete name schema row tables = .ok ()) {n : String} {rt : ReadTable}
    (hmem : (n, rt) ∈ tables) :
    checkReferences name schema row n rt rt.schema.foreignKeys = .ok () := by
  induction tables with
  | nil => cases hmem
  | cons e tables ih =>
    obtain ⟨_, hfirst, h⟩ := h.bind_ok
    obtain rfl | hmem := mem_cons.mp hmem
    · exact hfirst
    · exact ih h hmem

theorem deletesRow_ok {v : ReadView} (h : deletesRow v stmt id = .ok true) :
    ∃ rt row, v.table stmt.table = some rt ∧ rt.rowAt id = .ok (some row) ∧
      enforceFkOnDelete stmt.table rt.schema row v.tables = .ok () := by
  obtain ⟨rt, hrt, h⟩ := h.bind_ok
  obtain ⟨row?, hat, h⟩ := h.bind_ok
  cases row? with
  | none => cases h
  | some row =>
    obtain ⟨_, hcheck, -⟩ := h.bind_ok
    exact ⟨rt, row, okOr_eq_ok.mp hrt, hat, hcheck⟩

/-! ## Writing and deleting a row -/

/-- A row may be written that refers to rows that are there, if those that
refer to the one it replaces still find their key. -/
theorem Database.Referential.putRow (h : db.Referential)
    (hidle : db.Idle) (hts : db.table name = some ts)
    (hreads : ts.readsAs id (encodeRow row) = .ok (some row))
    (hrow : ∀ fk ∈ ts.schema.foreignKeys, db.Refers ts.schema row fk)
    (hkeys : ∀ n schema fk old, db.schemaOf n = some schema → fk ∈ schema.foreignKeys →
      fk.refTable = name → db.seen name id = some old →
        (keyOf ts.schema row fk.refColumns : Outcome DbError Row) =
          keyOf ts.schema old fk.refColumns)
    (hput : db.putRow name id row = .ok db') : db'.Referential := by
  obtain ⟨ts', hts', hvis⟩ := visible_putRow hidle hput
  rw [hts] at hts'
  cases hts'
  have hself : db'.seen name id = some row := by
    rw [seen_eq_some, hvis, if_pos ⟨rfl, rfl⟩, hreads]
  have hother : ∀ n k, ¬ (n = name ∧ k = id) → db'.seen n k = db.seen n k := fun n k hne =>
    seen_congr (by rw [hvis, if_neg hne])
  have hschema : db.schemaOf name = some ts.schema := by simp [schemaOf, hts]
  intro n schema k r hs hr fk hfk
  rw [schemaOf_putRow hput] at hs
  have hrefers : db.Refers schema r fk := by
    by_cases hat : n = name ∧ k = id
    · obtain ⟨rfl, rfl⟩ := hat
      rw [hself] at hr
      rw [hschema] at hs
      cases hr
      cases hs
      exact hrow fk hfk
    · rw [hother n k hat] at hr
      exact h n schema k r hs hr fk hfk
  refine hrefers.imp fun key _ _ hfound => ?_
  obtain ⟨target, m, found, key', htarget, hm, hkey', heq⟩ := hfound
  by_cases hat : fk.refTable = name ∧ m = id
  · obtain ⟨href, rfl⟩ := hat
    rw [href, hschema] at htarget
    cases htarget
    rw [href] at hm
    refine ⟨ts.schema, m, row, key', by rw [schemaOf_putRow hput, href, hschema],
      by rw [href, hself], ?_, heq⟩
    rw [hkeys n schema fk found hs hfk href hm]
    exact hkey'
  · exact ⟨target, m, found, key', by rw [schemaOf_putRow hput, htarget],
      by rw [hother _ _ hat, hm], hkey', heq⟩

/-- A row may be deleted that no other refers to. -/
theorem Database.Referential.dropRow (h : db.Referential) (hs : db.Sound L hidden)
    (hts : db.table name = some ts) (hrow : db.seen name id = some row)
    (hfree : enforceFkOnDelete name ts.schema row db.readView.tables = .ok ())
    (hdrop : db.dropRow name id = .ok db') : db'.Referential := by
  have hvis := visible_dropRow hs.idle hdrop
  have hschema : db.schemaOf name = some ts.schema := by simp [schemaOf, hts]
  have hother : ∀ n k, ¬ (n = name ∧ k = id) → db'.seen n k = db.seen n k := fun n k hne =>
    seen_congr (by rw [hvis, if_neg hne])
  intro n schema k r hsch hr fk hfk
  rw [schemaOf_dropRow hdrop] at hsch
  have hstays : ¬ (n = name ∧ k = id) := by
    rintro ⟨rfl, rfl⟩
    rw [seen_eq_some, hvis, if_pos ⟨rfl, rfl⟩] at hr
    cases hr
  rw [hother n k hstays] at hr
  refine (h n schema k r hsch hr fk hfk).imp fun key hkey hnull hfound => ?_
  obtain ⟨target, m, found, key', htarget, hm, hkey', heq⟩ := hfound
  by_cases hat : fk.refTable = name ∧ m = id
  · -- the row referred to is the one that is deleted
    obtain ⟨href, rfl⟩ := hat
    rw [href, hschema] at htarget
    cases htarget
    rw [href, hrow] at hm
    cases hm
    obtain ⟨ts₁, hts₁, rfl⟩ := map_eq_some_iff.mp hsch
    have hview : db.readView.table n = some (ts₁.view (db.activeTxn n)) := by simp [hts₁]
    obtain ⟨key₁, hkey₁, hnone⟩ :=
      checkReferences_ok (enforceFkOnDelete_ok hfree (mem_of_lookup hview)) hfk href
    rw [hkey'] at hkey₁
    cases hkey₁
    obtain ⟨hlt, hrowAt⟩ := hs.seen_lt hts₁ hr
    obtain ⟨k₁, hk₁, hneq⟩ := hnone (by rw [hasNull_of_rowEq heq, hnull]) k r hlt hrowAt
    replace hk₁ : (keyOf ts₁.schema r fk.columns : Outcome DbError Row) = .ok k₁ := hk₁
    rw [hkey] at hk₁
    cases hk₁
    rw [rowEq_swap, heq] at hneq
    cases hneq
  · exact ⟨target, m, found, key', by rw [schemaOf_dropRow hdrop, htarget],
      by rw [hother _ _ hat, hm], hkey', heq⟩

/-! ## Keys that stay -/

theorem Schema.getElem?_of_indexOf (h : schema.indexOf c = some i) :
    schema.columns[i]? = some c := by
  unfold indexOf columnPosition at h
  obtain ⟨hlt, hc, -⟩ := findIdx?_eq_some_iff_getElem.mp h
  rw [getElem?_eq_getElem hlt, beq_iff_eq.mp hc]

theorem Schema.HasId.indexOf_id (h : schema.HasId) : schema.indexOf "id" = some 0 := by
  unfold Schema.HasId at h
  unfold indexOf columnPosition
  cases hcols : schema.columns with
  | nil => simp [hcols] at h
  | cons d cols =>
    have hd : d = "id" := by simpa [hcols] using h
    simp [hd, findIdx?_cons]

section

variable (hs : schema.HasId) (h : assignRow schema as old = .ok row)
include hs h

/-- The values of columns that are not assigned stay. -/
theorem assignRow_getElem? (hi : schema.indexOf c = some i)
    (hc : ∀ a ∈ as, a.column = c → c = "id") : row[i]? = old[i]? := by
  refine assignRow_keeps (P := fun r => r[i]? = old[i]?)
    (fun a ha slot v r hslot h0 _ hr => ?_) rfl h
  rw [← hr]
  refine getElem?_set_ne fun heq => h0 ?_
  -- the slot is that of the column, which is then the id
  have hcol : a.column = c := by
    have hsame := getElem?_of_indexOf hslot
    rw [heq, getElem?_of_indexOf hi] at hsame
    exact (Option.some.inj hsame).symm
  rw [hcol, hc a ha hcol, hs.indexOf_id] at hslot
  exact (Option.some.inj hslot).symm

theorem keyOf_assignRow {group : List String} (hg : ∀ a ∈ as, a.column ∈ group → a.column = "id") :
    (keyOf schema row group : Outcome DbError Row) = keyOf schema old group := by
  refine keyOf_congr fun c hc i hi => assignRow_getElem? hs h hi fun a ha hac => ?_
  rw [← hac]
  exact hg a ha (hac ▸ hc)

end

/-! ## Statements -/

/-- No column is assigned that rows of any table refer to. -/
def UpdateStatement.SparesKeys (stmt : UpdateStatement) (db : Database) : Prop :=
  ∀ n schema fk, db.schemaOf n = some schema → fk ∈ schema.foreignKeys → fk.refTable = stmt.table →
    ∀ a ∈ stmt.assignments, a.column ∈ fk.refColumns → a.column = "id"

/-- The statement gives the id, or no foreign key of the table has it. -/
def InsertStatement.GivesKeys (stmt : InsertStatement) (db : Database) : Prop :=
  stmt.columns = [] ∨ "id" ∈ stmt.columns ∨
    ∀ schema fk, db.schemaOf stmt.table = some schema → fk ∈ schema.foreignKeys → "id" ∉ fk.columns

theorem Database.Referential.touch (h : db.Referential) (name : String) :
    (touch name db).2.Referential :=
  h.congr fun n => ⟨db.schemaOf_touch name n, fun k =>
    seen_congr (visible_of_unseen (.touch db name) n k)⟩

/-- Integrity while rows change, but no schema. -/
structure Database.Integral (base db : Database) : Prop where
  referential : db.Referential
  schemas : ∀ m, db.schemaOf m = base.schemaOf m

section

variable (h : db.Sound constraintLaw hidden) (hr : db.Referential)
include h hr

theorem runUpdate_referential {stmt : UpdateStatement} (hf : ∀ a ∈ stmt.assignments, a.value.Fits)
    (hspares : stmt.SparesKeys db)
    (hret : (runUpdate depth stmt db).1.Returns) : (runUpdate depth stmt db).2.Referential := by
  suffices hloop : db.Integral (runUpdate depth stmt db).2 from hloop.referential
  refine runUpdate_inv h hf
    (fun s hs => ⟨hs.referential.touch _, fun n => (s.schemaOf_touch _ n).trans (hs.schemas n)⟩)
    (fun s s' ts id row hsound hs hts hup hreads hput => ?_) ⟨hr, fun _ => rfl⟩ hret
  obtain ⟨rt, old, hrt, hat, hassign, hcheck⟩ := updatedRow_ok hup
  rw [table_readView, hts] at hrt
  cases hrt
  refine ⟨hs.referential.putRow hsound.idle hts hreads
    (checkForeignKeys_ok (enforceConstraints_ok hcheck).foreign)
    (fun n schema fk old' hschema hfk hname hold => ?_) hput,
    fun n => (schemaOf_putRow hput n).trans (hs.schemas n)⟩
  rw [seen_of_rowAt hts hat] at hold
  cases hold
  rw [hs.schemas] at hschema
  exact keyOf_assignRow (hsound.tables _ ts hts).schema.2.hasId hassign
    (hspares n schema fk hschema hfk hname)

theorem runDelete_referential (hret : (runDelete depth stmt db).1.Returns) :
    (runDelete depth stmt db).2.Referential := by
  refine runDelete_inv h (fun s hs => hs.touch _) (fun s s' id hsound hs hdel hdrop => ?_) hr hret
  obtain ⟨rt, row, hrt, hat, hfree⟩ := deletesRow_ok hdel
  rw [table_readView] at hrt
  obtain ⟨ts, hts, rfl⟩ := map_eq_some_iff.mp hrt
  exact hs.dropRow hsound hts (seen_of_rowAt hts hat) hfree hdrop

end

/-! ### Inserted rows -/

/-- The slots of an `INSERT` that gives the id. -/
theorem insertSlots_zero (hs : schema.HasId) (h : insertSlots schema columns = .ok slots)
    (hid : columns = [] ∨ "id" ∈ columns) : slots.contains 0 = true := by
  unfold insertSlots at h
  rw [contains_iff_mem]
  obtain rfl | hid := hid
  · cases h
    cases hcols : schema.columns with
    | nil => simp [Schema.HasId, hcols] at hs
    | cons c cols => simp
  · have hne : columns.isEmpty = false := by
      cases columns with
      | nil => cases hid
      | cons c cols => rfl
    simp only [hne] at h
    obtain ⟨slot, hmem, hslot⟩ := Except.exists_mem_of_mapM_eq_ok h "id" hid
    rw [hs.indexOf_id] at hslot
    cases hslot
    exact hmem

/-- The rows of an `INSERT` refer to rows that are there, with their ids too. -/
theorem insertRows_refers {stmt : InsertStatement} (hs : ts.schema.HasId)
    (hts : db.table stmt.table = some ts) (hgives : stmt.GivesKeys db)
    (hins : insertRows db.readView depth stmt = .ok (slots, rows)) (hmem : row ∈ rows) {row' : Row}
    (hid : withImplicitId slots id row = .ok row') :
    ∀ fk ∈ ts.schema.foreignKeys, db.Refers ts.schema row' fk := by
  have hview : db.readView.table stmt.table = some (ts.view (db.activeTxn stmt.table)) := by
    simp [hts]
  obtain ⟨rt, hrt, hslots, -, hcheck⟩ := insertRows_ok hins
  rw [hview] at hrt
  cases hrt
  have hrefers := checkForeignKeys_ok (checkRows_ok hcheck row hmem).foreign
  have hcase : slots.contains 0 = true ∨ ∀ fk ∈ ts.schema.foreignKeys, "id" ∉ fk.columns := by
    obtain hnil | hcol | hfree := hgives
    · exact .inl (insertSlots_zero hs hslots (.inl hnil))
    · exact .inl (insertSlots_zero hs hslots (.inr hcol))
    · exact .inr fun fk hfk => hfree ts.schema fk (by simp [schemaOf, hts]) hfk
  intro fk hfk
  obtain hzero | hfree := hcase
  · -- the row is stored as it was checked
    simp only [withImplicitId, hzero] at hid
    cases hid
    exact hrefers fk hfk
  · obtain ⟨key, hkey, hfound⟩ := hrefers fk hfk
    refine ⟨key, ?_, hfound⟩
    rw [← hkey]
    exact (keyOf_sameButId hs (hfree fk hfk) (withImplicitId_sameButId hid)).symm

theorem runInsertStmt_referential {stmt : InsertStatement} (h : db.Sound constraintLaw hidden)
    (hr : db.Referential) (hf : ∀ lits ∈ stmt.values, ∀ lit ∈ lits, lit.Fits)
    (hgives : stmt.GivesKeys db) (hret : (runInsertStmt depth stmt db).1.Returns) :
    (runInsertStmt depth stmt db).2.Referential := by
  refine runInsertStmt_inv h hf (hr.touch _)
    (fun t ts slots rows hs hschemas hr hts hins => ?_) hret
  have hgives' : stmt.GivesKeys t :=
    hgives.imp_right (Or.imp_right fun hfree schema fk hs => hfree schema fk (hschemas _ ▸ hs))
  have hid := (hs.tables _ ts hts).schema.2.hasId
  -- none of the rows seen before is gone
  refine ⟨fun _ s => t.Integral s ∧ ∀ m, Submap (t.seen m) (s.seen m),
    ⟨⟨hr, fun _ => rfl⟩, fun _ => .refl _⟩, fun hi => hi.1.referential, fun hi hschema hvis => ?_,
    fun {before row rest id row' s s'} hrows hi hsound htable himplicit hfresh hput => ?_⟩
  · refine ⟨⟨hi.1.referential.congr fun m => ⟨hschema m, fun k => seen_congr (hvis m k)⟩,
      fun m => (hschema m).trans (hi.1.schemas m)⟩, fun m k r hr => ?_⟩
    rw [seen_congr (hvis m k)]
    exact hi.2 m k r hr
  · obtain ⟨t', ht', hschema, hreads⟩ := htable
    have hrefers := insertRows_refers hid hts hgives' hins (by simp [hrows]) himplicit
    refine ⟨⟨hi.1.referential.putRow hsound.idle ht' hreads (fun fk hfk => ?_)
      (fun m schema fk old _ _ _ hold => ?_) hput,
      fun m => (schemaOf_putRow hput m).trans (hi.1.schemas m)⟩, fun m k r hr => ?_⟩
    · rw [hschema] at hfk ⊢
      refine (hrefers fk hfk).mono fun target k found htarget hk => ?_
      exact ⟨(hi.1.schemas _).trans htarget, hi.2 _ k found hk⟩
    · grind
    · obtain ⟨ts', -, hvis⟩ := visible_putRow hsound.idle hput
      have hold := hi.2 m k r hr
      have hne : ¬ (m = stmt.table ∧ k = id) := by
        grind
      rw [seen_congr (hvis m k |>.trans (if_neg hne))]
      exact hold

/-! ## Runs -/

/-- No statement breaks what refers to its rows, nor leaves a key unchecked. -/
def KeepsKeys (db : Database) : Statement → Prop
  | .insert i => i.GivesKeys db
  | .update u => u.SparesKeys db
  | _ => True

theorem execute_referential (h : db.Sound constraintLaw hidden) (hr : db.Referential)
    {stmt : Statement} (hq : stmt.isQueryOrDml = true) (hs : SchemaSafe db stmt)
    (hk : KeepsKeys db stmt) (hret : (execute depth stmt params db).1.Returns) :
    (execute depth stmt params db).2.Referential := by
  cases stmt with
  | select | selectLiteral | compound => exact hr
  | insert i =>
    simp only [execute, affecting_run, returns_map] at hret ⊢
    exact runInsertStmt_referential h hr hs.1 hk hret
  | update u =>
    simp only [execute, affecting_run, returns_map] at hret ⊢
    exact runUpdate_referential h hr hs.1 hk hret
  | delete d =>
    simp only [execute, affecting_run, returns_map] at hret ⊢
    exact runDelete_referential h hr hret
  | _ => cases hq

/-- New tables have no rows, and every row that is referred to stays. -/
theorem Database.Referential.extend (h : db.Referential) (hs : db.Sound L hidden)
    (hadd : TablesAdded db db') : db'.Referential := by
  have hactive : ∀ n, db'.activeTxn n = db.activeTxn n := fun n =>
      by rw [activeTxn, hadd.active]; rfl
  have hkept : ∀ n ts, db.table n = some ts →
      db'.schemaOf n = db.schemaOf n ∧ ∀ id, db'.seen n id = db.seen n id := by
    intro n ts hts
    have hts' := hadd.kept n ts hts
    exact ⟨by rw [schemaOf, schemaOf, hts, hts'], fun id => by rw [seen, seen, hts, hts', hactive]⟩
  intro n schema id row hschema hrow fk hfk
  obtain ⟨ts', hts', rfl⟩ := map_eq_some_iff.mp hschema
  obtain hts | ⟨hnone, schema, rfl⟩ := hadd.tables n ts' hts'
  · obtain ⟨hsch, hseen⟩ := hkept n ts' hts
    rw [hseen] at hrow
    refine (h n ts'.schema id row (by simp [schemaOf, hts]) hrow fk hfk).mono
      fun target k found htarget hk => ?_
    obtain ⟨tr, htr, -⟩ := map_eq_some_iff.mp htarget
    rw [(hkept fk.refTable tr htr).1, (hkept fk.refTable tr htr).2]
    exact ⟨htarget, hk⟩
  · -- a new table: no transaction has written to it
    have htxn : db'.activeTxn n = none := by
      rw [hactive]
      cases htxn : db.activeTxn n with
      | none => rfl
      | some txn =>
        obtain ⟨ts, hts, -⟩ := hs.active.held n txn htxn
        grind
    rw [seen, hts', htxn] at hrow
    cases hrow

/-- What is left of a database when its transaction is rolled back. -/
def Database.closed (db : Database) : Database :=
  { db with inTransaction := false, activeTxns := [] }

/-- Integrity of what the client sees, and of what is committed. -/
structure KeepsReferences (db : Database) : Prop where
  seen : db.Referential
  committed : db.closed.Referential

theorem KeepsReferences.of_idle (h : db.Referential) (hnil : ∀ n, db.activeTxn n = none) :
    KeepsReferences db := by
  refine ⟨h, h.congr fun n => ⟨rfl, fun id => ?_⟩⟩
  unfold Database.seen
  rw [hnil]
  rfl

/-- Buffered writes leave what is committed. -/
theorem DmlFrame.closed_seen {P : Nat → Prop} (h : DmlFrame name P db db')
    (hin : db.inTransaction = true) : db'.closed.SeenAs db.closed := by
  intro n
  cases hts : db.table n with
  | some ts =>
    obtain ⟨ts', hts', -, hf⟩ := h.tables n ts hts
    have hclosed : db.closed.table n = some ts := hts
    have hclosed' : db'.closed.table n = some ts' := hts'
    refine ⟨by simp [schemaOf, hclosed, hclosed', hf.evolves.schema], fun id => ?_⟩
    rw [seen, seen, hclosed, hclosed']
    exact congrFun (rowsUnder_congr hf.evolves.schema
      (fun k => by rw [(hf.kept hin).1]) none) id
  | none =>
    cases hts' : db'.table n with
    | some ts' =>
      obtain ⟨ts, hts₁, -⟩ := h.table_some hts'
      grind
    | none =>
      have hclosed : db.closed.table n = none := hts
      have hclosed' : db'.closed.table n = none := hts'
      simp [schemaOf, seen, hclosed, hclosed']

theorem KeepsReferences.drop {flag : Bool} (h : KeepsReferences db) :
    KeepsReferences { db with inTransaction := flag, activeTxns := [] } := by
  have hseen : Database.Referential { db with inTransaction := flag, activeTxns := [] } :=
    h.committed.congr fun _ => ⟨rfl, fun _ => rfl⟩
  exact .of_idle hseen fun _ => rfl

theorem runCommit_activeTxn {o : Outcome DbError Unit} (h : db.Idle)
    (hcommit : runCommit db = (o, db')) (n : String) : db'.activeTxn n = none := by
  have htxns := runCommit_txns h none n
  rwa [hcommit, if_pos rfl] at htxns

/-- A successful `COMMIT` shows what the transaction saw. -/
theorem runCommit_seen (h : db.Sound rowLaw hidden) (hok : runCommit db = (.ok (), db')) :
    db'.SeenAs db := by
  have hnil := runCommit_activeTxn h.idle hok
  cases hin : db.inTransaction with
  | false => simp [runCommit_of_closed hin] at hok
  | true =>
    have htables := runCommit_commits h (by rw [hok]; trivial)
    rw [hok] at htables
    rw [runCommit_of_open hin] at hok
    obtain ⟨_, db₁, hvalid, happly⟩ := bind_ok.mp hok
    obtain ⟨hother₁, hat₁⟩ := forEachTable_ok h.active.names hvalid
    obtain ⟨hother₂, hat₂⟩ := forEachTable_ok (p := fun _ txn => applyTxn txn)
      h.active.names happly
    intro n
    cases hlookup : db.activeTxns.lookup n with
    | none =>
      have hnot : n ∉ db.activeTxns.map Prod.fst := by
        intro hmem
        obtain ⟨e, he, rfl⟩ := mem_map.mp hmem
        have hne := lookup_eq_none_iff.mp hlookup e he
        simp at hne
      have htable : db'.table n = db.table n := (hother₂ n hnot).trans (hother₁ n hnot)
      have htxn : db.activeTxn n = none := hlookup
      exact ⟨by rw [schemaOf, htable]; rfl, fun id => by
        rw [seen, seen, htable, hnil, htxn]⟩
    | some txn =>
      have hmem := mem_of_lookup hlookup
      obtain ⟨ts, hts, hh⟩ := h.active.held n txn hlookup
      obtain ⟨ts₁, hv, hts₁⟩ := hat₁ _ hmem ts hts
      obtain ⟨ts₂, ha, hts₂⟩ := hat₂ _ hmem ts₁ hts₁
      obtain ⟨ts', hts', hschema, -⟩ := htables n ts₂ hts₂
      rw [hts] at hts'
      cases hts'
      have htxn : db.activeTxn n = some txn := hlookup
      refine ⟨by simp [schemaOf, hts, hts₂, hschema], fun id => ?_⟩
      rw [seen, seen, hts, hts₂, hnil, htxn]
      exact congrFun (rowsUnder_overlay hh hschema (written_of_apply hv ha)) id

/-- A `COMMIT` that fails shows what was committed before. -/
theorem runCommit_failed {e : DbError} (h : db.Sound rowLaw hidden)
    (hfail : runCommit db = (.error (.err e), db')) : db'.SeenAs db.closed := by
  have hnil := runCommit_activeTxn h.idle hfail
  have hrows : SameRows db db' := by
    have hnone := (runCommit_allOrNothing h).failed e
    rw [silent_run, hfail] at hnone
    exact hnone rfl
  have htables := runCommit_commits h (by rw [hfail]; trivial)
  rw [hfail] at htables
  intro n
  cases hts' : db'.table n with
  | none =>
    have hnone : db.table n = none := by simpa [hts'] using hrows n
    have hclosed : db.closed.table n = none := hnone
    simp [schemaOf, seen, hts', hclosed]
  | some ts' =>
    obtain ⟨ts, hts, hschema, -⟩ := htables n ts' hts'
    have htree : ts'.tree = ts.tree := by
      have hsame := hrows n
      simp only [hts, hts', map_some, Option.some.injEq, Prod.mk.injEq] at hsame
      exact hsame.1
    have hclosed : db.closed.table n = some ts := hts
    refine ⟨by simp [schemaOf, hclosed, hts', hschema], fun id => ?_⟩
    rw [seen, seen, hts', hclosed, hnil]
    exact congrFun (rowsUnder_congr hschema (fun k => by rw [htree]) none) id

section

variable (hr : KeepsReferences db) (h : db.Sound constraintLaw [])
include hr h

theorem KeepsReferences.runCommit (hret : (runCommit db).1.Returns) :
    KeepsReferences (Archon.runCommit db).2 := by
  have hrow := h.mono constraintLaw_implies
  cases hin : db.inTransaction with
  | false =>
    rw [runCommit_of_closed hin]
    exact hr
  | true =>
    refine .of_idle ?_ fun n => (runCommit_txns h.idle none n).trans (if_pos rfl)
    generalize hc : Archon.runCommit db = r at hret
    obtain ⟨o, db'⟩ := r
    cases o with
    | ok u =>
      exact hr.seen.congr (runCommit_seen hrow hc)
    | error f =>
      cases f with
      | err e =>
        exact hr.committed.congr (runCommit_failed hrow hc)
      | panic | stackOverflow => exact hret.elim

theorem KeepsReferences.execute_dml {stmt : Statement} (hq : stmt.isQueryOrDml = true)
    (hs : SchemaSafe db stmt) (hk : KeepsKeys db stmt)
    (hret : (execute depth stmt params db).1.Returns) :
    KeepsReferences (Archon.execute depth stmt params db).2 := by
  have hseen := execute_referential h hr.seen hq hs hk hret
  have hframe := execute_dmlFrame h.any hq hret
  cases hin : db.inTransaction with
  | false =>
    have hsound := execute_sound h (hs.obeys depth) hret
    have hnil := hsound.idle (hframe.inTransaction.trans hin)
    exact .of_idle hseen fun n => by rw [activeTxn, hnil]; rfl
  | true =>
    exact ⟨hseen, hr.committed.congr (hframe.closed_seen hin)⟩

theorem KeepsReferences.execute {stmt : Statement} (hs : SchemaSafe db stmt)
    (hk : KeepsKeys db stmt) (hret : (execute depth stmt params db).1.Returns) :
    KeepsReferences (Archon.execute depth stmt params db).2 := by
  cases hq : stmt.isQueryOrDml with
  | true => exact hr.execute_dml h hq hs hk hret
  | false =>
    have hadd : ∀ {db'}, TablesAdded db db' → KeepsReferences db' := fun hadd =>
      ⟨hr.seen.extend h hadd,
        hr.committed.extend h.close ⟨hadd.tables, hadd.kept, rfl, hadd.sessions⟩⟩
    have hx := execute_spec depth stmt params db
    generalize (Archon.execute depth stmt params db).1.Returns = returns at hx hret
    generalize (Archon.execute depth stmt params db).2 = db' at hx ⊢
    cases hx with
    | same hsame => exact hadd (.of_same hsame)
    | createTable hct => exact hadd (.createTable hct)
    | @alterTable a => exact absurd rfl (hs.2 a)
    | begin => exact hr.drop
    | commit => exact hr.runCommit h hret
    | rollback => exact hr.drop
    | _ => cases hq

end

/-- Calls of a client of the database, that change no columns, whose counts fit
the row codec, and that keep keys in place. -/
def ReferenceSafe (db : Database) (c : ClientCall) : Prop :=
  ∃ stmt params, c = .execute stmt params ∧ SchemaSafe db stmt ∧ KeepsKeys db stmt

/-- `CREATE TABLE p (a INT)`, `CREATE TABLE c (b INT, FOREIGN KEY (b) REFERENCES p (a))`,
and a row in each. -/
def parentAndChild : List ClientCall :=
  [.execute (.createTable ⟨"p", [⟨"a", .int, []⟩], []⟩) [],
    .execute (.createTable ⟨"c", [⟨"b", .int, []⟩], [.foreignKey ["b"] "p" ["a"]]⟩) [],
    .execute (.insert ⟨"p", [], [[.int 0, .int 1]]⟩) [],
    .execute (.insert ⟨"c", [], [[.int 0, .int 1]]⟩) []]

end Archon
