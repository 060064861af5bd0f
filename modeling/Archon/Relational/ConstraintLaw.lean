import Archon.Relational.Checks

/-!
# Archon.Relational.ConstraintLaw

The constraints on single rows as a law of stored rows: in every state, every
row in a tree or a write buffer has its `NOT NULL` columns and satisfies its
`CHECK`s, whoever wrote it.
-/

namespace Archon

open List

/-! ## Declared constraints -/

/-- The constraints of a schema as `CREATE TABLE` leaves them: the columns they
name exist, and a primary key is not `NULL`. -/
structure Schema.Declared (schema : Schema) : Prop where
  hasId : schema.HasId
  notNull : ∀ c ∈ schema.notNull, c ∈ schema.columns
  unique : ∀ group ∈ uniqueGroups schema, ∀ c ∈ group, c ∈ schema.columns
  foreign : ∀ fk ∈ schema.foreignKeys, ∀ c ∈ fk.columns, c ∈ schema.columns
  primaryKey : ∀ pk, schema.primaryKey = some pk → ∀ c ∈ pk, c ∈ schema.notNull

namespace Schema.Declared

variable {schema schema' : Schema}

variable {names cols : List String} {name c : String}

theorem mem_pushNew : c ∈ pushNew names name ↔ c ∈ names ∨ c = name := by
  unfold pushNew
  split
  · next h =>
    have hname : name ∈ names := by simpa using h
    constructor
    · exact .inl
    · rintro (hc | rfl)
      · exact hc
      · exact hname
  · simp

theorem mem_foldl_pushNew : c ∈ cols.foldl pushNew names ↔ c ∈ names ∨ c ∈ cols := by
  induction cols generalizing names with
  | nil => simp
  | cons d cols ih => rw [foldl_cons, ih, mem_pushNew, mem_cons, or_assoc]

theorem checkColumns_ok (h : checkColumns schema cols = .ok ()) :
    ∀ c ∈ cols, c ∈ schema.columns := by
  induction cols with
  | nil => simp
  | cons d cols ih =>
    unfold checkColumns at h
    split at h
    · next hd =>
      intro c hc
      obtain rfl | hc := mem_cons.mp hc
      · simpa using hd
      · exact ih h c hc
    · cases h

/-- A primary key that may be declared. -/
theorem addKey (h : schema.Declared) {notNull : List String}
    (hcols : ∀ c ∈ cols, c ∈ schema.columns)
    (hnull : ∀ c, c ∈ notNull ↔ c ∈ schema.notNull ∨ c ∈ cols) :
    Schema.Declared { schema with primaryKey := some cols, notNull } := by
  refine ⟨h.hasId, fun c hc => ?_, fun group hg c hc => ?_, h.foreign, fun pk hpk c hc => ?_⟩
  · exact ((hnull c).mp hc).elim (h.notNull c) (hcols c)
  · simp only [uniqueGroups, Option.toList_some, mem_append, mem_singleton] at hg
    obtain rfl | hg := hg
    · exact hcols c hc
    · exact h.unique group (by simp [uniqueGroups, hg]) c hc
  · cases hpk
    exact (hnull c).mpr (.inr hc)

theorem addUnique (h : schema.Declared) (hcols : ∀ c ∈ cols, c ∈ schema.columns) :
    Schema.Declared { schema with unique := schema.unique ++ [cols] } := by
  refine ⟨h.hasId, h.notNull, fun group hg c hc => ?_, h.foreign, h.primaryKey⟩
  simp only [uniqueGroups, mem_append, mem_singleton] at hg
  obtain hg | hg | rfl := hg
  · exact h.unique group (by simp [uniqueGroups, hg]) c hc
  · exact h.unique group (by simp [uniqueGroups, hg]) c hc
  · exact hcols c hc

theorem addColumnConstraint (h : schema.Declared) (hname : name ∈ schema.columns)
    {c : ColumnConstraint} (hadd : addColumnConstraint name schema c = .ok schema') :
    schema'.Declared := by
  cases c with
  | notNull =>
    cases hadd
    refine ⟨h.hasId, fun c hc => ?_, h.unique, h.foreign, fun pk hpk c hc => ?_⟩
    · exact (mem_pushNew.mp hc).elim (h.notNull c) fun heq => heq ▸ hname
    · exact mem_pushNew.mpr (.inl (h.primaryKey pk hpk c hc))
  | primaryKey =>
    simp only [Archon.addColumnConstraint] at hadd
    split at hadd
    · cases hadd
    · cases hadd
      exact h.addKey (by simpa using hname) fun c => by simp [mem_pushNew]
  | unique =>
    cases hadd
    exact h.addUnique (by simpa using hname)

theorem append (h : schema.Declared) (name : String) (t : ColumnType) :
    Schema.Declared { schema with
      columns := schema.columns ++ [name], types := schema.types ++ [t] } := by
  have hmem : ∀ {c}, c ∈ schema.columns → c ∈ schema.columns ++ [name] :=
    fun hc => mem_append_left _ hc
  refine ⟨?_, fun c hc => hmem (h.notNull c hc), fun g hg c hc => hmem (h.unique g hg c hc),
    fun fk hfk c hc => hmem (h.foreign fk hfk c hc), h.primaryKey⟩
  have hid := h.hasId
  unfold HasId at hid ⊢
  simp [hid]

theorem addTableConstraint (h : schema.Declared) {c : TableConstraint}
    (hadd : addTableConstraint schema c = .ok schema') : schema'.Declared := by
  cases c with
  | primaryKey cols =>
    simp only [Archon.addTableConstraint] at hadd
    split at hadd
    · cases hadd
    · obtain ⟨_, hcols, hadd⟩ := hadd.bind_ok
      cases hadd
      exact h.addKey (checkColumns_ok hcols) fun c => mem_foldl_pushNew
  | unique cols =>
    obtain ⟨_, hcols, hadd⟩ := hadd.bind_ok
    cases hadd
    exact h.addUnique (checkColumns_ok hcols)
  | foreignKey columns refTable refColumns =>
    obtain ⟨_, hcols, hadd⟩ := hadd.bind_ok
    cases hadd
    refine ⟨h.hasId, h.notNull, h.unique, fun fk hfk c hc => ?_, h.primaryKey⟩
    obtain hfk | hfk := mem_append.mp hfk
    · exact h.foreign fk hfk c hc
    · cases mem_singleton.mp hfk
      exact checkColumns_ok hcols c hc
  | check expr =>
    cases hadd
    exact ⟨h.hasId, h.notNull, h.unique, h.foreign, h.primaryKey⟩

end Schema.Declared

variable {schema : Schema} {db : Database} {stmt : Statement}

theorem addColumnDef_declared {schema' : Schema} {c : ColumnDef} (h : schema.Declared)
    (hadd : addColumnDef schema c = .ok schema') : schema'.Declared := by
  have hstart : Schema.Declared { schema with
      columns := schema.columns ++ [c.name], types := schema.types ++ [c.ctype] } :=
    h.append c.name c.ctype
  have hkeep := Except.foldlM_keeps (P := fun s : Schema => s.Declared ∧ c.name ∈ s.columns)
    (fun s k s' hs hk => ⟨hs.1.addColumnConstraint hs.2 hk, (addColumnConstraint_ok hk).1 ▸ hs.2⟩)
    ⟨hstart, by simp⟩ hadd
  exact hkeep.1

/-- The constraints of a new table are in order. -/
theorem createSchema_declared {ct : CreateTableStatement} (h : createSchema ct = .ok schema) :
    schema.Declared := by
  obtain ⟨s, hs, h⟩ := h.bind_ok
  have hinit : Schema.Declared { columns := ["id"], types := [.int] } := by
    refine ⟨rfl, ?_, ?_, ?_, ?_⟩ <;> simp [uniqueGroups]
  have hcols : s.Declared :=
    Except.foldlM_keeps (P := Schema.Declared) (fun s c s' hs hc => addColumnDef_declared hs
      hc) hinit hs
  exact Except.foldlM_keeps (P := Schema.Declared) (fun s c s' hs hc => hs.addTableConstraint
    hc) hcols h

/-! ## The law -/

/-- Stored rows of a table, each of which satisfies `Q`. -/
def rowLawWith (P : Schema → Prop) (Q : Schema → Row → Prop) : StorageLaw where
  schema schema := schema.Proper ∧ P schema
  row schema bytes := ∃ row, bytes = encodeRow row ∧ RowOf schema row ∧ Q schema row

theorem rowLawWith_implies (P : Schema → Prop) (Q : Schema → Row → Prop) :
    (rowLawWith P Q).Implies rowLaw :=
  ⟨fun _ h => h.1, fun _ _ ⟨row, hb, hrow, _⟩ => ⟨row, hb, hrow⟩⟩

/-- The law of rows that satisfy the declared constraints. -/
def constraintLaw : StorageLaw := rowLawWith Schema.Declared RowHolds

theorem currentRow_holds {ts : TableStorage} {txn : Option Transaction} {id : Nat} {row : Row}
    (hs : ts.Sound constraintLaw) (ht : ∀ t, txn = some t → ts.Holds constraintLaw t)
    (h : ts.currentRow txn id = .ok (some row)) : RowHolds ts.schema row := by
  obtain ⟨bytes, ⟨row', rfl, hrow, hholds⟩, hdec⟩ := currentRow_law hs ht h
  rw [hrow.decode hs.schema.1 id] at hdec
  cases hdec
  exact hholds

theorem constraintLaw_implies : constraintLaw.Implies rowLaw := rowLawWith_implies _ _

section

variable {depth : Nat} {hidden : List TableTxns} {db : Database}
  {ts : TableStorage}

theorem insertRows_law {stmt : InsertStatement} {slots : List Nat} {rows : List Row}
    (h : db.Sound constraintLaw hidden) (hts : db.table stmt.table = some ts)
    (hf : ∀ lits ∈ stmt.values, ∀ lit ∈ lits, lit.Fits)
    (hins : insertRows db.readView depth stmt = .ok (slots, rows)) {row row' : Row}
    (hmem : row ∈ rows) {id : Nat} (hid : withImplicitId slots id row = .ok row') :
    RowOf ts.schema row' ∧ RowHolds ts.schema row' := by
  have hrt : db.readView.table stmt.table = some (ts.view (db.activeTxn stmt.table)) :=
      by simp [hts]
  obtain ⟨hproper, hdeclared⟩ := (h.tables _ ts hts).schema
  have hof : RowOf ts.schema row := insertRows_rowOf hrt hproper hf hins row hmem
  obtain ⟨rt, hrt', -, -, hcheck⟩ := insertRows_ok hins
  rw [hrt] at hrt'
  cases hrt'
  have hholds : RowHolds ts.schema row := (checkRows_ok hcheck row hmem).rowHolds
  exact ⟨withImplicitId_rowOf hproper hof hid,
    hholds.sameButId hdeclared.hasId (withImplicitId_sameButId hid)⟩

theorem updatedRow_law {stmt : UpdateStatement} {id : Nat} {row : Row}
    (h : db.Sound constraintLaw hidden) (hts : db.table stmt.table = some ts)
    (hf : ∀ a ∈ stmt.assignments, a.value.Fits)
    (hup : updatedRow db.readView depth stmt id = .ok (some row)) :
    RowOf ts.schema row ∧ RowHolds ts.schema row := by
  have hof : RowOf ts.schema row := updatedRow_rowOf (h.mono constraintLaw_implies) hts hf hup
  obtain ⟨rt, old, hrt, -, -, hcheck⟩ := updatedRow_ok hup
  rw [Database.table_readView, hts] at hrt
  cases hrt
  exact ⟨hof, (enforceConstraints_ok hcheck).rowHolds⟩

end

/-- Counts fit the row codec, and no table changes its columns. -/
def SchemaSafe (db : Database) (stmt : Statement) : Prop :=
  RowSafe db stmt ∧ ∀ a, stmt ≠ .alterTable a

/-- Only `ALTER TABLE` asks for more in one state than in another. -/
theorem SchemaSafe.anywhere (h : SchemaSafe db stmt) (db' : Database) : SchemaSafe db' stmt := by
  refine ⟨?_, h.2⟩
  cases stmt with
  | alterTable a => exact absurd rfl (h.2 a)
  | _ => exact h.1

/-- Such statements obey the law. -/
theorem SchemaSafe.obeys (depth : Nat) (h : SchemaSafe db stmt) :
    Obeys constraintLaw [] depth db stmt := by
  cases stmt with
  | insert i =>
    intro s ts slots rows hs hts hins row hmem id row' hid
    exact ⟨row', rfl, insertRows_law hs hts h.1 hins hmem hid⟩
  | update u => exact fun s ts id row hs hts hup => ⟨row, rfl, updatedRow_law hs hts h.1 hup⟩
  | createTable ct =>
    exact fun schema hs => ⟨createSchema_proper h.1 hs, createSchema_declared hs⟩
  | alterTable a => exact absurd rfl (h.2 a)
  | _ => trivial

end Archon
