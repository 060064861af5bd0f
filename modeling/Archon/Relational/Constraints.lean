import Archon.Relational.Select

/-!
# Archon.Relational.Constraints

What a DML statement reads before it writes: candidate rows, matching rows
and the integrity constraints
(`crates/tpt-archon-relational/src/database/dml.rs`).

`depth` is the stack left for the subqueries of a `WHERE` or `CHECK`.
-/

namespace Archon

open Outcome

/-! ## Keys -/

/-- The values of the named columns; the columns of a constraint exist. -/
def keyOf (schema : Schema) (row : Row) : List String → Outcome ε Row
  | [] => return []
  | c :: cs => do
    let idx ← expect (schema.indexOf c)
    let v ← index row idx
    let vs ← keyOf schema row cs
    return v :: vs

/-- `key.contains(&Value::Null)`. -/
def hasNull (key : Row) : Bool := key.any Value.isNull

/-- Whether one of the rows has this key in the named columns. -/
def anyWithKey (schema : Schema) (columns : List String) (key : Row) :
    List Row → Outcome ε Bool
  | [] => return false
  | vals :: rows => do
    let other ← keyOf schema vals columns
    if rowEq other key then return true else anyWithKey schema columns key rows

/-- The primary key and the `UNIQUE` groups. -/
def uniqueGroups (schema : Schema) : List (List String) := schema.primaryKey.toList ++ schema.unique

/-- Every live row of a table but one. -/
def allRows (rt : ReadTable) (excludeId : Option Nat) : Outcome DbError (List (Nat × Row)) :=
  rt.rows ((List.range rt.nextRowId).filter fun id => some id ≠ excludeId)

/-! ## Constraints -/

def checkNotNull (schema : Schema) (row : Row) : List String → Outcome DbError Unit
  | [] => return ()
  | col :: cols => do
    let idx ← expect (schema.indexOf col)
    let v ← index row idx
    if v.isNull then fail (.notNullViolation col) else checkNotNull schema row cols

/-- A key with a `NULL` is not a duplicate. -/
def checkUnique (rt : ReadTable) (row : Row) (excludeId : Option Nat) :
    List (List String) → Outcome DbError Unit
  | [] => return ()
  | group :: groups => do
    let key ← keyOf rt.schema row group
    if hasNull key then checkUnique rt row excludeId groups
    else
      let rows ← allRows rt excludeId
      if ← anyWithKey rt.schema group key (rows.map Prod.snd) then
        fail (.uniqueViolation (",".intercalate group))
      else checkUnique rt row excludeId groups

def checkExprs (v : ReadView) (depth : Nat) (schema : Schema) (row : Row) :
    List Expr → Outcome DbError Unit
  | [] => return ()
  | expr :: exprs => do
    let run := runSelectScoped v depth
    let cache ← buildSubqueryCache run expr schema.columns [] []
    let ok ← passes run
      { columns := schema.columns, row, scopeColumns := schema.columns, cache } expr
    if ok then checkExprs v depth schema row exprs
    else fail (.checkViolation "CHECK constraint evaluated to false or NULL")

def checkForeignKeys (v : ReadView) (schema : Schema) (row : Row) :
    List ForeignKey → Outcome DbError Unit
  | [] => return ()
  | fk :: fks => do
    let key ← keyOf schema row fk.columns
    if hasNull key then checkForeignKeys v schema row fks
    else
      let refTable ← okOr (v.table fk.refTable)
        (.foreignKeyViolation (.noTable fk.refTable))
      let rows ← allRows refTable none
      if ← anyWithKey refTable.schema fk.refColumns key (rows.map Prod.snd) then
        checkForeignKeys v schema row fks
      else fail (.foreignKeyViolation (.noMatchingKey key fk.refTable))

/-- Check a candidate row; `excludeId` is the row it replaces. -/
def enforceConstraints (v : ReadView) (depth : Nat) (rt : ReadTable) (row : Row)
    (excludeId : Option Nat) : Outcome DbError Unit := do
  checkNotNull rt.schema row rt.schema.notNull
  checkUnique rt row excludeId (uniqueGroups rt.schema)
  checkExprs v depth rt.schema row rt.schema.checks
  checkForeignKeys v rt.schema row rt.schema.foreignKeys

/-- The foreign keys of one table that point at a row of `tableName` about to
be deleted. -/
def checkReferences (tableName : String) (schema : Schema) (row : Row) (otherName : String)
    (other : ReadTable) : List ForeignKey → Outcome DbError Unit
  | [] => return ()
  | fk :: fks => do
    if fk.refTable != tableName then checkReferences tableName schema row otherName other fks
    else
      let key ← keyOf schema row fk.refColumns
      if hasNull key then checkReferences tableName schema row otherName other fks
      else
        let rows ← allRows other none
        if ← anyWithKey other.schema fk.columns key (rows.map Prod.snd) then
          fail (.foreignKeyViolation (.stillReferenced otherName fk.columns))
        else checkReferences tableName schema row otherName other fks

/-- `ON DELETE RESTRICT`. -/
def enforceFkOnDelete (tableName : String) (schema : Schema) (row : Row) :
    List (String × ReadTable) → Outcome DbError Unit
  | [] => return ()
  | (otherName, other) :: tables => do
    checkReferences tableName schema row otherName other other.schema.foreignKeys
    enforceFkOnDelete tableName schema row tables

/-! ## Matching rows -/

/-- The ids, among the given ones, of the rows that satisfy the filter. -/
def matchingIds (rt : ReadTable) (keep : Row → Outcome DbError Bool) :
    List Nat → Outcome DbError (List Nat)
  | [] => return []
  | id :: ids => do
    match ← rt.rowAt id with
    | none => matchingIds rt keep ids
    | some row =>
      let k ← keep row
      let rest ← matchingIds rt keep ids
      return if k then id :: rest else rest

def matchingRowIds (v : ReadView) (depth : Nat) (tableName : String) (filter : Option Expr) :
    Outcome DbError (List Nat) := do
  let rt ← okOr (v.table tableName) (.unknownTable tableName)
  let ids := List.range rt.nextRowId
  match filter with
  | none => matchingIds rt (fun _ => return true) ids
  | some expr =>
    let run := runSelectScoped v depth
    let columns := rt.schema.columns
    let cache ← buildSubqueryCache run expr columns [] []
    matchingIds rt (fun row => passes run { columns, row, scopeColumns := columns, cache } expr) ids

/-! ## Candidate rows -/

/-- The slots an `INSERT` fills: the named columns, or all of them. -/
def insertSlots (schema : Schema) (columns : List String) : Outcome DbError (List Nat) :=
  if columns.isEmpty then return List.range schema.columns.length
  else columns.mapM fun c => okOr (schema.indexOf c) (.unknownColumn c)

/-- Convert the literals into their slots. -/
def fillRow (schema : Schema) : List (Nat × Literal) → Row → Outcome DbError Row
  | [], row => return row
  | (slot, lit) :: rest, row => do
    let v ← literalToValue schema slot lit
    let row ← set row slot v
    fillRow schema rest row

/-- One row per list of literals; the columns left out are `NULL`. -/
def candidateRows (schema : Schema) (slots : List Nat) (values : List (List Literal)) :
    Outcome DbError (List Row) :=
  values.mapM fun lits =>
    fillRow schema (slots.zip lits) (List.replicate schema.columns.length .null)

/-- No other row of the batch may have the same key. -/
def checkBatch (schema : Schema) (row : Row) (others : List Row) :
    List (List String) → Outcome DbError Unit
  | [] => return ()
  | group :: groups => do
    let key ← keyOf schema row group
    if hasNull key then checkBatch schema row others groups
    else if ← anyWithKey schema group key others then
      fail (.uniqueViolation (",".intercalate group))
    else checkBatch schema row others groups

/-- Check each row against the table and the rest of the batch. -/
def checkRows (v : ReadView) (depth : Nat) (rt : ReadTable) :
    List Row → List Row → Outcome DbError Unit
  | _, [] => return ()
  | before, row :: rest => do
    enforceConstraints v depth rt row none
    checkBatch rt.schema row (before ++ rest) (uniqueGroups rt.schema)
    checkRows v depth rt (before ++ [row]) rest

/-- The slots and checked rows of an `INSERT`. -/
def insertRows (v : ReadView) (depth : Nat) (stmt : InsertStatement) :
    Outcome DbError (List Nat × List Row) := do
  let rt ← okOr (v.table stmt.table) (.unknownTable stmt.table)
  let slots ← insertSlots rt.schema stmt.columns
  if stmt.values.any fun lits => lits.length != slots.length then fail .arityMismatch
  let rows ← candidateRows rt.schema slots stmt.values
  checkRows v depth rt [] rows
  return (slots, rows)

/-- The row after the assignments; the implicit id is never assigned. -/
def assignRow (schema : Schema) : List Assignment → Row → Outcome DbError Row
  | [], row => return row
  | a :: assignments, row => do
    let slot ← okOr (schema.indexOf a.column) (.unknownColumn a.column)
    if slot = 0 then assignRow schema assignments row
    else
      let v ← literalToValue schema slot a.value
      let row ← set row slot v
      assignRow schema assignments row

/-- What an `UPDATE` makes of row `id`; nothing if the row is gone. -/
def updatedRow (v : ReadView) (depth : Nat) (stmt : UpdateStatement) (id : Nat) :
    Outcome DbError (Option Row) := do
  let rt ← okOr (v.table stmt.table) (.unknownTable stmt.table)
  match ← rt.rowAt id with
  | none => return none
  | some row =>
    let row ← assignRow rt.schema stmt.assignments row
    enforceConstraints v depth rt row (some id)
    return some row

/-- Whether a `DELETE` removes row `id`; it does not if the row is gone. -/
def deletesRow (v : ReadView) (stmt : DeleteStatement) (id : Nat) : Outcome DbError Bool := do
  let rt ← okOr (v.table stmt.table) (.unknownTable stmt.table)
  match ← rt.rowAt id with
  | none => return false
  | some row =>
    enforceFkOnDelete stmt.table rt.schema row v.tables
    return true

/-! ## What has been read -/

section

variable {schema : Schema} {row row' : Row} {P : Row → Prop} {v : ReadView} {depth : Nat}

theorem fillRow_keeps {slots : List (Nat × Literal)}
    (hset : ∀ p ∈ slots, ∀ v row, literalToValue schema p.1 p.2 = .ok v → P row →
      P (row.set p.1 v)) (hrow : P row) (h : fillRow schema slots row = .ok row') : P row' := by
  induction slots generalizing row with
  | nil =>
    cases h
    exact hrow
  | cons p slots ih =>
    obtain ⟨v, hv, h⟩ := h.bind_ok
    obtain ⟨row₁, hr, h⟩ := h.bind_ok
    obtain ⟨-, rfl⟩ := set_eq_ok.mp hr
    exact ih (fun q hq => hset q (.tail p hq)) (hset p (.head _) v row hv hrow) h

theorem assignRow_keeps {assignments : List Assignment}
    (hset : ∀ a ∈ assignments, ∀ slot v row, schema.indexOf a.column = some slot → slot ≠ 0 →
      literalToValue schema slot a.value = .ok v → P row → P (row.set slot v)) (hrow : P row)
    (h : assignRow schema assignments row = .ok row') : P row' := by
  induction assignments generalizing row with
  | nil =>
    cases h
    exact hrow
  | cons a assignments ih =>
    have hrest := fun b hb => hset b (.tail a hb)
    obtain ⟨slot, hslot, h⟩ := h.bind_ok
    split at h
    · exact ih hrest hrow h
    · next hne =>
      obtain ⟨v, hv, h⟩ := h.bind_ok
      obtain ⟨row₁, hr, h⟩ := h.bind_ok
      obtain ⟨-, rfl⟩ := set_eq_ok.mp hr
      exact ih hrest (hset a (.head _) slot v row (okOr_eq_ok.mp hslot) hne hv hrow) h

theorem insertRows_ok {stmt : InsertStatement} {slots : List Nat} {rows : List Row}
    (h : insertRows v depth stmt = .ok (slots, rows)) :
    ∃ rt, v.table stmt.table = some rt ∧ insertSlots rt.schema stmt.columns = .ok slots ∧
      candidateRows rt.schema slots stmt.values = .ok rows ∧
      checkRows v depth rt [] rows = .ok () := by
  obtain ⟨rt, hrt, h⟩ := h.bind_ok
  obtain ⟨slots', hslots, h⟩ := h.bind_ok
  obtain ⟨-, h⟩ := unless_eq_ok.mp h
  obtain ⟨rows', hrows, h⟩ := h.bind_ok
  obtain ⟨_, hcheck, h⟩ := h.bind_ok
  cases h
  exact ⟨rt, okOr_eq_ok.mp hrt, hslots, hrows, hcheck⟩

theorem updatedRow_ok {stmt : UpdateStatement} {id : Nat}
    (h : updatedRow v depth stmt id = .ok (some row)) :
    ∃ rt old, v.table stmt.table = some rt ∧ rt.rowAt id = .ok (some old) ∧
      assignRow rt.schema stmt.assignments old = .ok row ∧
      enforceConstraints v depth rt row (some id) = .ok () := by
  obtain ⟨rt, hrt, h⟩ := h.bind_ok
  obtain ⟨row?, hat, h⟩ := h.bind_ok
  cases row? with
  | none => cases h
  | some old =>
    obtain ⟨new, hassign, h⟩ := h.bind_ok
    obtain ⟨_, hcheck, h⟩ := h.bind_ok
    cases h
    exact ⟨rt, old, okOr_eq_ok.mp hrt, hat, hassign, hcheck⟩

end

end Archon
