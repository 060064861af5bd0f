import Archon.Relational.LostUpdate
import Archon.Relational.RowLaw

/-!
# Archon.Relational.AlterData

What `ALTER TABLE` does to the data of a table.  A column keeps its values
under its new position and name, as reads see them (`TableStorage.cell`), and
an added column is `NULL`, exactly when the rows that are rewritten can be
read and fit the codec (`TableStorage.Rewritable`).
-/

namespace Archon

open Outcome List

variable {id : Nat} {name : String}

/-! ## The law -/

/-- The value of column `i` in row `id`, as reads see it: there is none if the
row does not have the table's number of values. -/
def TableStorage.cell (ts : TableStorage) (id i : Nat) : Option Value := do
  let bytes ← ts.tree.find? id
  let row ← (ts.decode id bytes).toOption
  row[i]?

/-- Where `ALTER TABLE` puts column `i`, unless it drops it. -/
def AlterTableOp.position (schema : Schema) (i : Nat) : AlterTableOp → Option Nat
  | .addColumn _ => some i
  | .dropColumn name =>
    match schema.indexOf name with
    | some idx => if i < idx then some i else if i = idx then none else some (i - 1)
    | none => some i
  | .renameColumn _ _ => some i

/-- What column `i` is called afterwards. -/
def AlterTableOp.newName (schema : Schema) (i : Nat) (name : String) : AlterTableOp → String
  | .renameColumn oldName newName => if schema.indexOf oldName = some i then newName else name
  | _ => name

/-- `ts'` has the rows of `ts`; columns that are not dropped keep their values
in every row, and an added column is `NULL` in every row. -/
structure TableStorage.Kept (ts : TableStorage) (op : AlterTableOp) (ts' : TableStorage) :
    Prop where
  ids : ∀ id, (ts'.tree.find? id).isSome = (ts.tree.find? id).isSome
  names : ∀ i i' name, ts.schema.columns[i]? = some name → op.position ts.schema i = some i' →
    ts'.schema.columns[i']? = some (op.newName ts.schema i name)
  values : ∀ id i i', i < ts.schema.columns.length → op.position ts.schema i = some i' →
    ts'.cell id i' = ts.cell id i
  added : ∀ col, op = .addColumn col → ∃ i, ts'.schema.indexOf col.name = some i ∧
    ∀ id, (ts.tree.find? id).isSome → ts'.cell id i = some .null

/-- The data of the altered table is kept, and no other table changes. -/
structure Database.AlterKeeps (db : Database) (stmt : AlterTableStatement) (db' : Database) :
    Prop where
  table : ∃ ts ts', db.table stmt.table = some ts ∧ db'.table stmt.table = some ts' ∧
    ts.Kept stmt.op ts'
  others : ∀ name, name ≠ stmt.table → db'.table name = db.table name

/-- The rows that the operation rewrites can be read, and what is written of
them fits the codec. -/
def TableStorage.Rewritable (ts : TableStorage) : AlterTableOp → Prop
  | .addColumn _ => ∀ id bytes, ts.tree.find? id = some bytes →
      ∃ row, ts.decode id bytes = .ok row ∧ ∀ v ∈ row, v.Fits
  | .dropColumn name => ∀ id bytes row idx, ts.tree.find? id = some bytes →
      ts.decode id bytes = .ok row → ts.schema.indexOf name = some idx →
      ∀ v ∈ row.eraseIdx idx, v.Fits
  | .renameColumn _ _ => True

/-! ## Cells -/

namespace TableStorage

variable {ts ts' : TableStorage}

variable {bytes : Bytes} {row : Row} {i idx : Nat} {f : Row → Outcome DbError Row} {schema : Schema}

theorem decode_eq_ok :
    ts.decode id bytes = .ok row ↔
      tryDecodeRow bytes = .ok row ∧ row.length = ts.schema.columns.length :=
  decodeRowValidated_eq_ok

/-- The cells of a row that can be read. -/
theorem cell_of_decode (hb : ts.tree.find? id = some bytes) (hd : ts.decode id bytes = .ok row)
    (i : Nat) : ts.cell id i = row[i]? := by
  simp [cell, hb, hd, Except.toOption]

/-- The cells of a row that cannot be read, and of one that is not there. -/
theorem cell_eq_none
    (h : ∀ bytes row, ts.tree.find? id = some bytes → ts.decode id bytes ≠ .ok row) (i : Nat) :
    ts.cell id i = none := by
  cases hb : ts.tree.find? id with
  | none => simp [cell, hb]
  | some bytes =>
    cases hd : ts.decode id bytes with
    | ok row => exact absurd hd (h bytes row hb)
    | error e => simp [cell, hb, hd, Except.toOption]

/-- A row with a cell can be read. -/
theorem decode_of_cell {v : Value} (hb : ts.tree.find? id = some bytes)
    (h : ts.cell id i = some v) : ∃ row, ts.decode id bytes = .ok row ∧ row[i]? = some v := by
  cases hd : ts.decode id bytes with
  | ok row => exact ⟨row, rfl, by rw [← cell_of_decode hb hd, h]⟩
  | error e => simp [cell, hb, hd, Except.toOption] at h

/-! ## Rewritten rows -/

/-- The rows of `ts'` are those of `ts`, each decoded, changed and encoded
again. -/
structure Rewritten (f : Row → Outcome DbError Row) (ts ts' : TableStorage) : Prop where
  ids : ∀ id, (ts'.tree.find? id).isSome = (ts.tree.find? id).isSome
  rows : ∀ id bytes, ts.tree.find? id = some bytes →
    ∃ bytes', ts'.tree.find? id = some bytes' ∧ Rewrites f bytes bytes'

/-- A table whose row ids have all been handed out. -/
def IdsGiven (ts : TableStorage) : Prop :=
  ∀ id bytes, ts.tree.find? id = some bytes → id < ts.nextRowId

theorem reencode_rewritten (hids : ts.IdsGiven) (h : ts.reencode f = .ok ts') :
    Rewritten f ts ts' := by
  refine ⟨reencode_isSome h, fun id bytes hb => ?_⟩
  have hsome := reencode_isSome h id
  rw [hb, Option.isSome_some, Option.isSome_iff_exists] at hsome
  obtain ⟨bytes', hb'⟩ := hsome
  obtain ⟨tree, rfl, hrows⟩ := reencode_ok h
  obtain ⟨old, hold, hrw⟩ := hrows id bytes' hb'
  cases hold.symm.trans hb
  exact ⟨bytes', hb', hrw (hids id bytes hb)⟩

/-- Rows that are not there have no cells before or after. -/
theorem Rewritten.cell_of_none (h : Rewritten f ts ts') (hb : ts.tree.find? id = none)
    (i i' : Nat) : ts'.cell id i' = ts.cell id i := by
  have hb' : ts'.tree.find? id = none := by simpa [hb] using h.ids id
  simp [cell, hb, hb']

theorem alter_addColumn {col : ColumnDef} (hids : ts.IdsGiven)
    (h : ts.alter (.addColumn col) = .ok ts') :
    col.name ∉ ts.schema.columns ∧ ts'.schema.columns = ts.schema.columns ++ [col.name] ∧
      Rewritten (fun values => return values ++ [.null]) ts ts' := by
  obtain ⟨hnew, h⟩ := unless_eq_ok.mp h
  obtain ⟨ts₁, hre, h⟩ := h.bind_ok
  cases h
  have hrw := reencode_rewritten hids hre
  obtain ⟨tree, rfl, -⟩ := reencode_ok hre
  exact ⟨by simpa using hnew, rfl, hrw.ids, hrw.rows⟩

theorem alter_dropColumn (hids : ts.IdsGiven) (h : ts.alter (.dropColumn name) = .ok ts') :
    ∃ idx, ts.schema.indexOf name = some idx ∧ idx ≠ 0 ∧
      ts'.schema.columns = ts.schema.columns.eraseIdx idx ∧
      Rewritten (removeValue idx) ts ts' := by
  obtain ⟨idx, hidx, h⟩ := h.bind_ok
  obtain ⟨hne, h⟩ := unless_eq_ok.mp h
  obtain ⟨ts₁, hre, h⟩ := h.bind_ok
  cases h
  have hrw := reencode_rewritten hids hre
  obtain ⟨tree, rfl, -⟩ := reencode_ok hre
  exact ⟨idx, okOr_eq_ok.mp hidx, hne, rfl, hrw.ids, hrw.rows⟩

/-! ## Adding a column -/

theorem indexOf_append {columns : List String} (hc : schema.columns = columns ++ [name])
    (hnew : name ∉ columns) : schema.indexOf name = some columns.length := by
  rw [Schema.indexOf, columnPosition, hc]
  have hnone : columns.findIdx? (fun c => c == name) = none := by
    rw [findIdx?_eq_none_iff]
    intro c hmem
    simp only [beq_eq_false_iff_ne]
    rintro rfl
    exact hnew hmem
  simp [hnone]

/-- An added column is `NULL` in a row that fits. -/
theorem decode_added (hlen : row.length < 65535)
    (hcols : ts'.schema.columns.length = row.length + 1) (hfits : ∀ v ∈ row, v.Fits) :
    ts'.decode id (encodeRow (row ++ [.null])) = .ok (row ++ [.null]) := by
  refine decode_eq_ok.mpr ⟨tryDecodeRow_encodeRow ⟨?_, ?_⟩, ?_⟩
  · simpa using Nat.succ_lt_succ hlen
  · intro v hv
    rcases mem_append.mp hv with hv | hv
    · exact hfits v hv
    · rw [mem_singleton.mp hv]
      trivial
  · grind

section

variable {col : ColumnDef} (hids : ts.IdsGiven) (h : ts.alter (.addColumn col) = .ok ts')

include hids h

/-- The added cell shows that the new row reads, so the old one has the
table's length; the other cells show that it fits. -/
theorem Kept.rewritable_addColumn (hk : ts.Kept (.addColumn col) ts') :
    ts.Rewritable (.addColumn col) := by
  obtain ⟨hnew, hcols, hrw⟩ := alter_addColumn hids h
  intro id bytes hb
  obtain ⟨bytes', hb', values, values', hdec, hf, rfl⟩ := hrw.rows id bytes hb
  cases hf
  obtain ⟨i, hi, hnull⟩ := hk.added col rfl
  cases (indexOf_append hcols hnew).symm.trans hi
  obtain ⟨row', hdec', hlast⟩ := decode_of_cell hb' (hnull id (by rw [hb]; rfl))
  obtain ⟨htry, hlen'⟩ := decode_eq_ok.mp hdec'
  have hvalues : values.length = ts.schema.columns.length := by
    have hshort := length_of_tryDecodeRow hdec
    have hwrap := length_decodeValues (tryDecodeRow_encodeRow_inv htry)
    rw [hcols] at hlen'
    simp only [length_append, length_singleton] at hlen' hwrap
    omega
  have hold : ts.decode id bytes = .ok values := decode_eq_ok.mpr ⟨hdec, hvalues⟩
  have hrow' : row' = values ++ [.null] := by
    refine ext_getElem? fun i => ?_
    rcases Nat.lt_trichotomy i values.length with hi | rfl | hi
    · have happ : (values ++ [Value.null])[i]? = values[i]? := getElem?_append_left hi
      rw [happ, ← cell_of_decode hb' hdec', ← cell_of_decode hb hold]
      exact hk.values id i i (by omega) rfl
    · simp [hvalues, hlast]
    · rw [hcols, length_append, length_singleton] at hlen'
      rw [getElem?_eq_none (by omega), getElem?_eq_none (by simp; omega)]
  rw [hrow'] at htry
  refine ⟨values, hold, fun v hv => ?_⟩
  exact (tryDecodeRow_encodeRow_iff.mp htry).values v (mem_append_left _ hv)

theorem Rewritable.kept_addColumn (hcount : ts.schema.columns.length < 65535)
    (hsafe : ts.Rewritable (.addColumn col)) : ts.Kept (.addColumn col) ts' := by
  obtain ⟨hnew, hcols, hrw⟩ := alter_addColumn hids h
  have hread : ∀ id bytes, ts.tree.find? id = some bytes → ∃ row bytes',
      ts.decode id bytes = .ok row ∧ ts'.tree.find? id = some bytes' ∧
      ts'.decode id bytes' = .ok (row ++ [.null]) := by
    intro id bytes hb
    obtain ⟨row, hold, hfits⟩ := hsafe id bytes hb
    obtain ⟨hdec, hrow⟩ := decode_eq_ok.mp hold
    obtain ⟨bytes', hb', values, values', hdec', hf, rfl⟩ := hrw.rows id bytes hb
    cases hf
    cases hdec.symm.trans hdec'
    have hlen : ts'.schema.columns.length = row.length + 1 := by grind
    exact ⟨row, _, hold, hb', decode_added (by omega) hlen hfits⟩
  refine ⟨hrw.ids, fun i i' name hname hpos => ?_, fun id i i' hi hpos => ?_, fun c hc => ?_⟩
  · cases hpos
    rw [hcols, List.getElem?_append_left (List.getElem?_eq_some_iff.mp hname).1]
    exact hname
  · cases hpos
    cases hb : ts.tree.find? id with
    | none => exact hrw.cell_of_none hb i i
    | some bytes =>
      obtain ⟨row, bytes', hold, hb', hdec'⟩ := hread id bytes hb
      have hrow := (decode_eq_ok.mp hold).2
      rw [cell_of_decode hb' hdec', cell_of_decode hb hold, List.getElem?_append_left (by omega)]
  · cases hc
    refine ⟨_, indexOf_append hcols hnew, fun id hid => ?_⟩
    obtain ⟨bytes, hb⟩ := Option.isSome_iff_exists.mp hid
    obtain ⟨row, bytes', hold, hb', hdec'⟩ := hread id bytes hb
    rw [cell_of_decode hb' hdec', ← (decode_eq_ok.mp hold).2]
    simp

end

/-! ## Dropping a column -/

theorem lt_of_indexOf (h : schema.indexOf name = some idx) : idx < schema.columns.length :=
  (findIdx?_eq_some_iff_findIdx_eq.mp h).1

theorem removeValue_ok {values values' : Row}
    (h : (removeValue idx values : Outcome ε Row) = .ok values') :
    idx < values.length ∧ values' = values.eraseIdx idx := by
  unfold removeValue at h
  split at h
  next hin =>
    cases h
    exact ⟨hin, rfl⟩
  next => cases h

theorem position_dropColumn (h : schema.indexOf name = some idx) (i : Nat) :
    (AlterTableOp.dropColumn name).position schema i =
      if i < idx then some i else if i = idx then none else some (i - 1) := by
  simp [AlterTableOp.position, h]

/-- What is not removed is found at its new position. -/
theorem getElem?_eraseIdx_position {xs : List α} {i' : Nat}
    (h : (if i < idx then some i else if i = idx then none else some (i - 1)) = some i') :
    (xs.eraseIdx idx)[i']? = xs[i]? := by
  rw [getElem?_eraseIdx]
  split at h
  next hlt => grind
  next hge =>
    split at h
    next => contradiction
    next hne =>
      cases h
      rw [if_neg (by omega), Nat.sub_add_cancel (by omega)]

/-- Every remaining position is one that a column went to. -/
theorem exists_position (idx j : Nat) :
    ∃ i, i ≤ j + 1 ∧ (if i < idx then some i else if i = idx then none else some (i - 1)) =
      some j := by
  by_cases hj : j < idx
  · exact ⟨j, by omega, by rw [if_pos hj]⟩
  · exact ⟨j + 1, by omega, by rw [if_neg (by omega), if_neg (by omega)]; rfl⟩

section

variable {name : String} (hids : ts.IdsGiven) (h : ts.alter (.dropColumn name) = .ok ts')

include hids h

/-- The id column stays, so a row that read before reads after, and its
cells show that it fits. -/
theorem Kept.rewritable_dropColumn (hk : ts.Kept (.dropColumn name) ts') :
    ts.Rewritable (.dropColumn name) := by
  obtain ⟨idx, hidx, hne, hcols, hrw⟩ := alter_dropColumn hids h
  have hlt := lt_of_indexOf hidx
  intro id bytes row idx' hb hold hidx'
  cases hidx.symm.trans hidx'
  obtain ⟨hdec, hrow⟩ := decode_eq_ok.mp hold
  obtain ⟨bytes', hb', values, values', hdec', hf, rfl⟩ := hrw.rows id bytes hb
  cases hdec.symm.trans hdec'
  obtain ⟨hin, rfl⟩ := removeValue_ok hf
  have hvalues : ∀ i i', i < row.length →
      (if i < idx then some i else if i = idx then none else some (i - 1)) = some i' →
      ts'.cell id i' = row[i]? := by
    intro i i' hi hpos
    rw [hk.values id i i' (by omega) (by rw [position_dropColumn hidx, hpos]),
      cell_of_decode hb hold]
  have hfirst := hvalues 0 0 (by omega) (by rw [if_pos (Nat.pos_of_ne_zero hne)])
  rw [getElem?_eq_getElem (by omega)] at hfirst
  obtain ⟨row', hnew, -⟩ := decode_of_cell hb' hfirst
  obtain ⟨htry, hlen'⟩ := decode_eq_ok.mp hnew
  rw [hcols, length_eraseIdx_of_lt hlt] at hlen'
  have hrow' : row' = row.eraseIdx idx := by
    refine ext_getElem? fun j => ?_
    obtain ⟨i, hij, hpos⟩ := exists_position idx j
    by_cases hi : i < row.length
    · rw [getElem?_eraseIdx_position hpos, ← hvalues i j hi hpos, cell_of_decode hb' hnew]
    · rw [getElem?_eq_none (by omega), getElem?_eq_none]
      rw [length_eraseIdx_of_lt hin]
      omega
  rw [hrow'] at htry
  exact (tryDecodeRow_encodeRow_iff.mp htry).values

theorem Rewritable.kept_dropColumn (hsafe : ts.Rewritable (.dropColumn name)) :
    ts.Kept (.dropColumn name) ts' := by
  obtain ⟨idx, hidx, hne, hcols, hrw⟩ := alter_dropColumn hids h
  have hlt := lt_of_indexOf hidx
  have hlen : ts'.schema.columns.length = ts.schema.columns.length - 1 := by
    rw [hcols, length_eraseIdx_of_lt hlt]
  refine ⟨hrw.ids, fun i i' c hc hpos => ?_, fun id i i' hi hpos => ?_, fun c hc => by cases hc⟩
  · rw [position_dropColumn hidx] at hpos
    rw [hcols, getElem?_eraseIdx_position hpos]
    exact hc
  · rw [position_dropColumn hidx] at hpos
    cases hb : ts.tree.find? id with
    | none => exact hrw.cell_of_none hb i i'
    | some bytes =>
      obtain ⟨bytes', hb', values, values', hdec, hf, rfl⟩ := hrw.rows id bytes hb
      obtain ⟨hin, rfl⟩ := removeValue_ok hf
      have hshort := length_of_tryDecodeRow hdec
      have herase := length_eraseIdx_of_lt hin
      by_cases hcount : values.length = ts.schema.columns.length
      · have hold : ts.decode id bytes = .ok values := decode_eq_ok.mpr ⟨hdec, hcount⟩
        have hfits : RowFits (values.eraseIdx idx) :=
          ⟨by omega, hsafe id bytes values idx hb hold hidx⟩
        have hnew : ts'.decode id (encodeRow (values.eraseIdx idx)) =
            .ok (values.eraseIdx idx) :=
          decode_eq_ok.mpr ⟨tryDecodeRow_encodeRow hfits, by omega⟩
        rw [cell_of_decode hb' hnew, cell_of_decode hb hold, getElem?_eraseIdx_position hpos]
      · -- a row of another length reads neither before nor after
        rw [cell_eq_none, cell_eq_none]
        · intro b row hb₁ hd
          cases hb₁.symm.trans hb
          obtain ⟨hd, hl⟩ := decode_eq_ok.mp hd
          cases hd.symm.trans hdec
          exact hcount hl
        · intro b row hb₁ hd
          cases hb₁.symm.trans hb'
          obtain ⟨hd, hl⟩ := decode_eq_ok.mp hd
          have := length_decodeValues (tryDecodeRow_encodeRow_inv hd)
          omega

end

/-! ## Renaming a column -/

theorem renameColumn_kept {oldName newName : String}
    (h : ts.alter (.renameColumn oldName newName) = .ok ts') :
    ts.Kept (.renameColumn oldName newName) ts' := by
  obtain ⟨idx, hidx, h⟩ := h.bind_ok
  obtain ⟨-, h⟩ := unless_eq_ok.mp h
  obtain ⟨-, h⟩ := unless_eq_ok.mp h
  cases h
  have hidx := okOr_eq_ok.mp hidx
  refine ⟨fun _ => rfl, fun i i' name hname hpos => ?_, fun id i i' _ hpos => ?_, fun c hc =>
    by cases hc⟩
  · cases hpos
    have hi := (List.getElem?_eq_some_iff.mp hname).1
    by_cases heq : idx = i
    · simp [AlterTableOp.newName, hidx, withColumns, hi, heq]
    · simp [AlterTableOp.newName, hidx, withColumns, heq, hname]
  · cases hpos
    simp [cell, decode, withColumns]

end TableStorage

/-! ## ALTER TABLE -/

/-- Rows that obey the law of stored rows can be rewritten. -/
theorem TableStorage.Sound.rewritable {ts : TableStorage} (h : ts.Sound rowLaw)
    (op : AlterTableOp) : ts.Rewritable op := by
  have hrow : ∀ id bytes, ts.tree.find? id = some bytes →
      ∃ row, ts.decode id bytes = .ok row ∧ ∀ v ∈ row, v.Fits := by
    intro id bytes hb
    obtain ⟨-, row, rfl, hrow⟩ := h.rows id bytes hb
    exact ⟨row, hrow.decode h.schema id, (hrow.fits h.schema).values⟩
  cases op with
  | addColumn col => exact hrow
  | dropColumn name =>
    intro id bytes row idx hb hd _ v hv
    obtain ⟨row', hd', hfits⟩ := hrow id bytes hb
    cases hd.symm.trans hd'
    exact hfits v (mem_of_mem_eraseIdx hv)
  | renameColumn oldName newName => trivial

/-- `ALTER TABLE t ADD COLUMN name INT`. -/
def addToT (name : String) : AlterTableStatement := ⟨"t", .addColumn ⟨name, .int, []⟩⟩

end Archon
