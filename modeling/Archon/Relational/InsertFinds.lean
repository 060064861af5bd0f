import Archon.Relational.Matching
import Archon.Relational.UniqueRows

/-!
# Archon.Relational.InsertFinds

What `INSERT` stores and what `WHERE column = literal` finds.

The write path converts a literal to its column's type, the read path compares
a stored value with the literal as it was written.
-/

namespace Archon

open Program Database Outcome List

/-! ## Literals -/

/-- A column of this type stores the literal as it is, and it equals itself. -/
def ColumnType.Finds : ColumnType → Literal → Prop
  | .float, .int _ => False
  | .double, .int _ => False
  | .boolean, .int _ => False
  | _, .float f => f.eq f = true
  | _, _ => True

theorem evalFloatCmp_eq (f g : F32) : evalFloatCmp .eq f g = f.eq g := by
  unfold evalFloatCmp F32.eq
  cases h : f.partialCmp g with
  | none => rfl
  | some ord => cases ord <;> rfl

theorem evalCmp_eq_self [Ord α] [Std.ReflCmp (α := α) compare] (a : α) :
    evalCmp .eq (compare a a) = true := by
  simp [evalCmp]

section

variable {t : ColumnType} {lit : Literal} {v w : Value}

theorem compareValues_accepted (h : t.accept lit = some v) (hnull : lit ≠ .null)
    (hvector : t ≠ .vector) : compareValues .eq v lit.toValue = .ok (some true) ↔ t.Finds lit := by
  cases t <;> cases lit <;> simp only [ColumnType.accept] at h <;>
    grind [ColumnType.Finds, compareValues, Literal.toValue, evalFloatCmp_eq, evalCmp_eq_self,
      Except.pure_eq_ok, fail]

/-- The other values of the column compare without a type mismatch. -/
theorem compareValues_returns (h : t.accept lit = some v) (hvector : t ≠ .vector)
    (hfinds : t.Finds lit) (hw : t.Holds w) : ∃ b, compareValues .eq w lit.toValue = .ok b := by
  cases t <;> cases lit <;> cases w <;> simp only [ColumnType.accept] at h <;>
    simp [ColumnType.Finds, ColumnType.Holds, compareValues, Literal.toValue]
      at h hfinds hw hvector ⊢

end

/-! ## The candidate row -/

variable {schema : Schema} {pairs : List (Nat × Literal)} {row row' : Row} {idx : Nat}
  {lit : Literal}

theorem fillRow_other (h : fillRow schema pairs row = .ok row')
    (hidx : pairs.reverse.lookup idx = none) : row'[idx]? = row[idx]? := by
  refine fillRow_keeps (P := fun r => r[idx]? = row[idx]?) (fun p hp v r _ hr => ?_) rfl h
  have hne : p.1 ≠ idx := by
    have := lookup_eq_none_iff.mp hidx p (mem_reverse.mpr hp)
    grind
  rw [getElem?_set_ne hne, hr]

/-- A slot holds what the last literal for it converts to. -/
theorem fillRow_given (h : fillRow schema pairs row = .ok row')
    (hidx : pairs.reverse.lookup idx = some lit) :
    ∃ v, literalToValue schema idx lit = .ok v ∧ row'[idx]? = some v := by
  induction pairs generalizing row with
  | nil => cases hidx
  | cons p rest ih =>
    obtain ⟨slot, l⟩ := p
    rw [reverse_cons, lookup_append] at hidx
    obtain ⟨v, hv, hfill⟩ := h.bind_ok
    obtain ⟨row₁, hset, hfill⟩ := hfill.bind_ok
    cases hrest : rest.reverse.lookup idx with
    | some l' =>
      rw [hrest] at hidx
      cases hidx
      exact ih hfill hrest
    | none =>
      rw [hrest, lookup_cons] at hidx
      obtain ⟨hlt, rfl⟩ := set_eq_ok.mp hset
      cases heq : idx == slot with
      | false =>
        rw [heq] at hidx
        cases hidx
      | true =>
        rw [heq] at hidx
        cases hidx
        cases eq_of_beq heq
        exact ⟨v, hv, by rw [fillRow_other hfill hrest, getElem?_set_self hlt]⟩

theorem withImplicitId_given {slots : List Nat} {id : Nat}
    (h : withImplicitId slots id row = .ok row') (hidx : idx ∈ slots) : row'[idx]? = row[idx]? := by
  obtain ⟨-, rfl⟩ | ⟨hzero, rfl⟩ := withImplicitId_ok h
  · rfl
  · have hne : 0 ≠ idx := by
      rintro rfl
      exact hzero hidx
    rw [getElem?_set_ne hne]

/-! ## The inserted rows -/

section

variable {hidden : List TableTxns} {name : String} {schema : Schema} {n : Nat}
  {slots : List Nat} {db db' : Database}

variable (h : Ready rowLaw hidden name schema n db)
include h

/-- One row more, under an id of its own. -/
theorem insertRow_ok (hlaw : ∀ id row', withImplicitId slots id row = .ok row' → RowOf schema row')
    (hrun : insertRow name slots row db = (.ok (), db')) :
    ∃ id row', n ≤ id ∧ withImplicitId slots id row = .ok row' ∧ db'.seen name id = some row' ∧
      Submap (db.seen name) (db'.seen name) := by
  obtain ⟨ts, hts, rfl, hn⟩ := h.table
  obtain ⟨id, db₁, halloc, hrun⟩ := bind_ok.mp hrun
  obtain ⟨row', _, hread, hrun⟩ := bind_ok.mp hrun
  obtain ⟨himplicit, rfl⟩ := read_ok.mp hread
  obtain ⟨_, db₂, hput, hbuild⟩ := bind_ok.mp hrun
  have hput := update_ok.mp hput
  have hbuild := update_ok.mp hbuild
  have hkept : ∀ k, db₁.visible name k = db.visible name k := by
    intro k
    rw [← db.visible_allocRow name name k, halloc]
  rw [allocRow_run hts] at halloc
  obtain ⟨hid, hdb₁⟩ := Prod.mk.inj halloc
  cases hid
  have hidle : db₁.inTransaction = false → db₁.activeTxns = [] := by
    rw [← hdb₁]
    exact h.sound.idle
  obtain ⟨ts₁, hts₁, hvis⟩ := visible_putRow hidle hput
  have hschema : ts₁.schema = ts.schema := by grind [table_setTable_self hts]
  have hof := hlaw _ row' himplicit
  have hproper := (h.sound.tables _ ts hts).schema
  have hreads : ts₁.readsAs ts.nextRowId (encodeRow row') = .ok (some row') :=
    RowOf.readsAs (hschema ▸ hof) (hschema ▸ hproper) _
  have hafter : ∀ k, db'.visible name k =
      if k = ts.nextRowId then some (.ok (some row')) else db.visible name k := by
    simp [visible_buildIndexes hbuild, hvis, hreads, hkept]
  refine ⟨ts.nextRowId, row', hn, himplicit, ?_, fun k r hr => ?_⟩
  · rw [seen_eq_some, hafter, if_pos rfl]
  · have hlt := (h.sound.seen_lt hts hr).1
    rw [seen_eq_some] at hr ⊢
    rw [hafter, if_neg (Nat.ne_of_lt hlt), hr]

/-- Every row of the batch is there after the loop. -/
theorem insertLoop_ok {rows : List Row}
    (hlaw : ∀ row ∈ rows, ∀ id row', withImplicitId slots id row = .ok row' → RowOf schema row')
    (hrun : forEach (insertRow name slots) rows db = (.ok (), db')) :
    Submap (db.seen name) (db'.seen name) ∧ ∀ row ∈ rows, ∃ id row', n ≤ id ∧
      withImplicitId slots id row = .ok row' ∧ db'.seen name id = some row' := by
  induction rows generalizing db with
  | nil =>
    cases hrun
    exact ⟨.refl _, by simp⟩
  | cons row rows ih =>
    obtain ⟨_, db₁, hfirst, hrest⟩ := bind_ok.mp hrun
    have hlaw₁ := hlaw row (.head _)
    have hready : Ready rowLaw hidden name schema n db₁ := by
      have hkeeps := @insertRow_keeps rowLaw hidden name (fun _ => True) schema n slots row
        (fun _ _ => trivial) (fun id row' hid => ⟨row', rfl, hlaw₁ id row' hid⟩) db h
      rw [hfirst] at hkeeps
      exact (hkeeps trivial).2 () rfl
    obtain ⟨id, row', hn, himplicit, hseen, hsub⟩ := insertRow_ok h hlaw₁ hfirst
    obtain ⟨hsub', hrows⟩ := ih hready (fun r hr => hlaw r (.tail row hr)) hrest
    refine ⟨hsub.trans hsub', fun r hr => ?_⟩
    obtain rfl | hr := mem_cons.mp hr
    · exact ⟨id, row', hn, himplicit, hsub' id row' hseen⟩
    · exact hrows r hr

end

/-- Column `c` of type `t` gets the literal. -/
def InsertStatement.Gives (stmt : InsertStatement) (schema : Schema) (lits : List Literal)
    (c : String) (t : ColumnType) (lit : Literal) : Prop :=
  ∃ slots idx, insertSlots schema stmt.columns = .ok slots ∧ schema.indexOf c = some idx ∧
    schema.types[idx]? = some t ∧ (slots.zip lits).reverse.lookup idx = some lit

/-- Row `id` is the new row made of the literals. -/
structure InsertedAs (stmt : InsertStatement) (lits : List Literal) (db db' : Database) (id : Nat)
    (row : Row) : Prop where
  fresh : db.seen stmt.table id = none
  seen : db'.seen stmt.table id = some row
  made : ∃ ts slots given, db.table stmt.table = some ts ∧
    insertSlots ts.schema stmt.columns = .ok slots ∧
    fillRow ts.schema (slots.zip lits) (List.replicate ts.schema.columns.length .null) = .ok given ∧
    withImplicitId slots id given = .ok row

section

variable {hidden : List TableTxns} {db db' : Database} {depth : Nat}
  {stmt : InsertStatement} {lits : List Literal}

theorem insertRows_given {v : ReadView} {rt : ReadTable} {slots : List Nat} {rows : List Row}
    (hrt : v.table stmt.table = some rt) (h : insertRows v depth stmt = .ok (slots, rows))
    (hlits : lits ∈ stmt.values) :
    ∃ given ∈ rows, insertSlots rt.schema stmt.columns = .ok slots ∧
      fillRow rt.schema (slots.zip lits) (List.replicate rt.schema.columns.length .null) =
        .ok given := by
  obtain ⟨rt', hrt', hslots, hrows, -⟩ := insertRows_ok h
  rw [hrt] at hrt'
  cases hrt'
  obtain ⟨given, hgiven, hfill⟩ := Except.exists_mem_of_mapM_eq_ok hrows lits hlits
  exact ⟨given, hgiven, hslots, hfill⟩

/-- Each list of values is a row after the statement. -/
theorem runInsertStmt_inserted (h : db.Sound rowLaw hidden)
    (hf : ∀ lits ∈ stmt.values, ∀ lit ∈ lits, lit.Fits) {count : Nat}
    (hrun : runInsertStmt depth stmt db = (.ok count, db')) (hlits : lits ∈ stmt.values) :
    ∃ id row, InsertedAs stmt lits db db' id row := by
  have hsound := h.touch stmt.table
  obtain ⟨_, t, htouch, hrun⟩ := bind_ok.mp hrun
  rw [htouch] at hsound
  obtain ⟨⟨slots, rows⟩, _, hread, hrun⟩ := bind_ok.mp hrun
  obtain ⟨hins, rfl⟩ := read_ok.mp hread
  obtain ⟨_, t', hloop, hreturn⟩ := bind_ok.mp hrun
  cases hreturn
  obtain ⟨ts, hts, htt⟩ : ∃ ts, db.table stmt.table = some ts ∧ t.table stmt.table = some ts := by
    obtain ⟨rt, hrt, -⟩ := insertRows_ok hins
    rw [table_readView] at hrt
    obtain ⟨ts, htt, -⟩ := Option.map_eq_some_iff.mp hrt
    refine ⟨ts, ?_, htt⟩
    rwa [table, hsound.2] at htt
  have hrt : t.readView.table stmt.table = some (ts.view (t.activeTxn stmt.table)) := by simp [htt]
  have hproper := (h.tables _ ts hts).schema
  have hlaw : ∀ row ∈ rows, ∀ id row', withImplicitId slots id row = .ok row' →
      RowOf ts.schema row' := fun row hrow id row' hid =>
    withImplicitId_rowOf hproper (insertRows_rowOf hrt hproper hf hins row hrow) hid
  obtain ⟨-, hall⟩ := insertLoop_ok (hsound.ready hts (Nat.le_refl _)) hlaw hloop
  obtain ⟨given, hgiven, hslots, hfill⟩ := insertRows_given hrt hins hlits
  obtain ⟨id, row, hid, himplicit, hseen⟩ := hall given hgiven
  refine ⟨id, row, ?_, hseen, ts, slots, given, hts, hslots, hfill, himplicit⟩
  cases hold : db.seen stmt.table id with
  | none => rfl
  | some r =>
    have hlt := (h.seen_lt hts hold).1
    omega

theorem InsertedAs.value {id : Nat} (h : InsertedAs stmt lits db db' id row) {ts : TableStorage}
    (hts : db.table stmt.table = some ts) {c : String} {t : ColumnType}
    (hgives : stmt.Gives ts.schema lits c t lit) :
    ∃ idx v, ts.schema.indexOf c = some idx ∧ ts.schema.types[idx]? = some t ∧
      t.accept lit = some v ∧ row[idx]? = some v := by
  obtain ⟨ts', slots, given, hts', hslots, hfill, himplicit⟩ := h.made
  rw [hts] at hts'
  cases hts'
  obtain ⟨slots', idx, hslots', hidx, ht, hlookup⟩ := hgives
  rw [hslots] at hslots'
  cases hslots'
  obtain ⟨v, hv, hat⟩ := fillRow_given hfill hlookup
  obtain ⟨t', ht', hv⟩ := literalToValue_ok hv
  rw [ht] at ht'
  cases ht'
  refine ⟨idx, v, hidx, ht, hv, ?_⟩
  have hmem : (idx, lit) ∈ slots.zip lits := mem_reverse.mp (mem_of_lookup hlookup)
  rw [withImplicitId_given himplicit (of_mem_zip hmem).1, hat]

end

/-! ## Finding it again -/

/-- `WHERE c = lit`. -/
def whereEq (c : String) (lit : Literal) : Expr := .cmp c .eq lit

/-- `SELECT * FROM name WHERE c = lit` returns the row, and an `UPDATE` or
`DELETE` with that clause matches it. -/
def FoundBy (v : ReadView) (depth : Nat) (params : Params) (name c : String)
    (lit : Literal) (id : Nat) (row : Row) : Prop :=
  (∃ rs, runSelect v depth (selectStar ⟨[], .named name none, []⟩ (some (whereEq c lit))) params =
      .ok rs ∧ row ∈ rs.rows) ∧
    ∃ ids, matchingRowIds v depth name (some (whereEq c lit)) = .ok ids ∧ id ∈ ids

/-- A column of the table is found under its own name. -/
theorem rowTruth_whereEq {run : Runner} {columns : List String} {params : Params}
    {scopeColumns qualifiers : List String} {c : String} {v : Value}
    (hidx : columnPosition columns c = some idx) (hv : row[idx]? = some v) :
    rowTruth run columns params [] [] scopeColumns qualifiers (whereEq c lit) row =
      fromExec (compareValues .eq v lit.toValue) := by
  have hlookup : (lookupColumn columns row (· == c) : Outcome ExecError (Option Value)) =
      .ok (some v) := by
    rw [columnPosition] at hidx
    rw [lookupColumn, hidx]
    simp [index_eq_ok.mpr hv]
  have hfind : evalExprScoped.find columns row [] qualifiers c = .ok v := by
    rw [evalExprScoped.find, findValue, hlookup]
    rfl
  change fromExec (evalExprScoped columns row [] qualifiers (.cmp c .eq lit)) = _
  rw [evalExprScoped_cmp, hfind, Except.ok_bind]

section

variable {hidden : List TableTxns} {db : Database} {depth : Nat}
  {params : Params} {name c : String} {ts : TableStorage} {idx id : Nat}
  {t : ColumnType} {lit : Literal} {v : Value} {row : Row}

theorem isTrue_fromExec {r : Outcome ExecError (Option Bool)} :
    isTrue (fromExec r) = true ↔ r = .ok (some true) := by
  rcases r with (_ | _ | _) | _ | _ | _ <;> simp [isTrue, fromExec, mapErr]

/-- A row is found by a literal its column stored as it is, and by no other. -/
theorem foundBy_iff (h : db.Sound rowLaw hidden) (hts : db.table name = some ts)
    (hview : db.views.lookup name = none) (hidx : ts.schema.indexOf c = some idx)
    (ht : ts.schema.types[idx]? = some t) (haccept : t.accept lit = some v)
    (hnull : lit ≠ .null) (hvector : t ≠ .vector) (hseen : db.seen name id = some row)
    (hv : row[idx]? = some v) :
    FoundBy db.readView (depth + 1) params name c lit id row ↔ t.Finds lit := by
  rw [← compareValues_accepted haccept hnull hvector]
  obtain ⟨hid, hat⟩ := h.seen_lt hts hseen
  have hrt : db.readView.table name = some (ts.view (db.activeTxn name)) := by simp [hts]
  constructor
  · rintro ⟨⟨rs, hrs, hrow⟩, -⟩
    obtain ⟨rt, rows, hrt', -, -, rfl⟩ := (selectTable_eq_ok hview).mp hrs
    rw [hrt] at hrt'
    cases hrt'
    obtain ⟨r, hr, rfl⟩ := List.mem_map.mp hrow
    have hpos : columnPosition (ts.view (db.activeTxn name)).schema.columns c = some idx := hidx
    have htrue := (List.mem_filter.mp hr).2
    rwa [rowTruth_whereEq hpos hv, isTrue_fromExec] at htrue
  · intro heq
    have hfinds := (compareValues_accepted haccept hnull hvector).mp heq
    obtain ⟨rows, hrows, hof⟩ := h.rows hts
    have hmem : (id, row) ∈ rows := (ReadTable.rows_ok hrows).mpr ⟨List.mem_range.mpr hid, hat⟩
    have hvalue : ∀ r ∈ rows, ∃ w, r.2[idx]? = some w ∧
        ∃ b, compareValues .eq w lit.toValue = .ok b := by
      intro r hr
      have hlt : idx < r.2.length := by
        simp [(hof r hr).length, (List.getElem?_eq_some_iff.mp ht).1]
      refine ⟨r.2[idx], List.getElem?_eq_getElem hlt, ?_⟩
      exact compareValues_returns haccept hvector hfinds
        ((hof r hr).kinds idx t _ ht (List.getElem?_eq_getElem hlt))
    have hdecides : ∀ run params scopeColumns qualifiers,
        Decides run ts.schema.columns params scopeColumns qualifiers (whereEq c lit) rows := by
      intro run params scopeColumns qualifiers
      refine ⟨by simp [whereEq, subqueryNodes], fun r hr => ?_⟩
      obtain ⟨w, hw, b, hb⟩ := hvalue r hr
      exact ⟨b, by rw [rowTruth_whereEq hidx hw, hb]; rfl⟩
    have hpicked : ∀ run params scopeColumns qualifiers, (id, row) ∈
        picked run ts.schema.columns params scopeColumns qualifiers (whereEq c lit) rows := by
      intro run params scopeColumns qualifiers
      refine List.mem_filter.mpr ⟨hmem, ?_⟩
      rw [rowTruth_whereEq hidx hv, isTrue_fromExec, heq]
    refine ⟨⟨_, (selectTable_eq_ok hview).mpr
      ⟨_, rows, hrt, hrows, hdecides _ _ _ _, rfl⟩, ?_⟩, _, matchingRowIds_eq_ok.mpr
      ⟨_, rows, hrt, hrows, hdecides _ _ _ _, rfl⟩, ?_⟩
    · exact List.mem_map_of_mem (f := Prod.snd) (hpicked _ _ _ _)
    · exact List.mem_map_of_mem (f := Prod.fst) (hpicked _ _ _ _)

end

/-! ## Clients -/

/-- A statement of a client: without a session, or in one. -/
def ClientCall.ofClient (client : Option Nat) (stmt : Statement) (params : Params) :
    ClientCall :=
  match client with
  | none => .execute stmt params
  | some sid => .inSession sid stmt params

section

variable {hidden : List TableTxns} {db db' : Database} {depth : Nat}
  {params : Params} {stmt : InsertStatement} {lits : List Literal} {ts : TableStorage}
  {c : String} {t : ColumnType} {lit : Literal}

theorem inserted_found (h : db.Sound rowLaw hidden) (hts : db.table stmt.table = some ts)
    (hview : db.views.lookup stmt.table = none)
    (hf : ∀ lits ∈ stmt.values, ∀ lit ∈ lits, lit.Fits) {rs : ResultSet}
    (hrun : execute (depth + 1) (.insert stmt) params db = (.ok rs, db'))
      (hlits : lits ∈ stmt.values)
    (hgives : stmt.Gives ts.schema lits c t lit) (hnull : lit ≠ .null) (hvector : t ≠ .vector) :
    db'.sessionTxns = db.sessionTxns ∧ ∃ id row, InsertedAs stmt lits db db' id row ∧
      ∀ params, FoundBy db'.readView (depth + 1) params stmt.table c lit id row ↔ t.Finds lit := by
  obtain ⟨count, _, hrun, hreturn⟩ := bind_ok.mp hrun
  cases hreturn
  have hmoves : Moves rowLaw hidden stmt.table (fun _ => True) db db' := by
    have hkeeps := @runInsertStmt_keeps rowLaw hidden (fun _ => True) db.tables (depth + 1) stmt
      (fun _ _ _ _ => trivial) (fun s ts slots rows hs hts hins row hrow id row' hid => by
        have hproper := (hs.tables _ ts hts).schema
        have hrt : s.readView.table stmt.table = some (ts.view (s.activeTxn stmt.table)) := by
          simp [hts]
        exact ⟨row', rfl, withImplicitId_rowOf hproper
          (insertRows_rowOf hrt hproper hf hins row hrow) hid⟩) db ⟨h, rfl⟩
    rw [hrun] at hkeeps
    exact (hkeeps trivial).1
  obtain ⟨ts', hts', -, hframe⟩ := hmoves.1.tables _ ts hts
  have hschema := hframe.evolves.schema
  obtain ⟨id, row, hrow⟩ := runInsertStmt_inserted h hf hrun hlits
  obtain ⟨idx, v, hidx, ht, haccept, hv⟩ := hrow.value hts hgives
  refine ⟨hmoves.1.sessions, id, row, hrow, fun params => ?_⟩
  exact foundBy_iff hmoves.2 hts' (hmoves.1.views ▸ hview) (hschema ▸ hidx) (hschema ▸ ht) haccept
    hnull hvector hrow.seen hv

end

end Archon
