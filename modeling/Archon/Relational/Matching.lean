import Archon.Relational.Checks
import Archon.Relational.Predicate

/-!
# Archon.Relational.Matching

The rows of a table that a `WHERE` clause picks, in a `SELECT *` and in an
`UPDATE` or `DELETE`.  Both scan the table and evaluate the clause on each row,
in different scopes.
-/

namespace Archon

open TableStorage Except ReadTable

section

variable (run : Runner) (columns : List String) (params : Params)
  (scopeColumns qualifiers : List String) (e : Expr) (rows : List (Nat × Row))

/-- The clause has a value on every row. -/
def Decides : Prop :=
  (∀ node ∈ subqueryNodes e, ∃ entry, cacheEntry run columns params [] node = .ok entry) ∧
    ∀ r ∈ rows, ∃ b, rowTruth run columns params [] [] scopeColumns qualifiers e r.2 = .ok b

/-- The rows it is true on. -/
def picked : List (Nat × Row) :=
  rows.filter fun r => isTrue (rowTruth run columns params [] [] scopeColumns qualifiers e r.2)

end

section

variable {v : ReadView} {depth : Nat} {name : String} {e : Expr} {params : Params}

theorem matchingIds_eq_ok {rt : ReadTable} {p : Row → Outcome DbError (Option Bool)}
    {ids out : List Nat} :
    matchingIds rt (fun row => do let v ← p row; return v.getD false) ids = .ok out ↔
      ∃ rows, rt.rows ids = .ok rows ∧ (∀ r ∈ rows, ∃ v, p r.2 = .ok v) ∧
        out = (rows.filter fun r => isTrue (p r.2)).map Prod.fst := by
  induction ids generalizing out with
  | nil => simp [matchingIds, rows]
  | cons id ids ih =>
    rw [matchingIds, rows]
    cases hat : rt.rowAt id with
    | error f => simp
    | ok row? =>
      cases row? with
      | none => simpa using ih
      | some row =>
        cases hrow : p row with
        | error f =>
          simp only [ok_bind, hrow, error_bind, bind_eq_ok]
          constructor
          · exact fun h => by cases h
          · rintro ⟨all, ⟨rows, -, hcons⟩, hall, -⟩
            cases hcons
            obtain ⟨v, hv⟩ := hall (id, row) (.head _)
            grind
        | ok v =>
          have hkeep : v.getD false = isTrue (.ok v : Outcome DbError (Option Bool)) := by
            rcases v with _ | _ | _ <;> rfl
          simp only [ok_bind, hrow, pure_bind, bind_eq_ok, ih, hkeep]
          constructor
          · rintro ⟨rest, ⟨rows, hrows, hall, rfl⟩, hout⟩
            refine ⟨(id, row) :: rows, ⟨rows, hrows, rfl⟩, ?_, ?_⟩
            · simpa [hrow] using hall
            · cases hout
              cases hk : isTrue (.ok v : Outcome DbError (Option Bool)) <;> simp [hk, hrow]
          · rintro ⟨all, ⟨rows, hrows, hcons⟩, hall, rfl⟩
            cases hcons
            refine ⟨_, ⟨rows, hrows, (List.forall_mem_cons.mp hall).2, rfl⟩, ?_⟩
            cases hk : isTrue (.ok v : Outcome DbError (Option Bool)) <;> simp [hk, hrow]

theorem matchingRowIds_eq_ok {ids : List Nat} :
    matchingRowIds v depth name (some e) = .ok ids ↔
      ∃ rt rows, v.table name = some rt ∧ rt.rows (List.range rt.nextRowId) = .ok rows ∧
        Decides (runSelectScoped v depth) rt.schema.columns [] rt.schema.columns [] e rows ∧
        ids = (picked (runSelectScoped v depth) rt.schema.columns [] rt.schema.columns [] e
          rows).map Prod.fst := by
  simp only [matchingRowIds, bind_eq_ok, Outcome.okOr_eq_ok, buildSubqueryCache_eq_ok]
  constructor
  · rintro ⟨rt, hrt, cache, ⟨hnodes, rfl⟩, h⟩
    simp only [passes_eq_rowTruth, matchingIds_eq_ok] at h
    obtain ⟨rows, hrows, hall, rfl⟩ := h
    exact ⟨rt, rows, hrt, hrows, ⟨hnodes, hall⟩, rfl⟩
  · rintro ⟨rt, rows, hrt, hrows, ⟨hnodes, hall⟩, rfl⟩
    refine ⟨rt, hrt, _, ⟨hnodes, rfl⟩, ?_⟩
    simp only [passes_eq_rowTruth, matchingIds_eq_ok]
    exact ⟨rows, hrows, hall, rfl⟩

theorem selectTable_eq_ok (hview : v.views.lookup name = none) {rs : ResultSet} :
    runSelect v (depth + 1) (selectStar ⟨[], .named name none, []⟩ (some e)) params = .ok rs ↔
      ∃ rt rows, v.table name = some rt ∧ rt.rows (List.range rt.nextRowId) = .ok rows ∧
        Decides (runSelectScoped v depth) rt.schema.columns params
          (qualifyBare name rt.schema.columns) [name] e rows ∧
        rs = { columns := rt.schema.columns
               rows := (picked (runSelectScoped v depth) rt.schema.columns params
                 (qualifyBare name rt.schema.columns) [name] e rows).map Prod.snd } := by
  have hjoined : ∀ run, FromClause.joined ⟨[], .named name none, []⟩ v run [] none =
      scanTable v name := by
    simp [FromClause.joined, resolveTableRef, resolveNamed, hview, checkCtes, joinTables,
      bind_ok]
  have hctes : mergeCtes [] [] = [] := rfl
  rw [runSelect, runSelectScoped, selectBody_selectStar]
  simp only [hctes, hjoined, scanTable, bind_eq_ok, Outcome.okOr_eq_ok, filterTable_eq_ok]
  constructor
  · rintro ⟨table, ⟨rt, hrt, rows, hrows, htable⟩, table', ⟨hnodes, hall, rfl⟩, h⟩
    cases htable
    cases h
    refine ⟨rt, rows, hrt, hrows, ⟨hnodes, fun r hr => hall r.2 (List.mem_map_of_mem hr)⟩, ?_⟩
    simp [List.filter_map]
    rfl
  · rintro ⟨rt, rows, hrt, hrows, ⟨hnodes, hall⟩, rfl⟩
    refine ⟨_, ⟨rt, hrt, rows, hrows, rfl⟩, _, ⟨hnodes, ?_, rfl⟩, ?_⟩
    · intro row hrow
      obtain ⟨r, hr, rfl⟩ := List.mem_map.mp hrow
      exact hall r hr
    · simp [List.filter_map]
      rfl

end

/-! ## Rows that can be read -/

theorem ReadTable.rows_total {rt : ReadTable} {ids : List Nat}
    (h : ∀ id ∈ ids, ∃ row?, rt.rowAt id = .ok row?) : ∃ rows, rt.rows ids = .ok rows := by
  induction ids with
  | nil => exact ⟨[], rfl⟩
  | cons id ids ih =>
    obtain ⟨row?, hat⟩ := h id (.head _)
    obtain ⟨rows, hrows⟩ := ih fun k hk => h k (.tail id hk)
    cases row? with
    | none => exact ⟨rows, by simp [ReadTable.rows, hat, hrows]⟩
    | some row => exact ⟨(id, row) :: rows, by simp [ReadTable.rows, hat, hrows]⟩

/-- Where stored rows match their schema, all of them can be read. -/
theorem currentRow_total {ts : TableStorage} {txn : Option Transaction} (hs : ts.Sound rowLaw)
    (ht : ∀ t, txn = some t → ts.Holds rowLaw t) (id : Nat) :
    ∃ row?, ts.currentRow txn id = .ok row? := by
  have hdecode : ∀ bytes, rowLaw.row ts.schema bytes → ∃ row, ts.decode id bytes = .ok row := by
    rintro _ ⟨row, rfl, hrow⟩
    exact ⟨row, hrow.decode hs.schema id⟩
  cases hw : txn.bind (·.getWrite id) with
  | none =>
    cases hb : ts.tree.find? id with
    | none => exact ⟨none, by simp [currentRow, currentBytes, hw, hb]⟩
    | some bytes =>
      obtain ⟨row, hrow⟩ := hdecode bytes (hs.rows id bytes hb).2
      simp [currentRow, currentBytes, hw, hb, hrow]
  | some bytes =>
    obtain ⟨t, rfl, hwrite⟩ := Option.bind_eq_some_iff.mp hw
    rcases ((ht t rfl).writes id bytes hwrite).2 with rfl | ⟨b, rfl, hlaw⟩
    · simp [currentRow, currentBytes, hw, mvccWrapTombstone]
    · obtain ⟨row, hrow⟩ := hdecode b hlaw
      simp [currentRow, currentBytes, hw, MVCC_LIVE, MVCC_TOMBSTONE, hrow]

/-- The scan of a table whose rows match its schema. -/
theorem Database.Sound.rows {hidden : List TableTxns} {db : Database}
    (h : db.Sound rowLaw hidden) {name : String} {ts : TableStorage}
    (hts : db.table name = some ts) :
    ∃ rows, (ts.view (db.activeTxn name)).rows (List.range ts.nextRowId) = .ok rows ∧
      ∀ r ∈ rows, RowOf ts.schema r.2 := by
  have hs := h.tables name ts hts
  have hheld := h.holds hts
  obtain ⟨rows, hrows⟩ := @rows_total (ts.view (db.activeTxn name))
    (List.range ts.nextRowId) fun id _ => currentRow_total hs hheld id
  refine ⟨rows, hrows, fun r hr => ?_⟩
  exact currentRow_rowOf hs hheld ((rows_ok hrows).mp hr).2

end Archon
