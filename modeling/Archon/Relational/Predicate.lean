import Archon.Relational.Select

/-!
# Archon.Relational.Predicate

`WHERE` and `HAVING` without the counter: the value of a predicate is a
function of the cache entries of its subqueries, and each connective acts on
the values of its operands.

`evalWhere` finds the entry of a subquery by counting those it has visited,
and evaluates both operands of every connective, so it always counts right
(`evalWhere_eq_truth`).
-/

namespace Archon

open Except WhereContext

/-! ## Values of predicates -/

section

variable (run : Runner) (cx : WhereContext)

/-- `EXISTS (query)`, with its cache entry. -/
def existsValue (query : SelectStatement) : CacheEntry → Outcome DbError (Option Bool)
  | .existsResult b => return some b
  | _ => do
    let rs ← cx.runNested run query
    return some !rs.rows.isEmpty

/-- `lhs IN (query)`, with its cache entry. -/
def inValue (lhs : Value) (query : SelectStatement) : CacheEntry → Outcome DbError (Option Bool)
  | .inValues vals => return some (vals.any fun v => v.eq lhs)
  | _ => do
    let rs ← cx.runNested run query
    if rs.columns.length ≠ 1 then
      Outcome.fail (.subqueryCardinality
        ("IN subquery must return exactly one column, got " ++ toString rs.columns.length))
    let found ← anyFirst lhs rs.rows
    return some found

/-- `lhs op (query)`, with its cache entry. -/
def scalarValue (lhs : Value) (op : CmpOp) (query : SelectStatement) :
    CacheEntry → Outcome DbError (Option Bool)
  | .scalar rhs => return some (compareScalar op lhs rhs)
  | _ => do
    let rs ← cx.runNested run query
    let rhs ← scalarResult rs
    return some (compareScalar op lhs rhs)

/-- The value of a predicate, when `entry` holds the cached result of each of
its subqueries. -/
def truth (entry : Expr → CacheEntry) : Expr → Outcome DbError (Option Bool)
  | .and l r => do
    let lv ← truth entry l
    let rv ← truth entry r
    return kleeneAnd lv rv
  | .or l r => do
    let lv ← truth entry l
    let rv ← truth entry r
    return kleeneOr lv rv
  | .not inner => do
    let v ← truth entry inner
    return kleeneNot v
  | .existsQuery query => existsValue run cx query (entry (.existsQuery query))
  | .inSubquery column query => do
    let lhs ← cx.find column
    inValue run cx lhs query (entry (.inSubquery column query))
  | .scalarCmp column op query => do
    let lhs ← cx.find column
    scalarValue run cx lhs op query (entry (.scalarCmp column op query))
  | e => fromExec (evalExprScoped cx.columns cx.row cx.outer cx.validQualifiers e)

end

/-! ## The counter -/

section

variable {run : Runner} {cx : WhereContext} {entry : Expr → CacheEntry}

/-- The entry `evalWhere` finds under a number; past the end there is none. -/
def WhereContext.entryAt (cx : WhereContext) (i : Nat) : CacheEntry := (cx.cache[i]?).getD .uncached

theorem evalWhere_existsQuery (query : SelectStatement) (counter : Nat) :
    evalWhere run cx (.existsQuery query) counter = do
      let v ← existsValue run cx query (cx.entryAt counter)
      return (v, counter + 1) := by
  unfold entryAt
  cases hc : cx.cache[counter]? with
  | none => simp [evalWhere, hc, existsValue]
  | some c => cases c <;> simp [evalWhere, hc, existsValue]

theorem evalWhere_inSubquery (column : String) (query : SelectStatement) (counter : Nat) :
    evalWhere run cx (.inSubquery column query) counter = do
      let lhs ← cx.find column
      let v ← inValue run cx lhs query (cx.entryAt counter)
      return (v, counter + 1) := by
  have huncached : ∀ (lhs : Value), (do
      let rs ← cx.runNested run query
      if rs.columns.length ≠ 1 then
        Outcome.fail (.subqueryCardinality
          ("IN subquery must return exactly one column, got " ++ toString rs.columns.length))
      let found ← anyFirst lhs rs.rows
      return (some found, counter + 1)) = (do
      let v ← inValue run cx lhs query .uncached
      return (v, counter + 1) : Outcome DbError (Option Bool × Nat)) := by
    intro lhs
    simp only [inValue]
    cases cx.runNested run query with
    | error f => rfl
    | ok rs => by_cases hcols : rs.columns.length = 1 <;> simp [hcols]
  unfold entryAt
  cases hc : cx.cache[counter]? with
  | none => simp only [evalWhere, hc, Option.getD_none, huncached]
  | some c =>
    cases c with
    | inValues vals => simp [evalWhere, hc, inValue]
    | _ => simp only [evalWhere, hc, Option.getD_some, huncached, inValue]

theorem evalWhere_scalarCmp (column : String) (op : CmpOp) (query : SelectStatement)
    (counter : Nat) :
    evalWhere run cx (.scalarCmp column op query) counter = do
      let lhs ← cx.find column
      let v ← scalarValue run cx lhs op query (cx.entryAt counter)
      return (v, counter + 1) := by
  unfold entryAt
  cases hc : cx.cache[counter]? with
  | none => simp [evalWhere, hc, scalarValue]
  | some c => cases c <;> simp [evalWhere, hc, scalarValue]

theorem numbered_append {P : Nat → α → Prop} {l r : List α} {counter : Nat}
    (h : ∀ i a, (l ++ r)[i]? = some a → P (counter + i) a) :
    (∀ i a, l[i]? = some a → P (counter + i) a) ∧
      ∀ i a, r[i]? = some a → P (counter + l.length + i) a := by
  refine ⟨fun i a hi => h i a ?_, fun i a hi => ?_⟩
  · rw [List.getElem?_append_left (List.getElem?_eq_some_iff.mp hi).1, hi]
  · rw [Nat.add_assoc]
    refine h _ a ?_
    rw [List.getElem?_append_right (Nat.le_add_right _ _), Nat.add_sub_cancel_left, hi]

/-- The counter passes every subquery, and each is evaluated with the entry
under its number. -/
theorem evalWhere_eq_truth {e : Expr} {counter : Nat}
    (h : ∀ i node, (subqueryNodes e)[i]? = some node → cx.entryAt (counter + i) = entry node) :
    evalWhere run cx e counter = do
      let v ← truth run cx entry e
      return (v, counter + (subqueryNodes e).length) := by
  induction e using Expr.connectives generalizing counter with
  | and l r ihl ihr | or l r ihl ihr =>
    obtain ⟨hl, hr⟩ := @numbered_append _ (fun i node => cx.entryAt i = entry node)
        (subqueryNodes l)
      _ counter h
    simp [evalWhere, truth, ihl hl, subqueryNodes, ihr hr, Nat.add_assoc]
  | not e ih => simp [evalWhere, truth, ih h, subqueryNodes]
  | atom e hatom =>
    cases e with
    | and | or | not => cases hatom
    | existsQuery q =>
      have hat : cx.entryAt counter = entry (.existsQuery q) := h 0 _ rfl
      rw [evalWhere_existsQuery, hat]
      rfl
    | inSubquery c q =>
      have hat : cx.entryAt counter = entry (.inSubquery c q) := h 0 _ rfl
      rw [evalWhere_inSubquery, hat]
      simp only [truth, bind_assoc]
      rfl
    | scalarCmp c op q =>
      have hat : cx.entryAt counter = entry (.scalarCmp c op q) := h 0 _ rfl
      rw [evalWhere_scalarCmp, hat]
      simp only [truth, bind_assoc]
      rfl
    | _ => rfl

end

/-- The value does not depend on the cache itself. -/
theorem truth_withCache (run : Runner) (cx : WhereContext) (entry : Expr → CacheEntry)
    (cache : List CacheEntry) (e : Expr) :
    truth run { cx with cache } entry e = truth run cx entry e := by
  induction e using Expr.connectives with
  | and l r ihl ihr | or l r ihl ihr => simp only [truth, ihl, ihr]
  | not e ih => simp [truth, ih]
  | atom e hatom => cases e <;> first | rfl | cases hatom

/-! ## De Morgan -/

theorem kleeneNot_and (a b : Option Bool) :
    kleeneNot (kleeneAnd a b) = kleeneOr (kleeneNot a) (kleeneNot b) := by
  rcases a with _ | _ | _ <;> rcases b with _ | _ | _ <;> rfl

theorem kleeneNot_or (a b : Option Bool) :
    kleeneNot (kleeneOr a b) = kleeneAnd (kleeneNot a) (kleeneNot b) := by
  rcases a with _ | _ | _ <;> rcases b with _ | _ | _ <;> rfl

section

variable (run : Runner) (cx : WhereContext) (p q : Expr)

theorem passes_not_and :
    passes run cx (.not (.and p q)) = passes run cx (.or (.not p) (.not q)) := by
  simp only [passes, evalWhere, bind_assoc, pure_bind, kleeneNot_and]

theorem passes_not_or :
    passes run cx (.not (.or p q)) = passes run cx (.and (.not p) (.not q)) := by
  simp only [passes, evalWhere, bind_assoc, pure_bind, kleeneNot_or]

end

/-! ## Filters -/

/-- The call returns true. -/
def isTrue : Outcome ε (Option Bool) → Bool
  | .ok (some true) => true
  | _ => false

/-- A filter fails if its predicate fails on a row, and otherwise keeps the
rows on which it is true. -/
theorem filterRows_eq_ok {p : Row → Outcome ε (Option Bool)} {rows out : List Row} :
    filterRows (fun row => do let v ← p row; return v.getD false) rows = .ok out ↔
      (∀ row ∈ rows, ∃ v, p row = .ok v) ∧ out = rows.filter fun row => isTrue (p row) := by
  induction rows generalizing out with
  | nil => simp [filterRows]
  | cons row rows ih =>
    cases hrow : p row with
    | error f => simp [filterRows, hrow]
    | ok v =>
      have hkeep : v.getD false = isTrue (p row) := by
        rw [hrow]
        rcases v with _ | _ | _ <;> rfl
      rw [filterRows, hrow, ok_bind, pure_eq_ok, ok_bind,
        bind_eq_ok, hkeep]
      simp only [ih, List.forall_mem_cons, List.filter_cons]
      simp only [hrow, pure_eq_ok, ok.injEq, exists_eq', true_and, and_assoc,
        exists_eq_left, exists_and_left, eq_comm]

section

variable (run : Runner) (columns : List String) (params : Params) (ctes : List CTE)

/-- The entry of a subquery in the cache. -/
def entryOf (node : Expr) : CacheEntry :=
  match cacheEntry run columns params ctes node with
  | .ok entry => entry
  | .error _ => .uncached

variable {run columns params ctes}

theorem buildSubqueryCache_eq_ok {e : Expr} {cache : List CacheEntry} :
    buildSubqueryCache run e columns params ctes = .ok cache ↔
      (∀ node ∈ subqueryNodes e, ∃ entry, cacheEntry run columns params ctes node = .ok entry) ∧
        cache = (subqueryNodes e).map (entryOf run columns params ctes) := by
  have hentry : ∀ {node entry}, cacheEntry run columns params ctes node = .ok entry →
      cacheEntry run columns params ctes node = .ok (entryOf run columns params ctes node) := by
    intro node entry h
    rw [entryOf, h]
  unfold buildSubqueryCache
  constructor
  · intro h
    have hnodes : ∀ node ∈ subqueryNodes e,
        ∃ entry, cacheEntry run columns params ctes node = .ok entry := by
      intro node hnode
      obtain ⟨entry, -, hentry⟩ := exists_mem_of_mapM_eq_ok h node hnode
      exact ⟨entry, hentry⟩
    refine ⟨hnodes, ?_⟩
    rw [mapM_of_ok fun node hnode => hentry (hnodes node hnode).choose_spec] at h
    exact (ok.inj h).symm
  · rintro ⟨hnodes, rfl⟩
    exact mapM_of_ok fun node hnode => hentry (hnodes node hnode).choose_spec

/-- The value of a `WHERE` predicate on a row. -/
def rowTruth (run : Runner) (columns : List String) (params : Params) (outer : List Scope)
    (ctes : List CTE) (scopeColumns qualifiers : List String) (e : Expr) (row : Row) :
    Outcome DbError (Option Bool) :=
  truth run ⟨columns, row, params, outer, ctes, scopeColumns, [], qualifiers⟩
    (entryOf run columns params ctes) e

/-- With the cache of its subqueries, a row passes if the predicate is true on
it. -/
theorem passes_eq_rowTruth (e : Expr) (row : Row) (outer : List Scope)
    (scopeColumns qualifiers : List String) :
    passes run ⟨columns, row, params, outer, ctes, scopeColumns,
      (subqueryNodes e).map (entryOf run columns params ctes), qualifiers⟩ e = (do
        let v ← rowTruth run columns params outer ctes scopeColumns qualifiers e row
        return v.getD false) := by
  have hcount := @evalWhere_eq_truth run ⟨columns, row, params, outer, ctes, scopeColumns,
    (subqueryNodes e).map (entryOf run columns params ctes), qualifiers⟩
    (entryOf run columns params ctes) e 0 (by simp +contextual [entryAt])
  rw [passes, hcount]
  simp only [bind_assoc]
  exact congrArg (· >>= _) (truth_withCache run
    ⟨columns, row, params, outer, ctes, scopeColumns, [], qualifiers⟩ _ _ e)

/-- A clause fails if one of its subqueries panics or overflows the stack when
it is tried, or if it fails on a row. -/
theorem filterTable_eq_ok {e : Expr} {table table' : Table} {scopeColumns : List String}
    {outer : List Scope} {qualifiers : List String} :
    filterTable run (some e) table scopeColumns params outer ctes qualifiers = .ok table' ↔
      (∀ node ∈ subqueryNodes e,
        ∃ entry, cacheEntry run table.columns params ctes node = .ok entry) ∧
      (∀ row ∈ table.rows, ∃ v,
        rowTruth run table.columns params outer ctes scopeColumns qualifiers e row = .ok v) ∧
      table' = ⟨table.columns, table.rows.filter fun row =>
        isTrue (rowTruth run table.columns params outer ctes scopeColumns qualifiers e row)⟩ := by
  simp only [filterTable, bind_eq_ok, buildSubqueryCache_eq_ok]
  constructor
  · rintro ⟨cache, ⟨hnodes, rfl⟩, rows, hrows, h⟩
    simp only [passes_eq_rowTruth, filterRows_eq_ok] at hrows
    cases h
    exact ⟨hnodes, hrows.1, by rw [hrows.2]⟩
  · rintro ⟨hnodes, hrows, rfl⟩
    refine ⟨_, ⟨hnodes, rfl⟩, _, ?_, rfl⟩
    simp only [passes_eq_rowTruth, filterRows_eq_ok]
    exact ⟨hrows, trivial⟩

end

/-! ## `SELECT *` -/

/-- What a query reads: CTEs, `FROM` and `JOIN`. -/
structure FromClause where
  withCtes : List CTE
  table : TableRef
  joins : List Join

/-- `WITH ... SELECT * FROM ... [WHERE ...]`. -/
def selectStar (source : FromClause) (filter : Option Expr) : SelectStatement where
  columns := []
  star := true
  table := source.table
  filter := filter
  joins := source.joins
  groupBy := []
  aggregates := []
  windowFuncs := []
  orderBy := []
  orderByCosine := none
  limit := none
  having := none
  withCtes := source.withCtes

namespace FromClause

variable (source : FromClause)

def qualifiers : List String := source.table.name :: source.joins.map fun j => j.table.name

/-- The joined tables. -/
def joined (v : ReadView) (run : Runner) (ctes : List CTE) (binding : Option RecursiveBinding) :
    Outcome DbError Table := do
  checkCtes v source.withCtes
  let base ← resolveTableRef v run source.table ctes binding
  joinTables v run source.table.name ctes binding source.qualifiers source.joins base

end FromClause

/-- `SELECT *` returns the joined rows that pass the filter. -/
theorem selectBody_selectStar (v : ReadView) (run : Runner) (source : FromClause)
    (filter : Option Expr) (params : Params) (outer : List Scope) (outerCtes : List CTE)
    (binding : Option RecursiveBinding) :
    selectBody v run (selectStar source filter) params outer outerCtes binding = do
      let ctes := mergeCtes outerCtes source.withCtes
      let table ← source.joined v run ctes binding
      let table ← filterTable run filter table (qualifyBare source.table.name table.columns) params
        outer ctes source.qualifiers
      return { columns := table.columns, rows := table.rows } := by
  simp only [FromClause.joined, bind_assoc]
  rfl

end Archon
