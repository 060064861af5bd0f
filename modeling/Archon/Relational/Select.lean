import Archon.Relational.Database
import Archon.Relational.Planner
import Archon.Relational.Subquery

/-!
# Archon.Relational.Select

`SELECT`, set operations and vector top-k
(`crates/tpt-archon-relational/src/database/select.rs`).

Nested queries recurse on the stack: `runSelectScoped` has the depth left as
its first argument, and a query that goes deeper overflows the stack.
-/

namespace Archon

open Outcome

/-! ## References -/

mutual

/-- Whether a statement reads a table or view of this name. -/
def selectReferencesTable (name : String) : SelectStatement → Bool
  | { table, filter, joins, having, .. } =>
    tableRefReferencesTable name table || joinsReferenceTable name joins ||
      filterReferencesTable name filter || filterReferencesTable name having

def tableRefReferencesTable (name : String) : TableRef → Bool
  | .named n _ => n == name
  | .subquery query _ => selectReferencesTable name query

def joinsReferenceTable (name : String) : List Join → Bool
  | [] => false
  | { table, .. } :: joins => tableRefReferencesTable name table || joinsReferenceTable name joins

def filterReferencesTable (name : String) : Option Expr → Bool
  | none => false
  | some e => exprReferencesTable name e

def exprReferencesTable (name : String) : Expr → Bool
  | .and l r => exprReferencesTable name l || exprReferencesTable name r
  | .or l r => exprReferencesTable name l || exprReferencesTable name r
  | .not inner => exprReferencesTable name inner
  | .existsQuery query => selectReferencesTable name query
  | .inSubquery _ query => selectReferencesTable name query
  | .scalarCmp _ _ query => selectReferencesTable name query
  | _ => false

end

/-! ## Tables -/

/-- The rows with the given ids, as the open transaction sees them. -/
def ReadTable.rows (rt : ReadTable) : List Nat → Outcome DbError (List (Nat × Row))
  | [] => return []
  | id :: ids => do
    match ← rt.rowAt id with
    | none => rt.rows ids
    | some row =>
      let rows ← rt.rows ids
      return (id, row) :: rows

/-- All rows of a table. -/
def scanTable (v : ReadView) (name : String) : Outcome DbError Table := do
  let rt ← okOr (v.table name) (.unknownTable name)
  let rows ← rt.rows (List.range rt.nextRowId)
  return ⟨rt.schema.columns, rows.map Prod.snd⟩

def MAX_RECURSIVE_ITERATIONS : Nat := 10000

/-- Run the recursive term on the rows of the last round until it adds none. -/
def recursiveRounds (run : Runner) (cte : CTE) (ctes : List CTE) (query : SelectStatement)
    (dedup : Bool) (columns : List String) :
    Nat → List Row → List Row → Outcome DbError (List Row)
  | 0, allRows, working =>
    if working.isEmpty then return allRows
    else fail (.unsupported ("recursive CTE '" ++ cte.name ++ "' exceeded " ++
      toString MAX_RECURSIVE_ITERATIONS ++ " iterations without reaching a fixed point " ++
      "(likely a non-terminating recursive term)"))
  | n + 1, allRows, working =>
    if working.isEmpty then return allRows
    else do
      let step ← run query [] [] ctes (some ⟨cte.name, columns, working⟩)
      if step.columns.length ≠ columns.length then fail .columnCountMismatch
      let next :=
        if dedup then dedupRows (sortRows (step.rows.filter fun r => !containsRow allRows r))
        else step.rows
      if next.isEmpty then return allRows
      else recursiveRounds run cte ctes query dedup columns n (allRows ++ next) next

def runRecursiveCte (run : Runner) (cte : CTE) (ctes : List CTE) (setOp : SetOperation)
    (query : SelectStatement) : Outcome DbError Table := do
  let dedup := setOp = .union false
  let anchor ← run cte.query [] [] ctes none
  let start := if dedup then dedupRows (sortRows anchor.rows) else anchor.rows
  let rows ← recursiveRounds run cte ctes query dedup anchor.columns MAX_RECURSIVE_ITERATIONS
    start start
  return ⟨anchor.columns, rows⟩

/-- What a name stands for: the recursive binding, a CTE, a view or a table. -/
def resolveNamed (v : ReadView) (run : Runner) (name : String) (ctes : List CTE)
    (binding : Option RecursiveBinding) : Outcome DbError Table :=
  match binding.filter fun b => b.name == name with
  | some b => return ⟨b.columns, b.rows⟩
  | none =>
    match ctes.find? fun c => c.name == name with
    | some cte =>
      match cte.recursiveTerm with
      | some (setOp, query) => runRecursiveCte run cte ctes setOp query
      | none => do
        let rs ← run cte.query [] [] ctes none
        return ⟨rs.columns, rs.rows⟩
    | none =>
      match v.views.lookup name with
      | some query => do
        let rs ← run query [] [] [] none
        return ⟨rs.columns, rs.rows⟩
      | none => scanTable v name

def resolveTableRef (v : ReadView) (run : Runner) (r : TableRef) (ctes : List CTE)
    (binding : Option RecursiveBinding) : Outcome DbError Table :=
  match r with
  | .named name _ => resolveNamed v run name ctes binding
  | .subquery query aliasName => do
    let rs ← run query [] [] ctes none
    return ⟨rs.columns.map (qualify aliasName), rs.rows⟩

/-! ## Joins -/

/-- `table.column` for the bare names. -/
def qualifyBare (table : String) (columns : List String) : List String :=
  columns.map fun c => if hasDot c then c else qualify table c

/-- Each row of `ls` with its partners, or with `nulls` if it has none. -/
def outerPairs (on : Row → Outcome ε Bool) (pair : Row → Row → Row) (rs : List Row)
    (alone : Row → Row) : List Row → Outcome ε (List Row)
  | [] => return []
  | l :: ls => do
    let matched ← filterRows on (rs.map (pair l))
    let rest ← outerPairs on pair rs alone ls
    return (if matched.isEmpty then [alone l] else matched) ++ rest

/-- The rows of `ls` without a partner, completed by `alone`. -/
def unmatched (on : Row → Outcome ε Bool) (pair : Row → Row → Row) (rs : List Row)
    (alone : Row → Row) : List Row → Outcome ε (List Row)
  | [] => return []
  | l :: ls => do
    let found ← (rs.map (pair l)).anyM on
    let rest ← unmatched on pair rs alone ls
    return if found then rest else alone l :: rest

/-- The rows of a join; every kind but `CROSS` needs a condition. -/
def joinRows (join : Join) (on : Expr → Row → Outcome DbError Bool) (columns joinCols : List String)
    (rows joined : List Row) : Outcome DbError (List Row) := do
  let pair (l j : Row) : Row := l ++ j
  let nullRight (l : Row) : Row := l ++ List.replicate joinCols.length .null
  let nullLeft (j : Row) : Row := List.replicate columns.length .null ++ j
  let pairs := rows.flatMap fun l => joined.map (pair l)
  match join.jtype with
  | .cross => return pairs
  | .inner =>
    let cond ← expect join.onExpr
    filterRows (on cond) pairs
  | .left =>
    let cond ← expect join.onExpr
    outerPairs (on cond) pair joined nullRight rows
  | .right =>
    let cond ← expect join.onExpr
    outerPairs (on cond) (fun j l => pair l j) rows nullLeft joined
  | .full =>
    let cond ← expect join.onExpr
    let inner ← filterRows (on cond) pairs
    let left ← unmatched (on cond) pair joined nullRight rows
    let right ← unmatched (on cond) (fun j l => pair l j) rows nullLeft joined
    return inner ++ left ++ right

/-- Join the tables one after another; `base` qualifies the bare columns when
a condition is evaluated. -/
def joinTables (v : ReadView) (run : Runner) (base : String) (ctes : List CTE)
    (binding : Option RecursiveBinding) (qualifiers : List String) :
    List Join → Table → Outcome DbError Table
  | [], table => return table
  | join :: joins, table => do
    let right ← resolveTableRef v run join.table ctes binding
    let columns := table.columns ++ right.columns.map (qualify join.table.name)
    let onCols := qualifyBare base columns
    let on (cond : Expr) (row : Row) : Outcome DbError Bool :=
      fromExec (evalExpr cond onCols row qualifiers)
    let rows ← joinRows join on table.columns right.columns table.rows right.rows
    joinTables v run base ctes binding qualifiers joins ⟨columns, rows⟩

/-! ## Vector top-k -/

/-- The candidates that pass the filter and hold a vector, with the vector. -/
def topkRows (passes : Row → Outcome DbError Bool) (slot : Nat) :
    List (Outcome DbError Row) → Outcome DbError (List (List F32 × Row))
  | [] => return []
  | candidate :: candidates => do
    let row ← candidate
    if ← passes row then
      match ← index row slot with
      | .vector vec =>
        let rest ← topkRows passes slot candidates
        return (vec, row) :: rest
      | _ => topkRows passes slot candidates
    else topkRows passes slot candidates

/-- `ORDER BY cosine(column, ?) LIMIT k`.  A named table is read from its tree
or its index; the filter runs without a cache. -/
def runVectorTopk (v : ReadView) (run : Runner) (stmt : SelectStatement) (ob : OrderByCosine)
    (params : Params) : Outcome DbError ResultSet := do
  let query ← okOr (if ob.param = 0 then none else params[ob.param - 1]?) .missingParam
  let (columns, slot, candidates) ← match stmt.table with
    | .subquery _ _ => do
      let table ← resolveTableRef v run stmt.table [] none
      let slot ← okOr (columnPosition table.columns ob.column) (.unknownColumn ob.column)
      pure (table.columns, slot, table.rows.map .ok)
    | .named name _ => do
      let rt ← okOr (v.table name) (.unknownTable name)
      let (slot, candidates) ← rt.nearest ob.column query ob.k.toNat
      pure (rt.schema.columns, slot, candidates)
  let passes (row : Row) : Outcome DbError Bool :=
    match stmt.filter with
    | none => return true
    | some expr => passes run { columns, row, params, scopeColumns := columns } expr
  let data ← topkRows passes slot candidates
  let top := vectorTopk (data.map Prod.fst) query ob.k.toNat
  let rows ← top.mapM fun i => index (data.map Prod.snd) i
  return { columns := if stmt.star || stmt.columns.isEmpty then columns else stmt.columns, rows }

/-! ## Statements -/

/-- The statement's own CTEs shadow the enclosing ones. -/
def mergeCtes (outerCtes withCtes : List CTE) : List CTE :=
  withCtes.foldl (fun merged cte => merged.filter (fun c => c.name != cte.name) ++ [cte]) outerCtes

/-- A CTE must not shadow a view or table, nor read itself outside its
recursive term. -/
def checkCtes (v : ReadView) : List CTE → Outcome DbError Unit
  | [] => return ()
  | cte :: ctes =>
    if (v.views.lookup cte.name).isSome || (v.table cte.name).isSome then
      fail (.viewAlreadyExists cte.name)
    else if selectReferencesTable cte.name cte.query then
      fail (.recursiveView cte.name)
    else checkCtes v ctes

/-- The rows that pass a `WHERE` or `HAVING` clause. -/
def filterTable (run : Runner) (filter : Option Expr) (table : Table) (scopeColumns : List String)
    (params : Params) (outer : List Scope) (ctes : List CTE) (qualifiers : List String) :
    Outcome DbError Table :=
  match filter with
  | none => return table
  | some expr => do
    let cache ← buildSubqueryCache run expr table.columns params ctes
    let rows ← filterRows (fun row =>
      passes run ⟨table.columns, row, params, outer, ctes, scopeColumns, cache, qualifiers⟩ expr)
      table.rows
    return { table with rows }

/-- One level of a `SELECT`: `FROM` and joins, `WHERE`, window functions,
grouping, `HAVING`, then the plan for projection, order and limit. -/
def selectBody (v : ReadView) (run : Runner) : Runner := fun stmt params outer outerCtes binding =>
  match stmt.orderByCosine with
  | some ob => runVectorTopk v run stmt ob params
  | none => do
    let ctes := mergeCtes outerCtes stmt.withCtes
    checkCtes v stmt.withCtes
    let base ← resolveTableRef v run stmt.table ctes binding
    let qualifiers := stmt.table.name :: stmt.joins.map fun j => j.table.name
    let table ← joinTables v run stmt.table.name ctes binding qualifiers stmt.joins base
    let scopeColumns := qualifyBare stmt.table.name table.columns
    let table ← filterTable run stmt.filter table scopeColumns params outer ctes qualifiers
    let table ← if stmt.windowFuncs.isEmpty then pure table
      else fromExec (applyWindowFuncs table stmt.windowFuncs)
    let table ← if stmt.groupBy.isEmpty && stmt.aggregates.isEmpty then pure table
      else do
        let rs ← fromExec (aggregateTable table.columns table.rows stmt.groupBy stmt.aggregates)
        pure ⟨rs.columns, rs.rows⟩
    let table ← filterTable run stmt.having table table.columns params outer ctes qualifiers
    let planStmt := { stmt with groupBy := [], aggregates := [], having := none, filter := none }
    let plan ← planSelect false planStmt ⟨UInt64.ofNat table.rows.length⟩
    fromExec (executePlan table plan)

/-- A `SELECT` with `depth` levels of stack left. -/
def runSelectScoped (v : ReadView) : Nat → Runner
  | 0 => fun _ _ _ _ _ => .error .stackOverflow
  | depth + 1 => selectBody v (runSelectScoped v depth)

def runSelect (v : ReadView) (depth : Nat) (stmt : SelectStatement) (params : Params) :
    Outcome DbError ResultSet :=
  runSelectScoped v depth stmt params [] [] none

/-- `UNION`, `INTERSECT` and `EXCEPT`, left to right. -/
def applySetOperations (v : ReadView) (depth : Nat) (params : Params)
    (columns : List String) : List (SetOperation × SelectStatement) → List Row →
    Outcome DbError (List Row)
  | [], rows => return rows
  | (op, right) :: operations, rows => do
    let rs ← runSelectScoped v depth right params [] [] none
    if columns.length ≠ rs.columns.length then fail .columnCountMismatch
    let rows := match op with
      | .union true => rows ++ rs.rows
      | .union false => dedupRows (sortRows (rows ++ rs.rows))
      | .intersect => dedupRows (sortRows (rows.filter (containsRow rs.rows)))
      | .except => rows.filter fun row => !containsRow rs.rows row
    applySetOperations v depth params columns operations rows

def runCompound (v : ReadView) (depth : Nat) (stmt : CompoundStatement)
    (params : Params) : Outcome DbError ResultSet := do
  let first ← runSelectScoped v depth stmt.first params [] [] none
  let rows ← applySetOperations v depth params first.columns stmt.operations first.rows
  let rows ← if stmt.orderBy.isEmpty then pure rows
    else do
      let indices ← fromExec (sortIndices first.columns stmt.orderBy)
      sortByColumns id indices rows
  let rows := match stmt.limit with
    | some n => rows.take n.toNat
    | none => rows
  return { columns := first.columns, rows }

end Archon
