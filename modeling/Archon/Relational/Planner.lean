import Archon.Relational.Window

/-!
# Archon.Relational.Planner

Plans of a `SELECT` (`crates/tpt-archon-relational/src/planner.rs`) and their
execution (`executor/exec.rs`).

Estimates are `u64` and wrap.  Rows go through the executor in batches of
1024; a batch is only a slice of the rows in order.
-/

namespace Archon

structure TableStats where
  rowCount : UInt64

inductive Dispatch where
  | cpu
  | gpu
  deriving DecidableEq

mutual

/-- A physical plan node. -/
inductive PlanNode where
  | scan (table : String) (vectorized : Bool)
  | filter (expr : Expr) (input : PlanNode)
  | project (columns : List String) (star : Bool) (input : PlanNode)
  | limit (n : UInt64) (input : PlanNode)
  | sort (columns : List OrderBy) (input : PlanNode)
  | aggregate (groupBy : List String) (aggregates : List (String × AggregateFunc × String))
      (having : Option Expr) (input : PlanNode)
  | subqueryScan (plan : Plan) (aliasName : String)

/-- A plan with its estimated cost and its target. -/
structure Plan where
  root : PlanNode
  estimatedRows : UInt64
  dispatch : Dispatch

end

def VECTORIZE_ROW_THRESHOLD : UInt64 := 1024

def GPU_ROW_THRESHOLD : UInt64 := 1000000

/-! ## Estimates -/

/-- The fraction of rows a predicate keeps, as numerator and denominator. -/
def selectivity : Expr → UInt64 × UInt64
  | .cmp _ .eq _ => (1, 10)
  | .cmp _ .ne _ => (9, 10)
  | .cmp _ _ _ => (1, 3)
  | .isNull _ false => (1, 20)
  | .isNull _ true => (19, 20)
  | .like _ _ => (1, 5)
  | .inInt _ values => (UInt64.ofNat (max values.length 1), 100)
  | .betweenInt _ _ _ => (1, 3)
  | .cmpColumn _ .eq _ => (1, 10)
  | .cmpColumn _ _ _ => (1, 3)
  | .and l r =>
    let (a, b) := selectivity l
    let (c, d) := selectivity r
    (max (a * c) 1, b * d)
  | .or l r =>
    let (a, b) := selectivity l
    let (c, d) := selectivity r
    let num := a * d + c * b - a * c
    let den := b * d
    if num ≥ den then (1, 1) else (max num 1, den)
  | .not inner =>
    let (a, b) := selectivity inner
    (max (if a ≤ b then b - a else 0) 1, b)
  | .existsQuery _ | .inSubquery _ _ | .scalarCmp _ _ _ => (1, 3)
  | .agg _ _ | .aggCmp _ _ _ _ => (1, 3)
  | .extractCmp _ _ _ _ => (1, 3)

/-- `a.div_ceil(b)`. -/
def divCeil (a b : UInt64) : Outcome ε UInt64 :=
  if b = 0 then Outcome.panicked else return if a % b > 0 then a / b + 1 else a / b

/-- Plan a `SELECT`: scan, filter, aggregate, project, sort, limit.  `gpu`
says whether the feature is enabled. -/
def planSelect (gpu : Bool) (stmt : SelectStatement) (stats : TableStats) : Outcome ε Plan := do
  let vectorized := stats.rowCount ≥ VECTORIZE_ROW_THRESHOLD
  let scan := PlanNode.scan stmt.table.name vectorized
  let (node, estimated) ← match stmt.filter with
    | none => pure (scan, stats.rowCount)
    | some expr => do
      let (num, den) := selectivity expr
      let estimated ← divCeil (stats.rowCount * num) den
      pure (PlanNode.filter expr scan, estimated)
  let (node, estimated) ←
    if !stmt.groupBy.isEmpty || !stmt.aggregates.isEmpty then do
      let node := PlanNode.aggregate stmt.groupBy stmt.aggregates stmt.having node
      if stmt.groupBy.isEmpty then pure (node, estimated)
      else do
        let estimated ← divCeil estimated 10
        pure (node, max estimated 1)
    else pure (node, estimated)
  let node := PlanNode.project stmt.columns stmt.star node
  let node := if stmt.orderBy.isEmpty then node else .sort stmt.orderBy node
  let (node, estimated) := match stmt.limit with
    | none => (node, estimated)
    | some n => (PlanNode.limit n node, min estimated n)
  let dispatch := if gpu && stats.rowCount ≥ GPU_ROW_THRESHOLD then .gpu else .cpu
  return ⟨node, estimated, dispatch⟩

/-! ## Execution -/

/-- Keep the rows on which `p` is true. -/
def filterRows (p : Row → Outcome ε Bool) : List Row → Outcome ε (List Row)
  | [] => return []
  | row :: rows => do
    let keep ← p row
    let rest ← filterRows p rows
    return if keep then row :: rest else rest

/-- `r.unwrap_or(false)`. -/
def orFalse : Outcome ε Bool → Outcome ε' Bool
  | .ok b => .ok b
  | .error (.err _) => .ok false
  | .error .panic => .error .panic
  | .error .stackOverflow => .error .stackOverflow

/-- Keep the named columns; no names, or `*`, keep all. -/
def projectColumns (columns : List String) (star : Bool) (inner : ResultSet) :
    Outcome ExecError ResultSet := do
  if star || columns.isEmpty then return inner
  let indices ← columnIndices inner.columns .unknownColumn columns
  let rows ← inner.rows.mapM fun row => pick row indices
  return { columns, rows }

def sortResult (columns : List OrderBy) (inner : ResultSet) : Outcome ExecError ResultSet := do
  let indices ← sortIndices inner.columns columns
  let rows ← sortByColumns id indices inner.rows
  return { inner with rows }

mutual

def executeNode (table : Table) : PlanNode → Outcome ExecError ResultSet
  | .scan _ _ => return { columns := table.columns, rows := table.rows }
  | .filter expr input => do
    let inner ← executeNode table input
    let rows ← filterRows (fun row => evalExpr expr inner.columns row []) inner.rows
    return { columns := inner.columns, rows }
  | .project columns star input => do
    let inner ← executeNode table input
    projectColumns columns star inner
  | .limit n input => do
    let inner ← executeNode table input
    return { inner with rows := inner.rows.take n.toNat }
  | .sort columns input => do
    let inner ← executeNode table input
    sortResult columns inner
  | .aggregate groupBy aggregates having input => do
    let inner ← executeNode table input
    let result ← aggregateTable inner.columns inner.rows groupBy aggregates
    match having with
    | none => return result
    | some hv =>
      let rows ← filterRows (fun row => orFalse (evalExpr hv result.columns row [])) result.rows
      return { result with rows }
  | .subqueryScan plan aliasName => do
    let inner ← executePlan table plan
    return { columns := inner.columns.map (qualify aliasName), rows := inner.rows }

/-- `execute(plan, table)`. -/
def executePlan (table : Table) : Plan → Outcome ExecError ResultSet
  | { root, .. } => executeNode table root

end

end Archon
