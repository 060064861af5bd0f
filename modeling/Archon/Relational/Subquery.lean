import Archon.Relational.Expr
import Archon.Relational.Schema

/-!
# Archon.Relational.Subquery

Correlated subqueries and the cache of uncorrelated ones, for `WHERE` and
`HAVING` (`crates/tpt-archon-relational/src/database/subquery.rs`).

Everything here is relative to `run`, which evaluates a nested `SELECT`.
-/

namespace Archon

open Outcome

/-- The rows a name stands for inside a recursive term. -/
structure RecursiveBinding where
  name : String
  columns : List String
  rows : List Row

/-- A nested `SELECT`: statement, parameters, enclosing scopes, CTEs in scope
and recursive binding. -/
abbrev Runner :=
  SelectStatement → Params → List Scope → List CTE → Option RecursiveBinding →
    Outcome DbError ResultSet

/-! ## Which columns a subquery sees -/

/-- A qualified name must match exactly, an unqualified one up to qualifiers. -/
def columnResolvesLocally (name : String) (ownColumns : List String) : Bool :=
  ownColumns.any (· == name) ||
    (!hasDot name && ownColumns.any fun c => unqualified c == name)

/-- The columns of `parent` that belong to a table of this name or alias,
under the alias. -/
def requalify (table qualifier : String) (keepBare : Bool) (parent : List String) : List String :=
  parent.filterMap fun c =>
    match splitFirstDot c with
    | some (base, col) =>
      if base == table || base == qualifier then some (qualify qualifier col) else none
    | none => if keepBare then some (qualify qualifier c) else none

/-- The columns visible from a subquery's `FROM` and `JOIN` clauses, guessed
from those of the enclosing query. -/
def resolveQueryOwnColumns (table : TableRef) (joins : List Join) (parent : List String) :
    List String :=
  let own := match table with
    | .named name aliasName => requalify name (aliasName.getD name) true parent
    | .subquery _ _ => parent
  let joined := joins.flatMap fun j => requalify j.table.tableName j.table.name false parent
  if (own ++ joined).isEmpty then parent else own ++ joined

mutual

/-- Whether an expression names a column that is not among `ownColumns`. -/
def exprReferencesOuter (ownColumns : List String) : Expr → Bool
  | .cmp column _ _ => !columnResolvesLocally column ownColumns
  | .cmpColumn left _ right =>
    !columnResolvesLocally left ownColumns || !columnResolvesLocally right ownColumns
  | .isNull column _ => !columnResolvesLocally column ownColumns
  | .like column _ => !columnResolvesLocally column ownColumns
  | .inInt column _ => !columnResolvesLocally column ownColumns
  | .betweenInt column _ _ => !columnResolvesLocally column ownColumns
  | .and l r => exprReferencesOuter ownColumns l || exprReferencesOuter ownColumns r
  | .or l r => exprReferencesOuter ownColumns l || exprReferencesOuter ownColumns r
  | .not inner => exprReferencesOuter ownColumns inner
  | .agg _ _ => false
  | .aggCmp _ _ _ _ => false
  | .extractCmp _ source _ _ => !columnResolvesLocally source ownColumns
  | .existsQuery query => queryReferencesOuter ownColumns query
  | .inSubquery _ query => queryReferencesOuter ownColumns query
  | .scalarCmp _ _ query => queryReferencesOuter ownColumns query

/-- The same for the filter of a subquery. -/
def queryReferencesOuter (ownColumns : List String) : SelectStatement → Bool
  | { table, joins, filter, .. } =>
    filterReferencesOuter (resolveQueryOwnColumns table joins ownColumns) filter

def filterReferencesOuter (ownColumns : List String) : Option Expr → Bool
  | none => false
  | some w => exprReferencesOuter ownColumns w

end

/-! ## The cache -/

/-- The result of an uncorrelated subquery. -/
inductive CacheEntry where
  | uncached
  | existsResult (b : Bool)
  | inValues (vals : List Value)
  | scalar (v : Value)

/-- The subqueries of an expression, depth first. -/
def subqueryNodes : Expr → List Expr
  | .and l r => subqueryNodes l ++ subqueryNodes r
  | .or l r => subqueryNodes l ++ subqueryNodes r
  | .not inner => subqueryNodes inner
  | .existsQuery query => [.existsQuery query]
  | .inSubquery column query => [.inSubquery column query]
  | .scalarCmp column op query => [.scalarCmp column op query]
  | _ => []

/-- `if let Ok(rs) = r`: an error is dropped. -/
def okResult (r : Outcome DbError ResultSet) : Outcome DbError (Option ResultSet) :=
  match r with
  | .ok rs => .ok (some rs)
  | .error (.err _) => .ok none
  | .error .panic => .error .panic
  | .error .stackOverflow => .error .stackOverflow

def firstValues (rows : List Row) : Outcome ε (List Value) :=
  rows.mapM fun r => index r 0

/-- Whether some row starts with `v`; later rows are not looked at. -/
def anyFirst (v : Value) : List Row → Outcome ε Bool
  | [] => return false
  | r :: rows => do
    let first ← index r 0
    if first.eq v then return true else anyFirst v rows

/-- The entry of one subquery; a correlated or failing one has none. -/
def cacheEntry (run : Runner) (ownColumns : List String) (params : Params)
    (ctes : List CTE) (node : Expr) : Outcome DbError CacheEntry :=
  match node with
  | .existsQuery query =>
    if queryReferencesOuter ownColumns query then return .uncached
    else do
      match ← okResult (run query params [] ctes none) with
      | some rs => return .existsResult (!rs.rows.isEmpty)
      | none => return .uncached
  | .inSubquery _ query =>
    if queryReferencesOuter ownColumns query then return .uncached
    else do
      match ← okResult (run query params [] ctes none) with
      | some rs =>
        let vals ← firstValues rs.rows
        return .inValues vals
      | none => return .uncached
  | .scalarCmp _ _ query =>
    if queryReferencesOuter ownColumns query then return .uncached
    else do
      match ← okResult (run query params [] ctes none) with
      | some rs =>
        if rs.rows.length = 1 ∧ rs.columns.length = 1 then
          let row ← index rs.rows 0
          let v ← index row 0
          return .scalar v
        else return .uncached
      | none => return .uncached
  | _ => return .uncached

def buildSubqueryCache (run : Runner) (whereExpr : Expr) (ownColumns : List String)
    (params : Params) (ctes : List CTE) : Outcome DbError (List CacheEntry) :=
  (subqueryNodes whereExpr).mapM (cacheEntry run ownColumns params ctes)

/-! ## Evaluation -/

/-- The row and context a predicate is evaluated in. -/
structure WhereContext where
  columns : List String
  row : Row
  params : Params := []
  outer : List Scope := []
  ctes : List CTE := []
  scopeColumns : List String
  cache : List CacheEntry := []
  validQualifiers : List String := []

/-- A nested query sees the row and at most seven enclosing ones. -/
def WhereContext.runNested (run : Runner) (cx : WhereContext) (query : SelectStatement) :
    Outcome DbError ResultSet :=
  if 1 + cx.outer.length ≤ 8 then
    run query cx.params ((cx.scopeColumns, cx.row) :: cx.outer) cx.ctes none
  else panicked

def WhereContext.find (cx : WhereContext) (column : String) : Outcome DbError Value := do
  let v ← findValue column cx.columns cx.row cx.outer cx.validQualifiers
  okOr v (.unknownColumn column)

/-- Here `NULL` on either side is false. -/
def compareScalar (op : CmpOp) (lhs rhs : Value) : Bool :=
  if lhs.isNull || rhs.isNull then false else evalCmp op (lhs.cmp rhs)

/-- The single value of a scalar subquery. -/
def scalarResult (rs : ResultSet) : Outcome DbError Value :=
  if rs.columns.length ≠ 1 ∨ rs.rows.length ≠ 1 then
    fail (.subqueryCardinality
      ("scalar subquery must return exactly one row and one column, got " ++
        toString rs.rows.length ++ " row(s) and " ++ toString rs.columns.length ++ " column(s)"))
  else do
    let row ← index rs.rows 0
    index row 0

/-- Evaluate a predicate; `counter` numbers the subqueries visited. -/
def evalWhere (run : Runner) (cx : WhereContext) :
    Expr → Nat → Outcome DbError (Option Bool × Nat)
  | .and l r, counter => do
    let (lv, counter) ← evalWhere run cx l counter
    let (rv, counter) ← evalWhere run cx r counter
    return (kleeneAnd lv rv, counter)
  | .or l r, counter => do
    let (lv, counter) ← evalWhere run cx l counter
    let (rv, counter) ← evalWhere run cx r counter
    return (kleeneOr lv rv, counter)
  | .not inner, counter => do
    let (v, counter) ← evalWhere run cx inner counter
    return (kleeneNot v, counter)
  | .existsQuery query, counter =>
    match cx.cache[counter]? with
    | some (.existsResult b) => return (some b, counter + 1)
    | _ => do
      let rs ← cx.runNested run query
      return (some !rs.rows.isEmpty, counter + 1)
  | .inSubquery column query, counter => do
    let lhs ← cx.find column
    match cx.cache[counter]? with
    | some (.inValues vals) => return (some (vals.any fun v => v.eq lhs), counter + 1)
    | _ =>
      let rs ← cx.runNested run query
      if rs.columns.length ≠ 1 then
        fail (.subqueryCardinality
          ("IN subquery must return exactly one column, got " ++ toString rs.columns.length))
      let found ← anyFirst lhs rs.rows
      return (some found, counter + 1)
  | .scalarCmp column op query, counter => do
    let lhs ← cx.find column
    match cx.cache[counter]? with
    | some (.scalar rhs) => return (some (compareScalar op lhs rhs), counter + 1)
    | _ =>
      let rs ← cx.runNested run query
      let rhs ← scalarResult rs
      return (some (compareScalar op lhs rhs), counter + 1)
  | expr, counter => do
    let v ← fromExec (evalExprScoped cx.columns cx.row cx.outer cx.validQualifiers expr)
    return (v, counter)

/-- Whether a row passes; `NULL` counts as false. -/
def passes (run : Runner) (cx : WhereContext) (expr : Expr) : Outcome DbError Bool := do
  let (v, _) ← evalWhere run cx expr 0
  return v.getD false

end Archon
