import Archon.Relational.Expr

/-!
# Archon.Relational.Aggregate

`GROUP BY` and aggregate functions
(`crates/tpt-archon-relational/src/executor/aggregate.rs`).
-/

namespace Archon

open Outcome

/-- `columns[..]` as positions, or the error of the first missing one. -/
def columnIndices (columns : List String) (missing : String → ExecError) :
    List String → Outcome ExecError (List Nat)
  | [] => return []
  | c :: cs => do
    let i ← okOr (columnPosition columns c) (missing c)
    let is ← columnIndices columns missing cs
    return i :: is

/-- `indices.map(|i| row[i])`. -/
def pick (row : Row) : List Nat → Outcome ε Row
  | [] => return []
  | i :: is => do
    let v ← index row i
    let vs ← pick row is
    return v :: vs

/-- `groups.entry(key).or_default().push(a)` on an ordered map. -/
def groupInsert (key : Row) (a : α) : List (Row × List α) → List (Row × List α)
  | [] => [(key, [a])]
  | (k, as) :: groups =>
    match rowCmp key k with
    | .lt => (key, [a]) :: (k, as) :: groups
    | .eq => (k, as ++ [a]) :: groups
    | .gt => (k, as) :: groupInsert key a groups

/-- Group by the values at `indices`, in key order. -/
def groupRows (indices : List Nat) : List (Row × α) → List (Row × List α) →
    Outcome ε (List (Row × List α))
  | [], groups => return groups
  | (row, a) :: rows, groups => do
    let key ← pick row indices
    groupRows indices rows (groupInsert key a groups)

/-- Sum of integers and floats; an integer sum that leaves `i64` wraps. -/
structure SumState where
  intSum : Int64 := 0
  floatSum : Float := 0
  sawFloat : Bool := false
  any : Bool := false

def SumState.step (s : SumState) : Value → SumState
  | .int v =>
    { s with any := true, intSum := s.intSum + v, floatSum := s.floatSum + v.toFloat }
  | .float v => { s with any := true, sawFloat := true, floatSum := s.floatSum + v.toFloat }
  | _ => s

def sumValues (vals : List Value) : Value :=
  let s := vals.foldl SumState.step {}
  if !s.any then .null
  else if s.sawFloat then .float (F32.ofFloat s.floatSum)
  else .int s.intSum

def avgValues (vals : List Value) : Value :=
  let (sum, count) := vals.foldl (fun (sum, count) v =>
    match v with
    | .int v => (sum + v.toFloat, count + 1)
    | .float v => (sum + v.toFloat, count + 1)
    | _ => (sum, count)) ((0 : Float), 0)
  if count = 0 then .null else .float (F32.ofFloat (sum / Float.ofNat count))

/-- The numbers among the values. -/
def numbers (vals : List Value) : List Value :=
  vals.filter fun v =>
    match v with
    | .int _ => true
    | .float _ => true
    | _ => false

/-- The first least number. -/
def minValue (vals : List Value) : Value :=
  match numbers vals with
  | [] => .null
  | v :: vs => vs.foldl (fun m v => if v.cmp m == .lt then v else m) v

/-- The last greatest number. -/
def maxValue (vals : List Value) : Value :=
  match numbers vals with
  | [] => .null
  | v :: vs => vs.foldl (fun m v => if v.cmp m == .lt then m else v) v

/-- One aggregate over a group of rows or a window frame. -/
def evalAggregate (func : AggregateFunc) (column : String) (columns : List String)
    (rows : List Row) : Outcome ExecError Value :=
  match func with
  | .count => return .int (Int64.ofNat rows.length)
  | func => do
    let idx ← okOr (columnPosition columns column) (.unknownColumn column)
    let vals ← rows.mapM fun r => index r idx
    match func with
    | .sum => return sumValues vals
    | .avg => return avgValues vals
    | .min => return minValue vals
    | _ => return maxValue vals

def evalAggregates (columns : List String) (rows : List Row)
    (aggregates : List (String × AggregateFunc × String)) : Outcome ExecError Row :=
  aggregates.mapM fun (_, func, col) => evalAggregate func col columns rows

/-- One output row: the group columns of its first row, then the aggregates. -/
def aggregateGroup (columns : List String) (gbIndices : List Nat)
    (aggregates : List (String × AggregateFunc × String)) (groupRows : List Row) :
    Outcome ExecError Row := do
  let first ← index groupRows 0
  let keyVals ← pick first gbIndices
  let aggVals ← evalAggregates columns groupRows aggregates
  return keyVals ++ aggVals

/-- `GROUP BY` with aggregates; without group columns all rows are one group. -/
def aggregateTable (columns : List String) (rows : List Row) (groupBy : List String)
    (aggregates : List (String × AggregateFunc × String)) : Outcome ExecError ResultSet := do
  if groupBy.isEmpty then
    let row ← evalAggregates columns rows aggregates
    return { columns := aggregates.map Prod.fst, rows := [row] }
  let gbIndices ← columnIndices columns .groupByColumnNotFound groupBy
  let groups ← groupRows gbIndices (rows.map fun r => (r, r)) []
  let outRows ← groups.mapM fun (_, group) => aggregateGroup columns gbIndices aggregates group
  return { columns := groupBy ++ aggregates.map Prod.fst, rows := outRows }

end Archon
