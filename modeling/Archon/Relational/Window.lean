import Archon.Relational.Aggregate

/-!
# Archon.Relational.Window

Window functions, computed as extra columns
(`crates/tpt-archon-relational/src/executor/window.rs`).

A sort reads a later sort column only of rows that tie on the earlier ones.  Two
such rows are ordered by comparing one of them with another row of the tie, so
the sort panics exactly if some pair of rows cannot be compared.
-/

namespace Archon

open Outcome

/-- Compare by the given columns, the later ones breaking ties. -/
def compareBy (indices : List (Nat × Bool)) (a b : Row) : Ordering :=
  match indices with
  | [] => .eq
  | (idx, desc) :: indices =>
    let ord := (a.getD idx .null).cmp (b.getD idx .null)
    (if desc then ord.swap else ord).then (compareBy indices a b)

/-- Whether both rows have the columns their comparison reads. -/
def comparable (indices : List (Nat × Bool)) (a b : Row) : Bool :=
  match indices with
  | [] => true
  | (idx, _) :: indices =>
    idx < a.length && idx < b.length &&
      ((a.getD idx .null).cmp (b.getD idx .null) != .eq || comparable indices a b)

/-- A stable sort by columns of the row that `rowOf` gives. -/
def sortByColumns (rowOf : α → Row) (indices : List (Nat × Bool)) (xs : List α) :
    Outcome ε (List α) :=
  if xs.Pairwise fun a b => comparable indices (rowOf a) (rowOf b) then
    return xs.mergeSort fun a b => compareBy indices (rowOf a) (rowOf b) != .gt
  else panicked

/-- The sort columns with their directions. -/
def sortIndices (columns : List String) (orderBy : List OrderBy) :
    Outcome ExecError (List (Nat × Bool)) :=
  orderBy.mapM fun ob => do
    let idx ← okOr (columnPosition columns ob.column) (.unknownColumn ob.column)
    return (idx, ob.descending)

/-- Whether two rows have `==` values in every sort column. -/
def tiedOn (a b : Row) : List (Nat × Bool) → Outcome ε Bool
  | [] => return true
  | (idx, _) :: indices => do
    let x ← index a idx
    let y ← index b idx
    if x.eq y then tiedOn a b indices else return false

/-! ## Frames -/

/-- A `ROWS` bound, clipped to the partition. -/
def resolveBound (bound : FrameBound) (pos m : Nat) : Nat :=
  let last := m - 1
  match bound with
  | .unboundedPreceding => 0
  | .unboundedFollowing => last
  | .currentRow => pos
  | .preceding k => pos - k.toNat
  | .following k => min (pos + k.toNat) last

/-- Add or subtract `k`; nothing if the result leaves `i64` or the value is
not a number. -/
def applyOffset (v : Value) (k : UInt64) (following : Bool) : Option Value :=
  match v with
  | .int n =>
    let kk := k.toInt64.toInt
    let r := if following then n.toInt + kk else n.toInt - kk
    if Int64.minValue.toInt ≤ r ∧ r ≤ Int64.maxValue.toInt then some (.int (Int64.ofInt r))
    else none
  | .float f =>
    some (.float (if following then f.add (F32.ofNat k.toNat) else f.sub (F32.ofNat k.toNat)))
  | _ => none

/-- The positions, first and last, of the values within the bounds; `(1, 0)`
if there are none. -/
def valueRange (low high : Option Value) (orderVals : List Value) : Nat × Nat :=
  let inside := (List.range orderVals.length).filter fun i =>
    let v := orderVals.getD i .null
    (match low with | none => true | some l => v.cmp l != .lt) &&
      (match high with | none => true | some h => v.cmp h != .gt)
  match inside.head?, inside.getLast? with
  | some s, some e => (s, e)
  | _, _ => (1, 0)

/-- A `RANGE` frame over one sort column, by value. -/
def resolveRangeByValue (orderVals : List Value) (pos : Nat) (start stop : FrameBound) :
    Outcome ε (Nat × Nat) := do
  let cur ← index orderVals pos
  let low := match start with
    | .unboundedPreceding => none
    | .unboundedFollowing => none
    | .currentRow => some cur
    | .preceding k => applyOffset cur k false
    | .following k => applyOffset cur k true
  let high := match stop with
    | .unboundedFollowing => none
    | .unboundedPreceding => none
    | .currentRow => some cur
    | .preceding k => applyOffset cur k false
    | .following k => applyOffset cur k true
  return valueRange low high orderVals

/-- The first position of the peers before `p`. -/
def peerStart (peers : Nat → Outcome ε Bool) : Nat → Outcome ε Nat
  | 0 => return 0
  | p + 1 => do
    if ← peers p then peerStart peers p else return p + 1

/-- The last position of the peers after `p`, among `m` rows. -/
def peerEnd (peers : Nat → Outcome ε Bool) (m : Nat) : Nat → Nat → Outcome ε Nat
  | 0, p => return p
  | fuel + 1, p =>
    if p + 1 < m then do
      if ← peers (p + 1) then peerEnd peers m fuel (p + 1) else return p
    else return p

/-- The frame of the row at `pos` of a sorted partition. -/
def resolveFrame (frame : WindowFrame) (pos : Nat) (orderVals : List Value)
    (orderIndices : List (Nat × Bool)) (part : List Row) : Outcome ε (Nat × Nat) := do
  let m := part.length
  match frame.kind with
  | .rows => return (resolveBound frame.start pos m, resolveBound frame.stop pos m)
  | .range =>
    if orderIndices.length > 1 then
      let peers (p : Nat) : Outcome ε Bool := do
        let a ← index part p
        let b ← index part pos
        tiedOn a b orderIndices
      let ps ← peerStart peers pos
      let pe ← peerEnd peers m m pos
      let s := match frame.start with
        | .currentRow => ps
        | _ => 0
      let e := match frame.stop with
        | .currentRow => pe
        | _ => m - 1
      return (s, e)
    else resolveRangeByValue orderVals pos frame.start frame.stop

/-! ## Calls -/

/-- The frame of a call without one. -/
def defaultFrame (orderBy : List OrderBy) : WindowFrame :=
  if orderBy.isEmpty then ⟨.rows, .unboundedPreceding, .unboundedFollowing⟩
  else ⟨.range, .unboundedPreceding, .currentRow⟩

def isNumericBound : FrameBound → Bool
  | .preceding _ => true
  | .following _ => true
  | _ => false

/-- Ranks of the rows from position `pos` on. -/
def rankRows (orderIndices : List (Nat × Bool)) (dense : Bool) (pos : Nat) (rank denseRank : Int64)
    (prev : Option Row) : List Row → Outcome ε (List Value)
  | [] => return []
  | cur :: rest => do
    let tied ← match prev with
      | none => pure true
      | some prev => tiedOn prev cur orderIndices
    let rank := if tied then rank else Int64.ofNat pos + 1
    let denseRank := if tied then denseRank else denseRank + 1
    let vs ← rankRows orderIndices dense (pos + 1) rank denseRank (some cur) rest
    return .int (if dense then denseRank else rank) :: vs

/-- `LAG` and `LEAD`: the value of `column` at `target pos`. -/
def shiftRows (part : List Row) (columns : List String) (column : String)
    (default : Option Literal) (target : Int64 → Int64) : Outcome ExecError (List Value) := do
  let colIdx ← okOr (columnPosition columns column) (.unknownColumn column)
  let defaultVal := (default.map Literal.toValue).getD .null
  (List.range part.length).mapM fun pos => do
    let t := target (Int64.ofNat pos)
    if t ≥ 0 ∧ t.toInt.toNat < part.length then
      let row ← index part t.toInt.toNat
      index row colIdx
    else return defaultVal

/-- An aggregate over the frame of each row. -/
def aggregateFrames (part : List Row) (columns : List String) (func : AggregateFunc)
    (column : String) (orderIndices : List (Nat × Bool)) (frame : WindowFrame) :
    Outcome ExecError (List Value) := do
  if frame.kind = .range ∧ (isNumericBound frame.start || isNumericBound frame.stop) ∧
      orderIndices.length ≠ 1 then
    fail (.unsupported
      "RANGE frame with a numeric offset requires exactly one ORDER BY column")
  let orderVals ← match frame.kind, orderIndices with
    | .range, [(oi, _)] => part.mapM fun r => index r oi
    | _, _ => pure []
  (List.range part.length).mapM fun pos => do
    let (start, stop) ← resolveFrame frame pos orderVals orderIndices part
    if start > stop then return if func = .count then .int 0 else .null
    else
      let frameRows ← (List.range' start (stop + 1 - start)).mapM fun p => index part p
      evalAggregate func column columns frameRows

/-- The values of a call over one sorted partition. -/
def windowValues (call : WindowCall) (columns : List String) (orderIndices : List (Nat × Bool))
    (part : List Row) : Outcome ExecError (List Value) :=
  match call.func with
  | .rowNumber => return (List.range part.length).map fun pos => .int (Int64.ofNat pos + 1)
  | .rank => rankRows orderIndices false 0 1 1 none part
  | .denseRank => rankRows orderIndices true 0 1 1 none part
  | .lag column offset default => shiftRows part columns column default fun pos => pos - offset
  | .lead column offset default => shiftRows part columns column default fun pos => pos + offset
  | .agg func column =>
    aggregateFrames part columns func column orderIndices
      (call.spec.frame.getD (defaultFrame call.spec.orderBy))

/-- The partitions one after another, each writing the results of its rows. -/
def windowPartitions (call : WindowCall) (columns : List String)
    (orderIndices : List (Nat × Bool)) : List (Row × List (Nat × Row)) → List Value →
    Outcome ExecError (List Value)
  | [], result => return result
  | (_, part) :: parts, result => do
    let sorted ← sortByColumns Prod.snd orderIndices part
    let vals ← windowValues call columns orderIndices (sorted.map Prod.snd)
    let result := (sorted.zip vals).foldl (fun result (x, v) => result.set x.1 v) result
    windowPartitions call columns orderIndices parts result

/-- One window call: a value for every row. -/
def evalWindowCall (call : WindowCall) (columns : List String) (rows : List Row) :
    Outcome ExecError (List Value) := do
  let partitionIndices ← columnIndices columns .unknownColumn call.spec.partitionBy
  let orderIndices ← sortIndices columns call.spec.orderBy
  let parts ← groupRows partitionIndices (rows.mapIdx fun i r => (r, (i, r))) []
  windowPartitions call columns orderIndices parts (List.replicate rows.length .null)

/-- Append the column of every window call; all see the table as it was. -/
def applyWindowFuncs (table : Table) (windowFuncs : List (String × WindowCall)) :
    Outcome ExecError Table := do
  let outputs ← windowFuncs.mapM fun (_, call) => evalWindowCall call table.columns table.rows
  let rows ← (table.rows.mapIdx fun i r => (i, r)).mapM fun (i, r) => do
    let extra ← outputs.mapM fun output => index output i
    return r ++ extra
  return ⟨table.columns ++ windowFuncs.map Prod.fst, rows⟩

end Archon
