import Archon.Lib.Utf8
import Archon.Relational.Value

/-!
# Archon.Relational.Expr

Evaluation of boolean expressions against one row
(`crates/tpt-archon-relational/src/executor/expr.rs`), in Kleene's
three-valued logic: `none` is `NULL`.
-/

namespace Archon

open Outcome

/-- The column name an aggregate gets without an alias. -/
def aggDefaultAlias (func : AggregateFunc) (column : String) : String :=
  let tag := match func with
    | .count => "count"
    | .sum => "sum"
    | .avg => "avg"
    | .min => "min"
    | .max => "max"
  if column == "*" then tag else tag ++ "(" ++ column ++ ")"

/-- A scope: column names and the row they name. -/
abbrev Scope := List String × Row

/-- The first column of `columns` that satisfies `p`, read from `row`. -/
def lookupColumn (columns : List String) (row : Row) (p : String → Bool) :
    Outcome ε (Option Value) :=
  match columns.findIdx? p with
  | some idx => do
    let v ← index row idx
    return some v
  | none => return none

/-- The same in a stack of scopes, innermost first. -/
def lookupOuter (p : String → Bool) : List Scope → Outcome ε (Option Value)
  | [] => return none
  | (ocols, orow) :: outer => do
    match ← lookupColumn ocols orow p with
    | some v => return some v
    | none => lookupOuter p outer

/-- The value a name stands for: an exact match in the row, then, for a
qualified name, an exact match in the enclosing scopes; then a match of the
unqualified part in both.  A qualifier that is not in scope names nothing. -/
def findValue (name : String) (columns : List String) (row : Row) (outer : List Scope)
    (validQualifiers : List String) : Outcome ε (Option Value) := do
  match ← lookupColumn columns row (· == name) with
  | some v => return some v
  | none =>
    if hasDot name then
      match ← lookupOuter (· == name) outer with
      | some v => return some v
      | none =>
        if !validQualifiers.isEmpty && !validQualifiers.contains (qualifier name) then return none
        let stripped := unqualified name
        match ← lookupColumn columns row (unqualified · == stripped) with
        | some v => return some v
        | none => lookupOuter (unqualified · == stripped) outer
    else
      match ← lookupColumn columns row (unqualified · == name) with
      | some v => return some v
      | none => lookupOuter (unqualified · == name) outer

/-! ## Operators -/

def evalCmp (op : CmpOp) (ord : Ordering) : Bool :=
  match op with
  | .eq => ord == .eq
  | .ne => ord != .eq
  | .lt => ord == .lt
  | .le => ord != .gt
  | .gt => ord == .gt
  | .ge => ord != .lt

/-- Comparisons with a NaN are false, except `<>`. -/
def evalFloatCmp (op : CmpOp) (lhs rhs : F32) : Bool :=
  match lhs.partialCmp rhs with
  | some ord => evalCmp op ord
  | none => op == .ne

/-- `%` matches any bytes, `_` one byte. -/
def likeRecurse (text : List UInt8) : List UInt8 → Bool
  | [] => text.isEmpty
  | p :: pat =>
    if p == 37 then (List.range (text.length + 1)).any fun i => likeRecurse (text.drop i) pat
    else if p == 95 then
      match text with
      | [] => false
      | _ :: text => likeRecurse text pat
    else
      match text with
      | [] => false
      | t :: text => if t != p then false else likeRecurse text pat

def likeMatch (text pattern : String) : Bool :=
  likeRecurse (utf8Bytes text) (utf8Bytes pattern)

def MICROS_PER_DAY : Int64 := 86400000000

def DAYS_LIKE_THRESHOLD : Nat := 1000000000000

/-- `a.saturating_mul(b)`. -/
def saturatingMul (a b : Int64) : Int64 :=
  let p := a.toInt * b.toInt
  if p > Int64.maxValue.toInt then Int64.maxValue
  else if p < Int64.minValue.toInt then Int64.minValue
  else a * b

/-- Days since 1970-01-01 as year, month and day. -/
def civilFromDays (days : Int64) : Int64 × Int64 × Int64 :=
  let z := days + 719468
  let era := (if z ≥ 0 then z else z - 146096) / 146097
  let doe := z - era * 146097
  let yoe := (doe - doe / 1460 + doe / 36524 - doe / 146096) / 365
  let y := yoe + era * 400
  let doy := doe - (365 * yoe + yoe / 4 - yoe / 100)
  let mp := (5 * doy + 2) / 153
  let d := doy - (153 * mp + 2) / 5 + 1
  let m := if mp < 10 then mp + 3 else mp - 9
  let y := if m ≤ 2 then y + 1 else y
  (y, m, d)

/-- A field of a date (days) or a timestamp (microseconds); small values are
taken to be days. -/
def extractDatetimeField (field : DateTimeField) (value : Int64) : Int64 :=
  let micros :=
    if value.toInt.natAbs < DAYS_LIKE_THRESHOLD then saturatingMul value MICROS_PER_DAY else value
  match field with
  | .year => (civilFromDays (micros / MICROS_PER_DAY)).1
  | .month => (civilFromDays (micros / MICROS_PER_DAY)).2.1
  | .day => (civilFromDays (micros / MICROS_PER_DAY)).2.2
  | .hour => (micros / 1000000 / 3600) % 24
  | .minute => (micros / 1000000 / 60) % 60
  | .second => micros / 1000000

/-! ## Expressions -/

/-- `NULL` on either side is unknown; values of different kinds do not
compare. -/
def compareValues (op : CmpOp) : Value → Value → Outcome ExecError (Option Bool)
  | .null, _ => return none
  | _, .null => return none
  | .int l, .int r => return some (evalCmp op (compare l r))
  | .float l, .float r => return some (evalFloatCmp op l r)
  | .text l, .text r => return some (evalCmp op (compare l r))
  | .bool l, .bool r => return some (evalCmp op (compare l r))
  | _, _ => fail .typeMismatch

/-- `AggCmp` has no arm for booleans. -/
def compareAggregate (op : CmpOp) : Value → Value → Outcome ExecError (Option Bool)
  | .null, _ => return none
  | _, .null => return none
  | .int l, .int r => return some (evalCmp op (compare l r))
  | .float l, .float r => return some (evalFloatCmp op l r)
  | .text l, .text r => return some (evalCmp op (compare l r))
  | _, _ => fail .typeMismatch

def kleeneAnd : Option Bool → Option Bool → Option Bool
  | some false, _ => some false
  | _, some false => some false
  | some true, some true => some true
  | _, _ => none

def kleeneOr : Option Bool → Option Bool → Option Bool
  | some true, _ => some true
  | _, some true => some true
  | some false, some false => some false
  | _, _ => none

def kleeneNot : Option Bool → Option Bool
  | some true => some false
  | some false => some true
  | none => none

/-- Evaluate an expression on a row, with the enclosing scopes; subqueries
never get here. -/
def evalExprScoped (columns : List String) (row : Row) (outer : List Scope)
    (validQualifiers : List String) : Expr → Outcome ExecError (Option Bool)
  | .cmp column op value => do
    let v ← find column
    compareValues op v value.toValue
  | .cmpColumn left op right => do
    let lv ← find left
    let rv ← find right
    compareValues op lv rv
  | .isNull column negated => do
    let v ← find column
    return some (v.isNull != negated)
  | .like column pattern => do
    match ← find column with
    | .text t => return some (likeMatch t pattern)
    | .null => return none
    | _ => return some false
  | .inInt column values => do
    match ← find column with
    | .int v => return some (values.contains v)
    | .null => return none
    | _ => return some false
  | .betweenInt column low high => do
    match ← find column with
    | .int v => return some (decide (v ≥ low) && decide (v ≤ high))
    | .null => return none
    | _ => return some false
  | .and l r => do
    let lv ← evalExprScoped columns row outer validQualifiers l
    let rv ← evalExprScoped columns row outer validQualifiers r
    return kleeneAnd lv rv
  | .or l r => do
    let lv ← evalExprScoped columns row outer validQualifiers l
    let rv ← evalExprScoped columns row outer validQualifiers r
    return kleeneOr lv rv
  | .not inner => do
    let v ← evalExprScoped columns row outer validQualifiers inner
    return kleeneNot v
  | .agg func column => do
    let v ← find (aggDefaultAlias func column)
    return some (!v.isNull)
  | .aggCmp func column op value => do
    let v ← find (aggDefaultAlias func column)
    compareAggregate op v value.toValue
  | .extractCmp field source op value => do
    let v ← find source
    match v, value.toValue with
    | .null, _ => return none
    | _, .null => return none
    | .int n, .int r => return some (evalCmp op (compare (extractDatetimeField field n) r))
    | _, _ => fail .typeMismatch
  | .existsQuery _ => fail .unresolvedSubquery
  | .inSubquery _ _ => fail .unresolvedSubquery
  | .scalarCmp _ _ _ => fail .unresolvedSubquery
where
  find (name : String) : Outcome ExecError Value := do
    let v ← findValue name columns row outer validQualifiers
    okOr v (.unknownColumn name)

section

variable (columns : List String) (row : Row) (outer : List Scope) (qualifiers : List String)

theorem evalExprScoped_cmp (column : String) (op : CmpOp) (value : Literal) :
    evalExprScoped columns row outer qualifiers (.cmp column op value) = (do
      let v ← evalExprScoped.find columns row outer qualifiers column
      compareValues op v value.toValue) := rfl

theorem evalExprScoped_and (l r : Expr) :
    evalExprScoped columns row outer qualifiers (.and l r) = do
    let lv ← evalExprScoped columns row outer qualifiers l
    let rv ← evalExprScoped columns row outer qualifiers r
    return kleeneAnd lv rv := rfl

theorem evalExprScoped_or (l r : Expr) : evalExprScoped columns row outer qualifiers (.or l r) = do
    let lv ← evalExprScoped columns row outer qualifiers l
    let rv ← evalExprScoped columns row outer qualifiers r
    return kleeneOr lv rv := rfl

theorem evalExprScoped_not (e : Expr) : evalExprScoped columns row outer qualifiers (.not e) = do
    let v ← evalExprScoped columns row outer qualifiers e
    return kleeneNot v := rfl

end

/-- `NULL` counts as false. -/
def evalExpr (expr : Expr) (columns : List String) (row : Row) (validQualifiers : List String) :
    Outcome ExecError Bool := do
  let v ← evalExprScoped columns row [] validQualifiers expr
  return v.getD false

end Archon
