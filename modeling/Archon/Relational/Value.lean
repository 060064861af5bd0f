import Archon.Lib.Outcome
import Archon.Relational.Ast

/-!
# Archon.Relational.Value

Values, rows and result sets
(`crates/tpt-archon-relational/src/executor/value.rs`).

`Value.eq` is the `==` of the source, in which a NaN differs from itself and
the zeros are equal; `Value.cmp` is its `Ord`.
-/

namespace Archon

/-- A single value of a row. -/
inductive Value where
  | int (i : Int64)
  | float (f : F32)
  | text (s : String)
  | vector (v : List F32)
  | bool (b : Bool)
  | null
  deriving DecidableEq

/-- Elementwise `==` of two slices. -/
def sliceEq (eq : α → α → Bool) : List α → List α → Bool
  | [], [] => true
  | a :: as, b :: bs => eq a b && sliceEq eq as bs
  | _, _ => false

/-- Lexicographic `cmp` of two slices. -/
def sliceCmp (cmp : α → α → Ordering) : List α → List α → Ordering
  | [], [] => .eq
  | [], _ :: _ => .lt
  | _ :: _, [] => .gt
  | a :: as, b :: bs => (cmp a b).then (sliceCmp cmp as bs)

namespace Value

def isNull : Value → Bool
  | .null => true
  | _ => false

/-- `==`. -/
def eq : Value → Value → Bool
  | .int a, .int b => a == b
  | .float a, .float b => a.eq b
  | .text a, .text b => a == b
  | .vector a, .vector b => sliceEq F32.eq a b
  | .bool a, .bool b => a == b
  | .null, .null => true
  | _, _ => false

/-- The order of `Ord`: integers, booleans, floats, texts, vectors, `NULL`. -/
def cmp : Value → Value → Ordering
  | .int a, .int b => compare a b
  | .float a, .float b => a.totalCmp b
  | .text a, .text b => compare a b
  | .bool a, .bool b => compare a b
  | .vector a, .vector b =>
    (compare a.length b.length).then
      (((a.zip b).map fun (x, y) => compare x.bits y.bits).find? (· != .eq) |>.getD .eq)
  | .null, .null => .eq
  | .null, _ => .gt
  | _, .null => .lt
  | .int _, _ => .lt
  | _, .int _ => .gt
  | .bool _, _ => .lt
  | _, .bool _ => .gt
  | .float _, _ => .lt
  | _, .float _ => .gt
  | .text _, .vector _ => .lt
  | .vector _, .text _ => .gt

end Value

abbrev Row := List Value

/-- `row == other`. -/
def rowEq : Row → Row → Bool := sliceEq Value.eq

/-- `row.cmp(other)`. -/
def rowCmp : Row → Row → Ordering := sliceCmp Value.cmp

/-- `rows.contains(row)`. -/
def containsRow (rows : List Row) (row : Row) : Bool := rows.any fun r => rowEq r row

/-- `rows.sort()`, which is stable. -/
def sortRows (rows : List Row) : List Row := rows.mergeSort fun a b => rowCmp a b != .gt

/-- `rows.dedup()`: drop every row equal to the one kept before it. -/
def dedupRows : List Row → List Row
  | [] => []
  | r :: rows => r :: go r rows
where
  go (prev : Row) : List Row → List Row
    | [] => []
    | r :: rows => if rowEq r prev then go prev rows else r :: go r rows

/-- An in-memory table. -/
structure Table where
  columns : List String
  rows : List Row
  deriving DecidableEq

/-- Errors of the executor. -/
inductive ExecError where
  | unknownColumn (name : String)
  | typeMismatch
  | groupByColumnNotFound (name : String)
  | unresolvedSubquery
  | unsupported (msg : String)
  deriving DecidableEq

/-- The result of a statement; `affected` counts the rows of a DML statement. -/
structure ResultSet where
  columns : List String := []
  rows : List Row := []
  affected : Option Nat := none
  deriving DecidableEq

/-- A literal as a runtime value. -/
def Literal.toValue : Literal → Value
  | .int v => .int v
  | .float v => .float v
  | .text s => .text s
  | .vector v => .vector v
  | .bool b => .bool b
  | .null => .null

/-! ## Column names -/

/-- `columns.iter().position(|c| c == name)`. -/
def columnPosition (columns : List String) (name : String) : Option Nat :=
  columns.findIdx? fun c => c == name

def hasDot (s : String) : Bool := s.toList.any (· == '.')

/-- The part of a name behind its last dot, the whole name if it has none. -/
def unqualified (s : String) : String :=
  String.ofList (s.toList.reverse.takeWhile (· != '.')).reverse

/-- The part of a name before its last dot. -/
def qualifier (s : String) : String :=
  String.ofList ((s.toList.reverse.dropWhile (· != '.')).drop 1).reverse

/-- A name cut at its first dot, if it has one. -/
def splitFirstDot (s : String) : Option (String × String) :=
  if hasDot s then
    some (String.ofList (s.toList.takeWhile (· != '.')),
      String.ofList ((s.toList.dropWhile (· != '.')).drop 1))
  else none

/-- `table.column`. -/
def qualify (table column : String) : String := table ++ "." ++ column

example : unqualified "t.u.id" = "id" ∧ qualifier "t.u.id" = "t.u" := by decide

end Archon
