import Archon.Relational.Value

/-!
# Archon.Relational.Schema

Table schemas and the errors of statements
(`crates/tpt-archon-relational/src/database/schema.rs`).
-/

namespace Archon

/-- `columns` must name a key `refColumns` of `refTable`. -/
structure ForeignKey where
  columns : List String
  refTable : String
  refColumns : List String
  deriving DecidableEq

/-- Column names and types in order, with the declared constraints. -/
structure Schema where
  columns : List String := []
  types : List ColumnType := []
  notNull : List String := []
  primaryKey : Option (List String) := none
  unique : List (List String) := []
  foreignKeys : List ForeignKey := []
  checks : List Expr := []

def Schema.indexOf (s : Schema) (name : String) : Option Nat := columnPosition s.columns name

/-- The message of a foreign key violation, by its parts. -/
inductive FkMessage where
  | noTable (refTable : String)
  | noMatchingKey (key : Row) (refTable : String)
  | stillReferenced (table : String) (columns : List String)
  deriving DecidableEq

/-- Errors of a statement. -/
inductive DbError where
  | unknownColumn (name : String)
  | typeMismatch
  | columnTypeMismatch (name : String)
  | arityMismatch
  | notAVectorColumn (name : String)
  | missingParam
  | rowNotFound (id : Nat)
  | corruptRow (id : Nat)
  | unknownTable (name : String)
  | transactionError (msg : String)
  | tableAlreadyExists (name : String)
  | viewAlreadyExists (name : String)
  | unknownView (name : String)
  | recursiveView (name : String)
  | unsupported (msg : String)
  | columnCountMismatch
  | subqueryCardinality (msg : String)
  | notNullViolation (column : String)
  | uniqueViolation (columns : String)
  | checkViolation (msg : String)
  | foreignKeyViolation (msg : FkMessage)
  | exec (e : ExecError)
  deriving DecidableEq

/-- `DbError::from`. -/
def ExecError.toDb : ExecError → DbError
  | .unknownColumn c => .unknownColumn c
  | .typeMismatch => .typeMismatch
  | .groupByColumnNotFound c => .unknownColumn c
  | .unresolvedSubquery => .unsupported "internal: subquery reached the pure evaluator unresolved"
  | .unsupported msg => .unsupported msg

/-- `?` on a result of the executor. -/
def fromExec (r : Outcome ExecError α) : Outcome DbError α := r.mapErr ExecError.toDb

theorem fromExec_bind (x : Outcome ExecError α) (f : α → Outcome ExecError β) :
    fromExec (x >>= f) = fromExec x >>= fun a => fromExec (f a) :=
  Outcome.mapErr_bind ExecError.toDb x f

theorem fromExec_eq_ok {x : Outcome ExecError α} {a : α} : fromExec x = .ok a ↔ x = .ok a := by
  cases x with
  | ok b => simp [fromExec, Outcome.mapErr]
  | error e => cases e <;> simp [fromExec, Outcome.mapErr]

end Archon
