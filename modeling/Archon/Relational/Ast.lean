import Archon.Relational.Float

/-!
# Archon.Relational.Ast

The statements the parser produces
(`crates/tpt-archon-relational/src/parser/ast.rs`).
-/

namespace Archon

/-- A comparison operator. -/
inductive CmpOp where
  | eq
  | ne
  | lt
  | le
  | gt
  | ge
  deriving DecidableEq

/-- A value literal. -/
inductive Literal where
  | int (v : Int64)
  | float (v : F32)
  | text (s : String)
  | vector (v : List F32)
  | bool (b : Bool)
  | null
  deriving DecidableEq

/-- A field of `EXTRACT(field FROM source)`. -/
inductive DateTimeField where
  | year
  | month
  | day
  | hour
  | minute
  | second
  deriving DecidableEq

/-- An aggregate function. -/
inductive AggregateFunc where
  | count
  | sum
  | avg
  | min
  | max
  deriving DecidableEq

/-- A column with a sort direction. -/
structure OrderBy where
  column : String
  descending : Bool
  deriving DecidableEq

/-- A window function. -/
inductive WindowFunc where
  | rowNumber
  | rank
  | denseRank
  | lag (column : String) (offset : Int64) (default : Option Literal)
  | lead (column : String) (offset : Int64) (default : Option Literal)
  | agg (func : AggregateFunc) (column : String)
  deriving DecidableEq

/-- One bound of a window frame. -/
inductive FrameBound where
  | unboundedPreceding
  | preceding (k : UInt64)
  | currentRow
  | following (k : UInt64)
  | unboundedFollowing
  deriving DecidableEq

/-- Whether the bounds count rows or `ORDER BY` values. -/
inductive FrameKind where
  | rows
  | range
  deriving DecidableEq

structure WindowFrame where
  kind : FrameKind
  start : FrameBound
  stop : FrameBound
  deriving DecidableEq

/-- `OVER (PARTITION BY ... ORDER BY ... [frame])`. -/
structure WindowSpec where
  partitionBy : List String
  orderBy : List OrderBy
  frame : Option WindowFrame
  deriving DecidableEq

structure WindowCall where
  func : WindowFunc
  spec : WindowSpec
  deriving DecidableEq

inductive JoinType where
  | inner
  | left
  | right
  | full
  | cross
  deriving DecidableEq

/-- `ORDER BY cosine(column, ?) LIMIT k`; `param` counts from 1. -/
structure OrderByCosine where
  column : String
  param : Nat
  k : UInt64
  deriving DecidableEq

/-- A set operation; `union true` is `UNION ALL`. -/
inductive SetOperation where
  | union (all : Bool)
  | intersect
  | except
  deriving DecidableEq

mutual

/-- A boolean expression. -/
inductive Expr where
  | cmp (column : String) (op : CmpOp) (value : Literal)
  | cmpColumn (left : String) (op : CmpOp) (right : String)
  | isNull (column : String) (negated : Bool)
  | like (column : String) (pattern : String)
  | inInt (column : String) (values : List Int64)
  | betweenInt (column : String) (low high : Int64)
  | and (l r : Expr)
  | or (l r : Expr)
  | not (inner : Expr)
  | existsQuery (query : SelectStatement)
  | inSubquery (column : String) (query : SelectStatement)
  | scalarCmp (column : String) (op : CmpOp) (query : SelectStatement)
  | agg (func : AggregateFunc) (column : String)
  | aggCmp (func : AggregateFunc) (column : String) (op : CmpOp) (value : Literal)
  | extractCmp (field : DateTimeField) (source : String) (op : CmpOp) (value : Literal)

/-- A table, view, CTE or derived table in `FROM` or `JOIN`. -/
inductive TableRef where
  | named (name : String) (aliasName : Option String)
  | subquery (query : SelectStatement) (aliasName : String)

structure Join where
  jtype : JoinType
  table : TableRef
  onExpr : Option Expr

/-- A `SELECT` statement. -/
structure SelectStatement where
  columns : List String
  star : Bool
  table : TableRef
  filter : Option Expr
  joins : List Join
  groupBy : List String
  aggregates : List (String × AggregateFunc × String)
  windowFuncs : List (String × WindowCall)
  orderBy : List OrderBy
  orderByCosine : Option OrderByCosine
  limit : Option UInt64
  having : Option Expr
  withCtes : List CTE

/-- A common table expression, recursive if it has a recursive term. -/
structure CTE where
  name : String
  query : SelectStatement
  recursiveTerm : Option (SetOperation × SelectStatement)

end

namespace TableRef

/-- The alias if there is one, else the table name. -/
def name : TableRef → String
  | .named n aliasName => aliasName.getD n
  | .subquery _ aliasName => aliasName

def tableName : TableRef → String
  | .named n _ => n
  | .subquery _ aliasName => aliasName

end TableRef

/-- An expression that is not a connective. -/
def Expr.isAtom : Expr → Bool
  | .and _ _ => false
  | .or _ _ => false
  | .not _ => false
  | _ => true

/-- Induction over the connectives. -/
@[elab_as_elim] theorem Expr.connectives {motive : Expr → Prop}
    (and : ∀ l r, motive l → motive r → motive (.and l r))
    (or : ∀ l r, motive l → motive r → motive (.or l r))
    (not : ∀ inner, motive inner → motive (.not inner))
    (atom : ∀ e, e.isAtom = true → motive e) : ∀ e, motive e
  | .and l r => and l r (connectives and or not atom l) (connectives and or not atom r)
  | .or l r => or l r (connectives and or not atom l) (connectives and or not atom r)
  | .not inner => not inner (connectives and or not atom inner)
  | .cmp .. | .cmpColumn .. | .isNull .. | .like .. | .inInt .. | .betweenInt ..
  | .existsQuery .. | .inSubquery .. | .scalarCmp .. | .agg .. | .aggCmp .. | .extractCmp .. =>
    atom _ rfl

/-! ## Statements -/

structure Assignment where
  column : String
  value : Literal
  deriving DecidableEq

structure InsertStatement where
  table : String
  columns : List String
  values : List (List Literal)
  deriving DecidableEq

structure UpdateStatement where
  table : String
  assignments : List Assignment
  filter : Option Expr

structure DeleteStatement where
  table : String
  filter : Option Expr

/-- A column type. -/
inductive ColumnType where
  | int
  | boolean
  | float
  | double
  | numeric
  | text
  | varchar (n : Nat)
  | date
  | timestamp
  | vector
  deriving DecidableEq

inductive ColumnConstraint where
  | notNull
  | primaryKey
  | unique
  deriving DecidableEq

inductive TableConstraint where
  | primaryKey (columns : List String)
  | unique (columns : List String)
  | foreignKey (columns : List String) (refTable : String) (refColumns : List String)
  | check (expr : Expr)

structure ColumnDef where
  name : String
  ctype : ColumnType
  constraints : List ColumnConstraint
  deriving DecidableEq

structure CreateTableStatement where
  table : String
  columns : List ColumnDef
  constraints : List TableConstraint

structure CreateViewStatement where
  name : String
  query : SelectStatement

inductive AlterTableOp where
  | addColumn (col : ColumnDef)
  | dropColumn (name : String)
  | renameColumn (oldName newName : String)
  deriving DecidableEq

structure AlterTableStatement where
  table : String
  op : AlterTableOp
  deriving DecidableEq

/-- `SELECT ... { UNION | INTERSECT | EXCEPT } SELECT ...`. -/
structure CompoundStatement where
  first : SelectStatement
  operations : List (SetOperation × SelectStatement)
  orderBy : List OrderBy
  limit : Option UInt64

structure SelectLiteralItem where
  value : Literal
  aliasName : Option String
  deriving DecidableEq

inductive Statement where
  | select (s : SelectStatement)
  | selectLiteral (items : List SelectLiteralItem)
  | compound (cm : CompoundStatement)
  | insert (i : InsertStatement)
  | update (u : UpdateStatement)
  | delete (d : DeleteStatement)
  | createTable (ct : CreateTableStatement)
  | createView (cv : CreateViewStatement)
  | dropView (name : String)
  | alterTable (at_ : AlterTableStatement)
  | begin
  | commit
  | rollback
  | setParameter (name value : String)
  | showParameter (name : String)
  | resetParameter (name : String)
  | resetAll

end Archon
