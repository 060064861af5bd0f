import Archon.Pgwire.Writer
import Archon.Relational.Session

/-!
# Archon.Pgwire.SimpleQuery

The simple query protocol (`crates/out-archon-pgwire/src/simple_query.rs`,
with `session.rs` and `sqlstate.rs`): a query text is split into pieces, and
each piece is parsed and executed within the connection's session.

The parser of the engine and the catalog emulation are parameters
(`FrontEnd`).  `turn` is one turn of the loop over the pieces, with what it did
(`QueryTurn`); the messages sent are read off the turns.
-/

namespace Archon

variable {db db' : Database}

/-! ## Sessions -/

/-- Transaction status for the current session. -/
inductive SessionTxnStatus where
  | idle
  | inTransaction
  | failed
  deriving DecidableEq, Repr

def SessionTxnStatus.toTransactionStatus : SessionTxnStatus → TxnStatus
  | .idle => .idle
  | .inTransaction => .inTransaction
  | .failed => .failed

/-- The state of a connection that queries read or change. -/
structure Session where
  txnStatus : SessionTxnStatus := .idle
  id : Nat
  /-- None is unlimited. -/
  statementTimeoutMs : Option UInt64 := none

namespace Session

def setFailed (s : Session) : Session := { s with txnStatus := .failed }

def setStatementTimeout (s : Session) (ms : UInt64) : Session :=
  { s with statementTimeoutMs := if ms = 0 then none else some ms }

end Session

/-- `saturating_mul`. -/
def saturatingMulU64 (a b : Nat) : UInt64 := UInt64.ofNat (min (a * b) (UInt64.size - 1))

/-- A number and its unit. -/
def splitUnit (v : Text) : Text × Text :=
  (trim (v.takeWhile Char.isDigit), trim (v.dropWhile Char.isDigit))

/-- `parse::<u64>()` of a text of digits. -/
def parseDigits (num : Text) : Option Nat :=
  if num = [] then none
  else
    let n := num.foldl (fun n c => 10 * n + (c.toNat - '0'.toNat)) 0
    if n < UInt64.size then some n else none

/-- A `statement_timeout` value in milliseconds. -/
def parseStatementTimeout (value : Text) : Option UInt64 :=
  let v := (trim value).map Char.toLower
  if v = [] ∨ v = "off".toList ∨ v = "0".toList ∨ v = "0ms".toList then some 0
  else
    let (num, unit) := splitUnit v
    match parseDigits num with
    | none => none
    | some n =>
      if unit = [] ∨ unit = "ms".toList then some (UInt64.ofNat n)
      else if unit = "s".toList then some (saturatingMulU64 n 1000)
      else if unit = "min".toList ∨ unit = "m".toList then some (saturatingMulU64 n 60000)
      else none

/-! ## Error codes -/

/-- A five-character SQLSTATE code. -/
abbrev SqlState := String

namespace SqlState

def FEATURE_NOT_SUPPORTED : SqlState := "0A000"
def DUPLICATE_TABLE : SqlState := "42P07"
def UNDEFINED_TABLE : SqlState := "42P01"
def UNDEFINED_COLUMN : SqlState := "42703"
def SYNTAX_ERROR : SqlState := "42601"
def DATA_EXCEPTION : SqlState := "22000"
def NOT_NULL_VIOLATION : SqlState := "23502"
def FOREIGN_KEY_VIOLATION : SqlState := "23503"
def UNIQUE_VIOLATION : SqlState := "23505"
def CHECK_VIOLATION : SqlState := "23514"
def INTERNAL_ERROR : SqlState := "XX000"
def ACTIVE_SQL_TRANSACTION : SqlState := "25001"

end SqlState

/-- `sqlstate_for_db_error`. -/
def sqlstateForDbError : DbError → SqlState
  | .unknownColumn _ => .UNDEFINED_COLUMN
  | .typeMismatch => .DATA_EXCEPTION
  | .columnTypeMismatch _ => .DATA_EXCEPTION
  | .arityMismatch => .DATA_EXCEPTION
  | .notAVectorColumn _ => .DATA_EXCEPTION
  | .missingParam => .DATA_EXCEPTION
  | .rowNotFound _ => .INTERNAL_ERROR
  | .corruptRow _ => .DATA_EXCEPTION
  | .unknownTable _ => .UNDEFINED_TABLE
  | .unknownView _ => .UNDEFINED_TABLE
  | .transactionError _ => .ACTIVE_SQL_TRANSACTION
  | .tableAlreadyExists _ => .DUPLICATE_TABLE
  | .viewAlreadyExists _ => .DUPLICATE_TABLE
  | .recursiveView _ => .SYNTAX_ERROR
  | .unsupported _ => .FEATURE_NOT_SUPPORTED
  | .columnCountMismatch => .DATA_EXCEPTION
  | .subqueryCardinality _ => .DATA_EXCEPTION
  | .notNullViolation _ => .NOT_NULL_VIOLATION
  | .uniqueViolation _ => .UNIQUE_VIOLATION
  | .checkViolation _ => .CHECK_VIOLATION
  | .foreignKeyViolation _ => .FOREIGN_KEY_VIOLATION
  | .exec _ => .INTERNAL_ERROR

/-! ## Pieces of a query -/

/-- Where `split_statements` is in the text. -/
inductive SplitMode where
  | plain
  | string
  | dollarQuote
  | lineComment
  | blockComment

/-- The pieces so far with the one that ends here. -/
def endPiece (stmts : List Text) (current : Text) : List Text :=
  if trim current = [] then stmts else stmts ++ [trim current]

/-- The loop of `split_statements`. -/
def splitLoop (stmts : List Text) (current : Text) : SplitMode → Text → List Text
  | _, [] => endPiece stmts current
  | .dollarQuote, '$' :: '$' :: rest => splitLoop stmts (current ++ ['$', '$']) .plain rest
  | .dollarQuote, c :: rest => splitLoop stmts (current ++ [c]) .dollarQuote rest
  | .string, c :: rest =>
    splitLoop stmts (current ++ [c]) (if c = '\'' then .plain else .string) rest
  -- the rest of the line is dropped, its end is kept
  | .lineComment, c :: rest =>
    if c = '\n' then splitLoop stmts (current ++ [c]) .plain rest
    else splitLoop stmts current .lineComment rest
  -- a block comment is copied but for its first star
  | .blockComment, '*' :: '/' :: rest => splitLoop stmts (current ++ ['*', '/']) .plain rest
  | .blockComment, c :: rest => splitLoop stmts (current ++ [c]) .blockComment rest
  | .plain, '$' :: '$' :: rest => splitLoop stmts (current ++ ['$', '$']) .dollarQuote rest
  | .plain, '-' :: '-' :: rest => splitLoop stmts (current ++ ['-']) .lineComment rest
  | .plain, '/' :: '*' :: rest => splitLoop stmts (current ++ ['/']) .blockComment rest
  | .plain, c :: rest =>
    if c = ';' then splitLoop (endPiece stmts current) [] .plain rest
    else splitLoop stmts (current ++ [c]) (if c = '\'' then .string else .plain) rest

def splitStatements (query : Text) : List Text := splitLoop [] [] .plain query

/-- The loop of `strip_comments`. -/
def stripLoop (out : Text) : SplitMode → Text → Text
  | _, [] => out
  | .string, c :: rest => stripLoop (out ++ [c]) (if c = '\'' then .plain else .string) rest
  | .lineComment, c :: rest =>
    if c = '\n' then stripLoop (out ++ [c]) .plain rest else stripLoop out .lineComment rest
  | .blockComment, '*' :: '/' :: rest => stripLoop out .plain rest
  | .blockComment, _ :: rest => stripLoop out .blockComment rest
  | _, '-' :: '-' :: rest => stripLoop out .lineComment rest
  | _, '/' :: '*' :: rest => stripLoop out .blockComment rest
  | _, c :: rest => stripLoop (out ++ [c]) (if c = '\'' then .string else .plain) rest

def stripComments (sql : Text) : Text := stripLoop [] .plain sql

/-! ## One piece -/

/-- What the query handler is built on: the parser, the catalog emulation, and
the stack depth nested queries may use. -/
structure FrontEnd where
  parseStatement : Text → Except Text Statement
  handleCatalog : Statement → Database → Option ResultSet
  depth : Nat

def FrontEnd.parseSql (fe : FrontEnd) (raw : Text) : Except Text Statement :=
  fe.parseStatement (stripComments raw)

/-- What one turn of the loop has done. -/
inductive QueryTurn where
  /-- The piece does not parse. -/
  | unparsed (raw : Text)
  | catalog (rs : ResultSet)
  | timeoutSet
  | timeoutRefused (value : Text)
  | executed (stmt : Statement) (rs : ResultSet)
  | failed (stmt : Statement) (e : DbError) (raw : Text)

/-- `update_txn_status`. -/
def updateTxnStatus (session : Session) (stmt : Statement) : Session :=
  { session with txnStatus :=
      match session.txnStatus, stmt with
      | .inTransaction, .commit | .inTransaction, .rollback => .idle
      | .inTransaction, _ => .inTransaction
      | .failed, .rollback => .idle
      | .failed, _ => .failed
      | .idle, .begin => .inTransaction
      | .idle, _ => .idle }

/-- `SET statement_timeout`, which does not reach the database. -/
def timeoutValue : Statement → Option Text
  | .setParameter name value =>
    if name.toList.map Char.toLower = "statement_timeout".toList then some value.toList else none
  | _ => none

/-- One turn of the loop in `handle_simple_query`; none if the engine panics
or overflows the stack. -/
def turn (fe : FrontEnd) (raw : Text) (session : Session) (db : Database) :
    Option (QueryTurn × Session × Database) :=
  match fe.parseSql raw with
  | .error _ => some (.unparsed raw, session.setFailed, db)
  | .ok stmt =>
    match fe.handleCatalog stmt db with
    | some rs => some (.catalog rs, updateTxnStatus session (.selectLiteral []), db)
    | none =>
      match timeoutValue stmt with
      | some value =>
        match parseStatementTimeout value with
        | some ms => some (.timeoutSet, session.setStatementTimeout ms, db)
        | none => some (.timeoutRefused value, session.setFailed, db)
      | none =>
        match executeInSession fe.depth session.id stmt [] db with
        | (.ok rs, db) => some (.executed stmt rs, updateTxnStatus session stmt, db)
        | (.error (.err e), db) => some (.failed stmt e raw, session.setFailed, db)
        | (.error _, _) => none

/-- The ways a turn can go. -/
inductive TurnStep (fe : FrontEnd) (raw : Text) (session : Session) (db : Database) :
    QueryTurn → Session → Database → Prop where
  | unparsed {msg : Text} : fe.parseSql raw = .error msg →
      TurnStep fe raw session db (.unparsed raw) session.setFailed db
  | catalog {stmt : Statement} {rs : ResultSet} : fe.parseSql raw = .ok stmt →
      fe.handleCatalog stmt db = some rs →
      TurnStep fe raw session db (.catalog rs) (updateTxnStatus session (.selectLiteral [])) db
  | timeoutSet {stmt : Statement} {value : Text} {ms : UInt64} : fe.parseSql raw = .ok stmt →
      fe.handleCatalog stmt db = none → timeoutValue stmt = some value →
      parseStatementTimeout value = some ms →
      TurnStep fe raw session db .timeoutSet (session.setStatementTimeout ms) db
  | timeoutRefused {stmt : Statement} {value : Text} : fe.parseSql raw = .ok stmt →
      fe.handleCatalog stmt db = none → timeoutValue stmt = some value →
      parseStatementTimeout value = none →
      TurnStep fe raw session db (.timeoutRefused value) session.setFailed db
  | executed {stmt : Statement} {rs : ResultSet} {db' : Database} : fe.parseSql raw = .ok stmt →
      fe.handleCatalog stmt db = none → timeoutValue stmt = none →
      executeInSession fe.depth session.id stmt [] db = (.ok rs, db') →
      TurnStep fe raw session db (.executed stmt rs) (updateTxnStatus session stmt) db'
  | failed {stmt : Statement} {e : DbError} {db' : Database} : fe.parseSql raw = .ok stmt →
      fe.handleCatalog stmt db = none → timeoutValue stmt = none →
      executeInSession fe.depth session.id stmt [] db = (.error (.err e), db') →
      TurnStep fe raw session db (.failed stmt e raw) session.setFailed db'

variable {fe : FrontEnd} {session session' : Session}

theorem turn_step {raw : Text} {t : QueryTurn}
    (h : turn fe raw session db = some (t, session', db')) :
    TurnStep fe raw session db t session' db' := by
  unfold turn at h
  split at h
  · next hp =>
    cases h
    exact .unparsed hp
  · next stmt hp =>
    split at h
    · next rs hc =>
      cases h
      exact .catalog hp hc
    · next hc =>
      split at h
      · next value hv =>
        split at h
        · next ms hms =>
          cases h
          exact .timeoutSet hp hc hv hms
        · next hms =>
          cases h
          exact .timeoutRefused hp hc hv hms
      · next hv =>
        split at h
        · next he =>
          cases h
          exact .executed hp hc hv he
        · next he =>
          cases h
          exact .failed hp hc hv he
        · cases h

/-- A turn does not change whose session it is. -/
theorem TurnStep.id {raw : Text} {t : QueryTurn} (h : TurnStep fe raw session db t session' db') :
    session'.id = session.id := by
  cases h <;> rfl

/-! ## The whole query -/

/-- The loop over the pieces. -/
def turns (fe : FrontEnd) : List Text → Session → Database →
    Option (List QueryTurn × Session × Database)
  | [], session, db => some ([], session, db)
  | raw :: rest, session, db =>
    match turn fe raw session db with
    | none => none
    | some (t, session, db) =>
      match turns fe rest session db with
      | none => none
      | some (ts, session, db) => some (t :: ts, session, db)

variable {ts : List QueryTurn}

/-- The first turn, and the rest of the loop. -/
theorem turns_cons {raw : Text} {rest : List Text}
    (h : turns fe (raw :: rest) session db = some (ts, session', db')) :
    ∃ t ts' session₁ db₁, turn fe raw session db = some (t, session₁, db₁) ∧
      turns fe rest session₁ db₁ = some (ts', session', db') ∧ ts = t :: ts' := by
  unfold turns at h
  split at h
  · cases h
  · next t session₁ db₁ ht =>
    split at h
    · cases h
    · next ts' session₂ db₂ hts =>
      cases h
      exact ⟨t, ts', session₁, db₁, ht, hts, rfl⟩

theorem turns_id {raws : List Text} (h : turns fe raws session db = some (ts, session', db')) :
    session'.id = session.id := by
  induction raws generalizing session db ts with
  | nil =>
    cases h
    rfl
  | cons raw rest ih =>
    obtain ⟨t, ts', session₁, db₁, hturn, hrest, rfl⟩ := turns_cons h
    exact (ih hrest).trans (turn_step hturn).id

/-- The pieces the loop does not skip. -/
def pieces (query : Text) : List Text := (splitStatements query).map trim |>.filter (· ≠ [])

/-! ## Messages -/

/-- The tag of a completed statement with its row count, if it has one. -/
def commandTag (stmt : Statement) (rs : ResultSet) : String × Option UInt64 :=
  let rows := UInt64.ofNat rs.rows.length
  let affected := UInt64.ofNat (rs.affected.getD 0)
  match stmt with
  | .select _ | .selectLiteral _ | .compound _ => ("SELECT", some rows)
  | .insert _ => ("INSERT", some affected)
  | .update _ => ("UPDATE", some affected)
  | .delete _ => ("DELETE", some affected)
  | .createTable _ => ("CREATE TABLE", none)
  | .createView _ => ("CREATE VIEW", none)
  | .dropView _ => ("DROP VIEW", none)
  | .alterTable _ => ("ALTER TABLE", none)
  | .begin => ("BEGIN", none)
  | .commit => ("COMMIT", none)
  | .rollback => ("ROLLBACK", none)
  | .setParameter _ _ => ("SET", none)
  | .showParameter _ => ("SELECT", some 0)
  | .resetParameter _ | .resetAll => ("RESET", none)

def columnDescs (rs : ResultSet) : List ColumnDesc :=
  rs.columns.map fun name => ⟨name.toList, 0, 0, 25, -1, -1, 0⟩

/-- Row description and data rows, if there are columns. -/
def rowMessages (rs : ResultSet) : List WriteCall :=
  if rs.columns = [] then []
  else .rowDescription (columnDescs rs) :: rs.rows.map (.dataRow (columnDescs rs))

/-- `emit_error`, of the error made from the piece. -/
def errorMessage (raw : Text) : WriteCall :=
  .errorResponse ("unsupported: ".toList ++ raw)
    (some (utf8Bytes (sqlstateForDbError (.unsupported (String.ofList raw)))))

def QueryTurn.messages : QueryTurn → List WriteCall
  | .unparsed raw => [errorMessage raw]
  | .catalog rs =>
    rowMessages rs ++ [.commandComplete "SELECT".toList (UInt64.ofNat rs.rows.length)]
  | .timeoutSet => [.commandComplete "SET".toList 0]
  | .timeoutRefused value =>
    [.errorResponse ("invalid value for parameter \"statement_timeout\": \"".toList ++ value ++
      "\"".toList) (some (utf8Bytes "22023"))]
  | .executed stmt rs =>
    rowMessages rs ++ [.commandComplete (commandTag stmt rs).1.toList
      ((commandTag stmt rs).2.getD 0)]
  | .failed _ _ raw => [errorMessage raw]

/-- `handle_simple_query`: the turns taken, the messages sent, and the state
left behind. -/
def handleSimpleQuery (fe : FrontEnd) (query : Text) (session : Session) (db : Database) :
    Option ((List QueryTurn × List WriteCall) × Session × Database) :=
  match turns fe (pieces query) session db with
  | none => none
  | some (ts, session, db) =>
    some ((ts, ts.flatMap QueryTurn.messages ++
      [.readyForQuery session.txnStatus.toTransactionStatus]), session, db)

theorem handleSimpleQuery_eq {query : Text} {messages : List WriteCall}
    (h : handleSimpleQuery fe query session db = some ((ts, messages), session', db')) :
    turns fe (pieces query) session db = some (ts, session', db') ∧
      messages = ts.flatMap QueryTurn.messages ++
        [.readyForQuery session'.txnStatus.toTransactionStatus] := by
  unfold handleSimpleQuery at h
  split at h
  · cases h
  · next ts' s' d' hts =>
    cases h
    exact ⟨hts, rfl⟩

/-- No turn announces that the server is ready. -/
theorem QueryTurn.not_ready (t : QueryTurn) (status : TxnStatus) :
    .readyForQuery status ∉ t.messages := by
  have hrows : ∀ rs, WriteCall.readyForQuery status ∉ rowMessages rs := by simp [rowMessages]
  cases t <;> simp [QueryTurn.messages, errorMessage, hrows]

/-- `handle_sync`. -/
def handleSync : List WriteCall := [.readyForQuery .idle]

end Archon
