import Archon.Pgwire.SimpleQuery

/-!
# Archon.Pgwire.Task

Queries of the scheduled server (`crates/out-archon-pgwire/src/task.rs`, with
`error.rs`): a connection's task runs all statements of a query against the
database and then answers for the last one.

`processQuery` is the query branch of `process_one_message`.  A query that
succeeds is never followed by ReadyForQuery, and only its last statement is
answered; the answer has the prescribed shape exactly when the query fails at
its first statement (`wellAnswered_iff`).
-/

namespace Archon

open List

/-! ## Messages -/

/-- A message of the task, by its parts. -/
inductive TaskMessage where
  | rowDescription (columns : List String)
  | dataRow (row : Row)
  | commandComplete (tag : Text)
  | emptyQueryResponse
  | errorResponse (sqlstate : SqlState) (message : Text)
  | readyForQuery (status : TxnStatus)

/-- `write_message`: the tag, the length of what follows it, and the payload. -/
def writeMessage (msgType : UInt8) (payload : Bytes) : Bytes :=
  msgType :: MessageWriter.len32 (4 + payload.length) ++ payload

namespace TaskMessage

def tag : TaskMessage → UInt8
  | .rowDescription _ => 84
  | .dataRow _ => 68
  | .commandComplete _ => 67
  | .emptyQueryResponse => 73
  | .errorResponse _ _ => 69
  | .readyForQuery _ => 90

section

open MessageWriter

-- what `to_string` prints for a float
variable (floatText : F32 → Text)

def payload : TaskMessage → Bytes
  | .rowDescription columns =>
    len16 columns.length ++ columns.flatMap fun name => column ⟨name.toList, 0, 0, 25, -1, -1, 0⟩
  | .dataRow row => len16 row.length ++ row.flatMap fun val => prescribedColumn floatText val false
  | .commandComplete tag => cstring (Text.bytes tag)
  | .emptyQueryResponse => []
  | .errorResponse sqlstate message =>
    83 :: cstring (utf8Bytes "ERROR") ++ 67 :: cstring (utf8Bytes sqlstate) ++
      77 :: cstring (Text.bytes message) ++ [0]
  | .readyForQuery status => [status.asByte]

/-- Tag and payload. -/
def frame (message : TaskMessage) : UInt8 × Bytes := (message.tag, message.payload floatText)

/-- The bytes of a sequence of messages. -/
def bytes (messages : List TaskMessage) : Bytes :=
  messages.flatMap fun message => writeMessage message.tag (message.payload floatText)

end

end TaskMessage

/-! ## Errors -/

inductive PgWireError where
  | parse (message : Text)
  | database (e : DbError)

namespace SqlState

def NO_DATA : SqlState := "02000"
def INVALID_TRANSACTION_STATE : SqlState := "25000"
def NO_ACTIVE_SQL_TRANSACTION : SqlState := "25P01"
def SERIALIZATION_FAILURE : SqlState := "40001"
def INVALID_OBJECT_DEFINITION : SqlState := "42P23"

end SqlState

/-- `contains`. -/
def textContains (needle : String) (t : String) : Bool :=
  t.toList.tails.any fun rest => needle.toList.isPrefixOf rest

/-- `db_error_to_sqlstate`. -/
def dbErrorToSqlstate : DbError → SqlState
  | .transactionError msg =>
    if textContains "conflict" msg then .SERIALIZATION_FAILURE
    else if textContains "already in progress" msg then .ACTIVE_SQL_TRANSACTION
    else if textContains "no active transaction" msg then .NO_ACTIVE_SQL_TRANSACTION
    else .INVALID_TRANSACTION_STATE
  | .unknownTable _ => .UNDEFINED_TABLE
  | .unknownColumn _ => .UNDEFINED_COLUMN
  | .tableAlreadyExists _ => .DUPLICATE_TABLE
  | .viewAlreadyExists _ => .DUPLICATE_TABLE
  | .arityMismatch => .DATA_EXCEPTION
  | .columnCountMismatch => .DATA_EXCEPTION
  | .rowNotFound _ => .NO_DATA
  | .corruptRow _ => .DATA_EXCEPTION
  | .notNullViolation _ => .NOT_NULL_VIOLATION
  | .uniqueViolation _ => .UNIQUE_VIOLATION
  | .checkViolation _ => .CHECK_VIOLATION
  | .foreignKeyViolation _ => .FOREIGN_KEY_VIOLATION
  | .typeMismatch => .DATA_EXCEPTION
  | .columnTypeMismatch _ => .DATA_EXCEPTION
  | .notAVectorColumn _ => .DATA_EXCEPTION
  | .missingParam => .DATA_EXCEPTION
  | .subqueryCardinality _ => .DATA_EXCEPTION
  | .unsupported _ => .FEATURE_NOT_SUPPORTED
  | .exec (.unknownColumn _) => .UNDEFINED_COLUMN
  | .exec .typeMismatch => .DATA_EXCEPTION
  | .exec (.groupByColumnNotFound _) => .UNDEFINED_COLUMN
  | .exec .unresolvedSubquery => .FEATURE_NOT_SUPPORTED
  | .exec (.unsupported _) => .FEATURE_NOT_SUPPORTED
  | .unknownView _ => .UNDEFINED_TABLE
  | .recursiveView _ => .INVALID_OBJECT_DEFINITION

/-- `pgwire_error_to_sqlstate`. -/
def pgwireErrorToSqlstate : PgWireError → SqlState
  | .parse _ => .SYNTAX_ERROR
  | .database e => dbErrorToSqlstate e

/-! ## The task -/

/-- What a task is built on: beside the parser, `process_sql` and the texts
that `Display` and `Debug` print. -/
structure TaskFrontEnd extends FrontEnd where
  processSql : Text → Except PgWireError (List Statement)
  floatText : F32 → Text
  debugValue : Value → Text
  debugExec : ExecError → Text

namespace TaskFrontEnd

variable (fe : TaskFrontEnd)

def fkText : FkMessage → Text
  | .noTable refTable => "referenced table '".toList ++ refTable.toList ++ "' does not exist".toList
  | .noMatchingKey key refTable =>
    "no matching key ".toList ++ ((key.map fe.debugValue).intersperse ",".toList).flatten ++
      " in referenced table '".toList ++ refTable.toList ++ "'".toList
  | .stillReferenced table columns =>
    "row is still referenced by '".toList ++ table.toList ++ ".".toList ++
      ((columns.map String.toList).intersperse ",".toList).flatten ++ "'".toList

/-- `Display` of an error of the engine. -/
def dbErrorText : DbError → Text
  | .unknownColumn c => "unknown column: ".toList ++ c.toList
  | .typeMismatch => "type mismatch".toList
  | .columnTypeMismatch c => "column type mismatch: ".toList ++ c.toList
  | .arityMismatch => "arity mismatch".toList
  | .notAVectorColumn c => "not a vector column: ".toList ++ c.toList
  | .missingParam => "missing parameter".toList
  | .rowNotFound id => "row not found: ".toList ++ (Nat.repr id).toList
  | .corruptRow id => "corrupt row: ".toList ++ (Nat.repr id).toList
  | .unknownTable t => "unknown table: ".toList ++ t.toList
  | .transactionError msg => "transaction error: ".toList ++ msg.toList
  | .tableAlreadyExists t => "table already exists: ".toList ++ t.toList
  | .viewAlreadyExists v => "view already exists: ".toList ++ v.toList
  | .unknownView v => "unknown view: ".toList ++ v.toList
  | .recursiveView v => "recursive view: ".toList ++ v.toList
  | .unsupported msg => "unsupported: ".toList ++ msg.toList
  | .columnCountMismatch => "column count mismatch".toList
  | .subqueryCardinality msg => "subquery cardinality: ".toList ++ msg.toList
  | .notNullViolation c => "NOT NULL constraint violated: ".toList ++ c.toList
  | .uniqueViolation c => "UNIQUE constraint violated: ".toList ++ c.toList
  | .checkViolation c => "CHECK constraint violated: ".toList ++ c.toList
  | .foreignKeyViolation msg => "FOREIGN KEY constraint violated: ".toList ++ fe.fkText msg
  | .exec e => "execution error: ".toList ++ fe.debugExec e

/-- `Display` of an error of the server. -/
def errorText : PgWireError → Text
  | .parse message => "SQL parse error: ".toList ++ message
  | .database e => "Database error: ".toList ++ fe.dbErrorText e

/-- `build_error_response`. -/
def buildErrorResponse (err : PgWireError) : TaskMessage :=
  .errorResponse (pgwireErrorToSqlstate err) (fe.errorText err)

end TaskFrontEnd

/-- What a statement has done. -/
inductive CommandTag where
  | select (n : Nat)
  | insert (n : Nat)
  | update (n : Nat)
  | delete (n : Nat)
  | createTable
  | createView
  | dropView
  | alterTable
  | begin
  | commit
  | rollback
  | set
  | reset
  | empty

/-- The tag `execute_with_stats` returns with a result. -/
def statsTag (stmt : Statement) (rs : ResultSet) : CommandTag :=
  match stmt with
  | .select _ | .selectLiteral _ | .showParameter _ | .compound _ =>
    .select (rs.affected.getD rs.rows.length)
  | .insert _ => .insert (rs.affected.getD 0)
  | .update _ => .update (rs.affected.getD 0)
  | .delete _ => .delete (rs.affected.getD 0)
  | .createTable _ => .createTable
  | .createView _ => .createView
  | .dropView _ => .dropView
  | .alterTable _ => .alterTable
  | .begin => .begin
  | .commit => .commit
  | .rollback => .rollback
  | .setParameter _ _ => .set
  | .resetParameter _ | .resetAll => .reset

/-- `send_query_results`. -/
def queryResults (rs : ResultSet) : List TaskMessage :=
  .rowDescription rs.columns :: rs.rows.map .dataRow ++
    [.commandComplete ("SELECT ".toList ++ (Nat.repr rs.rows.length).toList)]

/-- The messages for a result with its tag. -/
def taggedResult (tag : CommandTag) (rs : ResultSet) : List TaskMessage :=
  match tag with
  | .select _ => queryResults rs
  | .insert n => [.commandComplete ("INSERT 0 ".toList ++ (Nat.repr n).toList)]
  | .update n => [.commandComplete ("UPDATE ".toList ++ (Nat.repr n).toList)]
  | .delete n => [.commandComplete ("DELETE ".toList ++ (Nat.repr n).toList)]
  | .createTable => [.commandComplete "CREATE TABLE".toList]
  | .createView => [.commandComplete "CREATE VIEW".toList]
  | .dropView => [.commandComplete "DROP VIEW".toList]
  | .alterTable => [.commandComplete "ALTER TABLE".toList]
  | .begin => [.commandComplete "BEGIN".toList]
  | .commit => [.commandComplete "COMMIT".toList]
  | .rollback => [.commandComplete "ROLLBACK".toList]
  | .set => [.commandComplete "SET".toList]
  | .reset => [.commandComplete "RESET".toList]
  | .empty => [.emptyQueryResponse]

/-- The messages for a statement that has succeeded. -/
def statementMessages (done : Statement × ResultSet) : List TaskMessage :=
  taggedResult (statsTag done.1 done.2) done.2

/-- What became of a query: the statements that succeeded, and the error that
stopped it. -/
structure QueryOutcome where
  done : List (Statement × ResultSet) := []
  failed : Option PgWireError := none

/-- The loop of `handle_simple_query`; none if the engine panics or overflows
the stack. -/
def executeAll (depth : Nat) : List Statement → Database → Option (QueryOutcome × Database)
  | [], db => some ({}, db)
  | stmt :: rest, db =>
    match execute depth stmt [] db with
    | (.ok rs, db) =>
      (executeAll depth rest db).map fun (outcome, db) =>
        ({ outcome with done := (stmt, rs) :: outcome.done }, db)
    | (.error (.err e), db) => some ({ failed := some (.database e) }, db)
    | (.error _, _) => none

/-- The statements of a query, run against the shared database. -/
def runQuery (fe : TaskFrontEnd) (query : Text) (db : Database) :
    Option (QueryOutcome × Database) :=
  match fe.processSql query with
  | .error err => some ({ failed := some err }, db)
  | .ok stmts => executeAll fe.depth stmts db

/-- The query branch of `process_one_message`: the outcome, and the messages
written to the client. -/
def processQuery (fe : TaskFrontEnd) (query : Text) (session : Session) (db : Database) :
    Option ((QueryOutcome × List TaskMessage) × Session × Database) :=
  (runQuery fe query db).map fun (outcome, db) =>
    match outcome.failed with
    | some err =>
      ((outcome,
        [fe.buildErrorResponse err,
          .readyForQuery session.setFailed.txnStatus.toTransactionStatus]),
        session.setFailed, db)
    | none =>
      -- only the result of the last statement is sent
      ((outcome, (outcome.done.getLast?.map statementMessages).getD [.emptyQueryResponse]),
        session, db)

/-! ## Frames -/

theorem length_writeMessage (msgType : UInt8) (payload : Bytes) :
    (writeMessage msgType payload).length = 5 + payload.length := by
  simp [writeMessage, MessageWriter.len32]
  omega

variable {payload buf rest left : Bytes} {message : UInt8 × Bytes} {fuel : Nat}
  {messages : List (UInt8 × Bytes)}

theorem readMessage_writeMessage (msgType : UInt8) (h : 4 + payload.length < UInt32.size)
    (rest : Bytes) :
    readMessage (writeMessage msgType payload ++ rest) = .ok (some ((msgType, payload), rest)) := by
  have hread : ∀ b0 b1 b2 b3, ofBe32 b0 b1 b2 b3 = 4 + payload.length →
      readMessage (msgType :: b0 :: b1 :: b2 :: b3 :: (payload ++ rest)) =
        .ok (some ((msgType, payload), rest)) := by
    intro b0 b1 b2 b3 hlen
    simp [readMessage, hlen]
  exact hread _ _ _ _ (ofBe32_beBytes h)

theorem length_of_readMessage (h : readMessage buf = .ok (some (message, rest))) :
    buf.length = 5 + message.2.length + rest.length := by
  unfold readMessage at h
  split at h
  · dsimp only at h
    split at h
    · cases h
    · split at h
      · cases h
      · grind
  · cases h

/-- Frames account for every byte that was read. -/
theorem length_of_readMessages (h : readMessages fuel buf = .ok (messages, left)) :
    buf.length = (messages.map fun message => 5 + message.2.length).sum + left.length := by
  induction fuel generalizing buf messages with
  | zero =>
    cases h
    simp
  | succ fuel ih =>
    rw [readMessages] at h
    split at h
    · cases h
    · grind
    · next message rest hmessage =>
      cases hrest : readMessages fuel rest with
      | error e =>
        rw [hrest] at h
        cases h
      | ok read =>
      rw [hrest] at h
      cases h
      have hlength := ih hrest
      have hfirst := length_of_readMessage hmessage
      simp only [map_cons, sum_cons]
      omega

/-- The first message of several. -/
theorem readMessage_of_readMessages {rest : List (UInt8 × Bytes)}
    (h : readMessages fuel buf = .ok (messages, left)) (heq : messages = message :: rest) :
    ∃ buf', readMessage buf = .ok (some (message, buf')) := by
  subst heq
  cases fuel with
  | zero => cases h
  | succ fuel =>
    rw [readMessages] at h
    split at h
    · cases h
    · cases h
    · next message' buf' hmessage =>
      cases hrest : readMessages fuel buf' with
      | error e =>
        rw [hrest] at h
        cases h
      | ok read =>
        rw [hrest] at h
        cases h
        exact ⟨buf', hmessage⟩

section

variable (floatText : F32 → Text) (messages : List TaskMessage)

theorem readMessages_bytes
    (h : ∀ message ∈ messages, 4 + (message.payload floatText).length < UInt32.size)
    (hfuel : (TaskMessage.bytes floatText messages).length < fuel) :
    readMessages fuel (TaskMessage.bytes floatText messages) =
      .ok (messages.map (TaskMessage.frame floatText), []) := by
  induction messages generalizing fuel with
  | nil => cases fuel <;> rfl
  | cons message messages ih =>
    have hbytes : TaskMessage.bytes floatText (message :: messages) =
        writeMessage message.tag (message.payload floatText) ++
          TaskMessage.bytes floatText messages := rfl
    obtain ⟨hfirst, hrest⟩ := forall_mem_cons.mp h
    rw [hbytes, length_append, length_writeMessage] at hfuel
    cases fuel with
    | zero => omega
    | succ fuel =>
      rw [hbytes, readMessages, readMessage_writeMessage _ hfirst]
      dsimp only
      rw [ih hrest (by omega)]
      rfl

theorem length_bytes :
    (TaskMessage.bytes floatText messages).length =
      ((messages.map (TaskMessage.frame floatText)).map fun message =>
        5 + message.2.length).sum := by
  induction messages with
  | nil => rfl
  | cons message messages ih =>
    simp only [TaskMessage.bytes, flatMap_cons, length_append,
      length_writeMessage] at ih ⊢
    simp [ih, TaskMessage.frame]

end

/-! ## The shape of an answer -/

/-- The messages the protocol prescribes before ReadyForQuery: those of each
statement that succeeded, then the error if there is one. -/
def QueryOutcome.prescribed (fe : TaskFrontEnd) (outcome : QueryOutcome) : List TaskMessage :=
  outcome.done.flatMap statementMessages ++ (outcome.failed.map fe.buildErrorResponse).toList

/-- The bytes read as the prescribed messages followed by one ReadyForQuery. -/
def WellAnswered (fe : TaskFrontEnd) (outcome : QueryOutcome) (bytes : Bytes) : Prop :=
  ∃ status, ∀ fuel, bytes.length < fuel → readMessages fuel bytes =
    .ok ((outcome.prescribed fe ++ [TaskMessage.readyForQuery status]).map
      (TaskMessage.frame fe.floatText), [])

/-- The query does not parse, or its first statement fails. -/
def FailsAtOnce (fe : TaskFrontEnd) (query : Text) (db : Database) (err : PgWireError) : Prop :=
  fe.processSql query = .error err ∨
    ∃ stmt rest e, fe.processSql query = .ok (stmt :: rest) ∧
      (execute fe.depth stmt [] db).1 = .error (.err e) ∧ err = .database e

variable {fe : TaskFrontEnd} {outcome : QueryOutcome}

theorem WellAnswered.length {sent : List TaskMessage}
    (h : WellAnswered fe outcome (TaskMessage.bytes fe.floatText sent)) :
    (TaskMessage.bytes fe.floatText sent).length =
      (TaskMessage.bytes fe.floatText (outcome.prescribed fe)).length + 6 := by
  obtain ⟨status, hread⟩ := h
  have hlength := length_of_readMessages (hread _ (Nat.lt_succ_self _))
  simp [hlength, length_bytes, TaskMessage.frame, TaskMessage.payload]

/-- Every statement is answered with something. -/
theorem length_statementMessages_pos (floatText : F32 → Text) (done : Statement × ResultSet) :
    0 < (TaskMessage.bytes floatText (statementMessages done)).length := by
  have hne : statementMessages done ≠ [] := by
    unfold statementMessages taggedResult
    split <;> simp [queryResults]
  obtain ⟨message, messages, heq⟩ := exists_cons_of_ne_nil hne
  rw [heq, TaskMessage.bytes, flatMap_cons, length_append, length_writeMessage]
  omega

theorem bytes_append (floatText : F32 → Text) (xs ys : List TaskMessage) :
    TaskMessage.bytes floatText (xs ++ ys) =
      TaskMessage.bytes floatText xs ++ TaskMessage.bytes floatText ys := flatMap_append ..

theorem failsAtOnce_iff {query : Text} {db db' : Database}
    (h : runQuery fe query db = some (outcome, db')) (err : PgWireError) :
    FailsAtOnce fe query db err ↔ outcome.done = [] ∧ outcome.failed = some err := by
  unfold FailsAtOnce
  rw [runQuery] at h
  cases hp : fe.processSql query with
  | error e => grind
  | ok stmts =>
    rw [hp] at h
    cases stmts with
    | nil =>
      cases h
      simp
    | cons stmt rest =>
      simp only [executeAll] at h
      obtain ⟨r, db₁, hexec⟩ : ∃ r db₁, execute fe.depth stmt [] db = (r, db₁) := ⟨_, _, rfl⟩
      rw [hexec] at h
      cases r with
      | ok rs =>
        obtain ⟨rest', _, heq⟩ := Option.map_eq_some_iff.mp h
        grind
      | error f =>
        cases f with
        | err e => grind
        | _ => cases h

/-- A message that reads back fits its length field. -/
theorem fits_of_readMessage {msgType : UInt8} {rest' : Bytes}
    (h : readMessage (writeMessage msgType payload ++ rest) =
      .ok (some ((msgType, payload), rest'))) : 4 + payload.length < UInt32.size := by
  have hread : ∀ b0 b1 b2 b3, readMessage (msgType :: b0 :: b1 :: b2 :: b3 :: (payload ++ rest)) =
      .ok (some ((msgType, payload), rest')) → 4 + payload.length < UInt32.size := by
    intro b0 b1 b2 b3 hread
    have hsmall : ofBe32 b0 b1 b2 b3 < UInt32.size := by
      have h0 := b0.toNat_lt
      have h1 := b1.toNat_lt
      have h2 := b2.toNat_lt
      have h3 := b3.toNat_lt
      have hsize : UInt32.size = 4294967296 := rfl
      rw [ofBe32_eq]
      omega
    rw [readMessage] at hread
    split at hread
    · cases hread
    · split at hread
      · cases hread
      · simp only [Except.ok.injEq] at hread
        grind
  exact hread _ _ _ _ h

section

variable (floatText : F32 → Text) (done : List (Statement × ResultSet))

theorem done_eq_nil_of_length
    (h : (TaskMessage.bytes floatText (done.flatMap statementMessages)).length = 0) :
      done = [] := by
  cases done with
  | nil => rfl
  | cons d done =>
    have hpos := length_statementMessages_pos floatText d
    rw [flatMap_cons, bytes_append, length_append] at h
    omega

/-- The answer to the last statement is shorter than what is prescribed. -/
theorem length_last_le :
    (TaskMessage.bytes floatText ((done.getLast?.map statementMessages).getD
      [.emptyQueryResponse])).length ≤
      (TaskMessage.bytes floatText (done.flatMap statementMessages)).length + 5 := by
  cases hlast : done.getLast? with
  | none => simp [TaskMessage.bytes, length_writeMessage, TaskMessage.payload]
  | some d =>
    obtain ⟨init, rfl⟩ := getLast?_eq_some_iff.mp hlast
    rw [flatMap_append, bytes_append]
    simp
    omega

end

/-- The answer to a query of at least one statement has the prescribed shape
exactly when the query fails before any statement has succeeded. -/
theorem wellAnswered_iff (fe : TaskFrontEnd) (query : Text) (session session' : Session)
    (db db' : Database) (outcome : QueryOutcome) (sent : List TaskMessage)
    (h : processQuery fe query session db = some ((outcome, sent), session', db')) :
    WellAnswered fe outcome (TaskMessage.bytes fe.floatText sent) ↔
      ∃ err, FailsAtOnce fe query db err ∧
        4 + ((fe.buildErrorResponse err).payload fe.floatText).length < UInt32.size := by
  obtain ⟨⟨outcome', db₁⟩, hrun, heq⟩ := Option.map_eq_some_iff.mp h
  have hfails := failsAtOnce_iff hrun
  dsimp only at heq
  cases hfailed : outcome'.failed with
  | none =>
    rw [hfailed] at heq
    cases heq
    constructor
    · intro hanswered
      have hlength := hanswered.length
      have hle := length_last_le fe.floatText outcome.done
      simp only [QueryOutcome.prescribed, hfailed, Option.map_none, Option.toList_none,
        append_nil] at hlength
      omega
    · rintro ⟨err, hfail, _⟩
      grind
  | some err =>
    rw [hfailed] at heq
    cases heq
    have hprescribed : outcome.prescribed fe =
        outcome.done.flatMap statementMessages ++ [fe.buildErrorResponse err] := by
      simp [QueryOutcome.prescribed, hfailed]
    constructor
    · intro hanswered
      have hlength := hanswered.length
      have hsent : (TaskMessage.bytes fe.floatText [fe.buildErrorResponse err, .readyForQuery
          session.setFailed.txnStatus.toTransactionStatus]).length =
            (TaskMessage.bytes fe.floatText [fe.buildErrorResponse err]).length + 6 := by
        simp [TaskMessage.bytes, length_writeMessage, TaskMessage.payload]
      rw [hprescribed, bytes_append, length_append] at hlength
      have hdone := done_eq_nil_of_length fe.floatText outcome.done (by omega)
      refine ⟨err, (hfails err).mpr ⟨hdone, hfailed⟩, ?_⟩
      obtain ⟨status, hread⟩ := hanswered
      obtain ⟨rest, hfirst⟩ := readMessage_of_readMessages (hread _ (Nat.lt_succ_self _))
        (by rw [hprescribed, hdone]; rfl)
      exact fits_of_readMessage hfirst
    · rintro ⟨err', hfail, hfits⟩
      obtain ⟨hdone, herr⟩ := (hfails err').mp hfail
      cases hfailed.symm.trans herr
      refine ⟨session.setFailed.txnStatus.toTransactionStatus, fun fuel hfuel => ?_⟩
      rw [hprescribed, hdone]
      refine readMessages_bytes fe.floatText _ ?_ hfuel
      intro message hmessage
      simp only [mem_cons, not_mem_nil, or_false] at hmessage
      obtain rfl | rfl := hmessage
      · exact hfits
      · show 5 < UInt32.size
        decide

/-- A front end that knows `BEGIN` and `ROLLBACK`. -/
def txnFrontEnd : TaskFrontEnd where
  parseStatement text :=
    if text = "BEGIN".toList then .ok .begin
    else if text = "ROLLBACK".toList then .ok .rollback
    else .error "unexpected token".toList
  handleCatalog _ _ := none
  depth := 0
  processSql text :=
    if text = "BEGIN".toList then .ok [.begin]
    else if text = "ROLLBACK".toList then .ok [.rollback]
    else .error (.parse "unexpected token".toList)
  floatText _ := []
  debugValue _ := []
  debugExec _ := []

/-- A query that does not parse is answered. -/
theorem wellAnswered_iff_unparsed :
    WellAnswered txnFrontEnd { failed := some (.parse "unexpected token".toList) }
      (TaskMessage.bytes (fun _ => [])
        [txnFrontEnd.buildErrorResponse (.parse "unexpected token".toList),
          .readyForQuery .failed]) :=
  (wellAnswered_iff txnFrontEnd "FETCH".toList { id := 0 } _ .empty _ _ _ rfl).mpr
    ⟨.parse "unexpected token".toList, .inl rfl, by decide⟩

/-- `BEGIN` is answered with `CommandComplete` only; the client waits for
`ReadyForQuery` forever. -/
theorem begin_not_ready : ∃ outcome sent session' db',
    processQuery txnFrontEnd "BEGIN".toList { id := 0 } .empty =
      some ((outcome, sent), session', db') ∧
    ¬ WellAnswered txnFrontEnd outcome (TaskMessage.bytes (fun _ => []) sent) := by
  refine ⟨_, _, _, _, rfl, fun hanswered => ?_⟩
  have hlength := @WellAnswered.length txnFrontEnd _ _ hanswered
  revert hlength
  decide

end Archon
