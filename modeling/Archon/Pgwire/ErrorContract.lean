import Archon.Pgwire.SimpleQuery

/-!
# Archon.Pgwire.ErrorContract

What a query of several statements does when one fails.

The loop of `handle_simple_query` goes on after an error, so statements behind a
failed one are executed.  An engine error is replaced by `DbError::Unsupported`
before its code is looked up, and the end of that code is overwritten when the
message is finished (`errorMessage_bytes`); so no code arrives, but in a message
whose length happens to spell its end (`contract_iff`).
-/

namespace Archon

open MessageWriter Text List QueryTurn

variable (floatText : F32 → Text)

/-! ## The contract -/

/-- The turn reports an error. -/
def QueryTurn.Fails : QueryTurn → Prop
  | .unparsed _ | .timeoutRefused _ | .failed _ _ _ => True
  | _ => False

/-- The statement of the turn has been carried out or tried. -/
def QueryTurn.Runs : QueryTurn → Prop
  | .unparsed _ => False
  | _ => True

/-- The turn is about this piece. -/
def QueryTurn.Of (fe : FrontEnd) (raw : Text) : QueryTurn → Prop
  | .unparsed raw' => raw' = raw
  | .executed stmt _ => fe.parseSql raw = .ok stmt
  | .failed stmt _ raw' => raw' = raw ∧ fe.parseSql raw = .ok stmt
  | _ => ∃ stmt, fe.parseSql raw = .ok stmt

/-- An error message up to the code field, which holds `code`. -/
def errorHead (raw : Text) (code : Bytes) : Bytes :=
  start [] BackendTag.ERROR_RESPONSE ++ field 77 (bytes ("unsupported: ".toList ++ raw)) ++
    field 83 (bytes "ERROR".toList) ++ field 67 code

/-- The bytes sent for an error of the engine hold its code in their code
field. -/
def QueryTurn.Coded : QueryTurn → Prop
  | .failed stmt e raw => errorHead raw (utf8Bytes (sqlstateForDbError e)) <+:
    (messages (.failed stmt e raw)).flatMap fun call => written floatText [call]
  | _ => True

/-- What a client may rely on when a query has been handled. -/
structure ErrorContract (fe : FrontEnd) (query : Text) (ts : List QueryTurn)
    (messages : List WriteCall) : Prop where
  /-- One turn for each piece, in order. -/
  inOrder : List.Forall₂ (fun raw t => QueryTurn.Of fe raw t) (pieces query) ts
  /-- Nothing is executed behind a failure. -/
  stops : ts.Pairwise fun t t' => t.Fails → ¬ t'.Runs
  coded : ∀ t ∈ ts, t.Coded floatText
  /-- The response ends with the only announcement of readiness. -/
  ready : ∃ body status, messages = body ++ [.readyForQuery status] ∧
    ∀ status', .readyForQuery status' ∉ body

/-! ## When it holds -/

section

variable (fe : FrontEnd) (sid : Nat)

/-- What the engine makes of a piece that reaches it. -/
def engineRun (raw : Text) (db : Database) : Option (Outcome DbError ResultSet × Database) :=
  match fe.parseSql raw with
  | .error _ => none
  | .ok stmt =>
    if (fe.handleCatalog stmt db).isSome ∨ (timeoutValue stmt).isSome then none
    else some (executeInSession fe.depth sid stmt [] db)

/-- The piece is refused: by the parser, as a timeout, or by the engine. -/
def Refuses (raw : Text) (db : Database) : Prop :=
  match fe.parseSql raw with
  | .error _ => True
  | .ok stmt =>
    (fe.handleCatalog stmt db = none ∧
      ∃ value, timeoutValue stmt = some value ∧ parseStatementTimeout value = none) ∨
    ∃ e db', engineRun fe sid raw db = some (.error e, db')

/-- The database after a piece. -/
def afterPiece (raw : Text) (db : Database) : Database :=
  match engineRun fe sid raw db with
  | some (_, db') => db'
  | none => db

/-- The length of the error message, 44 bytes and the piece, starts with the
digits that end the code of an unsupported feature; the shortest such piece has
more than 800 million bytes. -/
def SpellsCode (raw : Text) : Prop :=
  (len32 (44 + (bytes raw).length)).take 3 = [48, 48, 48]

/-- Nothing that parses stands behind a refused piece, and the engine refuses
nothing, but an unsupported feature in a piece whose length spells the code. -/
def Orderly : List Text → Database → Prop
  | [], _ => True
  | raw :: rest, db =>
    (∀ e db', engineRun fe sid raw db = some (.error (.err e), db') →
      sqlstateForDbError e = SqlState.FEATURE_NOT_SUPPORTED ∧ SpellsCode raw) ∧
    (Refuses fe sid raw db → ∀ r ∈ rest, ∀ stmt, fe.parseSql r ≠ .ok stmt) ∧
    Orderly rest (afterPiece fe sid raw db)

end

/-! ## The code that is sent -/

theorem unsupported_bytes :
    utf8Bytes SqlState.FEATURE_NOT_SUPPORTED = [48, 65, 48, 48, 48] := by decide

/-- Codes have five characters, and only one starts with these two. -/
theorem sqlstate_bytes (e : DbError) : (utf8Bytes (sqlstateForDbError e)).length = 5 ∧
    ((utf8Bytes (sqlstateForDbError e)).take 2 = [48, 65] →
      sqlstateForDbError e = SqlState.FEATURE_NOT_SUPPORTED) := by
  have hall : ∀ code ∈ [SqlState.FEATURE_NOT_SUPPORTED, .DUPLICATE_TABLE, .UNDEFINED_TABLE,
      .UNDEFINED_COLUMN, .SYNTAX_ERROR, .DATA_EXCEPTION, .NOT_NULL_VIOLATION,
      .FOREIGN_KEY_VIOLATION, .UNIQUE_VIOLATION, .CHECK_VIOLATION, .INTERNAL_ERROR,
      .ACTIVE_SQL_TRANSACTION], (utf8Bytes code).length = 5 ∧
      ((utf8Bytes code).take 2 = [48, 65] → code = SqlState.FEATURE_NOT_SUPPORTED) := by decide
  exact hall _ (by cases e <;> simp [sqlstateForDbError])

/-- In the place of the code stand its first two characters and the length of
the message. -/
theorem errorMessage_bytes (raw : Text) : written floatText [errorMessage raw] =
    start [] BackendTag.ERROR_RESPONSE ++ field 77 (bytes ("unsupported: ".toList ++ raw)) ++
      field 83 (bytes "ERROR".toList) ++ 67 :: len32 5 ++
      48 :: 65 :: len32 (44 + (bytes raw).length) := by
  have hcode : utf8Bytes (sqlstateForDbError (.unsupported (String.ofList raw))) =
      [48, 65, 48, 48, 48] := unsupported_bytes
  have hlength : (field 77 (bytes ("unsupported: ".toList ++ raw)) ++
      field 83 (bytes "ERROR".toList) ++ 67 :: len32 5 ++ [48, 65]).length + 9 =
        44 + (bytes raw).length := by
    have herror : (bytes "ERROR".toList).length = 5 := rfl
    have hprefix : (bytes ("unsupported: ".toList ++ raw)).length =
        13 + (bytes raw).length := by
      rw [bytes, flatMap_append, length_append]
      rfl
    simp only [field, len32, length_append, length_cons, length_beBytes, herror, hprefix,
      length_nil]
    omega
  have hbody : body floatText (errorMessage raw) =
      (field 77 (bytes ("unsupported: ".toList ++ raw)) ++
        field 83 (bytes "ERROR".toList) ++ 67 :: len32 5 ++ [48, 65]) ++ [48, 48, 48, 0] := by
    simp [body, errorMessage, hcode, field]
  have hsent : written floatText [errorMessage raw] =
      finish (start [] BackendTag.ERROR_RESPONSE ++ body floatText (errorMessage raw)) := rfl
  rw [hsent, hbody, finish_start _ _ rfl, hlength]
  simp

theorem coded_failed_iff (stmt : Statement) (e : DbError) (raw : Text) :
    (failed stmt e raw).Coded floatText ↔
      sqlstateForDbError e = SqlState.FEATURE_NOT_SUPPORTED ∧ SpellsCode raw := by
  obtain ⟨hlength, honly⟩ := sqlstate_bytes e
  have hhead : (failed stmt e raw).Coded floatText ↔
      utf8Bytes (sqlstateForDbError e) <+: 48 :: 65 :: len32 (44 + (bytes raw).length) := by
    rw [QueryTurn.Coded, errorHead, messages, flatMap_singleton, errorMessage_bytes]
    simp [field, hlength, prefix_append_right_inj]
  rw [hhead, prefix_iff_eq_take, hlength, SpellsCode]
  constructor
  · intro heq
    have hcode := honly (by rw [heq]; rfl)
    rw [hcode, unsupported_bytes] at heq
    exact ⟨hcode, by simpa [eq_comm] using heq⟩
  · rintro ⟨hcode, hspells⟩
    simp [hcode, unsupported_bytes, hspells]

section

variable {fe : FrontEnd} {raw : Text} {session session' : Session} {db db' : Database}
  {t : QueryTurn}

variable (h : TurnStep fe raw session db t session' db')
include h

theorem TurnStep.of_piece : QueryTurn.Of fe raw t := by
  cases h with
  | unparsed _ => rfl
  | catalog hp _ | timeoutSet hp _ _ _ | timeoutRefused hp _ _ _ => exact ⟨_, hp⟩
  | executed hp _ _ _ => exact hp
  | failed hp _ _ _ => exact ⟨rfl, hp⟩

/-- A turn runs exactly if its piece parses. -/
theorem TurnStep.runs_iff : t.Runs ↔ ∃ stmt, fe.parseSql raw = .ok stmt := by
  cases h with
  | unparsed hp | catalog hp _ | timeoutSet hp _ _ _ | timeoutRefused hp _ _ _
  | executed hp _ _ _ | failed hp _ _ _ => simp [QueryTurn.Runs, hp]

theorem TurnStep.engineRun :
    (∃ stmt rs, t = .executed stmt rs ∧ engineRun fe session.id raw db = some (.ok rs, db')) ∨
    (∃ stmt e, t = .failed stmt e raw ∧
      engineRun fe session.id raw db = some (.error (.err e), db')) ∨
    (engineRun fe session.id raw db = none ∧ db' = db ∧ (∀ floatText, t.Coded floatText) ∧
      ∀ stmt rs, t ≠ .executed stmt rs) := by
  cases h with
  | unparsed hp => simp [Archon.engineRun, hp, QueryTurn.Coded]
  | catalog hp hc => simp [Archon.engineRun, hp, hc, QueryTurn.Coded]
  | timeoutSet hp hc hv _ | timeoutRefused hp hc hv _ =>
    simp [Archon.engineRun, hp, hv, QueryTurn.Coded]
  | executed hp hc hv he => exact .inl ⟨_, _, rfl, by simp [Archon.engineRun, hp, hc, hv, he]⟩
  | failed hp hc hv he => simp [Archon.engineRun, hp, hc, hv, he]

theorem TurnStep.afterPiece : afterPiece fe session.id raw db = db' := by
  obtain ⟨_, _, _, he⟩ | ⟨_, _, _, he⟩ | ⟨he, hdb, _⟩ := h.engineRun
  · rw [Archon.afterPiece, he]
  · rw [Archon.afterPiece, he]
  · rw [Archon.afterPiece, he, hdb]

theorem TurnStep.fails_iff : t.Fails ↔ Refuses fe session.id raw db := by
  cases h with
  | unparsed hp => simp [QueryTurn.Fails, Refuses, hp]
  | catalog hp hc => simp [QueryTurn.Fails, Refuses, Archon.engineRun, hp, hc]
  | timeoutSet hp hc hv hms => simp [QueryTurn.Fails, Refuses, Archon.engineRun, hp, hv, hms]
  | timeoutRefused hp hc hv hms => simp [QueryTurn.Fails, Refuses, hp, hc, hv, hms]
  | executed hp hc hv he | failed hp hc hv he =>
    simp [QueryTurn.Fails, Refuses, Archon.engineRun, hp, hc, hv, he]

theorem TurnStep.coded_iff :
    t.Coded floatText ↔
      ∀ e db₁, Archon.engineRun fe session.id raw db = some (.error (.err e), db₁) →
        sqlstateForDbError e = SqlState.FEATURE_NOT_SUPPORTED ∧ SpellsCode raw := by
  obtain ⟨_, _, rfl, he⟩ | ⟨_, e, rfl, he⟩ | ⟨he, _, hc, _⟩ := h.engineRun
  · simp [QueryTurn.Coded, he]
  · rw [coded_failed_iff]
    simp [he]
  · simp [hc, he]

end

/-! ## QueryTurn by turn -/

variable {fe : FrontEnd} {session session' : Session} {db db' : Database} {ts : List QueryTurn}

variable {raws : List Text}

section

variable (h : turns fe raws session db = some (ts, session', db'))
include h

/-- One turn for each piece. -/
theorem turns_inOrder : List.Forall₂ (fun raw t => QueryTurn.Of fe raw t) raws ts := by
  induction raws generalizing session db ts with
  | nil =>
    cases h
    exact .nil
  | cons raw rest ih =>
    obtain ⟨t, ts', session₁, db₁, hturn, hrest, rfl⟩ := turns_cons h
    have hstep := turn_step hturn
    exact .cons hstep.of_piece (ih hrest)

/-- Which turns run depends on the pieces only. -/
theorem turns_runs_iff :
    (∀ t ∈ ts, ¬ t.Runs) ↔ ∀ raw ∈ raws, ∀ stmt, fe.parseSql raw ≠ .ok stmt := by
  induction raws generalizing session db ts with
  | nil =>
    cases h
    simp
  | cons raw rest ih =>
    obtain ⟨t, ts', session₁, db₁, hturn, hrest, rfl⟩ := turns_cons h
    have hstep := turn_step hturn
    simp [ih hrest, hstep.runs_iff]

theorem turns_stop_iff :
    (ts.Pairwise (fun t t' => t.Fails → ¬ t'.Runs) ∧ ∀ t ∈ ts, t.Coded floatText) ↔
      Orderly fe session.id raws db := by
  induction raws generalizing session db ts with
  | nil =>
    cases h
    simp [Orderly]
  | cons raw rest ih =>
    obtain ⟨t, ts', session₁, db₁, hturn, hrest, rfl⟩ := turns_cons h
    have hstep := turn_step hturn
    have hih := ih hrest
    have hruns := turns_runs_iff hrest
    rw [hstep.id] at hih
    rw [Orderly, ← hstep.coded_iff floatText, ← hstep.fails_iff, hstep.afterPiece,
      pairwise_cons]
    grind

end

/-- The contract is kept by the queries that are orderly, and by no others. -/
theorem contract_iff {query : Text} {messages : List WriteCall}
    (h : handleSimpleQuery fe query session db = some ((ts, messages), session', db')) :
    ErrorContract floatText fe query ts messages ↔ Orderly fe session.id (pieces query) db := by
  obtain ⟨hturns, hmessages⟩ := handleSimpleQuery_eq h
  rw [← turns_stop_iff floatText hturns]
  constructor
  · exact fun hc => ⟨hc.stops, hc.coded⟩
  · rintro ⟨hstops, hcoded⟩
    refine ⟨turns_inOrder hturns, hstops, hcoded, _, _, hmessages, ?_⟩
    intro status hmem
    obtain ⟨t, _, ht⟩ := mem_flatMap.mp hmem
    exact t.not_ready status ht

/-! ## Two statements -/

/-- The keywords of transaction control, and nothing else. -/
def parseKeyword (sql : Text) : Except Text Statement :=
  if sql = "BEGIN".toList then .ok .begin
  else if sql = "COMMIT".toList then .ok .commit
  else if sql = "ROLLBACK".toList then .ok .rollback
  else .error "expected a statement".toList

def keywords : FrontEnd := ⟨parseKeyword, fun _ _ => none, 1⟩

/-- A piece the engine accepts does not disturb the order. -/
theorem Orderly.of_ok {fe : FrontEnd} {sid : Nat} {raw : Text} {rest : List Text} {rs : ResultSet}
    (h : engineRun fe sid raw db = some (.ok rs, db')) (hrest : Orderly fe sid rest db') :
    Orderly fe sid (raw :: rest) db := by
  have hafter : afterPiece fe sid raw db = db' := by rw [afterPiece, h]
  have hrefuses : ¬ Refuses fe sid raw db := by
    unfold Refuses
    split
    · next hp => simp [engineRun, hp] at h
    · next stmt hp =>
      have htimeout : timeoutValue stmt = none := by
        by_contra hsome
        simp [engineRun, hp, Option.isSome_iff_ne_none, hsome] at h
      simp [h, htimeout]
  simp [Orderly, h, hafter, hrest, hrefuses]

/-- `BEGIN; COMMIT` is orderly. -/
theorem contract_iff_transaction : ∃ ts messages session' db',
    handleSimpleQuery keywords "BEGIN; COMMIT".toList { id := 1 } .empty =
      some ((ts, messages), session', db') ∧
    ErrorContract (fun _ => []) keywords "BEGIN; COMMIT".toList ts messages := by
  have hsome : (handleSimpleQuery keywords "BEGIN; COMMIT".toList { id := 1 } .empty).isSome =
      true := by decide +kernel
  obtain ⟨⟨⟨ts, messages⟩, session', db'⟩, h⟩ := Option.isSome_iff_exists.mp hsome
  have hpieces : pieces "BEGIN; COMMIT".toList = ["BEGIN".toList, "COMMIT".toList] := by
    decide +kernel
  refine ⟨ts, messages, session', db', h, (contract_iff _ h).mpr ?_⟩
  rw [hpieces]
  exact .of_ok rfl (.of_ok rfl trivial)

/-- A failure, and a statement executed behind it. -/
def failsThenRuns : List QueryTurn → Bool
  | [.failed _ _ _, .executed _ _] => true
  | _ => false

theorem failsThenRuns_not_stops (h : failsThenRuns ts = true) :
    ¬ ts.Pairwise fun t t' => t.Fails → ¬ t'.Runs := by
  unfold failsThenRuns at h
  grind [QueryTurn.Fails, QueryTurn.Runs]

/-- `COMMIT; BEGIN` outside of a transaction: the failed commit is followed by
the begin. -/
theorem begin_runs_after_failure : ∃ ts messages session' db',
    handleSimpleQuery keywords "COMMIT; BEGIN".toList { id := 1 } .empty =
      some ((ts, messages), session', db') ∧
    ¬ ErrorContract (fun _ => []) keywords "COMMIT; BEGIN".toList ts messages := by
  have hsome : (handleSimpleQuery keywords "COMMIT; BEGIN".toList { id := 1 } .empty).isSome =
      true := by decide +kernel
  have hturns : (handleSimpleQuery keywords "COMMIT; BEGIN".toList { id := 1 } .empty).all
      (fun r => failsThenRuns r.1.1) = true := by decide +kernel
  obtain ⟨⟨⟨ts, messages⟩, session', db'⟩, h⟩ := Option.isSome_iff_exists.mp hsome
  rw [h] at hturns
  exact ⟨ts, messages, session', db', h, fun hc => failsThenRuns_not_stops hturns hc.stops⟩

end Archon
