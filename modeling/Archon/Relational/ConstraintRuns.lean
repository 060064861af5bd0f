import Archon.Relational.SessionFlags
import Archon.Relational.UniqueRuns

/-!
# Archon.Relational.ConstraintRuns

Constraints over the runs of one client, that works on the database itself or
in one session: in every state the rows it sees satisfy the `PRIMARY KEY`,
`UNIQUE`, `NOT NULL` and `CHECK` constraints of their tables.
-/

namespace Archon

open Database TableStorage List

variable {params : Params}
variable {depth : Nat} {client : Option Nat} {db : Database}

/-! ## One client -/

/-- The client that makes a call: no session, or a session. -/
def ClientCall.caller : ClientCall → Option Nat
  | .execute _ _ => none
  | .inSession sid _ _ => some sid

/-- Nobody else has a transaction, and a session only one it has begun. -/
structure Alone (client : Option Nat) (db : Database) : Prop where
  others : ∀ c n, c ≠ client → db.txnOf c n = none
  idle : client ≠ none → db.inTransaction = false
  closed : ∀ sid, client = some sid → db.sessionInTransaction sid = false →
    ∀ n, db.sessionTxn sid n = none

namespace Alone

theorem empty (client : Option Nat) : Alone client .empty := by
  refine ⟨fun c n _ => ?_, fun _ => rfl, fun sid _ _ n => rfl⟩
  cases c <;> rfl

/-- A client that is alone is the only writer. -/
theorem soleWriter (h : Alone client db) {c : ClientCall} (hc : c.caller = client) :
    SoleWriter db c := by
  refine .of_none fun c' n hne => ?_
  cases c with
  | execute stmt params =>
    subst hc
    exact h.others c' n hne
  | inSession sid stmt params =>
    subst hc
    by_cases hown : c' = some sid
    · subst hown
      cases hin : db.sessionInTransaction sid with
      | true => simp [ClientCall.client, hin] at hne
      | false => exact h.closed sid rfl hin n
    · exact h.others c' n hown

variable {stmt : Statement}

theorem execute (h : Alone none db) : Alone none (Archon.execute depth stmt params db).2 := by
  refine ⟨fun c n hc => ?_, fun hne => absurd rfl hne, fun sid hne => (by cases hne)⟩
  rw [← h.others c n hc]
  cases c with
  | none => exact absurd rfl hc
  | some sid => simp [txnOf, sessionTxn, execute_sessions]

/-- What a call within a session leaves of its transaction. -/
theorem closed_inSession {sid : Nat} (h : Alone (some sid) db)
    (hin' : (executeInSession depth sid stmt params db).2.sessionInTransaction sid = false)
    (n : String) : (executeInSession depth sid stmt params db).2.sessionTxn sid n = none := by
  have hx := executeInSession_spec depth sid stmt params db
  generalize (executeInSession depth sid stmt params db).1.Returns = returns at hx
  generalize (executeInSession depth sid stmt params db).2 = db' at hx hin' ⊢
  have hnil : (db.setSession sid {}).sessionTxn sid n = none := by
    have hset := db.txnOf_setSession sid {} (some sid) n
    rw [if_pos rfl] at hset
    exact hset
  cases hx with
  | inside hctl hin =>
    have hfind : (Archon.execute depth stmt params (db.enterSession sid)).2.sessionTxns.find? sid =
        some { inTransaction := true } := by
      rw [execute_sessions]
      simp [enterSession, setSession]
    simp [sessionInTransaction, leaveSession, hfind] at hin'
  | outside hctl hin =>
    rw [sessionTxn, execute_sessions]
    exact h.closed sid rfl hin n
  | begin hst => simp [sessionInTransaction, setSession, hst] at hin'
  | commit =>
    obtain ⟨st, hst, -, hrun⟩ | ⟨hin, hrun⟩ := sessionCommit_run sid db
    · rw [hrun]
      exact (leaves_forEachTable st.activeTxns (some sid) n _).trans hnil
    · rw [hrun]
      exact h.closed sid rfl hin n
  | rollback => exact hnil
  | idle hin => exact h.closed sid rfl hin n

theorem inSession {sid : Nat} (h : Alone (some sid) db) (hs : db.Sound .any [])
    (hs' : (executeInSession depth sid stmt params db).2.Sound .any [])
    (hret : (executeInSession depth sid stmt params db).1.Returns) :
    Alone (some sid) (executeInSession depth sid stmt params db).2 := by
  have hframe := executeInSession_frame hs (h.idle (by simp)) hret
  refine ⟨fun c n hc => ?_, fun _ => hframe.inTransaction, fun s hsid hin n => ?_⟩
  · cases c with
    | none =>
      rw [txnOf, activeTxn, hs'.idle hframe.inTransaction]
      rfl
    | some s =>
      have hne : s ≠ sid := fun heq => hc (by rw [heq])
      rw [← h.others (some s) n hc, txnOf, sessionTxn, hframe.others s hne]
      rfl
  · cases hsid
    exact h.closed_inSession hin n

theorem run (h : Alone client db) {c : ClientCall} (hc : c.caller = client)
    (hs : db.Sound .any []) (hret : (c.run depth db).1.Returns) :
    Alone client (c.run depth db).2 := by
  have hs' := c.run_sound hs (obeys_any [] depth db c.stmt) hret
  cases c with
  | execute stmt params =>
    subst hc
    exact h.execute
  | inSession sid stmt params =>
    subst hc
    exact h.inSession hs hs' hret

end Alone

/-! ## What it sees -/

/-- The constraints hold for the rows that are seen, those that mention the id
left out. -/
structure ConstraintsHold (db : Database) : Prop where
  unique : ∀ n schema, db.schemaOf n = some schema → Distinct (Clash schema) (db.seen n)
  rows : ∀ n schema id row, db.schemaOf n = some schema → db.seen n id = some row →
    RowHolds schema row
  primaryKey : ∀ n schema id row, db.schemaOf n = some schema → db.seen n id = some row →
    ∀ pk, schema.primaryKey = some pk → ∀ c ∈ pk, c ≠ "id" →
      ∃ i v, schema.indexOf c = some i ∧ row[i]? = some v ∧ v.isNull = false

theorem Database.activeTxn_seenBy (h : Alone client db) (n : String) :
    (db.seenBy client).activeTxn n = db.txnOf client n := by
  cases client with
  | none => rfl
  | some sid =>
    show (db.inSession sid).activeTxn n = db.txnOf (some sid) n
    unfold inSession
    cases hin : db.sessionInTransaction sid with
    | true => exact db.activeTxn_enterSession sid n
    | false =>
      have hown : db.txnOf (some sid) n = none := h.closed sid rfl hin n
      rw [hown]
      exact h.others none n (by simp)

theorem Database.tables_seenBy (db : Database) (client : Option Nat) :
    (db.seenBy client).tables = db.tables := by
  cases client with
  | none => rfl
  | some sid =>
    show (db.inSession sid).tables = db.tables
    unfold inSession
    split <;> rfl

theorem ConstraintsHold.of_keyed (hk : ClientsKeyed db) (h : db.Sound constraintLaw [])
    (halone : Alone client db) : ConstraintsHold (db.seenBy client) := by
  have htxns := activeTxn_seenBy halone
  have hrows : ∀ n schema id row, (db.seenBy client).schemaOf n = some schema →
      (db.seenBy client).seen n id = some row → RowHolds schema row ∧ schema.Declared := by
    intro n schema id row hschema hrow
    obtain ⟨ts, hts, rfl⟩ := Option.map_eq_some_iff.mp hschema
    have hts' : db.table n = some ts := by
      rw [table, ← db.tables_seenBy client]
      exact hts
    rw [seen, hts, htxns] at hrow
    refine ⟨currentRow_holds (h.tables n ts hts') (fun t ht => ?_)
      (rowsUnder_eq_some.mp hrow), (h.tables n ts hts').schema.2⟩
    obtain ⟨ts₁, hts₁, hh⟩ := h.txnOf_table ht
    rw [hts'] at hts₁
    cases hts₁
    exact hh
  refine ⟨hk.keyed client (db.tables_seenBy client) htxns,
    fun n schema id row hs hr => (hrows n schema id row hs hr).1, ?_⟩
  intro n schema id row hs hr pk hpk c hc hid
  obtain ⟨hholds, hdecl⟩ := hrows n schema id row hs hr
  exact hholds.notNull c (hdecl.primaryKey pk hpk c hc) hid

/-! ## Runs -/

/-- Calls of one client, that change no columns and whose counts fit the row
codec. -/
def OneClientSafe (client : Option Nat) (db : Database) (c : ClientCall) : Prop :=
  c.caller = client ∧ SchemaSafe db c.stmt

/-- `CREATE TABLE t (a INT PRIMARY KEY)`. -/
def createKeyed : Statement := .createTable ⟨"t", [⟨"a", .int, [.primaryKey]⟩], []⟩

/-- `CREATE TABLE t (s TEXT, a INT NOT NULL)`, `INSERT INTO t (s, a) VALUES (s, 5)`. -/
def textCalls (s : String) : List ClientCall :=
  [.execute (.createTable ⟨"t", [⟨"s", .text, []⟩, ⟨"a", .int, [.notNull]⟩], []⟩) [],
    .execute (.insert ⟨"t", ["s", "a"], [[.text s, .int 5]]⟩) []]

/-- Both succeed, whatever the text. -/
theorem textCalls_run (s : String) : ∃ db ts, runCalls 1 (textCalls s) .empty = some db ∧
    db.table "t" = some ts ∧ ts.schema.columns = ["id", "s", "a"] ∧ ts.schema.notNull = ["a"] ∧
    db.activeTxns = [] ∧ ts.tree.find? 0 = some (encodeRow [.int 0, .text s, .int 5]) :=
  ⟨_, _, rfl, rfl, rfl, rfl, rfl, rfl⟩

/-- A text of 2³² bytes that starts with the tag of `NULL` is written with
length 0: its first byte is read as the next value. -/
theorem decodeRow_of_wrapped {s : String} {rest : Bytes} (h : utf8Bytes s = 3 :: rest)
    (hlen : (utf8Bytes s).length = 2 ^ 32) (id : Nat) :
    (decodeRowValidated id (encodeRow [.int 0, .text s, .int 5]) 3 : Outcome DbError Row) =
      .ok [.int 0, .text "", .null] := by
  have htext : encodeValue (.text s) = 1 :: 0 :: 0 :: 0 :: 0 :: 3 :: rest := by
    rw [encodeValue, hlen, h]
    rfl
  have hvalues : decodeValues 3 (encodeValue (.int 0) ++ (1 :: 0 :: 0 :: 0 :: 0 :: 3 :: rest ++
      (encodeValue (.int 5) ++ []))) = some [.int 0, .text "", .null] := by
    rfl
  have hcount : ofLeBytes (leBytes 2 3) = 3 := by decide
  simp only [encodeRow, flatMap_cons, flatMap_nil, htext, length_cons,
    length_nil,
    decodeRowValidated, tryDecodeRow,
    splitBytes_append (length_leBytes 2 3), hcount, hvalues]
  rfl

end Archon
