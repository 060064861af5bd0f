import Archon.Lib.Trace
import Archon.Pgwire.ErrorContract
import Archon.Relational.SessionFlags

/-!
# Archon.Pgwire.Status

The transaction status a server reports, and the one a session has.

The byte that arrives is never a status: `finish` writes the length of the
message over it.  The status handed to the writer is one the wire layer keeps
next to the engine's flag, and for a `Sync` always idle; it is right exactly if
the two say the same (`status_real_iff`).  They part when a statement fails
outside of a transaction (`failed_outside_transaction`).
-/

namespace Archon

/-! ## The server -/

/-- Connections to one database, each with its session. -/
structure Server where
  db : Database
  sessions : Nat → Session
  ids : ∀ i, (sessions i).id = i

inductive WireMessage where
  | query (sql : Text)
  | sync

namespace Server

variable (fe : FrontEnd)

/-- Put back a session after a query. -/
def setSession (s : Server) (sid : Nat) (session : Session) (db : Database)
    (h : session.id = sid) : Server where
  db := db
  sessions := Function.update s.sessions sid session
  ids := by
    intro i
    by_cases hi : i = sid
    · subst hi
      simpa using h
    · simpa [hi] using s.ids i

/-- Handle a message of a connection; none if the engine panics. -/
def handle (s : Server) (sid : Nat) : WireMessage → Option (List WriteCall × Server)
  | .query sql =>
    match h : handleSimpleQuery fe sql (s.sessions sid) s.db with
    | none => none
    | some ((_, messages), session, db) =>
      some (messages, s.setSession sid session db
        ((turns_id (handleSimpleQuery_eq h).1).trans (s.ids sid)))
  | .sync => some (handleSync, s)

end Server

/-! ## The two states -/

/-- The wire layer's status and the engine's flag say the same. -/
def Agrees (session : Session) (db : Database) : Prop :=
  session.txnStatus = .idle ↔ db.sessionInTransaction session.id = false

instance (session : Session) (db : Database) : Decidable (Agrees session db) :=
  inferInstanceAs (Decidable (_ ↔ _))

/-- The byte says which state the session is in. -/
def ByteReal (byte : UInt8) (inTransaction : Bool) : Prop :=
  (byte = 73 ↔ inTransaction = false) ∧ (byte = 84 ∨ byte = 69 ↔ inTransaction = true)

/-- Every status byte sent, the last of its message, is the real one. -/
def StatusReal (floatText : F32 → Text) (reply : List WriteCall) (inTransaction : Bool) : Prop :=
  ∀ status, .readyForQuery status ∈ reply →
    ∃ byte, (MessageWriter.written floatText [.readyForQuery status]).getLast? = some byte ∧
      ByteReal byte inTransaction

/-- Every status handed to the writer is the real one. -/
def StatusGiven (reply : List WriteCall) (inTransaction : Bool) : Prop :=
  ∀ status, .readyForQuery status ∈ reply → ByteReal status.asByte inTransaction

/-- No status byte is real. -/
theorem not_statusReal {floatText : F32 → Text} {reply : List WriteCall} {status : TxnStatus}
    (h : .readyForQuery status ∈ reply) (inTransaction : Bool) :
    ¬ StatusReal floatText reply inTransaction := by
  intro hreal
  obtain ⟨byte, hbyte, hright⟩ := hreal status h
  have hlength : (MessageWriter.written floatText [.readyForQuery status]).getLast? = some 10 := by
    cases status <;> rfl
  obtain rfl := Option.some.inj (hlength.symm.trans hbyte)
  cases inTransaction <;> simp [ByteReal] at hright

variable {fe : FrontEnd} {s s' : Server} {sid : Nat} {reply : List WriteCall} {session : Session}
  {db : Database}

/-- The status is right exactly if the two states agree. -/
theorem statusGiven_iff : StatusGiven [.readyForQuery session.txnStatus.toTransactionStatus]
    (db.sessionInTransaction session.id) ↔ Agrees session db := by
  cases hs : session.txnStatus <;> cases hin : db.sessionInTransaction session.id <;>
    simp [StatusGiven, ByteReal, Agrees, SessionTxnStatus.toTransactionStatus, TxnStatus.asByte,
      hs, hin]

theorem statusGiven_append (body : List WriteCall) (h : ∀ status, .readyForQuery status ∉ body)
    (reply : List WriteCall) (inTransaction : Bool) :
    StatusGiven (body ++ reply) inTransaction ↔ StatusGiven reply inTransaction := by
  simp [StatusGiven, h]

/-! ## Runs -/

namespace Server

theorem handle_query {sql : Text} (h : s.handle fe sid (.query sql) = some (reply, s')) :
    ∃ ts session db, turns fe (pieces sql) (s.sessions sid) s.db = some (ts, session, db) ∧
      reply = ts.flatMap QueryTurn.messages ++
        [.readyForQuery session.txnStatus.toTransactionStatus] ∧
      s'.db = db ∧ s'.sessions = Function.update s.sessions sid session := by
  simp only [handle] at h
  split at h
  · cases h
  · next ts messages session db heq =>
    cases h
    obtain ⟨hturns, hmessages⟩ := handleSimpleQuery_eq heq
    exact ⟨ts, session, db, hturns, hmessages, rfl, rfl⟩

/-- What the connection was told, against the state left behind. -/
theorem statusGiven_query {sql : Text} (h : s.handle fe sid (.query sql) = some (reply, s')) :
    StatusGiven reply (s'.db.sessionInTransaction sid) ↔ Agrees (s'.sessions sid) s'.db := by
  obtain ⟨ts, session, db, _, rfl, rfl, hsessions⟩ := handle_query h
  have hid := s'.ids sid
  rw [hsessions, Function.update_self] at hid ⊢
  rw [statusGiven_append, ← hid, statusGiven_iff]
  intro status hmem
  obtain ⟨t, _, ht⟩ := List.mem_flatMap.mp hmem
  exact t.not_ready status ht

/-- Every answer ends with a status. -/
theorem ready_mem_reply {m : WireMessage} (h : s.handle fe sid m = some (reply, s')) :
    ∃ status, .readyForQuery status ∈ reply := by
  cases m with
  | query sql =>
    obtain ⟨ts, session, db, _, rfl, -⟩ := handle_query h
    exact ⟨session.txnStatus.toTransactionStatus, by simp⟩
  | sync =>
    cases h
    exact ⟨.idle, by simp [handleSync]⟩

/-- One message of a connection, with the flag of its session afterwards. -/
def step (fe : FrontEnd) (s : Server) (call : Nat × WireMessage) :
    Option ((List WriteCall × Bool) × Server) :=
  match s.handle fe call.1 call.2 with
  | none => none
  | some (reply, s') => some ((reply, s'.db.sessionInTransaction call.1), s')

end Server

/-- Runs of the messages of any connections. -/
abbrev ServerRun (fe : FrontEnd) (init : Server) :
    List ((Nat × WireMessage) × (List WriteCall × Bool)) → Server → Prop :=
  TraceRun (Server.step fe) (fun _ _ => True) init

theorem ServerRun.ready {init : Server}
    {trace : List ((Nat × WireMessage) × (List WriteCall × Bool))} (h : ServerRun fe init trace s) :
    ∀ e ∈ trace, ∃ status, .readyForQuery status ∈ e.2.1 := by
  refine TraceRun.keeps (P := fun trace _ => ∀ e ∈ trace, ∃ status, .readyForQuery status ∈ e.2.1)
    (by simp) (fun trace s call reply s' hinv _ hstep e he => ?_) h
  obtain he | rfl := by simpa using he
  · exact hinv e he
  · unfold Server.step at hstep
    split at hstep
    · cases hstep
    · next hhandle =>
      cases hstep
      exact Server.ready_mem_reply hhandle

/-- In every run the status bytes a connection is sent are real exactly if it is
sent none.  The status handed to the writer is real for a query exactly if the
wire layer's status and the engine's flag agree afterwards, and for a `Sync`
exactly outside of a transaction. -/
theorem status_real_iff (floatText : F32 → Text) {init : Server}
    {trace : List ((Nat × WireMessage) × (List WriteCall × Bool))} (h : ServerRun fe init trace s) :
    ((∀ e ∈ trace, e.1.1 = sid → StatusReal floatText e.2.1 e.2.2) ↔ ∀ e ∈ trace, e.1.1 ≠ sid) ∧
    ∀ m reply s', s.handle fe sid m = some (reply, s') →
      (StatusGiven reply (s'.db.sessionInTransaction sid) ↔
        match m with
        | .query _ => Agrees (s'.sessions sid) s'.db
        | .sync => s'.db.sessionInTransaction sid = false) := by
  refine ⟨⟨fun hreal e he hsid => ?_, fun hnone e he hsid => absurd hsid (hnone e he)⟩,
    fun m reply s' hstep => ?_⟩
  · obtain ⟨status, hready⟩ := h.ready e he
    exact not_statusReal hready _ (hreal e he hsid)
  · cases m with
    | query sql => exact Server.statusGiven_query hstep
    | sync =>
      cases hstep
      cases hin : s.db.sessionInTransaction sid <;>
        simp [StatusGiven, ByteReal, handleSync, TxnStatus.asByte]

/-- A server nobody has used. -/
def freshServer : Server := ⟨.empty, fun i => { id := i }, fun _ => rfl⟩

/-- A server to which connection 2 has sent a `COMMIT`, which failed. -/
def refusedServer : List WriteCall × Server :=
  (freshServer.handle keywords 2 (.query "COMMIT".toList)).getD ([], freshServer)

theorem handle_refusedServer :
    freshServer.handle keywords 2 (.query "COMMIT".toList) = some refusedServer := by
  have hsome : (freshServer.handle keywords 2 (.query "COMMIT".toList)).isSome = true := by
    decide +kernel
  obtain ⟨r, hr⟩ := Option.isSome_iff_exists.mp hsome
  rw [refusedServer, hr, Option.getD_some]

/-- Connection 1 then sends a transaction: the status handed to the writer is
right, the byte sent is not. -/
theorem status_real_transaction : ∃ trace reply s',
    ServerRun keywords freshServer trace refusedServer.2 ∧
    refusedServer.2.handle keywords 1 (.query "BEGIN; COMMIT".toList) = some (reply, s') ∧
    StatusGiven reply (s'.db.sessionInTransaction 1) ∧
    ¬ StatusReal (fun _ => []) reply (s'.db.sessionInTransaction 1) := by
  have hrun : ServerRun keywords freshServer [((2, .query "COMMIT".toList),
      (refusedServer.1, refusedServer.2.db.sessionInTransaction 2))] refusedServer.2 :=
    .call .start trivial (by simp only [Server.step, handle_refusedServer])
  have hany : (refusedServer.2.handle keywords 1 (.query "BEGIN; COMMIT".toList)).any
      (fun r => decide (Agrees (r.2.sessions 1) r.2.db)) = true := by
    decide +kernel
  obtain ⟨⟨reply, s'⟩, h, hagrees⟩ := (Option.any_eq_true _ _).mp hany
  obtain ⟨status, hready⟩ := Server.ready_mem_reply h
  exact ⟨_, reply, s', hrun, h, ((status_real_iff (fun _ => []) hrun).2 _ reply s' h).mpr
    (of_decide_eq_true hagrees),
    not_statusReal hready _⟩

/-- A `COMMIT` outside of a transaction: the status handed over is `E`, and a 10
is sent. -/
theorem failed_outside_transaction : ∃ reply s',
    freshServer.handle keywords 1 (.query "COMMIT".toList) = some (reply, s') ∧
    ¬ StatusReal (fun _ => []) reply (s'.db.sessionInTransaction 1) ∧
    ¬ StatusGiven reply (s'.db.sessionInTransaction 1) := by
  have hany : (freshServer.handle keywords 1 (.query "COMMIT".toList)).any
      (fun r => decide (¬ Agrees (r.2.sessions 1) r.2.db)) = true := by
    decide +kernel
  obtain ⟨⟨reply, s'⟩, h, hdiffer⟩ := (Option.any_eq_true _ _).mp hany
  obtain ⟨status, hready⟩ := Server.ready_mem_reply h
  exact ⟨reply, s', h, not_statusReal hready _,
    (Server.statusGiven_query h).not.mpr (of_decide_eq_true hdiffer)⟩

end Archon
