import Archon.Lib.Text
import Archon.Relational.Value

/-!
# Archon.Pgwire.Message

Messages of the wire protocol
(`crates/out-archon-pgwire/src/codec/message.rs`), with the errors of the
codec.
-/

namespace Archon

/-- Transaction status for ReadyForQuery. -/
inductive TxnStatus where
  | idle
  | inTransaction
  | failed
  deriving DecidableEq, Repr

def TxnStatus.asByte : TxnStatus → UInt8
  | .idle => 73
  | .inTransaction => 84
  | .failed => 69

inductive CodecError where
  | incomplete (needed got : Nat)
  | invalidLength (length : Nat)
  | unexpectedTag (tag : UInt8)
  | parse (message : Text)
  deriving DecidableEq, Repr

/-! ## Frontend -/

/-- Protocol version and parameters. -/
structure StartupMessage where
  protocolMajor : Int32
  protocolMinor : Int32
  params : List (Text × Text)
  deriving DecidableEq

inductive FrontendMessage where
  | startup (message : StartupMessage)
  | query (sql : Text)
  | terminate
  | parse
  | bind
  | describe
  | execute
  | sync
  | close
  | password (password : Text)
  | sslRequest
  deriving DecidableEq

/-! ## Backend -/

/-- The type byte of a backend message. -/
abbrev BackendTag := UInt8

namespace BackendTag

def AUTH : BackendTag := 82
def BACKEND_KEY : BackendTag := 75
def PARAM_STATUS : BackendTag := 83
def READY_FOR_QUERY : BackendTag := 90
def ROW_DESCRIPTION : BackendTag := 84
def DATA_ROW : BackendTag := 68
def COMMAND_COMPLETE : BackendTag := 67
def ERROR_RESPONSE : BackendTag := 69
def NO_DATA : BackendTag := 110
def PARSE_COMPLETE : BackendTag := 49
def BIND_COMPLETE : BackendTag := 50
def CLOSE_COMPLETE : BackendTag := 51
def PORTAL_SUSPEND : BackendTag := 115

end BackendTag

/-- Column description for RowDescription. -/
structure ColumnDesc where
  name : Text
  tableOid : Int32
  columnAttr : Int16
  typeOid : Int32
  typeSize : Int16
  typeMod : Int32
  /-- 0 is text, 1 is binary. -/
  format : Int16
  deriving DecidableEq

end Archon
