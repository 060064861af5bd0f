import Archon.Lib.BigEndian
import Archon.Pgwire.Message

/-!
# Archon.Pgwire.Writer

The backend encoder `MessageWriter` and the reader of one message
(`crates/out-archon-pgwire/src/codec/mod.rs`).

`start` reserves the length field behind the tag and `finish` patches the last
four bytes of the buffer, so the length field of a message is never filled in
(`readMessage_written`).  What is written reads back only if nothing is
written (`readsBack_iff`).
-/

namespace Archon

open Text

/-- A `write_*` call with its arguments. -/
inductive WriteCall where
  | authOk
  | authPlain
  | authSasl (mechanisms : List Text)
  | authSaslContinue (data : Text)
  | authSaslFinal (data : Text)
  | backendKeyData (pid secret : Int32)
  | parameterStatus (name value : Text)
  | readyForQuery (txnStatus : TxnStatus)
  | rowDescription (cols : List ColumnDesc)
  | dataRow (cols : List ColumnDesc) (row : List Value)
  | commandComplete (tag : Text) (rows : UInt64)
  | errorResponse (message : Text) (sqlstate : Option Bytes)
  | parseComplete
  | bindComplete
  | closeComplete
  | noData
  | portalSuspended

namespace MessageWriter

/-! ## Pieces -/

def i32 (v : Int32) : Bytes := beBytes 4 v.toUInt32.toNat

def i16 (v : Int16) : Bytes := beBytes 2 v.toUInt16.toNat

/-- A length cast to `i32`. -/
def len32 (n : Nat) : Bytes := beBytes 4 n

/-- A count cast to `i16`. -/
def len16 (n : Nat) : Bytes := beBytes 2 n

def cstring (bytes : Bytes) : Bytes := bytes ++ [0]

/-- `write_field`. -/
def field (typ : UInt8) (value : Bytes) : Bytes := typ :: len32 value.length ++ value

def column (col : ColumnDesc) : Bytes :=
  cstring (bytes col.name) ++ i32 col.tableOid ++ i16 col.columnAttr ++ i32 col.typeOid ++
    i16 col.typeSize ++ i32 col.typeMod ++ i16 col.format

section

-- what `format!` prints for a float
variable (floatText : F32 → Text)

def vectorText (v : List F32) : Text :=
  "[".toList ++ ((v.map floatText).intersperse ",".toList).flatten ++ "]".toList

def encodeValue (val : Value) (binary : Bool) : Bytes :=
  if binary then
    match val with
    | .int i => beBytes 8 i.toUInt64.toNat
    | .float f => beBytes 4 f.bits.toNat
    | .text t => utf8Bytes t
    | .vector v => len32 v.length ++ v.flatMap fun f => beBytes 4 f.bits.toNat
    | .bool b => [if b then 1 else 0]
    | .null => []
  else
    match val with
    | .int i => bytes (Int.repr i.toInt).toList
    | .float f => bytes (floatText f)
    | .text t => utf8Bytes t
    | .vector v => bytes (vectorText floatText v)
    | .bool b => bytes (if b then "t".toList else "f".toList)
    | .null => []

/-- The columns of a data row. -/
def dataColumns (cols : List ColumnDesc) (row : List Value) : Bytes :=
  (cols.zip row).flatMap fun (col, val) =>
    let bytes := encodeValue floatText val (col.format == 1)
    len32 bytes.length ++ bytes

/-- `start`, what is written between it and `finish`, and `finish`. -/
def start (out : Bytes) (tag : BackendTag) : Bytes := out ++ [tag, 0, 0, 0, 0]

def finish (out : Bytes) : Bytes := splice out (out.length - 4) (len32 out.length)

def tag : WriteCall → BackendTag
  | .authOk | .authPlain | .authSasl _ | .authSaslContinue _ | .authSaslFinal _ => BackendTag.AUTH
  | .backendKeyData _ _ => BackendTag.BACKEND_KEY
  | .parameterStatus _ _ => BackendTag.PARAM_STATUS
  | .readyForQuery _ => BackendTag.READY_FOR_QUERY
  | .rowDescription _ => BackendTag.ROW_DESCRIPTION
  | .dataRow _ _ => BackendTag.DATA_ROW
  | .commandComplete _ _ => BackendTag.COMMAND_COMPLETE
  | .errorResponse _ _ => BackendTag.ERROR_RESPONSE
  | .parseComplete => BackendTag.PARSE_COMPLETE
  | .bindComplete => BackendTag.BIND_COMPLETE
  | .closeComplete => BackendTag.CLOSE_COMPLETE
  | .noData => BackendTag.NO_DATA
  | .portalSuspended => BackendTag.PORTAL_SUSPEND

/-- What a call writes after `start`. -/
def body : WriteCall → Bytes
  | .authOk => len32 8 ++ beBytes 4 0
  | .authPlain => len32 8 ++ beBytes 4 3
  | .authSasl mechanisms =>
    len32 (4 + 4 + (mechanisms.map fun m => (bytes m).length + 1).sum + 1) ++ beBytes 4 10 ++
      (mechanisms.flatMap fun m => bytes m ++ [0]) ++ [0]
  | .authSaslContinue data =>
    len32 (4 + 4 + (bytes data).length) ++ beBytes 4 11 ++ bytes data
  | .authSaslFinal data =>
    len32 (4 + 4 + (bytes data).length) ++ beBytes 4 12 ++ bytes data
  | .backendKeyData pid secret => len32 12 ++ i32 pid ++ i32 secret
  | .parameterStatus name value =>
    len32 (4 + ((bytes name).length + 1) + ((bytes value).length + 1)) ++
      bytes name ++ [0] ++ bytes value ++ [0]
  | .readyForQuery txnStatus => len32 5 ++ [txnStatus.asByte]
  | .rowDescription cols => len16 cols.length ++ cols.flatMap column
  | .dataRow cols row => len16 cols.length ++ dataColumns floatText cols row
  | .commandComplete tag rows =>
    let bytes := bytes (tag ++ " ".toList ++ (Nat.repr rows.toNat).toList)
    len32 (4 + (bytes.length + 1)) ++ bytes ++ [0]
  | .errorResponse message sqlstate =>
    field 77 (bytes message) ++ field 83 (bytes "ERROR".toList) ++
      (match sqlstate with
        | some ss => field 67 ss
        | none => []) ++ [0]
  | .parseComplete | .bindComplete | .closeComplete | .noData | .portalSuspended => len32 4

/-- One call.  `write_command_complete` does not call `finish`. -/
def write (out : Bytes) (call : WriteCall) : Bytes :=
  match call with
  | .commandComplete _ _ => start out (tag call) ++ body floatText call
  | _ => finish (start out (tag call) ++ body floatText call)

/-- The bytes of a sequence of calls on one writer. -/
def written (calls : List WriteCall) : Bytes := calls.foldl (write floatText) []

/-! ## What the protocol prescribes -/

/-- A column value: its length and bytes, or the length -1 for NULL. -/
def prescribedColumn (val : Value) (binary : Bool) : Bytes :=
  match val with
  | .null => i32 (-1)
  | _ =>
    let bytes := encodeValue floatText val binary
    len32 bytes.length ++ bytes

/-- The payload of a message: everything after its length field. -/
def payload : WriteCall → Bytes
  | .authOk => beBytes 4 0
  | .authPlain => beBytes 4 3
  | .authSasl mechanisms =>
    beBytes 4 10 ++ (mechanisms.flatMap fun m => cstring (bytes m)) ++ [0]
  | .authSaslContinue data => beBytes 4 11 ++ bytes data
  | .authSaslFinal data => beBytes 4 12 ++ bytes data
  | .backendKeyData pid secret => i32 pid ++ i32 secret
  | .parameterStatus name value => cstring (bytes name) ++ cstring (bytes value)
  | .readyForQuery txnStatus => [txnStatus.asByte]
  | .rowDescription cols => len16 cols.length ++ cols.flatMap column
  | .dataRow cols row =>
    len16 row.length ++ (cols.zip row).flatMap fun (col, val) =>
      prescribedColumn floatText val (col.format == 1)
  | .commandComplete tag rows =>
    cstring (bytes (tag ++ " ".toList ++ (Nat.repr rows.toNat).toList))
  | .errorResponse message sqlstate =>
    77 :: cstring (bytes message) ++ 83 :: cstring (bytes "ERROR".toList) ++
      (match sqlstate with
        | some ss => 67 :: cstring ss
        | none => []) ++ [0]
  | .parseComplete | .bindComplete | .closeComplete | .noData | .portalSuspended => []

end

end MessageWriter

/-! ## Reading messages -/

/-- Read one message off the front; `none` if more bytes are needed. -/
def readMessage (buf : Bytes) : Except CodecError (Option ((UInt8 × Bytes) × Bytes)) :=
  match buf with
  | msgType :: b0 :: b1 :: b2 :: b3 :: rest =>
    let len := ofBe32 b0 b1 b2 b3
    if len < 4 then .error (.invalidLength len)
    else if rest.length < len - 4 then .ok none
    else .ok (some ((msgType, rest.take (len - 4)), rest.drop (len - 4)))
  | _ => .ok none

/-- Read until no message is left: the messages, and the bytes not consumed. -/
def readMessages : Nat → Bytes → Except CodecError (List (UInt8 × Bytes) × Bytes)
  | 0, buf => .ok ([], buf)
  | fuel + 1, buf =>
    match readMessage buf with
    | .error e => .error e
    | .ok none => .ok ([], buf)
    | .ok (some (message, rest)) =>
      (readMessages fuel rest).map fun (messages, left) => (message :: messages, left)

namespace MessageWriter

variable (floatText : F32 → Text)

/-- The calls read back: one message each, in order, and nothing left. -/
def ReadsBack (calls : List WriteCall) : Prop :=
  ∀ fuel, (written floatText calls).length < fuel →
    readMessages fuel (written floatText calls) =
      .ok (calls.map fun call => (tag call, payload floatText call), [])

/-- The buffer starts with a message whose length field is zero. -/
def Unpatched (out : Bytes) : Prop := ∃ msgType rest, out = msgType :: 0 :: 0 :: 0 :: 0 :: rest

theorem body_ne_nil (call : WriteCall) : body floatText call ≠ [] := by
  have hfour : ∀ n, len32 n ≠ [] := fun n => by simp [len32, beBytes_four]
  have htwo : ∀ n, len16 n ≠ [] := fun n h => by simpa [len16] using congrArg List.length h
  cases call <;> simp [body, hfour, htwo]

/-- The last four bytes of a message are patched over. -/
theorem finish_start (msgType : UInt8) (bytes : Bytes) {last : Bytes} (h : last.length = 4) :
    finish (start [] msgType ++ (bytes ++ last)) =
      start [] msgType ++ (bytes ++ len32 (bytes.length + 9)) := by
  have hpos : (start [] msgType ++ (bytes ++ last)).length - 4 = bytes.length + 5 := by
    simp [start, h]
  have hlen : (start [] msgType ++ (bytes ++ last)).length = bytes.length + 9 := by
    simp [start, h]
  rw [finish, hpos, hlen, splice]
  simp [start, len32, h]

/-- Patching the end leaves the first five bytes of a longer buffer. -/
theorem Unpatched.finish {out : Bytes} (h : Unpatched out) (hlen : 9 ≤ out.length) :
    Unpatched (MessageWriter.finish out) := by
  obtain ⟨msgType, rest, rfl⟩ := h
  have hrest : 4 ≤ rest.length := by simpa using hlen
  refine ⟨msgType, rest.take (rest.length - 4) ++ len32 (rest.length + 5), ?_⟩
  have hpos : (msgType :: 0 :: 0 :: 0 :: 0 :: rest).length - 4 = (rest.length - 4) + 5 := by
    simp
    omega
  rw [MessageWriter.finish, hpos, splice]
  have hafter : rest.drop (rest.length - 4 + 4) = [] := List.drop_eq_nil_of_le (by omega)
  simp [len32, hafter]

/-- The first message of a buffer.  A body of fewer than four bytes is patched
over together with the end of the length field, by the zeros of a small
number. -/
theorem Unpatched.patched (msgType : UInt8) {bytes : Bytes} (h : bytes ≠ []) :
    Unpatched (MessageWriter.finish (start [] msgType ++ bytes)) := by
  obtain _ | ⟨b0, _ | ⟨b1, _ | ⟨b2, _ | ⟨b3, rest⟩⟩⟩⟩ := bytes
  · exact absurd rfl h
  · exact ⟨msgType, [6], by simp [MessageWriter.finish, start, splice, len32, beBytes_four]⟩
  · exact ⟨msgType, [0, 7], by simp [MessageWriter.finish, start, splice, len32, beBytes_four]⟩
  · exact ⟨msgType, [0, 0, 8], by simp [MessageWriter.finish, start, splice, len32, beBytes_four]⟩
  · refine Unpatched.finish ⟨msgType, b0 :: b1 :: b2 :: b3 :: rest, rfl⟩ ?_
    simp [start]

theorem unpatched_write_nil (call : WriteCall) : Unpatched (write floatText [] call) := by
  have hbody := body_ne_nil floatText call
  unfold write
  split
  · exact ⟨_, _, rfl⟩
  · exact .patched _ hbody

theorem Unpatched.write {out : Bytes} (h : Unpatched out) (call : WriteCall) :
    Unpatched (MessageWriter.write floatText out call) := by
  obtain ⟨msgType, rest, rfl⟩ := h
  have hmore : Unpatched (start (msgType :: 0 :: 0 :: 0 :: 0 :: rest) (tag call) ++
      body floatText call) := ⟨msgType, rest ++ _ ++ _, rfl⟩
  unfold MessageWriter.write
  split
  · exact hmore
  · refine hmore.finish ?_
    simp [start]
    omega

/-- The length field of the first message is never filled in. -/
theorem unpatched_written {calls : List WriteCall} (h : calls ≠ []) :
    Unpatched (written floatText calls) := by
  have hrun : ∀ (calls : List WriteCall) (out : Bytes), Unpatched out →
      Unpatched (calls.foldl (write floatText) out) := by
    intro calls
    induction calls with
    | nil => exact fun out hout => hout
    | cons call calls ih => exact fun out hout => ih _ (hout.write floatText call)
  cases calls with
  | nil => exact absurd rfl h
  | cons call calls => exact hrun calls _ (unpatched_write_nil floatText call)

/-- Nothing that is written can be read. -/
theorem readMessage_written {calls : List WriteCall} (h : calls ≠ []) :
    readMessage (written floatText calls) = .error (.invalidLength 0) := by
  obtain ⟨msgType, rest, hout⟩ := unpatched_written floatText h
  rw [hout]
  rfl

/-- What is written reads back exactly if nothing is. -/
theorem readsBack_iff (calls : List WriteCall) : ReadsBack floatText calls ↔ calls = [] := by
  constructor
  · intro hback
    by_contra hne
    have hread := hback ((written floatText calls).length + 1) (Nat.lt_succ_self _)
    grind [readMessages, readMessage_written floatText hne]
  · rintro rfl fuel hfuel
    cases fuel <;> rfl

/-- `AuthenticationOk`, the first message of every session. -/
theorem not_readsBack_authOk : ¬ ReadsBack (fun _ => []) [.authOk] := by
  intro hback
  have hread := hback 14 (by decide)
  exact absurd hread (by decide)

end MessageWriter

end Archon
