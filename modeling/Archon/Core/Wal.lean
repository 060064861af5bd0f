import Archon.Core.Checksum
import Archon.Core.Zerocopy

/-!
# Archon.Core.Wal

The write-ahead log (`crates/tpt-archon-core/src/wal.rs`): record framing,
the append-only log and its replay.

Frame layout (little-endian):

```
u32 total_len   (everything after this field, including the crc)
u64 lsn
u8  kind
u64 block_id
u32 payload_len
[payload_len] payload
u32 crc32       (over lsn ..= payload)
```

`frame` is that layout as a byte string; `encode_eq_frame` says the code
writes it, `decode_frame_append` that it reads back in front of any tail,
and `decode_sound` that whatever is accepted *is* such a frame.  Replay of a
log is then replay of the list of its intact records.
-/

namespace Archon

open Except List

/-- A log sequence number. -/
abbrev Lsn := UInt64

/-- The kind of operation a record describes. -/
inductive RecordKind where
  | pageWrite
  | commit
  | checkpoint
  deriving DecidableEq, Repr

namespace RecordKind

def toU8 : RecordKind → UInt8
  | .pageWrite => 1
  | .commit => 2
  | .checkpoint => 3

def fromU8 (v : UInt8) : Option RecordKind :=
  if v = 1 then some .pageWrite
  else if v = 2 then some .commit
  else if v = 3 then some .checkpoint
  else none

@[simp] theorem fromU8_toU8 (k : RecordKind) : fromU8 k.toU8 = some k := by
  cases k <;> rfl

theorem toU8_of_fromU8 {v : UInt8} {k : RecordKind} (h : fromU8 v = some k) : k.toU8 = v := by
  unfold fromU8 at h
  split at h
  · next hv => cases h; exact hv.symm
  · split at h
    · next hv => cases h; exact hv.symm
    · split at h
      · next hv => cases h; exact hv.symm
      · contradiction

end RecordKind

/-- A single write-ahead log record. -/
structure WalRecord where
  lsn : Lsn
  kind : RecordKind
  blockId : UInt64
  payload : Bytes
  deriving DecidableEq

/-- Errors from encoding and decoding records. -/
inductive WalError where
  | outOfSpace
  | malformed
  | badChecksum
  | unknownKind (tag : UInt8)
  deriving DecidableEq, Repr

/-- lsn, kind, block id and payload length. -/
def HEADER_LEN : Nat := 8 + 1 + 8 + 4

namespace WalRecord

/-- Bytes the record occupies on disk, framing included. -/
def encodedLen (r : WalRecord) : Nat := 4 + HEADER_LEN + r.payload.length + 4

/-- Encode the record into `out`: the buffer left behind and the number of
bytes written.  The two lengths are truncated to 32 bits, as the `as u32`
casts of the code do. -/
def encode (r : WalRecord) (out : Bytes) : Except WalError (Bytes × Nat) := do
  let bodyLen := HEADER_LEN + r.payload.length + 4
  let c := Cursor.new out
  let c ← (c.putU32 (UInt32.ofNat bodyLen)).mapError fun _ => .outOfSpace
  let c ← (c.putU64 r.lsn).mapError fun _ => .outOfSpace
  let c ← (c.putU8 r.kind.toU8).mapError fun _ => .outOfSpace
  let c ← (c.putU64 r.blockId).mapError fun _ => .outOfSpace
  let c ← (c.putU32 (UInt32.ofNat r.payload.length)).mapError fun _ => .outOfSpace
  let c ← (c.putBytes r.payload).mapError fun _ => .outOfSpace
  -- the crc covers the body without the leading total_len
  let crc := crc32 ((c.buf.take c.pos).drop 4)
  let tail ← ((Cursor.new (c.buf.drop c.pos)).putU32 crc).mapError fun _ => .outOfSpace
  return (c.buf.take c.pos ++ tail.buf, c.pos + 4)

/-- Decode one record from the front of `data`: the record and the number of
bytes consumed. -/
def decode (data : Bytes) : Except WalError (WalRecord × Nat) := do
  let (bodyLen, r) ← (Reader.new data).readU32.mapError fun _ => .malformed
  if r.remaining < bodyLen.toNat then .error .malformed
  else
    let bodyStart := r.pos
    let (lsn, r) ← r.readU64.mapError fun _ => .malformed
    let (kindTag, r) ← r.readU8.mapError fun _ => .malformed
    let kind ← okOr (RecordKind.fromU8 kindTag) (.unknownKind kindTag)
    let (blockId, r) ← r.readU64.mapError fun _ => .malformed
    let (payloadLen, r) ← r.readU32.mapError fun _ => .malformed
    let (payload, r) ← (r.readBytes payloadLen.toNat).mapError fun _ => .malformed
    let (storedCrc, r) ← r.readU32.mapError fun _ => .malformed
    let bodyEnd := r.pos
    let crcRegionEnd := bodyEnd - 4
    -- a declared length that disagrees with what was consumed would desync
    -- the next record
    if bodyEnd - bodyStart ≠ bodyLen.toNat then .error .malformed
    else if crc32 ((data.take crcRegionEnd).drop bodyStart) ≠ storedCrc then
      .error .badChecksum
    else .ok (⟨lsn, kind, blockId, payload⟩, 4 + bodyLen.toNat)

/-! ## The frame -/

/-- The checksummed part of a record. -/
def body (r : WalRecord) : Bytes :=
  leBytes 8 r.lsn.toNat ++ [r.kind.toU8] ++ leBytes 8 r.blockId.toNat ++
    leBytes 4 r.payload.length ++ r.payload

/-- The bytes of a record. -/
def frame (r : WalRecord) : Bytes :=
  leBytes 4 (HEADER_LEN + r.payload.length + 4) ++ r.body ++
    leBytes 4 (crc32 r.body).toNat

/-- Records whose lengths survive the truncation to 32 bits. -/
def Fits (r : WalRecord) : Prop := r.payload.length + 25 < 2 ^ 32

theorem length_body (r : WalRecord) : r.body.length = HEADER_LEN + r.payload.length := by
  simp only [body, length_append, length_leBytes, length_singleton, HEADER_LEN]

theorem length_frame (r : WalRecord) : r.frame.length = r.encodedLen := by
  simp only [frame, length_append, length_leBytes, length_body, encodedLen]
  omega

theorem leBytes_ofNat_u32 (n : Nat) : leBytes 4 (UInt32.ofNat n).toNat = leBytes 4 n := by
  exact leBytes_mod 4 n

/-- Into a buffer of its own size, `encode` writes exactly the frame. -/
theorem encode_eq_frame (r : WalRecord) {out : Bytes} (h : out.length = r.encodedLen) :
    r.encode out = .ok (r.frame, r.encodedLen) := by
  have hlen : out.length = 29 + r.payload.length := by
    rw [h, encodedLen, HEADER_LEN]; omega
  -- thread the cursor through the seven fields, keeping what was written apart
  -- from the untouched rest of the buffer
  obtain ⟨o1, h1, l1⟩ := Cursor.putBytes_append []
    (leBytes 4 (HEADER_LEN + r.payload.length + 4)) out (by rw [length_leBytes]; omega)
  rw [length_leBytes] at l1
  obtain ⟨o2, h2, l2⟩ := Cursor.putBytes_append
    ([] ++ leBytes 4 (HEADER_LEN + r.payload.length + 4))
    (leBytes 8 r.lsn.toNat) o1 (by rw [length_leBytes]; omega)
  rw [length_leBytes] at l2
  obtain ⟨o3, h3, l3⟩ := Cursor.putBytes_append
    ([] ++ leBytes 4 (HEADER_LEN + r.payload.length + 4) ++ leBytes 8 r.lsn.toNat)
    [r.kind.toU8] o2 (by rw [length_singleton]; omega)
  rw [length_singleton] at l3
  obtain ⟨o4, h4, l4⟩ := Cursor.putBytes_append
    ([] ++ leBytes 4 (HEADER_LEN + r.payload.length + 4) ++ leBytes 8 r.lsn.toNat ++
      [r.kind.toU8])
    (leBytes 8 r.blockId.toNat) o3 (by rw [length_leBytes]; omega)
  rw [length_leBytes] at l4
  obtain ⟨o5, h5, l5⟩ := Cursor.putBytes_append
    ([] ++ leBytes 4 (HEADER_LEN + r.payload.length + 4) ++ leBytes 8 r.lsn.toNat ++
      [r.kind.toU8] ++ leBytes 8 r.blockId.toNat)
    (leBytes 4 r.payload.length) o4 (by rw [length_leBytes]; omega)
  rw [length_leBytes] at l5
  obtain ⟨o6, h6, l6⟩ := Cursor.putBytes_append
    ([] ++ leBytes 4 (HEADER_LEN + r.payload.length + 4) ++ leBytes 8 r.lsn.toNat ++
      [r.kind.toU8] ++ leBytes 8 r.blockId.toNat ++ leBytes 4 r.payload.length)
    r.payload o5 (by omega)
  have hbody : [] ++ leBytes 4 (HEADER_LEN + r.payload.length + 4) ++ leBytes 8 r.lsn.toNat ++
      [r.kind.toU8] ++ leBytes 8 r.blockId.toNat ++ leBytes 4 r.payload.length ++ r.payload =
      leBytes 4 (HEADER_LEN + r.payload.length + 4) ++ r.body := by
    rfl
  rw [hbody] at h6
  obtain ⟨o7, h7, l7⟩ := Cursor.putBytes_append []
    (leBytes 4 (crc32 r.body).toNat) o6 (by rw [length_leBytes]; omega)
  have ho7 : o7 = [] := by
    rw [length_leBytes] at l7
    exact eq_nil_of_length_eq_zero (by omega)
  have hnew (b : Bytes) : Cursor.new b = ⟨[] ++ b, ([] : Bytes).length⟩ := rfl
  unfold encode
  simp only [Cursor.putU32, Cursor.putU64, Cursor.putU8, leBytes_ofNat_u32]
  rw [hnew, h1, mapError_ok, ok_bind, h2, mapError_ok, ok_bind, h3,
    mapError_ok, ok_bind, h4, mapError_ok, ok_bind, h5,
    mapError_ok, ok_bind, h6, mapError_ok, ok_bind]
  simp only [take_append_of_length rfl, drop_append_of_length rfl]
  rw [drop_append_of_length (length_leBytes 4 _), hnew, h7, ho7]
  simp [frame, length_body, encodedLen, Nat.add_assoc]

/-- What a successful `decode` read, field by field. -/
theorem decode_eq_ok_iff (data : Bytes) (r : WalRecord) (n : Nat) :
    decode data = .ok (r, n) ↔ ∃ bodyLen r0 r1 tag r2 r3 payloadLen r4 r5 crc r6,
      (Reader.new data).readU32 = .ok (bodyLen, r0) ∧ ¬ r0.remaining < bodyLen.toNat ∧
      r0.readU64 = .ok (r.lsn, r1) ∧ r1.readU8 = .ok (tag, r2) ∧
      RecordKind.fromU8 tag = some r.kind ∧ r2.readU64 = .ok (r.blockId, r3) ∧
      r3.readU32 = .ok (payloadLen, r4) ∧ r4.readBytes payloadLen.toNat = .ok (r.payload, r5) ∧
      r5.readU32 = .ok (crc, r6) ∧ r6.pos - r0.pos = bodyLen.toNat ∧
      crc32 ((data.take (r6.pos - 4)).drop r0.pos) = crc ∧ n = 4 + bodyLen.toNat := by
  simp only [decode, bind_eq_ok, mapError_eq_ok, Prod.exists,
    ite_error_eq_ok, okOr_eq_ok]
  constructor
  · rintro ⟨bodyLen, r0, h0, hrem, lsn, r1, h1, tag, r2, h2, kind, hk, blockId, r3, h3,
      payloadLen, r4, h4, payload, r5, h5, crc, r6, h6, hend, hcrc, he⟩
    injection he with he
    injection he with hr hn
    subst hr
    exact ⟨bodyLen, r0, r1, tag, r2, r3, payloadLen, r4, r5, crc, r6, h0, hrem, h1, h2, hk, h3,
      h4, h5, h6, Decidable.not_not.mp hend, Decidable.not_not.mp hcrc, hn.symm⟩
  · rintro ⟨bodyLen, r0, r1, tag, r2, r3, payloadLen, r4, r5, crc, r6, h0, hrem, h1, h2, hk, h3,
      h4, h5, h6, hend, hcrc, rfl⟩
    exact ⟨bodyLen, r0, h0, hrem, r.lsn, r1, h1, tag, r2, h2, r.kind, hk, r.blockId, r3, h3,
      payloadLen, r4, h4, r.payload, r5, h5, crc, r6, h6, by simpa using hend,
      by simpa using hcrc, rfl⟩

/-- **Roundtrip**: a frame reads back from the front of any buffer, with its
exact length. -/
theorem decode_frame_append (r : WalRecord) (h : r.Fits) (tail : Bytes) :
    decode (r.frame ++ tail) = .ok (r, r.encodedLen) := by
  have hF : r.payload.length + 25 < 2 ^ 32 := h
  have hlen32 : (UInt32.ofNat (HEADER_LEN + r.payload.length + 4)).toNat =
      HEADER_LEN + r.payload.length + 4 := by
    rw [UInt32.toNat_ofNat', Nat.mod_eq_of_lt (by rw [HEADER_LEN]; omega)]
  have hpay32 : (UInt32.ofNat r.payload.length).toNat = r.payload.length := by
    rw [UInt32.toNat_ofNat', Nat.mod_eq_of_lt (by omega)]
  have hdata : r.frame ++ tail =
      leBytes 4 (UInt32.ofNat (HEADER_LEN + r.payload.length + 4)).toNat ++
        (leBytes 8 r.lsn.toNat ++ ([r.kind.toU8] ++ (leBytes 8 r.blockId.toNat ++
          (leBytes 4 (UInt32.ofNat r.payload.length).toNat ++
            (r.payload ++ (leBytes 4 (crc32 r.body).toNat ++ tail)))))) := by
    simp only [frame, body, hlen32, hpay32, append_assoc]
  generalize hD : r.frame ++ tail = data at hdata
  have d0 : data.drop 0 = _ := hdata
  have d1 := drop_add_of_drop_eq d0 (length_leBytes 4 _)
  have d2 := drop_add_of_drop_eq d1 (length_leBytes 8 _)
  have d3 := drop_add_of_drop_eq d2 length_singleton
  have d4 := drop_add_of_drop_eq d3 (length_leBytes 8 _)
  have d5 := drop_add_of_drop_eq d4 (length_leBytes 4 _)
  have d6 := drop_add_of_drop_eq d5 rfl
  refine (decode_eq_ok_iff data r _).mpr ⟨_, ⟨data, 0 + 4⟩, ⟨data, 0 + 4 + 8⟩, _,
    ⟨data, 0 + 4 + 8 + 1⟩, ⟨data, 0 + 4 + 8 + 1 + 8⟩, _, ⟨data, 0 + 4 + 8 + 1 + 8 + 4⟩,
    ⟨data, 0 + 4 + 8 + 1 + 8 + 4 + r.payload.length⟩, _, ⟨data, _⟩,
    Reader.readU32_of_drop (r := Reader.new data) d0, ?_, Reader.readU64_of_drop d1,
    Reader.readU8_of_drop d2, RecordKind.fromU8_toU8 _, Reader.readU64_of_drop d3,
    Reader.readU32_of_drop d4, ?_, Reader.readU32_of_drop d6, ?_, ?_, ?_⟩
  · have hl := congrArg List.length hD
    rw [length_append, length_frame, encodedLen] at hl
    show ¬ data.length - (0 + 4) < _
    omega
  · rw [hpay32]
    exact Reader.take_of_drop d5 rfl
  · rw [hlen32, HEADER_LEN]
    grind
  · -- the checksummed region of the buffer is the body of the record
    have hb : data = leBytes 4 (HEADER_LEN + r.payload.length + 4) ++
        (r.body ++ (leBytes 4 (crc32 r.body).toNat ++ tail)) := by
      grind [frame]
    have hp : 0 + 4 + 8 + 1 + 8 + 4 + r.payload.length + 4 - 4 - (0 + 4) = r.body.length := by
      rw [length_body, HEADER_LEN]; omega
    rw [drop_take, hp, hb, drop_append_of_length (length_leBytes 4 _),
      take_append_of_length rfl]
  · rw [encodedLen]
    omega

variable {data : Bytes} {n : Nat} {r : WalRecord}

/-- **Soundness**: whatever `decode` accepts is the frame of the record it
returns, of a record whose lengths fit. -/
theorem decode_sound (h : decode data = .ok (r, n)) :
    r.Fits ∧ n = r.encodedLen ∧ n ≤ data.length ∧ data.take n = r.frame := by
  obtain ⟨bodyLen, r0, r1, tag, r2, r3, payloadLen, r4, r5, crc, r6, h0, hrem, h1, h2, hk, h3,
    h4, h5, h6, hend, hcrc, rfl⟩ := (decode_eq_ok_iff data r n).mp h
  have e0 := Reader.read_of_readU32 (r := Reader.new data) (Nat.zero_le _) h0
  have e1 := Reader.read_of_readU64 e0.2.2.1 h1
  have e2 := Reader.read_of_readU8 e1.2.2.1 h2
  have e3 := Reader.read_of_readU64 e2.2.2.1 h3
  have e4 := Reader.read_of_readU32 e3.2.2.1 h4
  obtain ⟨hl5, e5⟩ := Reader.read_of_take e4.2.2.1 h5
  have e6 := Reader.read_of_readU32 e5.2.2.1 h6
  have hbody : r0.Read r.body r5 := by
    have := (((e1.trans e2).trans e3).trans e4).trans e5
    rw [← RecordKind.toU8_of_fromU8 hk, ← hl5] at this
    exact this
  have hall := (e0.trans hbody).trans e6
  -- the crc was computed over exactly the body
  have hp0 : r0.pos = 4 := by rw [e0.2.1]; rfl
  have hp5 : r5.pos = 4 + r.body.length := by rw [hbody.2.1, hp0]
  have hp6 : r6.pos = r5.pos + 4 := by rw [e6.2.1, length_leBytes]
  have hb0 : r0.buf = data := e0.1
  have hreg : (data.take (r6.pos - 4)).drop r0.pos = r.body := by
    have ht := hbody.2.2.2
    rw [hb0] at ht
    rw [hp6, Nat.add_sub_cancel, ht]
    apply drop_append_of_length
    rw [length_take]
    have := e0.2.2.1
    rw [Reader.Valid, hb0] at this
    omega
  rw [hreg] at hcrc
  have hbl : bodyLen.toNat = HEADER_LEN + r.payload.length + 4 := by
    rw [← hend, hp6, hp5, length_body]
    omega
  have hv6 : r6.pos ≤ data.length := by
    have := hall.2.2.1
    rw [Reader.Valid, hall.1] at this
    exact this
  refine ⟨?_, ?_, ?_, ?_⟩
  · have := bodyLen.toNat_lt
    rw [hbl, HEADER_LEN] at this
    rw [Fits]
    omega
  · rw [encodedLen]
    omega
  · omega
  · have ht := hall.2.2.2
    rw [show 4 + bodyLen.toNat = r6.pos by omega, frame, ← hbl, hcrc]
    exact ht

/-- **The codec is exact**: an encoded record reads back in front of anything,
and whatever is read is the encoding of the record returned. -/
theorem codec_exact :
    (∀ (r : WalRecord) (out tail : Bytes), r.payload.length < 2 ^ 32 - 25 →
      out.length = r.encodedLen → ∃ bytes, r.encode out = .ok (bytes, r.encodedLen) ∧
        bytes.length = r.encodedLen ∧ decode (bytes ++ tail) = .ok (r, r.encodedLen)) ∧
    ∀ (data : Bytes) (r : WalRecord) (n : Nat), decode data = .ok (r, n) →
      ∀ out : Bytes, out.length = r.encodedLen → r.encode out = .ok (data.take n, n) := by
  constructor
  · intro r out tail hlen hout
    have hfits : r.Fits := by
      rw [Fits]
      omega
    exact ⟨r.frame, encode_eq_frame r hout, length_frame r, decode_frame_append r hfits tail⟩
  · intro data r n h out hout
    obtain ⟨_, hn, _, htake⟩ := decode_sound h
    rw [encode_eq_frame r hout, htake, hn]

theorem decode_pos (h : decode data = .ok (r, n)) : 0 < n ∧ n ≤ data.length := by
  obtain ⟨_, hn, hle, _⟩ := decode_sound h
  grind [encodedLen]

/-- The bytes of a sequence of records. -/
def frames (rs : List WalRecord) : Bytes := rs.flatMap frame

theorem frames_append (rs qs : List WalRecord) : frames (rs ++ qs) = frames rs ++ frames qs :=
  flatMap_append

end WalRecord

open WalRecord

/-! ## The log -/

/-- An in-memory write-ahead log. -/
structure Wal where
  bytes : Bytes
  nextLsn : Lsn

namespace Wal

/-- An empty log; the first appended record gets LSN 0. -/
def new : Wal := ⟨[], 0⟩

/-- Drop every record from `byteLen` on and restore the next LSN. -/
def truncate (w : Wal) (byteLen : Nat) (nextLsn : Lsn) : Wal := ⟨w.bytes.take byteLen, nextLsn⟩

/-- The record `append` would write. -/
def nextRecord (w : Wal) (kind : RecordKind) (blockId : UInt64) (payload : Bytes) : WalRecord :=
  ⟨w.nextLsn, kind, blockId, payload⟩

/-- Append a record under the next LSN.  Encoding into a buffer of the
record's own size cannot fail (`encode_eq_frame`), which is the `expect` of
the code.  Irreducible so that no proof runs the encoder. -/
@[irreducible] def append (w : Wal) (kind : RecordKind) (blockId : UInt64)
    (payload : Bytes) : Wal :=
  let rec' := w.nextRecord kind blockId payload
  match rec'.encode (List.replicate rec'.encodedLen 0) with
  | .ok (frame, n) => ⟨w.bytes ++ frame.take n, w.nextLsn + 1⟩
  | .error _ => w

/-- The loop of `replay`: fold `f` over the records decoded from the front of
`data` until one is malformed. -/
def replayLoop (f : σ → WalRecord → σ) (data : Bytes) (s : σ) (count : Nat) : σ × Nat :=
  if data = [] then (s, count)
  else
    match h : decode data with
    | .ok (rec', consumed) => replayLoop f (data.drop consumed) (f s rec') (count + 1)
    | .error _ => (s, count)
termination_by data.length
decreasing_by
  have := decode_pos h
  rw [length_drop]
  omega

/-- Replay the log through `f`, which updates the caller's state; also the
number of records replayed. -/
def replay (w : Wal) (f : σ → WalRecord → σ) (s : σ) : σ × Nat := replayLoop f w.bytes s 0

/-- The loop of `fromBytes`: the length of the intact prefix and the LSN of
its last record. -/
def scanLoop (data : Bytes) (offset : Nat) (lastLsn : Option Lsn) : Nat × Option Lsn :=
  if data = [] then (offset, lastLsn)
  else
    match _h : decode data with
    | .ok (rec', consumed) => scanLoop (data.drop consumed) (offset + consumed) (some rec'.lsn)
    | .error _ => (offset, lastLsn)
termination_by data.length
decreasing_by
  have := decode_pos _h
  rw [length_drop]
  omega

/-- A log from persisted bytes, its torn tail cut off. -/
def fromBytes (bytes : Bytes) : Wal :=
  let (offset, lastLsn) := scanLoop bytes 0 none
  ⟨bytes.take offset, match lastLsn with | some l => l + 1 | none => 0⟩

/-! ## Logs as lists of records -/

/-- The records of the longest intact prefix. -/
def intactRecords (data : Bytes) : List WalRecord :=
  (replayLoop (fun rs r => rs ++ [r]) data [] 0).1

/-- `data` is the frames of `rs` followed by bytes that do not start with an
intact record. -/
structure Intact (data : Bytes) (rs : List WalRecord) (tail : Bytes) : Prop where
  split : data = frames rs ++ tail
  fits : ∀ r ∈ rs, r.Fits
  torn : tail = [] ∨ ∃ e, decode tail = .error e

variable {data tail : Bytes} {rs : List WalRecord} {r : WalRecord}

theorem Intact.cons {n : Nat} (hd : decode data = .ok (r, n)) (h : Intact (data.drop n) rs tail) :
    Intact data (r :: rs) tail := by
  obtain ⟨hf, _, _, ht⟩ := decode_sound hd
  refine ⟨?_, ?_, h.torn⟩
  · rw [← take_append_drop n data, ht, h.split]
    simp [frames]
  · intro q hq
    rcases mem_cons.mp hq with rfl | hq
    · exact hf
    · exact h.fits q hq

/-- Every byte string has an intact prefix. -/
theorem exists_intact (data : Bytes) : ∃ rs tail, Intact data rs tail := by
  induction hn : data.length using Nat.strongRecOn generalizing data with
  | _ n ih =>
    cases hd : decode data with
    | error e => exact ⟨[], data, rfl, by simp, .inr ⟨e, hd⟩⟩
    | ok p =>
      obtain ⟨hpos, hle⟩ := decode_pos hd
      obtain ⟨rs, tail, h⟩ := ih (data.drop p.2).length
        (by rw [length_drop]; omega) _ rfl
      exact ⟨p.1 :: rs, tail, h.cons hd⟩

/-- Replay is the left fold over the intact records. -/
theorem replayLoop_of_intact {f : σ → WalRecord → σ} (h : Intact data rs tail) (s : σ)
    (count : Nat) : replayLoop f data s count = (rs.foldl f s, count + rs.length) := by
  obtain ⟨rfl, hfits, htorn⟩ := h
  induction rs generalizing s count with
  | nil =>
    rcases htorn with rfl | ⟨e, he⟩
    · rw [replayLoop]; rfl
    · rw [show frames [] ++ tail = tail from rfl, replayLoop]
      split
      · rfl
      · split
        · next hok => rw [he] at hok; contradiction
        · rfl
  | cons r rs ih =>
    have hd := decode_frame_append r (hfits r (.head _)) (frames rs ++ tail)
    have hsplit : frames (r :: rs) ++ tail = r.frame ++ (frames rs ++ tail) := by
      simp [frames]
    rw [hsplit, replayLoop, if_neg]
    · split
      · next rec' consumed hok =>
        rw [hd] at hok
        cases hok
        rw [drop_append_of_length (length_frame r)]
        grind
      · next hok => rw [hd] at hok; contradiction
    · intro hnil
      have hl := congrArg List.length hnil
      simp [length_frame, encodedLen] at hl

theorem foldl_concat (rs acc : List α) : rs.foldl (fun rs r => rs ++ [r]) acc = acc ++ rs := by
  induction rs generalizing acc with
  | nil => simp
  | cons r rs ih => simp [ih]

theorem intactRecords_of_intact (h : Intact data rs tail) : intactRecords data = rs := by
  rw [intactRecords, replayLoop_of_intact h, foldl_concat, nil_append]

theorem intact_intactRecords (data : Bytes) : ∃ tail, Intact data (intactRecords data) tail := by
  obtain ⟨rs, tail, h⟩ := exists_intact data
  exact ⟨tail, by rwa [intactRecords_of_intact h]⟩

theorem fits_of_mem_intactRecords (h : r ∈ intactRecords data) : r.Fits := by
  obtain ⟨tail, hi⟩ := intact_intactRecords data
  exact hi.fits r h

/-- The scan of `fromBytes` is a replay that counts bytes. -/
theorem scanLoop_eq_replayLoop (data : Bytes) (offset : Nat) (last : Option Lsn) (count : Nat) :
    scanLoop data offset last = (replayLoop
      (fun s r => (s.1 + r.encodedLen, some r.lsn)) data (offset, last) count).1 := by
  induction hn : data.length using Nat.strongRecOn generalizing data offset last count with
  | _ n ih =>
    rw [scanLoop, replayLoop]
    split
    · rfl
    · split
      · next rec' consumed hd =>
        obtain ⟨_, hc, hle, _⟩ := decode_sound hd
        have hpos := decode_pos hd
        rw [ih _ (by rw [length_drop]; omega) _ _ _ (count + 1) rfl, hc]
      · rfl

theorem length_frames (rs : List WalRecord) (n : Nat) (l : Option Lsn) :
    (rs.foldl (fun (s : Nat × Option Lsn) r => (s.1 + r.encodedLen, some r.lsn)) (n, l)).1 =
      n + (frames rs).length := by
  induction rs generalizing n l with
  | nil => rfl
  | cons r rs ih =>
    simp [ih, frames, length_frame, Nat.add_assoc]

/-- `fromBytes` keeps exactly the frames of the intact records. -/
theorem fromBytes_bytes (data : Bytes) : (fromBytes data).bytes = frames (intactRecords data) := by
  obtain ⟨tail, h⟩ := intact_intactRecords data
  have hoff : (scanLoop data 0 none).1 = (frames (intactRecords data)).length := by
    rw [scanLoop_eq_replayLoop data 0 none 0, replayLoop_of_intact h, length_frames, Nat.zero_add]
  show data.take (scanLoop data 0 none).1 = _
  rw [hoff]
  generalize intactRecords data = rs at h ⊢
  rw [h.split, take_append_of_length rfl]

/-! ## Well-formed logs -/

/-- The log holds exactly the records `rs`. -/
def Holds (w : Wal) (rs : List WalRecord) : Prop := w.bytes = frames rs ∧ ∀ r ∈ rs, r.Fits

theorem intact_of_frames (rs : List WalRecord) (h : ∀ r ∈ rs, r.Fits) : Intact (frames rs) rs [] :=
  ⟨(append_nil _).symm, h, .inl rfl⟩

theorem holds_new : new.Holds [] := ⟨rfl, by simp⟩

theorem holds_fromBytes (data : Bytes) : (fromBytes data).Holds (intactRecords data) :=
  ⟨fromBytes_bytes data, fun _ => fits_of_mem_intactRecords⟩

variable {w : Wal}

theorem Holds.intactRecords_eq (h : w.Holds rs) : intactRecords w.bytes = rs := by
  rw [h.1]
  exact intactRecords_of_intact (intact_of_frames _ h.2)

theorem bytes_append (w : Wal) (kind : RecordKind) (blockId : UInt64) (payload : Bytes) :
    (w.append kind blockId payload).bytes =
      w.bytes ++ (w.nextRecord kind blockId payload).frame := by
  rw [append, encode_eq_frame _ (by simp)]
  simp [take_of_length_le (Nat.le_of_eq (length_frame _))]

theorem fits_nextRecord {kind : RecordKind} {blockId : UInt64} {payload : Bytes}
    (h : payload.length ≤ 4096) : (w.nextRecord kind blockId payload).Fits := by
  have hp : (w.nextRecord kind blockId payload).payload = payload := rfl
  rw [Fits, hp]
  omega

section

variable (h : w.Holds rs) (kind : RecordKind) (blockId : UInt64) (payload : Bytes)
include h

theorem Holds.append (hf : (w.nextRecord kind blockId payload).Fits) :
    (w.append kind blockId payload).Holds (rs ++ [w.nextRecord kind blockId payload]) := by
  refine ⟨?_, ?_⟩
  · rw [bytes_append, h.1, frames_append, frames, frames, flatMap_singleton]
  · intro r hr
    rcases mem_append.mp hr with hr | hr
    · exact h.2 r hr
    · rw [mem_singleton.mp hr]
      exact hf

/-- Truncating to the old length withdraws what was appended. -/
theorem Holds.truncate_append :
    ((w.append kind blockId payload).truncate w.bytes.length w.nextLsn).Holds rs := by
  refine ⟨?_, h.2⟩
  show (w.append kind blockId payload).bytes.take _ = _
  rw [bytes_append, take_append_of_length rfl, h.1]

end

end Wal

end Archon
