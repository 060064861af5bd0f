import Archon.Lib.Utf8
import Archon.Relational.Schema

/-!
# Archon.Relational.Codec

The row codec, the tags of buffered writes, and the conversion of literals
(`crates/tpt-archon-relational/src/database/codec.rs`).

A row reads back as written if its counts fit their fields
(`tryDecodeRow_encodeRow`).
-/

namespace Archon

open Outcome List

variable {bytes : Bytes} {k : Nat} {row : Row} {v : Value}

def MVCC_LIVE : UInt8 := 0

def MVCC_TOMBSTONE : UInt8 := 1

/-! ## Encoding -/

def encodeInt (i : Int64) : Bytes := leBytes 8 i.toUInt64.toNat

def encodeF32 (f : F32) : Bytes := leBytes 4 f.bits.toNat

def encodeValue : Value → Bytes
  | .int i => 0 :: encodeInt i
  | .text t => 1 :: (leBytes 4 (utf8Bytes t).length ++ utf8Bytes t)
  | .vector v => 2 :: (leBytes 4 v.length ++ v.flatMap encodeF32)
  | .float f => 4 :: encodeF32 f
  | .bool b => [6, if b then 1 else 0]
  | .null => [3]

/-- The number of values in two bytes, then each value behind its tag. -/
def encodeRow (values : Row) : Bytes := leBytes 2 values.length ++ values.flatMap encodeValue

/-- A live row in a transaction's write buffer. -/
def mvccWrapRow (values : Row) : Bytes := MVCC_LIVE :: encodeRow values

/-- A row deleted within a transaction. -/
def mvccWrapTombstone : Bytes := [MVCC_TOMBSTONE]

/-! ## Decoding -/

/-- `bytes[..n]` and the rest, if there are that many. -/
def splitBytes (n : Nat) (bytes : Bytes) : Option (Bytes × Bytes) :=
  if bytes.length < n then none else some (bytes.take n, bytes.drop n)

def decodeInt (bytes : Bytes) : Int64 := (UInt64.ofNat (ofLeBytes bytes)).toInt64

def decodeF32 (bytes : Bytes) : F32 := ⟨UInt32.ofNat (ofLeBytes bytes)⟩

/-- `n` floats of four bytes each. -/
def decodeFloats : Nat → Bytes → List F32
  | 0, _ => []
  | n + 1, bytes => decodeF32 (bytes.take 4) :: decodeFloats n (bytes.drop 4)

/-- The value behind a tag, and the bytes after it.  Tag 5 is an old `NULL`;
an unknown tag reads as 0. -/
def decodeTagged (tag : UInt8) (bytes : Bytes) : Option (Value × Bytes) :=
  if tag = 0 then do
    let (b, rest) ← splitBytes 8 bytes
    return (.int (decodeInt b), rest)
  else if tag = 1 then do
    let (b, rest) ← splitBytes 4 bytes
    let (s, rest) ← splitBytes (ofLeBytes b) rest
    return (.text (fromUtf8Lossy s), rest)
  else if tag = 2 then do
    let (b, rest) ← splitBytes 4 bytes
    let (v, rest) ← splitBytes (ofLeBytes b * 4) rest
    return (.vector (decodeFloats (ofLeBytes b) v), rest)
  else if tag = 3 then some (.null, bytes)
  else if tag = 4 then do
    let (b, rest) ← splitBytes 4 bytes
    return (.float (decodeF32 b), rest)
  else if tag = 5 then some (.null, bytes)
  else if tag = 6 then do
    let (b, rest) ← splitBytes 1 bytes
    return (.bool (ofLeBytes b != 0), rest)
  else some (.int 0, bytes)

/-- `n` values, and the bytes after them. -/
def decodeValues : Nat → Bytes → Option Row
  | 0, _ => some []
  | _ + 1, [] => none
  | n + 1, tag :: bytes => do
    let (v, rest) ← decodeTagged tag bytes
    let vs ← decodeValues n rest
    return v :: vs

def tryDecodeRow (bytes : Bytes) : Outcome DbError Row :=
  match splitBytes 2 bytes with
  | none => fail (.corruptRow 0)
  | some (n, rest) => okOr (decodeValues (ofLeBytes n) rest) (.corruptRow 0)

/-- A row with exactly the table's number of columns. -/
def decodeRowValidated (id : Nat) (bytes : Bytes) (colCount : Nat) : Outcome DbError Row := do
  let row ← tryDecodeRow bytes
  if row.length ≠ colCount then fail (.corruptRow id) else return row

/-! ## Literals -/

/-- The value a column type takes from a literal, if it takes one. -/
def ColumnType.accept : ColumnType → Literal → Option Value
  | _, .null => some .null
  | .int, .int i => some (.int i)
  | .float, .float f => some (.float f)
  | .float, .int i => some (.float (F32.ofInt64 i))
  | .double, .float f => some (.float f)
  | .double, .int i => some (.float (F32.ofInt64 i))
  | .text, .text t => some (.text t)
  | .varchar _, .text t => some (.text t)
  | .vector, .vector v => some (.vector v)
  | .boolean, .bool b => some (.bool b)
  | .boolean, .int i =>
    if i = 0 then some (.bool false) else if i = 1 then some (.bool true) else none
  | .numeric, .int i => some (.int i)
  | .date, .int i => some (.int i)
  | .timestamp, .int i => some (.int i)
  | _, _ => none

/-- `literal_to_value(schema, slot, lit)`. -/
def literalToValue (schema : Schema) (slot : Nat) (lit : Literal) : Outcome DbError Value := do
  let expected ← index schema.types slot
  match expected.accept lit with
  | some v => return v
  | none =>
    let name ← index schema.columns slot
    fail (.columnTypeMismatch name)

/-! ## Round trip -/

/-- The length fits the four bytes the codec has for it. -/
def Value.Fits : Value → Prop
  | .text t => (utf8Bytes t).length < 2 ^ 32
  | .vector v => v.length < 2 ^ 32
  | _ => True

/-- The counts of a row fit their fields. -/
structure RowFits (row : Row) : Prop where
  count : row.length < 2 ^ 16
  values : ∀ v ∈ row, v.Fits

@[simp] theorem splitBytes_append {xs ys : Bytes} (h : xs.length = n) :
    splitBytes n (xs ++ ys) = some (xs, ys) := by
  subst h
  simp [splitBytes]

theorem decodeInt_encodeInt (i : Int64) : decodeInt (encodeInt i) = i := by
  have h : ofLeBytes (leBytes 8 i.toUInt64.toNat) = i.toUInt64.toNat :=
    ofLeBytes_leBytes_of_lt i.toUInt64.toNat_lt
  simp [decodeInt, encodeInt, h]

theorem decodeF32_encodeF32 (f : F32) : decodeF32 (encodeF32 f) = f := by
  have h : ofLeBytes (leBytes 4 f.bits.toNat) = f.bits.toNat :=
    ofLeBytes_leBytes_of_lt f.bits.toNat_lt
  simp [decodeF32, encodeF32, h]

@[simp] theorem length_encodeF32 (f : F32) : (encodeF32 f).length = 4 := by simp [encodeF32]

theorem length_flatMap_encodeF32 (v : List F32) : (v.flatMap encodeF32).length = v.length * 4 := by
  induction v with
  | nil => rfl
  | cons f v ih => simp [ih]; omega

theorem length_decodeFloats (n : Nat) (bytes : Bytes) : (decodeFloats n bytes).length = n := by
  induction n generalizing bytes with
  | zero => rfl
  | succ n ih => rw [decodeFloats, length_cons, ih]

theorem decodeFloats_encode (v : List F32) : decodeFloats v.length (v.flatMap encodeF32) = v := by
  induction v with
  | nil => rfl
  | cons f v ih =>
    simp [decodeFloats, decodeF32_encodeF32, ih]

/-- Every encoded value is a tag and a body that decodes to it. -/
theorem encodeValue_eq (h : v.Fits) :
    ∃ tag body, encodeValue v = tag :: body ∧
      ∀ rest, decodeTagged tag (body ++ rest) = some (v, rest) := by
  cases v with
  | int i =>
    refine ⟨0, encodeInt i, rfl, fun rest => ?_⟩
    simp [decodeTagged, splitBytes_append (show (encodeInt i).length = 8 by simp [encodeInt]),
      decodeInt_encodeInt]
  | float f =>
    refine ⟨4, encodeF32 f, rfl, fun rest => ?_⟩
    simp [decodeTagged, decodeF32_encodeF32]
  | text t =>
    refine ⟨1, _, rfl, fun rest => ?_⟩
    have hl : ofLeBytes (leBytes 4 (utf8Bytes t).length) = (utf8Bytes t).length :=
      ofLeBytes_leBytes_of_lt h
    simp [decodeTagged, hl]
  | vector v =>
    refine ⟨2, _, rfl, fun rest => ?_⟩
    have hl : ofLeBytes (leBytes 4 v.length) = v.length := ofLeBytes_leBytes_of_lt h
    simp [decodeTagged, hl,
      splitBytes_append (length_flatMap_encodeF32 v), decodeFloats_encode]
  | bool b =>
    refine ⟨6, _, rfl, fun rest => ?_⟩
    cases b <;> simp [decodeTagged, splitBytes, ofLeBytes]
  | null => exact ⟨3, [], rfl, fun rest => by simp [decodeTagged]⟩

theorem decodeValues_encode (h : ∀ v ∈ row, v.Fits) :
    decodeValues row.length (row.flatMap encodeValue) = some row := by
  induction row with
  | nil => rfl
  | cons v row ih =>
    obtain ⟨tag, body, henc, hdec⟩ := encodeValue_eq (h v (.head _))
    simp [henc, decodeValues, hdec, ih fun w hw => h w (.tail v hw)]

theorem tryDecodeRow_encodeRow (h : RowFits row) : tryDecodeRow (encodeRow row) = .ok row := by
  have hl : ofLeBytes (leBytes 2 row.length) = row.length := ofLeBytes_leBytes_of_lt h.count
  simp [tryDecodeRow, encodeRow, hl,
    decodeValues_encode h.values, okOr]

/-! ## Rows cut short -/

variable {n : Nat} {tag : UInt8} {body : Bytes} {t : ColumnType} {lit : Literal}

theorem splitBytes_take (h : k < n) (bytes : Bytes) : splitBytes n (bytes.take k) = none :=
  if_pos (by rw [length_take]; omega)

/-- A cut behind the length field leaves it whole. -/
theorem take_counted (len : Nat) (data : Bytes) (hk : ¬ k < 4) :
    (leBytes 4 len ++ data).take k = leBytes 4 len ++ data.take (k - 4) := by
  rw [take_append, length_leBytes, take_of_length_le (by rw [length_leBytes]; omega)]

/-- The body of a value does not decode when its end is missing. -/
theorem decodeTagged_cut (h : v.Fits) (henc : encodeValue v = tag :: body) (hk : k < body.length) :
    decodeTagged tag (body.take k) = none := by
  cases v with
  | null =>
    cases henc
    contradiction
  | int i =>
    cases henc
    have hk : k < 8 := by simpa [encodeInt] using hk
    simp [decodeTagged, splitBytes_take hk]
  | float f =>
    cases henc
    have hk : k < 4 := by simpa using hk
    simp [decodeTagged, splitBytes_take hk]
  | bool b =>
    cases henc
    have hk : k < 1 := by simpa using hk
    simp [decodeTagged, splitBytes_take hk]
  | text t =>
    cases henc
    have hl : ofLeBytes (leBytes 4 (utf8Bytes t).length) = (utf8Bytes t).length :=
      ofLeBytes_leBytes_of_lt h
    rw [length_append, length_leBytes] at hk
    by_cases hk4 : k < 4
    · simp [decodeTagged, splitBytes_take hk4]
    · have hdata : k - 4 < (utf8Bytes t).length := by omega
      simp [take_counted _ _ hk4, decodeTagged, hl, splitBytes_take hdata]
  | vector v =>
    cases henc
    have hl : ofLeBytes (leBytes 4 v.length) = v.length := ofLeBytes_leBytes_of_lt h
    rw [length_append, length_leBytes, length_flatMap_encodeF32] at hk
    by_cases hk4 : k < 4
    · simp [decodeTagged, splitBytes_take hk4]
    · have hdata : k - 4 < v.length * 4 := by omega
      simp [take_counted _ _ hk4, decodeTagged, hl, splitBytes_take hdata]

theorem decodeValues_cut (h : ∀ v ∈ row, v.Fits) (hk : k < (row.flatMap encodeValue).length) :
    decodeValues row.length ((row.flatMap encodeValue).take k) = none := by
  induction row generalizing k with
  | nil => contradiction
  | cons v row ih =>
    obtain ⟨tag, body, henc, hdec⟩ := encodeValue_eq (h v (.head _))
    rw [flatMap_cons, henc, cons_append] at hk ⊢
    cases k with
    | zero => rfl
    | succ k =>
      rw [take_succ_cons, length_cons, decodeValues]
      by_cases hbody : k < body.length
      · -- the cut is inside the first value
        rw [take_append_of_le_length (by omega),
          decodeTagged_cut (h v (.head _)) henc hbody]
        rfl
      · have hrest : k - body.length < (row.flatMap encodeValue).length := by grind
        rw [take_append, take_of_length_le (by omega), hdec]
        simp [ih (fun w hw => h w (.tail v hw)) hrest]

/-- A row that fits reads back as written, and no strict prefix of its bytes
is taken for a row. -/
theorem tryDecodeRow_exact {row : Row} (h : RowFits row) :
    tryDecodeRow (encodeRow row) = .ok row ∧
      ∀ bytes, bytes <+: encodeRow row → bytes ≠ encodeRow row →
        tryDecodeRow bytes = fail (.corruptRow 0) := by
  refine ⟨tryDecodeRow_encodeRow h, fun bytes hpre hne => ?_⟩
  have hlen : bytes.length < (encodeRow row).length :=
    lt_of_le_of_ne hpre.length_le fun heq => hne (hpre.eq_of_length heq)
  rw [prefix_iff_eq_take] at hpre
  generalize bytes.length = k at hpre hlen
  subst hpre
  by_cases hk : k < 2
  · simp [tryDecodeRow, splitBytes_take hk]
  · have hl : ofLeBytes (leBytes 2 row.length) = row.length := ofLeBytes_leBytes_of_lt h.count
    have hcut : k - 2 < (row.flatMap encodeValue).length := by
      rw [encodeRow, length_append, length_leBytes] at hlen
      omega
    rw [encodeRow, take_append, take_of_length_le (by rw [length_leBytes]; omega)]
    simp [tryDecodeRow, hl,
      decodeValues_cut h.values hcut, okOr]

/-- A row of a text and a `NULL`, whole and cut inside the length field. -/
theorem tryDecodeRow_exact_pair :
    RowFits [.text "ab", .null] ∧
      tryDecodeRow (encodeRow [.text "ab", .null]) = .ok [.text "ab", .null] ∧
      tryDecodeRow [2, 0, 1, 2] = fail (.corruptRow 0) := by
  have h : RowFits [.text "ab", .null] :=
      ⟨by decide, by simp [Value.Fits, show (utf8Bytes "ab").length = 2 by decide]⟩
  exact ⟨h, (tryDecodeRow_exact h).1, (tryDecodeRow_exact h).2 _ (by decide) (by decide)⟩

/-! ## Counts that do not fit -/

theorem splitBytes_within (h : k ≤ bytes.length) (rest : Bytes) :
    splitBytes k (bytes ++ rest) = some (bytes.take k, bytes.drop k ++ rest) := by
  rw [splitBytes, if_neg (by rw [length_append]; omega), take_append_of_le_length h,
    drop_append_of_le_length h]

/-- The count that is read where one that does not fit was written. -/
theorem count_wraps (h : ¬ n < 2 ^ 32) : ∃ m, ofLeBytes (leBytes 4 n) = m ∧ m + 2 ^ 32 ≤ n := by
  refine ⟨n % 256 ^ 4, ofLeBytes_leBytes 4 n, ?_⟩
  omega

/-- A value that is read back from its bytes fits. -/
theorem decodeTagged_fits {rest rest' : Bytes} (henc : encodeValue v = tag :: body)
    (h : decodeTagged tag (body ++ rest) = some (v, rest')) : v.Fits := by
  cases v with
  | text t =>
    by_contra hbig
    obtain ⟨m, hm, hle⟩ := count_wraps hbig
    cases henc
    simp [decodeTagged, hm,
      splitBytes_within (show m ≤ (utf8Bytes t).length by omega)] at h
    exact fromUtf8Lossy_take_ne (by omega) h.1
  | vector v =>
    by_contra hbig
    obtain ⟨m, hm, hle⟩ := count_wraps hbig
    have hlen := length_flatMap_encodeF32 v
    cases henc
    simp [decodeTagged, hm,
      splitBytes_within (show m * 4 ≤ (v.flatMap encodeF32).length by omega)] at h
    grind [length_decodeFloats]
  | _ => trivial

/-- Values that are read back from their bytes fit. -/
theorem fits_of_decodeValues (rest : Bytes)
    (h : decodeValues row.length (row.flatMap encodeValue ++ rest) = some row) :
    ∀ v ∈ row, v.Fits := by
  induction row with
  | nil => simp
  | cons v row ih =>
    obtain ⟨tag, body, henc⟩ : ∃ tag body, encodeValue v = tag :: body := by
      cases v <;> exact ⟨_, _, rfl⟩
    rw [flatMap_cons, henc, cons_append, cons_append, append_assoc] at h
    obtain ⟨⟨w, more⟩, hw, h⟩ := Option.bind_eq_some_iff.mp h
    obtain ⟨ws, hws, h⟩ := Option.bind_eq_some_iff.mp h
    cases h
    have hv := decodeTagged_fits henc hw
    obtain ⟨tag', body', henc', hdec⟩ := encodeValue_eq hv
    cases henc.symm.trans henc'
    cases hw.symm.trans (hdec _)
    exact forall_mem_cons.mpr ⟨hv, ih hws⟩

theorem length_decodeValues (h : decodeValues n bytes = some row) : row.length = n := by
  induction n generalizing bytes row with
  | zero =>
    cases h
    rfl
  | succ n ih =>
    cases bytes with
    | nil => contradiction
    | cons tag bytes =>
      obtain ⟨⟨w, more⟩, -, h⟩ := Option.bind_eq_some_iff.mp h
      obtain ⟨ws, hws, h⟩ := Option.bind_eq_some_iff.mp h
      grind

/-- What is read from the bytes of a row has its number of values, modulo the
two bytes that hold it. -/
theorem tryDecodeRow_encodeRow_inv {row' : Row} (h : tryDecodeRow (encodeRow row) = .ok row') :
    decodeValues (row.length % 2 ^ 16) (row.flatMap encodeValue) = some row' := by
  have hl : ofLeBytes (leBytes 2 row.length) = row.length % 2 ^ 16 := ofLeBytes_leBytes 2 _
  simpa [encodeRow, hl] using okOr_eq_ok.mp h

theorem length_of_tryDecodeRow (h : tryDecodeRow bytes = .ok row) : row.length < 2 ^ 16 := by
  unfold tryDecodeRow splitBytes at h
  split at h
  next => cases h
  next n rest hsplit =>
    split at hsplit
    next => cases hsplit
    next hlen =>
      cases hsplit
      rw [length_decodeValues (okOr_eq_ok.mp h)]
      have := ofLeBytes_lt (bytes.take 2)
      rwa [length_take_of_le (by omega)] at this

theorem tryDecodeRow_encodeRow_iff : tryDecodeRow (encodeRow row) = .ok row ↔ RowFits row := by
  refine ⟨fun h => ?_, tryDecodeRow_encodeRow⟩
  have hdec := tryDecodeRow_encodeRow_inv h
  have hlen := length_decodeValues hdec
  rw [← hlen] at hdec
  exact ⟨by omega, fits_of_decodeValues [] (by simpa using hdec)⟩

theorem decodeRowValidated_eq_ok {id : Nat} :
    decodeRowValidated id bytes n = .ok row ↔ tryDecodeRow bytes = .ok row ∧ row.length = n := by
  rw [decodeRowValidated, Except.bind_eq_ok]
  constructor
  · rintro ⟨r, hr, h⟩
    split at h
    next => cases h
    next hn =>
      cases h
      exact ⟨hr, not_not.mp hn⟩
  · rintro ⟨hr, hn⟩
    exact ⟨row, hr, by rw [if_neg (not_not.mpr hn)]; rfl⟩

/-! ## Kinds -/

/-- `NULL`, or a value of the kind the type's literals become. -/
def ColumnType.Holds : ColumnType → Value → Prop
  | _, .null => True
  | .int, .int _ => True
  | .numeric, .int _ => True
  | .date, .int _ => True
  | .timestamp, .int _ => True
  | .float, .float _ => True
  | .double, .float _ => True
  | .text, .text _ => True
  | .varchar _, .text _ => True
  | .vector, .vector _ => True
  | .boolean, .bool _ => True
  | _, _ => False

/-- A literal's text or vector fits the row codec. -/
def Literal.Fits (lit : Literal) : Prop := lit.toValue.Fits

theorem ColumnType.accept_holds (h : t.accept lit = some v) : t.Holds v := by
  cases t <;> cases lit <;> grind [ColumnType.accept, ColumnType.Holds]

theorem ColumnType.accept_fits (h : t.accept lit = some v) (hl : lit.Fits) : v.Fits := by
  cases t <;> cases lit <;> grind [ColumnType.accept, Value.Fits, Literal.Fits, Literal.toValue]

end Archon
