import Archon.Lib.Text

/-!
# Archon.Pgwire.Base64

The base64 codec of the SCRAM module (`base64_encode` and `base64_decode` in
`crates/out-archon-pgwire/src/startup.rs`).

Decoding undoes encoding (`base64Decode_encode`), but characters that are not of
the alphabet are decoded as well (`base64_exact_iff`).
-/

namespace Archon

def TABLE : Text := "ABCDEFGHIJKLMNOPQRSTUVWXYZabcdefghijklmnopqrstuvwxyz0123456789+/".toList

/-- `TABLE[i]`; every index is below 64. -/
def base64Char (i : Nat) : Char := TABLE.getD i '='

/-- The four indices of three bytes. -/
def sextet0 (b1 : UInt8) : Nat := b1.toNat >>> 2

def sextet1 (b1 b2 : UInt8) : Nat := (b1.toNat &&& 0x03) <<< 4 ||| b2.toNat >>> 4

def sextet2 (b2 b3 : UInt8) : Nat := (b2.toNat &&& 0x0F) <<< 2 ||| b3.toNat >>> 6

def sextet3 (b3 : UInt8) : Nat := b3.toNat &&& 0x3F

/-- Missing bytes of the last group count as zero, and their characters are
`=`. -/
def base64Encode : Bytes → Text
  | [] => []
  | [b1] => [base64Char (sextet0 b1), base64Char (sextet1 b1 0), '=', '=']
  | [b1, b2] =>
    [base64Char (sextet0 b1), base64Char (sextet1 b1 b2), base64Char (sextet2 b2 0), '=']
  | b1 :: b2 :: b3 :: rest =>
    base64Char (sextet0 b1) :: base64Char (sextet1 b1 b2) :: base64Char (sextet2 b2 b3) ::
      base64Char (sextet3 b3) :: base64Encode rest

/-- The decoder's table: 255 for a byte that is not in the alphabet. -/
def base64Value (c : UInt8) : Nat :=
  ((Text.bytes TABLE).findIdx? (· = c)).getD 255

/-- `b'='`. -/
def EQUALS : UInt8 := 61

/-- The three bytes of four values, cut down to `u8`. -/
def byte0 (v0 v1 : Nat) : UInt8 := UInt8.ofNat (v0 <<< 2 ||| v1 >>> 4)

def byte1 (v1 v2 : Nat) : UInt8 := UInt8.ofNat (v1 <<< 4 ||| v2 >>> 2)

def byte2 (v2 v3 : Nat) : UInt8 := UInt8.ofNat (v2 <<< 6 ||| v3)

/-- The loop over the bytes.  Nothing checks the table's 255. -/
def base64DecodeBytes : Bytes → Option Bytes
  | [] => some []
  | c0 :: rest =>
    if c0 = EQUALS then some [] else
    let v0 := base64Value c0
    match rest with
    | [] => none
    | c1 :: rest =>
      if c1 = EQUALS then some [] else
      let v1 := base64Value c1
      match rest with
      | [] => some [byte0 v0 v1]
      | c2 :: rest =>
        if c2 = EQUALS then some [byte0 v0 v1] else
        let v2 := base64Value c2
        match rest with
        | [] => some [byte0 v0 v1, byte1 v1 v2]
        | c3 :: rest =>
          if c3 = EQUALS then some [byte0 v0 v1, byte1 v1 v2] else
          let v3 := base64Value c3
          (base64DecodeBytes rest).map fun out => byte0 v0 v1 :: byte1 v1 v2 :: byte2 v2 v3 :: out

def base64Decode (input : Text) : Option Bytes := base64DecodeBytes (Text.bytes input)

/-! ## The characters -/

/-- The byte of a character of the alphabet. -/
def base64Byte (i : Nat) : UInt8 := UInt8.ofNat (base64Char i).toNat

theorem utf8EncodeChar_base64Char : ∀ i < 64,
    String.utf8EncodeChar (base64Char i) = [base64Byte i] := by decide +kernel

theorem base64Value_base64Byte : ∀ i < 64, base64Value (base64Byte i) = i := by decide +kernel

theorem base64Byte_ne_equals : ∀ i < 64, base64Byte i ≠ EQUALS := by decide +kernel

theorem base64Char_ne_comma : ∀ i < 64, base64Char i ≠ ',' := by decide +kernel

/-- Bits below a shifted number are added to it. -/
theorem or_shiftLeft {a b : Nat} (i width : Nat) (hwidth : 1 <<< i = width) (hb : b < width) :
    a <<< i ||| b = a * width + b := by
  rw [Nat.one_shiftLeft] at hwidth
  rw [← Nat.shiftLeft_add_eq_or_of_lt (hwidth ▸ hb), Nat.shiftLeft_eq, hwidth]

theorem sextet0_eq (b : UInt8) : sextet0 b = b.toNat / 4 := Nat.shiftRight_eq_div_pow _ _

theorem sextet1_eq (b c : UInt8) : sextet1 b c = b.toNat % 4 * 16 + c.toNat / 16 := by
  have hc := c.toNat_lt
  have hand : b.toNat &&& 3 = b.toNat % 4 := Nat.and_two_pow_sub_one_eq_mod _ 2
  have hshift : c.toNat >>> 4 = c.toNat / 16 := Nat.shiftRight_eq_div_pow _ _
  rw [sextet1, hand, hshift, or_shiftLeft 4 16 rfl (by omega)]

theorem sextet2_eq (b c : UInt8) : sextet2 b c = b.toNat % 16 * 4 + c.toNat / 64 := by
  have hc := c.toNat_lt
  have hand : b.toNat &&& 15 = b.toNat % 16 := Nat.and_two_pow_sub_one_eq_mod _ 4
  have hshift : c.toNat >>> 6 = c.toNat / 64 := Nat.shiftRight_eq_div_pow _ _
  rw [sextet2, hand, hshift, or_shiftLeft 2 4 rfl (by omega)]

theorem sextet3_eq (b : UInt8) : sextet3 b = b.toNat % 64 := Nat.and_two_pow_sub_one_eq_mod _ 6

theorem sextet0_lt (b : UInt8) : sextet0 b < 64 := by
  have hb := b.toNat_lt
  rw [sextet0_eq]
  omega

theorem sextet1_lt (b c : UInt8) : sextet1 b c < 64 := by
  have hc := c.toNat_lt
  rw [sextet1_eq]
  omega

theorem sextet2_lt (b c : UInt8) : sextet2 b c < 64 := by
  have hc := c.toNat_lt
  rw [sextet2_eq]
  omega

theorem sextet3_lt (b : UInt8) : sextet3 b < 64 := by
  rw [sextet3_eq]
  omega

/-! ## Round trip -/

theorem ofNat_eq {n : Nat} {b : UInt8} (h : n % 256 = b.toNat) : UInt8.ofNat n = b :=
  UInt8.toNat_inj.mp (by simpa using h)

theorem byte0_sextets (b1 b2 : UInt8) : byte0 (sextet0 b1) (sextet1 b1 b2) = b1 := by
  have h1 := b1.toNat_lt
  have h2 := b2.toNat_lt
  refine ofNat_eq ?_
  rw [sextet0_eq, sextet1_eq, or_shiftLeft 2 4 rfl (by omega)]
  omega

theorem byte1_sextets (b1 b2 b3 : UInt8) : byte1 (sextet1 b1 b2) (sextet2 b2 b3) = b2 := by
  have h2 := b2.toNat_lt
  have h3 := b3.toNat_lt
  refine ofNat_eq ?_
  rw [sextet1_eq, sextet2_eq, or_shiftLeft 4 16 rfl (by omega)]
  omega

theorem byte2_sextets (b2 b3 : UInt8) : byte2 (sextet2 b2 b3) (sextet3 b3) = b3 := by
  have h3 := b3.toNat_lt
  refine ofNat_eq ?_
  rw [sextet2_eq, sextet3_eq, or_shiftLeft 6 64 rfl (by omega)]
  omega

theorem base64Decode_encode (bs : Bytes) : base64Decode (base64Encode bs) = some bs := by
  have hpad : String.utf8EncodeChar '=' = [EQUALS] := by decide
  unfold base64Decode
  fun_induction base64Encode bs with
  | case1 => rfl
  | case2 b1 =>
    simp [Text.bytes, utf8EncodeChar_base64Char, sextet0_lt, sextet1_lt, hpad, base64DecodeBytes,
      base64Byte_ne_equals, base64Value_base64Byte, byte0_sextets]
  | case3 b1 b2 =>
    simp [Text.bytes, utf8EncodeChar_base64Char, sextet0_lt, sextet1_lt, sextet2_lt, hpad,
      base64DecodeBytes, base64Byte_ne_equals, base64Value_base64Byte, byte0_sextets, byte1_sextets]
  | case4 b1 b2 b3 rest ih =>
    simp only [Text.bytes] at ih
    simp [Text.bytes, utf8EncodeChar_base64Char, sextet0_lt, sextet1_lt, sextet2_lt, sextet3_lt,
      base64DecodeBytes, base64Byte_ne_equals, base64Value_base64Byte, byte0_sextets, byte1_sextets,
        byte2_sextets, ih]

/-- Encoded text can stand in a comma-separated list. -/
theorem comma_not_mem_base64Encode (bs : Bytes) : ',' ∉ base64Encode bs := by
  have hne : ∀ i < 64, ',' ≠ base64Char i := fun i hi => (base64Char_ne_comma i hi).symm
  fun_induction base64Encode bs with
  | case1 => simp
  | case2 b1 => simp [hne, sextet0_lt, sextet1_lt]
  | case3 b1 b2 => simp [hne, sextet0_lt, sextet1_lt, sextet2_lt]
  | case4 b1 b2 b3 rest ih => simp [hne, sextet0_lt, sextet1_lt, sextet2_lt, sextet3_lt, ih]

/-! ## What is rejected -/

/-- Decoding fails only at a last group of one character. -/
theorem base64DecodeBytes_eq_none (bs : Bytes) :
    base64DecodeBytes bs = none ↔ EQUALS ∉ bs ∧ bs.length % 4 = 1 := by
  fun_induction base64DecodeBytes bs with
  | case3 c0 h0 => simp [Ne.symm h0]
  | case9 c0 h0 v0 c1 h1 v1 c2 h2 v2 c3 rest h3 v3 ih =>
    have hlen : (rest.length + 1 + 1 + 1 + 1) % 4 = rest.length % 4 := by omega
    simp [ih, Ne.symm h0, Ne.symm h1, Ne.symm h2, Ne.symm h3, hlen]
  | _ => simp_all

/-- A character that is not of the alphabet, before the padding. -/
def Foreign (input : Text) : Prop := ∃ c ∈ input.reverse.dropWhile (· = '='), c ∉ TABLE

/-- The codec is exact but for foreign characters, which are rejected exactly
in a text without padding whose last group has one byte. -/
theorem base64_exact_iff (bs : Bytes) (input : Text) :
    base64Decode (base64Encode bs) = some bs ∧
      ((Foreign input → base64Decode input = none) ↔
        (Foreign input → EQUALS ∉ Text.bytes input ∧ (Text.bytes input).length % 4 = 1)) :=
  ⟨base64Decode_encode bs, by rw [base64Decode, base64DecodeBytes_eq_none]⟩

/-- No character of `!!!!` is of the alphabet, and it is decoded. -/
theorem foreign_decoded : Foreign "!!!!".toList ∧ base64Decode "!!!!".toList ≠ none :=
  ⟨⟨'!', by decide⟩, by decide⟩

end Archon
