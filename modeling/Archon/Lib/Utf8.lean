import Archon.Lib.Bytes

/-!
# Archon.Lib.Utf8

Strings as UTF-8 bytes.  `fromUtf8Lossy` replaces every maximal ill-formed
piece by U+FFFD; on the bytes of a string it is the identity.
-/

namespace Archon

open List

/-- The bytes of a string. -/
def utf8Bytes (s : String) : Bytes := s.toUTF8.data.toList

variable {s : String} {b : UInt8} {n m : Nat}

def isContinuation (b : UInt8) : Bool := 0x80 ≤ b && b ≤ 0xbf

/-- The second bytes allowed after a lead byte of three or four bytes. -/
def secondAllowed (lead b : UInt8) : Bool :=
  if lead == 0xe0 then 0xa0 ≤ b && b ≤ 0xbf
  else if lead == 0xed then 0x80 ≤ b && b ≤ 0x9f
  else if lead == 0xf0 then 0x90 ≤ b && b ≤ 0xbf
  else if lead == 0xf4 then 0x80 ≤ b && b ≤ 0x8f
  else isContinuation b

/-- The code point of a lead byte's payload followed by continuation bytes. -/
def codePoint (lead : Nat) (rest : List UInt8) : Char :=
  Char.ofNat (rest.foldl (fun n b => n * 64 + b.toNat % 64) lead)

/-- The characters of any bytes, `fuel` of them at most. -/
def lossyChars : Nat → List UInt8 → List Char
  | 0, _ => []
  | _, [] => []
  | fuel + 1, b :: rest =>
    if b < 0x80 then Char.ofNat b.toNat :: lossyChars fuel rest
    else if 0xc2 ≤ b && b ≤ 0xdf then
      match rest with
      | c :: rest' =>
        if isContinuation c then codePoint (b.toNat % 32) [c] :: lossyChars fuel rest'
        else '�' :: lossyChars fuel rest
      | [] => ['�']
    else if 0xe0 ≤ b && b ≤ 0xef then
      match rest with
      | c :: rest' =>
        if secondAllowed b c then
          match rest' with
          | d :: rest'' =>
            if isContinuation d then codePoint (b.toNat % 16) [c, d] :: lossyChars fuel rest''
            else '�' :: lossyChars fuel rest'
          | [] => ['�']
        else '�' :: lossyChars fuel rest
      | [] => ['�']
    else if 0xf0 ≤ b && b ≤ 0xf4 then
      match rest with
      | c :: rest' =>
        if secondAllowed b c then
          match rest' with
          | d :: rest'' =>
            if isContinuation d then
              match rest'' with
              | e :: rest''' =>
                if isContinuation e then
                  codePoint (b.toNat % 8) [c, d, e] :: lossyChars fuel rest'''
                else '�' :: lossyChars fuel rest''
              | [] => ['�']
            else '�' :: lossyChars fuel rest'
          | [] => ['�']
        else '�' :: lossyChars fuel rest
      | [] => ['�']
    else '�' :: lossyChars fuel rest

/-- `String::from_utf8_lossy`. -/
def fromUtf8Lossy (bytes : Bytes) : String :=
  match String.fromUTF8? ⟨bytes.toArray⟩ with
  | some s => s
  | none => String.ofList (lossyChars bytes.length bytes)

theorem utf8Bytes_ofList (cs : List Char) :
    utf8Bytes (String.ofList cs) = cs.flatMap String.utf8EncodeChar := by
  simp [utf8Bytes, List.utf8Encode]

/-- A character of one byte, repeated. -/
theorem utf8Bytes_replicate {c : Char} (h : String.utf8EncodeChar c = [b]) (n : Nat) :
    utf8Bytes (String.ofList (List.replicate n c)) = List.replicate n b := by
  rw [utf8Bytes_ofList]
  induction n with
  | zero => rfl
  | succ n ih => rw [replicate_succ, flatMap_cons, ih, h]; rfl

@[simp] theorem fromUtf8Lossy_utf8Bytes (s : String) : fromUtf8Lossy (utf8Bytes s) = s := by
  have h : String.fromUTF8? ⟨(utf8Bytes s).toArray⟩ = some s := by
    exact dif_pos s.isValidUTF8
  rw [fromUtf8Lossy, h]

/-! ## Bytes cut short -/

theorem length_lossyChars_le (fuel : Nat) (bytes : List UInt8) :
    (lossyChars fuel bytes).length ≤ bytes.length := by
  fun_induction lossyChars fuel bytes <;> simp only [length_cons,
    length_nil] at * <;> omega

section

variable (hn : n < 256) (b : UInt8)
include hn

theorem ofNat_lt_iff : UInt8.ofNat n < b ↔ n < b.toNat := by
  rw [UInt8.lt_iff_toNat_lt, UInt8.toNat_ofNat_of_lt' hn]

theorem ofNat_le_iff : UInt8.ofNat n ≤ b ↔ n ≤ b.toNat := by
  rw [UInt8.le_iff_toNat_le, UInt8.toNat_ofNat_of_lt' hn]

theorem le_ofNat_iff : b ≤ UInt8.ofNat n ↔ b.toNat ≤ n := by
  rw [UInt8.le_iff_toNat_le, UInt8.toNat_ofNat_of_lt' hn]

theorem ofNat_eq_iff : UInt8.ofNat n = b ↔ n = b.toNat := by
  rw [← UInt8.toNat_inj, UInt8.toNat_ofNat_of_lt' hn]

end

theorem isContinuation_ofNat (hn : n < 256) :
    isContinuation (UInt8.ofNat n) = true ↔ 128 ≤ n ∧ n ≤ 191 := by
  simp [isContinuation, ofNat_le_iff hn, le_ofNat_iff hn]

theorem secondAllowed_ofNat (hm : m < 256) (hn : n < 256) :
    secondAllowed (UInt8.ofNat m) (UInt8.ofNat n) = true ↔
      (128 ≤ n ∧ n ≤ 191) ∧ (m = 0xe0 → 160 ≤ n) ∧ (m = 0xed → n ≤ 159) ∧
        (m = 0xf0 → 144 ≤ n) ∧ (m = 0xf4 → n ≤ 143) := by
  simp only [secondAllowed, beq_iff_eq, ofNat_eq_iff hm, UInt8.reduceToNat]
  split_ifs
  all_goals simp only [Bool.and_eq_true, decide_eq_true_eq, le_ofNat_iff hn, ofNat_le_iff hn,
    isContinuation_ofNat hn, UInt8.reduceToNat]
  all_goals omega

/-- A lead byte with the bytes it calls for is read as one character. -/
theorem lossyChars_lead {body : List UInt8} (hb : ¬ b < 0x80)
    (h : (∃ c, body = [c] ∧ (0xc2 ≤ b ∧ b ≤ 0xdf) ∧ isContinuation c) ∨
      (∃ c d, body = [c, d] ∧ (0xe0 ≤ b ∧ b ≤ 0xef) ∧ secondAllowed b c ∧ isContinuation d) ∨
      ∃ c d e, body = [c, d, e] ∧ (0xf0 ≤ b ∧ b ≤ 0xf4) ∧ secondAllowed b c ∧
        isContinuation d ∧ isContinuation e) (rest : List UInt8) (fuel : Nat) :
    ∃ x, lossyChars (fuel + 1) (b :: body ++ rest) = x :: lossyChars fuel rest := by
  have hle : ∀ {x y z : UInt8}, x ≤ y → z < x → ¬ y ≤ z := by
    grind
  rcases h with ⟨c, rfl, hr, hc⟩ | ⟨c, d, rfl, hr, hc, hd⟩ | ⟨c, d, e, rfl, hr, hc, hd, he⟩
  · simp [lossyChars, hb, hr, hc]
  · have hn : ¬ b ≤ 0xdf := hle hr.1 (by decide)
    simp [lossyChars, hb, hn, hr, hc, hd]
  · have hn : ¬ b ≤ 0xdf := hle hr.1 (by decide)
    have hn' : ¬ b ≤ 0xef := hle hr.1 (by decide)
    simp [lossyChars, hb, hn, hn', hr, hc, hd, he]

/-- The bytes of one character are read as one character. -/
theorem lossyChars_char (c : Char) (rest : List UInt8) (fuel : Nat) :
    ∃ x, lossyChars (fuel + 1) (String.utf8EncodeChar c ++ rest) = x :: lossyChars fuel rest := by
  have hvalid : c.val.toNat < 0xd800 ∨ 0xdfff < c.val.toNat ∧ c.val.toNat < 0x110000 := c.valid
  rw [String.utf8EncodeChar]
  generalize c.val.toNat = v at hvalid
  by_cases h1 : v ≤ 127
  · have h : UInt8.ofNat v < 0x80 := (ofNat_lt_iff (by omega) _).mpr (Nat.lt_succ_of_le h1)
    simp [h1, lossyChars, h]
  by_cases h2 : v ≤ 2047
  · rw [if_neg h1, if_pos h2]
    refine lossyChars_lead ?_ (.inl ⟨_, rfl, ?_, ?_⟩) rest fuel
    all_goals simp only [ofNat_lt_iff, ofNat_le_iff, le_ofNat_iff, isContinuation_ofNat,
      show v / 64 % 32 + 192 < 256 by omega, show v % 64 + 128 < 256 by omega, UInt8.reduceToNat]
    all_goals omega
  by_cases h3 : v ≤ 65535
  · rw [if_neg h1, if_neg h2, if_pos h3]
    refine lossyChars_lead ?_ (.inr (.inl ⟨_, _, rfl, ?_, ?_, ?_⟩)) rest fuel
    all_goals simp only [ofNat_lt_iff, ofNat_le_iff, le_ofNat_iff, isContinuation_ofNat,
      secondAllowed_ofNat, show v / 4096 % 16 + 224 < 256 by omega,
      show v / 64 % 64 + 128 < 256 by omega, show v % 64 + 128 < 256 by omega, UInt8.reduceToNat]
    all_goals omega
  · rw [if_neg h1, if_neg h2, if_neg h3]
    refine lossyChars_lead ?_ (.inr (.inr ⟨_, _, _, rfl, ?_, ?_, ?_, ?_⟩)) rest fuel
    all_goals simp only [ofNat_lt_iff, ofNat_le_iff, le_ofNat_iff, isContinuation_ofNat,
      secondAllowed_ofNat, show v / 262144 % 8 + 240 < 256 by omega,
      show v / 4096 % 64 + 128 < 256 by omega, show v / 64 % 64 + 128 < 256 by omega,
      show v % 64 + 128 < 256 by omega, UInt8.reduceToNat]
    all_goals omega

/-- Whole characters, and what is read from the bytes behind them. -/
theorem length_lossyChars_append (cs : List Char) (rest : List UInt8) (fuel : Nat) :
    (lossyChars (cs.length + fuel) (cs.flatMap String.utf8EncodeChar ++ rest)).length =
      cs.length + (lossyChars fuel rest).length := by
  induction cs with
  | nil => simp
  | cons c cs ih =>
    obtain ⟨x, hx⟩ := lossyChars_char c (cs.flatMap String.utf8EncodeChar ++ rest)
      (cs.length + fuel)
    grind

theorem length_utf8EncodeChar_le (c : Char) : (String.utf8EncodeChar c).length ≤ 4 := by
  grind [String.utf8EncodeChar]

theorem length_flatMap_utf8_le (cs : List Char) :
    (cs.flatMap String.utf8EncodeChar).length ≤ 4 * cs.length := by
  induction cs with
  | nil => simp
  | cons c cs ih =>
    have := length_utf8EncodeChar_le c
    grind

theorem length_le_length_flatMap_utf8 (cs : List Char) :
    cs.length ≤ (cs.flatMap String.utf8EncodeChar).length := by
  induction cs with
  | nil => simp
  | cons c cs ih =>
    have : 0 < (String.utf8EncodeChar c).length :=
      length_pos_iff.mpr String.utf8EncodeChar_ne_nil
    grind

/-- Bytes cut off from the end of a text leave whole characters and at most
three bytes of the next. -/
theorem exists_take_utf8 (cs : List Char) (m : Nat) :
    ∃ pre suf piece, cs = pre ++ suf ∧ piece.length ≤ 3 ∧
      (cs.flatMap String.utf8EncodeChar).take m =
        pre.flatMap String.utf8EncodeChar ++ piece ∧
      (cs.flatMap String.utf8EncodeChar).length ≤ m + 4 * suf.length := by
  induction cs generalizing m with
  | nil => exact ⟨[], [], [], rfl, by simp, by simp, by simp⟩
  | cons c cs ih =>
    have hc := length_utf8EncodeChar_le c
    rw [flatMap_cons]
    by_cases hm : m < (String.utf8EncodeChar c).length
    · refine ⟨[], c :: cs, (String.utf8EncodeChar c).take m, rfl, ?_, ?_, ?_⟩
      · grind
      · grind
      · have := length_flatMap_utf8_le cs
        grind
    · obtain ⟨pre, suf, piece, rfl, hpiece, htake, hlen⟩ :=
        ih (m - (String.utf8EncodeChar c).length)
      refine ⟨c :: pre, suf, piece, rfl, hpiece, ?_, ?_⟩
      · rw [take_append, take_of_length_le (by omega), htake, flatMap_cons,
          append_assoc]
      · grind

/-- A text is not read back from its bytes when more than a few are missing. -/
theorem fromUtf8Lossy_take_ne (hm : m + 12 < (utf8Bytes s).length) :
    fromUtf8Lossy ((utf8Bytes s).take m) ≠ s := by
  intro h
  unfold fromUtf8Lossy at h
  split at h
  next s' hs =>
    -- a valid piece has its own bytes
    subst h
    unfold String.fromUTF8? at hs
    split at hs
    next hvalid =>
      have hbytes : utf8Bytes (String.fromUTF8 _ hvalid) = (utf8Bytes s').take m := rfl
      grind
    next => contradiction
  next =>
    obtain ⟨cs, rfl⟩ : ∃ cs, s = String.ofList cs := ⟨s.toList, String.ofList_toList.symm⟩
    rw [utf8Bytes_ofList] at h hm
    obtain ⟨pre, suf, piece, rfl, hpiece, htake, hlen⟩ := exists_take_utf8 cs m
    have hcs : (lossyChars ((pre.flatMap String.utf8EncodeChar ++ piece).length)
        (pre.flatMap String.utf8EncodeChar ++ piece)).length = (pre ++ suf).length := by
      rw [htake] at h
      exact congrArg List.length (String.ofList_injective h)
    have hpre := length_le_length_flatMap_utf8 pre
    obtain ⟨fuel, hfuel⟩ : ∃ fuel, (pre.flatMap String.utf8EncodeChar ++ piece).length =
        pre.length + fuel := ⟨_, (Nat.add_sub_cancel' (by rw [length_append]; omega)).symm⟩
    have hle := length_lossyChars_le fuel piece
    rw [hfuel, length_lossyChars_append, length_append] at hcs
    omega

end Archon
