import Mathlib.Data.List.Forall2
import Archon.Relational.Expr

/-!
# Archon.Relational.LikeLaw

`LIKE` as splitting a text into pieces, one for each element of the pattern.
The code splits bytes.  On the characters of the text it comes to the same
unless an `_` meets a character of several bytes.
-/

namespace Archon

open List

/-! ## Pieces -/

section Pieces

variable {α β : Type} {takes : α → List β → Prop} {a : α} {pat pat' : List α} {text : List β}

/-- The text is cut into consecutive pieces, one for each element of the pattern. -/
def InPieces (takes : α → List β → Prop) (pat : List α) (text : List β) : Prop :=
  ∃ pieces, List.Forall₂ takes pat pieces ∧ pieces.flatten = text

@[simp] theorem inPieces_nil : InPieces takes [] text ↔ text = [] := by
  simp [InPieces]

theorem inPieces_cons :
    InPieces takes (a :: pat) text ↔
      ∃ piece rest, takes a piece ∧ InPieces takes pat rest ∧ text = piece ++ rest := by
  constructor
  · rintro ⟨pieces, hall, rfl⟩
    cases hall with
    | cons h hall => exact ⟨_, _, h, ⟨_, hall, rfl⟩, rfl⟩
  · rintro ⟨piece, rest, h, ⟨pieces, hall, rfl⟩, rfl⟩
    exact ⟨piece :: pieces, .cons h hall, rfl⟩

theorem inPieces_append :
    InPieces takes (pat ++ pat') text ↔
      ∃ front rest, InPieces takes pat front ∧ InPieces takes pat' rest ∧ text = front ++ rest := by
  induction pat generalizing text with
  | nil => simp
  | cons a pat ih =>
    simp only [cons_append, inPieces_cons, ih]
    grind

end Pieces

/-! ## What the code does with bytes -/

/-- `%` takes any bytes, `_` one byte, any other byte itself. -/
def TakesBytes (p : UInt8) (piece : List UInt8) : Prop :=
  p = 37 ∨ if p = 95 then piece.length = 1 else piece = [p]

theorem likeRecurse_iff (text pat : List UInt8) :
    likeRecurse text pat = true ↔ InPieces TakesBytes pat text := by
  induction pat generalizing text with
  | nil => simp [likeRecurse]
  | cons p pat ih =>
    rw [inPieces_cons]
    unfold likeRecurse
    split_ifs with h37 h95
    · simp only [any_eq_true, mem_range, ih]
      constructor
      · rintro ⟨i, -, hpat⟩
        exact ⟨text.take i, text.drop i, .inl (by simpa using h37), hpat, by simp⟩
      · rintro ⟨piece, rest, -, hpat, rfl⟩
        exact ⟨piece.length, by rw [length_append]; omega, by simpa using hpat⟩
    · cases text <;> simp_all [TakesBytes, length_eq_one_iff]
    · cases text <;> simp_all [TakesBytes]
      grind

/-! ## Characters and their bytes -/

/-- What `LIKE` is for: `%` takes any string, `_` one character, any other
character itself. -/
def TakesChars (p : Char) (piece : List Char) : Prop :=
  p = '%' ∨ if p = '_' then piece.length = 1 else piece = [p]

/-- The text is cut into pieces, one for each character of the pattern. -/
def LikeChars (text pattern : String) : Prop :=
  InPieces TakesChars pattern.toList text.toList

def IsAscii (cs : List Char) : Prop := ∀ c ∈ cs, c.toNat < 128

/-- What a character of the pattern takes from the bytes of the text. -/
def TakesEncoded (p : Char) (piece : List UInt8) : Prop :=
  p = '%' ∨ if p = '_' then piece.length = 1 else piece = String.utf8EncodeChar p

theorem length_utf8EncodeChar_eq_one {c : Char} :
    (String.utf8EncodeChar c).length = 1 ↔ c.toNat < 128 := by
  rw [String.length_utf8EncodeChar]
  simp only [Char.utf8Size, UInt32.le_iff_toNat_le]
  split_ifs <;> simp_all <;> omega

/-- A byte below 128 is a character on its own. -/
theorem utf8EncodeChar_eq_of_mem {c : Char} {b : UInt8} (hb : b ∈ String.utf8EncodeChar c)
    (hlt : b.toNat < 128) : c.toNat = b.toNat := by
  simp only [String.utf8EncodeChar] at hb
  split_ifs at hb <;> simp only [mem_cons, not_mem_nil, or_false] at hb <;>
    rcases hb with rfl | rfl | rfl | rfl <;> simp at * <;> omega

/-- The first byte of a character shows that a character starts there; no other byte does. -/
theorem utf8EncodeChar_eq_cons (c : Char) :
    ∃ b bs, String.utf8EncodeChar c = b :: bs ∧ b.IsUTF8FirstByte ∧
      ∀ x ∈ bs, ¬ x.IsUTF8FirstByte := by
  have hfirst (i : Nat) (hi : i < (String.utf8EncodeChar c).length) :=
    @UInt8.isUTF8FirstByte_getElem_utf8EncodeChar c i hi
  cases henc : String.utf8EncodeChar c with
  | nil => exact absurd henc String.utf8EncodeChar_ne_nil
  | cons b bs =>
    simp only [henc] at hfirst
    refine ⟨b, bs, rfl, (hfirst 0 (by simp)).mpr rfl, fun x hx => ?_⟩
    obtain ⟨i, hi, rfl⟩ := getElem_of_mem hx
    simpa using (hfirst (i + 1) (by simpa using hi)).not

theorem utf8EncodeChar_append_inj {c d : Char} {xs ys : List UInt8}
    (h : String.utf8EncodeChar c ++ xs = String.utf8EncodeChar d ++ ys) : c = d ∧ xs = ys := by
  have hdec (c : Char) (xs : List UInt8) :=
    @ByteArray.utf8DecodeChar?_utf8EncodeChar_append (xs.toByteArray) c
  have hcd : c = d := by
    have hc := hdec c xs
    rw [← toByteArray_append, h, toByteArray_append, hdec] at hc
    simpa using hc.symm
  subst hcd
  exact ⟨rfl, append_cancel_left h⟩

/-- Bytes that are neither `%` nor `_` take themselves. -/
theorem inPieces_literal {bs text : List UInt8} (h : ∀ b ∈ bs, b ≠ 37 ∧ b ≠ 95) :
    InPieces TakesBytes bs text ↔ text = bs := by
  induction bs generalizing text with
  | nil => simp
  | cons b bs ih =>
    have hb := h b (by simp)
    simp only [inPieces_cons, TakesBytes, hb.1, hb.2, ih fun x hx => h x (by simp [hx])]
    simp

theorem inPieces_encodedChar (c : Char) (text : List UInt8) :
    InPieces TakesBytes (String.utf8EncodeChar c) text ↔ TakesEncoded c text := by
  by_cases hpercent : c = '%'
  · subst hpercent
    have henc : String.utf8EncodeChar '%' = [37] := by decide
    simp [henc, inPieces_cons, TakesBytes, TakesEncoded]
  by_cases hunder : c = '_'
  · subst hunder
    have henc : String.utf8EncodeChar '_' = [95] := by decide
    simp [henc, inPieces_cons, TakesBytes, TakesEncoded]
  · have hbytes (b : UInt8) (hb : b ∈ String.utf8EncodeChar c) : b ≠ 37 ∧ b ≠ 95 := by
      constructor <;> rintro rfl
      · exact hpercent (Char.toNat_inj.mp (utf8EncodeChar_eq_of_mem hb (by decide)))
      · exact hunder (Char.toNat_inj.mp (utf8EncodeChar_eq_of_mem hb (by decide)))
    simp [inPieces_literal hbytes, TakesEncoded, hpercent, hunder]

theorem inPieces_encoded (pat : List Char) (text : List UInt8) :
    InPieces TakesBytes (pat.flatMap String.utf8EncodeChar) text ↔
      InPieces TakesEncoded pat text := by
  induction pat generalizing text with
  | nil => simp
  | cons c pat ih =>
    simp only [flatMap_cons, inPieces_append, inPieces_cons, inPieces_encodedChar, ih]

/-! ## Where a character starts -/

/-- Behind any cut the text goes on with the rest of a character, then whole characters. -/
theorem exists_of_append_eq {xs ys pre : List UInt8} {cs : List Char}
    (hpre : ∀ b ∈ pre, ¬ b.IsUTF8FirstByte)
    (h : xs ++ ys = pre ++ cs.flatMap String.utf8EncodeChar) :
    ∃ pre' front back, cs = front ++ back ∧ ys = pre' ++ back.flatMap String.utf8EncodeChar ∧
      (∀ b ∈ pre', ¬ b.IsUTF8FirstByte) ∧ (pre = [] → IsAscii cs → pre' = []) := by
  induction xs generalizing pre cs with
  | nil => exact ⟨pre, [], cs, rfl, h, hpre, fun h _ => h⟩
  | cons x xs ih =>
    cases pre with
    | cons b pre =>
      obtain ⟨-, h⟩ := List.cons.inj h
      obtain ⟨pre', front, back, hcs, hys, hpre', -⟩ := ih (fun b hb => hpre b (by simp [hb])) h
      exact ⟨pre', front, back, hcs, hys, hpre', by simp⟩
    | nil =>
      cases cs with
      | nil => simp at h
      | cons c cs =>
        obtain ⟨b, bs, henc, -, hbs⟩ := utf8EncodeChar_eq_cons c
        rw [flatMap_cons, henc] at h
        obtain ⟨-, h⟩ := List.cons.inj h
        obtain ⟨pre', front, back, hcs, hys, hpre', hascii⟩ := ih hbs h
        refine ⟨pre', c :: front, back, by simp [hcs], hys, hpre', fun _ hall => ?_⟩
        have hone := length_utf8EncodeChar_eq_one.mpr (hall c (by simp))
        rw [henc] at hone
        exact hascii (by simpa using hone) fun d hd => hall d (by simp [hd])

theorem inPieces_of_encoded {pat cs : List Char} {pre : List UInt8}
    (hpre : ∀ b ∈ pre, ¬ b.IsUTF8FirstByte) (hone : '_' ∈ pat → pre = [] ∧ IsAscii cs)
    (h : InPieces TakesEncoded pat (pre ++ cs.flatMap String.utf8EncodeChar)) :
    InPieces TakesChars pat cs := by
  induction pat generalizing pre cs with
  | nil =>
    cases cs <;> simp_all
  | cons p pat ih =>
    obtain ⟨piece, rest, htakes, hrest, htext⟩ := inPieces_cons.mp h
    rw [inPieces_cons]
    by_cases hpercent : p = '%'
    · obtain ⟨pre', front, back, rfl, rfl, hpre', hascii⟩ := exists_of_append_eq hpre htext.symm
      refine ⟨front, back, .inl hpercent, ih hpre' (fun hmem => ?_) hrest, rfl⟩
      obtain ⟨hnil, hall⟩ := hone (by simp [hmem])
      exact ⟨hascii hnil hall, fun c hc => hall c (by simp [hc])⟩
    by_cases hunder : p = '_'
    · obtain ⟨rfl, hall⟩ := hone (by simp [hunder])
      cases cs with
      | nil => simp_all [TakesEncoded]
      | cons c cs =>
        have hlen := length_utf8EncodeChar_eq_one.mpr (hall c (by simp))
        have hpiece : piece.length = 1 := by simpa [TakesEncoded, hunder] using htakes
        rw [nil_append] at htext
        obtain ⟨-, rfl⟩ := append_inj htext (hlen.trans hpiece.symm)
        have hcs : IsAscii cs := fun d hd => hall d (by simp [hd])
        exact ⟨[c], cs, by simp [TakesChars, hunder], ih hpre (fun _ => ⟨rfl, hcs⟩) hrest, rfl⟩
    · obtain rfl : piece = String.utf8EncodeChar p := by
        simpa [TakesEncoded, hpercent, hunder] using htakes
      obtain ⟨b, bs, henc, hb, -⟩ := utf8EncodeChar_eq_cons p
      -- the pattern's character starts with a first byte, so the text is not inside a character
      obtain rfl : pre = [] := by
        cases pre with
        | nil => rfl
        | cons x pre =>
          rw [henc] at htext
          exact absurd ((List.cons.inj htext).1 ▸ hb) (hpre x (by simp))
      cases cs with
      | nil => simp at htext
      | cons c cs =>
        obtain ⟨rfl, rfl⟩ := utf8EncodeChar_append_inj htext
        refine ⟨[c], cs, by simp [TakesChars], ih hpre (fun hmem => ?_) hrest, rfl⟩
        exact ⟨rfl, fun d hd => (hone (by simp [hmem])).2 d (by simp [hd])⟩

theorem encoded_of_inPieces {pat cs : List Char} (hone : '_' ∈ pat → IsAscii cs)
    (h : InPieces TakesChars pat cs) :
    InPieces TakesEncoded pat (cs.flatMap String.utf8EncodeChar) := by
  induction pat generalizing cs with
  | nil => simp_all
  | cons p pat ih =>
    obtain ⟨piece, rest, htakes, hrest, rfl⟩ := inPieces_cons.mp h
    have hrest' := ih (fun hmem c hc => hone (by simp [hmem]) c (by simp [hc])) hrest
    refine inPieces_cons.mpr ⟨_, _, ?_, hrest', flatMap_append⟩
    by_cases hpercent : p = '%'
    · exact .inl hpercent
    by_cases hunder : p = '_'
    · have hlen : piece.length = 1 := by simpa [TakesChars, hunder] using htakes
      obtain ⟨c, rfl⟩ := length_eq_one_iff.mp hlen
      have hc := length_utf8EncodeChar_eq_one.mpr (hone (by simp [hunder]) c (by simp))
      simpa [TakesEncoded, hunder] using hc
    · have hpiece : piece = [p] := by simpa [TakesChars, hpercent, hunder] using htakes
      simp [TakesEncoded, hunder, hpiece]

theorem likeMatch_iff_encoded (t p : String) :
    likeMatch t p = true ↔
      InPieces TakesEncoded p.toList (t.toList.flatMap String.utf8EncodeChar) := by
  simp [likeMatch, likeRecurse_iff, ← inPieces_encoded, ← utf8Bytes_ofList]

/-- The code agrees with the characters when the pattern has no `_` or the text only ASCII. -/
theorem likeMatch_iff_of {t p : String} (h : '_' ∈ p.toList → IsAscii t.toList) :
    likeMatch t p = true ↔ LikeChars t p := by
  rw [likeMatch_iff_encoded]
  constructor
  · exact @inPieces_of_encoded p.toList t.toList [] (by simp) fun hmem => ⟨rfl, h hmem⟩
  · exact encoded_of_inPieces h

theorem length_of_inPieces_underscores {n : Nat} {text : List UInt8}
    (h : InPieces TakesEncoded (List.replicate n '_') text) : text.length = n := by
  induction n generalizing text with
  | zero => simp_all
  | succ n ih =>
    obtain ⟨piece, rest, htakes, hrest, rfl⟩ := inPieces_cons.mp h
    have hlen : piece.length = 1 := by simpa [TakesEncoded] using htakes
    rw [length_append, ih hrest, hlen, Nat.add_comm]

theorem inPieces_underscores (cs : List Char) :
    InPieces TakesChars (List.replicate cs.length '_') cs := by
  induction cs with
  | nil => simp
  | cons c cs ih => exact inPieces_cons.mpr ⟨[c], cs, by simp [TakesChars], ih, rfl⟩

theorem isAscii_of_length {cs : List Char}
    (h : (cs.flatMap String.utf8EncodeChar).length = cs.length) : IsAscii cs := by
  induction cs with
  | nil => simp [IsAscii]
  | cons c cs ih =>
    have hle := length_le_length_flatMap_utf8 cs
    have hpos := length_pos_iff.mpr (@String.utf8EncodeChar_ne_nil c)
    rw [flatMap_cons, length_append, length_cons] at h
    intro d hd
    rcases mem_cons.mp hd with rfl | hd
    · exact length_utf8EncodeChar_eq_one.mp (by omega)
    · exact ih (by omega) d hd

/-- `LIKE` matches characters for every pattern exactly when the text is ASCII, and for every
text when the pattern has no `_`. -/
theorem likeMatch_chars_iff (t : String) :
    ((∀ p, likeMatch t p = true ↔ LikeChars t p) ↔ IsAscii t.toList) ∧
      ∀ p : String, '_' ∉ p.toList → (likeMatch t p = true ↔ LikeChars t p) := by
  refine ⟨⟨fun h => ?_, fun h p => likeMatch_iff_of fun _ => h⟩,
    fun p hp => likeMatch_iff_of fun hmem => absurd hmem hp⟩
  have hall := inPieces_underscores t.toList
  have hp : (String.ofList (List.replicate t.toList.length '_')).toList =
      List.replicate t.toList.length '_' := String.toList_ofList
  have hmatch := (h (String.ofList _)).mpr (by rw [LikeChars, hp]; exact hall)
  rw [likeMatch_iff_encoded, hp] at hmatch
  exact isAscii_of_length (length_of_inPieces_underscores hmatch)

/-- `'é' LIKE '_'` is false: the character has two bytes. -/
theorem underscore_takes_one_byte : LikeChars "é" "_" ∧ likeMatch "é" "_" = false := by
  constructor
  · exact ⟨[['é']], by simp [TakesChars], by simp⟩
  · decide +kernel

end Archon
