import Archon.Lib.Bytes

/-!
# Archon.Lib.Crc

Reflected cyclic redundancy checks of any width.

The register is shifted down one bit at a time, and the feedback polynomial is
added when a one falls out.  A shift is linear in exclusive or (`shift_xor`)
and, as the feedback sets the top bit, loses nothing (`shift_inj`).  Absorbing
bytes that fit the register adds them to it and shifts (`absorbAll_eq`), so two
strings that differ only within the width of the register are told apart
(`absorbAll_burst`).
-/

namespace Archon.Crc

variable {w : Nat} (poly : BitVec w)
variable {a b : BitVec w}

/-- Shift the register down one bit. -/
def shift (c : BitVec w) : BitVec w := if c.getLsbD 0 then (c >>> 1) ^^^ poly else c >>> 1

/-- Absorb a byte: add it to the low end, then eight shifts. -/
def absorb (c : BitVec w) (b : UInt8) : BitVec w :=
  Nat.repeat (shift poly) 8 (c ^^^ BitVec.ofNat w b.toNat)

/-- Absorb a byte string. -/
def absorbAll (c : BitVec w) (bs : Bytes) : BitVec w := bs.foldl (absorb poly) c

/-! ## Shifts -/

theorem shift_xor (a b : BitVec w) : shift poly (a ^^^ b) = shift poly a ^^^ shift poly b := by
  simp only [shift, BitVec.getLsbD_xor, BitVec.ushiftRight_xor_distrib]
  cases a.getLsbD 0 <;> cases b.getLsbD 0 <;> simp
  · ac_rfl
  · ac_rfl
  · have hcancel : poly ^^^ (b >>> 1 ^^^ poly) = b >>> 1 := by
      rw [BitVec.xor_comm, BitVec.xor_assoc, BitVec.xor_self, BitVec.xor_zero]
    rw [BitVec.xor_assoc, hcancel]

theorem repeat_xor (n : Nat) (a b : BitVec w) : Nat.repeat (shift poly) n (a ^^^ b) =
    Nat.repeat (shift poly) n a ^^^ Nat.repeat (shift poly) n b := by
  induction n with
  | zero => rfl
  | succ n ih => simp [Nat.repeat, ih, shift_xor]

variable {poly}

variable {c : BitVec w}

/-- The feedback keeps a one that falls out visible at the top. -/
theorem shift_eq_zero (hpoly : poly.msb = true) (h : shift poly c = 0) : c = 0 := by
  unfold shift at h
  split at h
  · have hmsb := congrArg BitVec.msb h
    simp [hpoly] at hmsb
  · next hlow =>
    apply BitVec.eq_of_getLsbD_eq
    intro i hi
    cases i with
    | zero => simpa using hlow
    | succ i =>
      have hbit := congrArg (fun x : BitVec w => x.getLsbD i) h
      simpa [Nat.add_comm] using hbit

theorem shift_inj (hpoly : poly.msb = true) (h : shift poly a = shift poly b) : a = b := by
  have hzero : shift poly (a ^^^ b) = 0 := by simp [shift_xor, h]
  simpa using shift_eq_zero hpoly hzero

theorem repeat_inj (hpoly : poly.msb = true) {n : Nat}
    (h : Nat.repeat (shift poly) n a = Nat.repeat (shift poly) n b) : a = b := by
  induction n with
  | zero => exact h
  | succ n ih => exact ih (shift_inj hpoly h)

theorem repeat_repeat (n m : Nat) (c : BitVec w) :
    Nat.repeat (shift poly) n (Nat.repeat (shift poly) m c) = Nat.repeat (shift poly)
      (n + m) c := by
  induction n with
  | zero => rw [Nat.zero_add, Nat.repeat]
  | succ n ih => rw [Nat.repeat, ih, Nat.succ_add, Nat.repeat]

/-- A register with clear low bits only moves down. -/
theorem repeat_of_clear {n : Nat} (h : ∀ i, i < n → c.getLsbD i = false) :
    Nat.repeat (shift poly) n c = c >>> n := by
  induction n with
  | zero => simp [Nat.repeat]
  | succ n ih =>
    have hlow : (c >>> n).getLsbD 0 = false := by simpa using h n (by omega)
    rw [Nat.repeat, ih fun i hi => h i (by omega), shift, if_neg (by simp [hlow]),
      BitVec.shiftRight_add]

/-! ## Bytes -/

theorem absorb_inj (hpoly : poly.msb = true) {x : UInt8} (h : absorb poly a x = absorb poly b x) :
    a = b := by
  have hxor := repeat_inj hpoly h
  simpa using hxor

/-- What was absorbed before is never forgotten. -/
theorem absorbAll_inj (hpoly : poly.msb = true) {bs : Bytes}
    (h : absorbAll poly a bs = absorbAll poly b bs) : a = b := by
  induction bs generalizing a b with
  | nil => exact h
  | cons x bs ih => exact absorb_inj hpoly (ih h)

theorem absorbAll_append (c : BitVec w) (xs ys : Bytes) :
    absorbAll poly c (xs ++ ys) = absorbAll poly (absorbAll poly c xs) ys := List.foldl_append

/-- A byte below higher ones is their exclusive or. -/
theorem ofNat_byte_add {b m : Nat} (hb : b < 256) :
    BitVec.ofNat w (b + 256 * m) = BitVec.ofNat w b ^^^ BitVec.ofNat w (256 * m) := by
  apply BitVec.eq_of_getLsbD_eq
  intro i hi
  have hadd : (256 * m + b).testBit i = if i < 8 then b.testBit i else m.testBit (i - 8) :=
    Nat.testBit_two_pow_mul_add m (i := 8) hb i
  have hmul : (256 * m).testBit i = if i < 8 then false else m.testBit (i - 8) := by
    simpa using Nat.testBit_two_pow_mul_add m (i := 8) (show 0 < 2 ^ 8 by decide) i
  simp only [BitVec.getLsbD_ofNat, BitVec.getLsbD_xor, Nat.add_comm b, hadd, hmul]
  split
  · simp
  · have hlt : b.testBit i = false := by
      apply Nat.testBit_lt_two_pow
      calc b < 2 ^ 8 := hb
        _ ≤ 2 ^ i := Nat.pow_le_pow_right (by omega) (by omega)
    simp [hlt]

/-- Eight shifts bring the higher bytes down. -/
theorem repeat_eight_mul {m : Nat} (hm : 256 * m < 2 ^ w) :
    Nat.repeat (shift poly) 8 (BitVec.ofNat w (256 * m)) = BitVec.ofNat w m := by
  rw [repeat_of_clear]
  · apply BitVec.eq_of_toNat_eq
    rw [BitVec.toNat_ushiftRight, BitVec.toNat_ofNat, BitVec.toNat_ofNat, Nat.mod_eq_of_lt hm,
      Nat.mod_eq_of_lt (by omega)]
    omega
  · intro i hi
    have hbit := Nat.testBit_two_pow_mul_add m (i := 8) (show 0 < 2 ^ 8 by decide) i
    have hclear : (256 * m).testBit i = false := by simpa [hi] using hbit
    simp [BitVec.getLsbD_ofNat, hclear]

/-- Bytes that fit the register are added to it as one number. -/
theorem absorbAll_eq {bs : Bytes} (hw : 8 * bs.length ≤ w) (c : BitVec w) :
    absorbAll poly c bs =
      Nat.repeat (shift poly) (8 * bs.length) (c ^^^ BitVec.ofNat w (ofLeBytes bs)) := by
  induction bs generalizing c with
  | nil => simp [absorbAll, ofLeBytes, Nat.repeat]
  | cons b bs ih =>
    simp only [List.length_cons] at hw
    have hlt : 256 * ofLeBytes bs < 2 ^ w := by
      calc 256 * ofLeBytes bs < 256 * 256 ^ bs.length :=
            Nat.mul_lt_mul_of_pos_left (ofLeBytes_lt bs) (by omega)
        _ = 2 ^ (8 * (bs.length + 1)) := by
            rw [Nat.pow_mul, Nat.pow_succ']
        _ ≤ 2 ^ w := Nat.pow_le_pow_right (by omega) hw
    have hstep : absorb poly c b ^^^ BitVec.ofNat w (ofLeBytes bs) =
        Nat.repeat (shift poly) 8 (c ^^^ BitVec.ofNat w (ofLeBytes (b :: bs))) := by
      rw [ofLeBytes, ofNat_byte_add b.toNat_lt, ← BitVec.xor_assoc, repeat_xor,
        repeat_eight_mul hlt]
      rfl
    have hcons : absorbAll poly c (b :: bs) = absorbAll poly (absorb poly c b) bs := rfl
    rw [hcons, ih (by omega), hstep, repeat_repeat, List.length_cons, Nat.mul_succ]

/-- Strings that differ only within the width of the register are told apart. -/
theorem absorbAll_burst (hpoly : poly.msb = true) {pre xs ys post : Bytes}
    (hlen : xs.length = ys.length) (hw : 8 * xs.length ≤ w)
    (h : absorbAll poly c (pre ++ xs ++ post) = absorbAll poly c (pre ++ ys ++ post)) :
    xs = ys := by
  simp only [absorbAll_append] at h
  have hmid := absorbAll_inj hpoly h
  have hys : 8 * ys.length ≤ w := by omega
  rw [absorbAll_eq hw, absorbAll_eq hys, ← hlen] at hmid
  have hnat : BitVec.ofNat w (ofLeBytes xs) = BitVec.ofNat w (ofLeBytes ys) := by
    simpa using repeat_inj hpoly hmid
  have hlt : ∀ bs : Bytes, bs.length = xs.length → ofLeBytes bs < 2 ^ w := by
    intro bs hbs
    calc ofLeBytes bs < 256 ^ bs.length := ofLeBytes_lt bs
      _ = 2 ^ (8 * bs.length) := by rw [Nat.pow_mul]
      _ ≤ 2 ^ w := Nat.pow_le_pow_right (by omega) (by omega)
  have heq := congrArg BitVec.toNat hnat
  rw [BitVec.toNat_ofNat, BitVec.toNat_ofNat, Nat.mod_eq_of_lt (hlt xs rfl),
    Nat.mod_eq_of_lt (hlt ys hlen.symm)] at heq
  rw [← leBytes_ofLeBytes xs, ← leBytes_ofLeBytes ys, heq, hlen]

end Archon.Crc
