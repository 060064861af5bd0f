import Mathlib.Algebra.Ring.Nat

/-!
# Archon.Lib.Bytes

Byte-list plumbing shared by every codec of the development: little-endian
fixed-width integers and the `take`/`drop` algebra of appended buffers.

Everything here is proved once so that the log, page and row codecs never
redo list arithmetic.
-/

namespace Archon

open List

/-- A byte string. -/
abbrev Bytes := List UInt8

/-! ## take/drop over appended buffers -/

variable {xs ys data : List α}

theorem take_append_of_length (h : xs.length = k) : (xs ++ ys).take k = xs := by
  subst h; simp

theorem drop_append_of_length (h : xs.length = k) : (xs ++ ys).drop k = ys := by
  subst h; simp

/-- What follows a slice that starts at `p`. -/
theorem drop_add_of_drop_eq {x post : List α} (h : data.drop p = x ++ post) (hn : x.length = n) :
    data.drop (p + n) = post := by
  rw [← drop_drop, h, drop_append_of_length hn]

/-! ## Overwriting a slice -/

/-- `xs` with the elements from position `s` on replaced by `data`
(`xs[s..s + data.len()].copy_from_slice(data)`). -/
def splice (xs : List α) (s : Nat) (data : List α) : List α :=
  xs.take s ++ data ++ xs.drop (s + data.length)

theorem length_splice (h : s + data.length ≤ xs.length) :
    (splice xs s data).length = xs.length := by
  grind [splice]

theorem slice_splice_self (data : List α) (h : s ≤ xs.length) :
    ((splice xs s data).drop s).take data.length = data := by
  have hl : (xs.take s).length = s := by rw [length_take]; omega
  rw [splice, append_assoc, drop_append_of_length hl, take_append_of_length rfl]

theorem slice_splice_before (h : s ≤ xs.length) (ha : a + n ≤ s) :
    ((splice xs s data).drop a).take n = (xs.drop a).take n := by
  have hl : (xs.take s).length = s := by rw [length_take]; omega
  rw [splice, append_assoc, drop_append_of_le_length (by omega),
    take_append_of_le_length (by rw [length_drop]; omega), drop_take,
    take_take, Nat.min_eq_left (by omega)]

theorem slice_splice_after (h : s ≤ xs.length) (ha : s + data.length ≤ a) :
    ((splice xs s data).drop a).take n = (xs.drop a).take n := by
  have hl : (xs.take s ++ data).length = s + data.length := by
    rw [length_append, length_take]; omega
  rw [splice, drop_append, drop_of_length_le (by omega), hl, nil_append,
    drop_drop, Nat.add_sub_cancel' ha]

/-! ## Little-endian integers -/

/-- The `w` low-order bytes of `n`, least significant first.  Higher bytes
are dropped, which is what a truncating `as` cast before `to_le_bytes`
does. -/
def leBytes : Nat → Nat → Bytes
  | 0, _ => []
  | w + 1, n => UInt8.ofNat n :: leBytes w (n / 256)

/-- The number a little-endian byte string denotes. -/
def ofLeBytes : Bytes → Nat
  | [] => 0
  | b :: bs => b.toNat + 256 * ofLeBytes bs

@[simp] theorem length_leBytes (w n : Nat) : (leBytes w n).length = w := by
  induction w generalizing n with
  | zero => rfl
  | succ w ih => simp [leBytes, ih]

/-- Only the low-order bytes matter. -/
theorem leBytes_mod (w n : Nat) : leBytes w (n % 256 ^ w) = leBytes w n := by
  induction w generalizing n with
  | zero => rfl
  | succ w ih =>
    have hhead : UInt8.ofNat (n % 256 ^ (w + 1)) = UInt8.ofNat n := by
      apply UInt8.toNat_inj.mp
      simp [Nat.pow_succ']
    have htail : n % 256 ^ (w + 1) / 256 = n / 256 % 256 ^ w := by
      rw [Nat.pow_succ', Nat.mod_mul_right_div_self]
    simp [leBytes, hhead, htail, ih]

/-- Reading back `w` bytes of `n` gives `n` modulo the width. -/
theorem ofLeBytes_leBytes (w n : Nat) : ofLeBytes (leBytes w n) = n % 256 ^ w := by
  induction w generalizing n with
  | zero => simp [leBytes, ofLeBytes, Nat.mod_one]
  | succ w ih =>
    simp [leBytes, ofLeBytes, ih, Nat.pow_succ', Nat.mod_mul]

/-- A number that fits its width survives the codec. -/
theorem ofLeBytes_leBytes_of_lt (h : n < 256 ^ w) : ofLeBytes (leBytes w n) = n := by
  rw [ofLeBytes_leBytes, Nat.mod_eq_of_lt h]

/-- A byte string denotes a number below the next power of its width. -/
theorem ofLeBytes_lt (bs : Bytes) : ofLeBytes bs < 256 ^ bs.length := by
  induction bs with
  | nil => simp [ofLeBytes]
  | cons b bs ih =>
    have hb : b.toNat < 256 := b.toNat_lt
    grind [ofLeBytes]

/-- Every byte string is the encoding of the number it denotes. -/
theorem leBytes_ofLeBytes (bs : Bytes) : leBytes bs.length (ofLeBytes bs) = bs := by
  induction bs with
  | nil => rfl
  | cons b bs ih =>
    have hb : b.toNat < 256 := b.toNat_lt
    have hdiv : (b.toNat + 256 * ofLeBytes bs) / 256 = ofLeBytes bs := by omega
    have hmod : UInt8.ofNat (b.toNat + 256 * ofLeBytes bs) = b := by simp
    simp [ofLeBytes, leBytes, hdiv, ih]

end Archon
