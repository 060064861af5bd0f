import Archon.Lib.Bytes

/-!
# Archon.Lib.BigEndian

Network byte order: big-endian integers, and the 32-bit length field a reader
puts together from four bytes.
-/

namespace Archon

/-- The `w` low-order bytes of `n`, most significant first. -/
def beBytes (w n : Nat) : Bytes := (leBytes w n).reverse

@[simp] theorem length_beBytes (w n : Nat) : (beBytes w n).length = w := by
  simp [beBytes]

/-- The number four bytes denote. -/
def ofBe32 (b0 b1 b2 b3 : UInt8) : Nat :=
  b0.toNat <<< 24 ||| b1.toNat <<< 16 ||| b2.toNat <<< 8 ||| b3.toNat

theorem beBytes_four (n : Nat) : beBytes 4 n =
    [UInt8.ofNat (n / 256 / 256 / 256), UInt8.ofNat (n / 256 / 256), UInt8.ofNat (n / 256),
      UInt8.ofNat n] := by
  rfl

theorem ofBe32_eq (b0 b1 b2 b3 : UInt8) :
    ofBe32 b0 b1 b2 b3 =
      ((b0.toNat * 256 + b1.toNat) * 256 + b2.toNat) * 256 + b3.toNat := by
  have h1 := b1.toNat_lt
  have h2 := b2.toNat_lt
  have h3 := b3.toNat_lt
  have hlow : b2.toNat <<< 8 ||| b3.toNat = b2.toNat * 256 + b3.toNat := by
    rw [← Nat.shiftLeft_add_eq_or_of_lt h3, Nat.shiftLeft_eq]
  have hmid : b1.toNat <<< 16 ||| (b2.toNat * 256 + b3.toNat) =
      b1.toNat * 65536 + (b2.toNat * 256 + b3.toNat) := by
    rw [← Nat.shiftLeft_add_eq_or_of_lt (by omega), Nat.shiftLeft_eq]
  have hhigh : b0.toNat <<< 24 ||| (b1.toNat * 65536 + (b2.toNat * 256 + b3.toNat)) =
      b0.toNat * 16777216 + (b1.toNat * 65536 + (b2.toNat * 256 + b3.toNat)) := by
    rw [← Nat.shiftLeft_add_eq_or_of_lt (by omega), Nat.shiftLeft_eq]
  rw [ofBe32, Nat.or_assoc, Nat.or_assoc, hlow, hmid, hhigh]
  omega

/-- A length that fits its field reads back. -/
theorem ofBe32_beBytes {n : Nat} (h : n < UInt32.size) :
    ofBe32 (UInt8.ofNat (n / 256 / 256 / 256)) (UInt8.ofNat (n / 256 / 256)) (UInt8.ofNat (n / 256))
      (UInt8.ofNat n) = n := by
  grind [ofBe32_eq, UInt8.toNat_ofNat']

end Archon
