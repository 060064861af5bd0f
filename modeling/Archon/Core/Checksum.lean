import Archon.Lib.Crc

/-!
# Archon.Core.Checksum

The dependency-free CRC32 (`crates/tpt-archon-core/src/checksum.rs`) that
both the log frames and the page blocks carry.
-/

namespace Archon

/-- Trailing bytes of every on-disk block reserved for the page checksum. -/
def PAGE_CRC : Nat := 4

/-- One bit step of the reflected IEEE 802.3 polynomial.  The mask is all
ones exactly when the low bit is set (`(crc & 1).wrapping_neg()`). -/
def crcBit (crc : UInt32) : UInt32 :=
  let mask := -(crc &&& 1)
  (crc >>> 1) ^^^ (0xEDB88320 &&& mask)

/-- Absorb one byte: eight bit steps after mixing it into the low byte. -/
def crcByte (crc : UInt32) (b : UInt8) : UInt32 :=
  Nat.repeat crcBit 8 (crc ^^^ b.toUInt32)

/-- CRC32 (IEEE 802.3, reflected) over `data`. -/
def crc32 (data : Bytes) : UInt32 :=
  ~~~(data.foldl crcByte 0xFFFFFFFF)

-- the check value of the standard, over the digits `1` to `9`
example : crc32 [0x31, 0x32, 0x33, 0x34, 0x35, 0x36, 0x37, 0x38, 0x39] = 0xCBF43926 := by
  decide +kernel

/-! ## As a shift register -/

/-- The reflected IEEE 802.3 polynomial. -/
def crcPoly : BitVec 32 := 0xEDB88320

theorem crcPoly_msb : crcPoly.msb = true := by decide

/-- The mask selects the polynomial when the low bit is set. -/
theorem toBitVec_crcBit (c : UInt32) : (crcBit c).toBitVec = Crc.shift crcPoly c.toBitVec := by
  have hmask : -(c.toBitVec &&& 1#32) =
      if c.toBitVec.getLsbD 0 then BitVec.allOnes 32 else 0 := by
    grind [BitVec.and_one_eq_setWidth_ofBool_getLsbD]
  have hstep : (crcBit c).toBitVec = (c.toBitVec >>> 1) ^^^
      (crcPoly &&& -(c.toBitVec &&& 1#32)) := rfl
  rw [hstep, hmask, Crc.shift]
  split
  · rfl
  · simp

theorem toBitVec_crcByte (c : UInt32) (b : UInt8) :
    (crcByte c b).toBitVec = Crc.absorb crcPoly c.toBitVec b := by
  have hrepeat : ∀ n (x : UInt32), (Nat.repeat crcBit n x).toBitVec =
      Nat.repeat (Crc.shift crcPoly) n x.toBitVec := by
    intro n x
    induction n with
    | zero => rfl
    | succ n ih => rw [Nat.repeat, toBitVec_crcBit, ih, Nat.repeat]
  have hbyte : b.toUInt32.toBitVec = BitVec.ofNat 32 b.toNat := by
    apply BitVec.eq_of_toNat_eq
    simp
  rw [crcByte, hrepeat, Crc.absorb, UInt32.toBitVec_xor, hbyte]

/-- The register after absorbing `data`. -/
theorem toBitVec_foldl_crcByte (data : Bytes) (c : UInt32) :
    (data.foldl crcByte c).toBitVec = Crc.absorbAll crcPoly c.toBitVec data := by
  induction data generalizing c with
  | nil => rfl
  | cons b data ih => rw [List.foldl_cons, ih, toBitVec_crcByte]; rfl

/-- A string followed by its checksum leaves a fixed remainder in the
register, and no other four bytes do. -/
theorem crc32_eq_iff {data stored : Bytes} (h : stored.length = 4) :
    crc32 data = UInt32.ofNat (ofLeBytes stored) ↔
      Crc.absorbAll crcPoly 0xFFFFFFFF#32 (data ++ stored) =
        Nat.repeat (Crc.shift crcPoly) 32 0xFFFFFFFF#32 := by
  have hw : 8 * stored.length ≤ 32 := by omega
  have hbits : (crc32 data).toBitVec = ~~~ Crc.absorbAll crcPoly 0xFFFFFFFF#32 data := by
    rw [crc32, UInt32.toBitVec_not, toBitVec_foldl_crcByte]
    rfl
  rw [Crc.absorbAll_append, Crc.absorbAll_eq hw, h, ← UInt32.toBitVec_inj, hbits]
  generalize Crc.absorbAll crcPoly 0xFFFFFFFF#32 data = s
  have hones : ~~~ s = s ^^^ 0xFFFFFFFF#32 := by
    rw [show 0xFFFFFFFF#32 = BitVec.allOnes 32 by decide, BitVec.xor_allOnes]
  constructor
  · intro heq
    have hsum : s ^^^ BitVec.ofNat 32 (ofLeBytes stored) = 0xFFFFFFFF#32 := by
      have hofNat : BitVec.ofNat 32 (ofLeBytes stored) = s ^^^ 0xFFFFFFFF#32 := by
        rw [← hones, heq]
        rfl
      rw [hofNat, ← BitVec.xor_assoc, BitVec.xor_self, BitVec.zero_xor]
    rw [hsum]
  · intro heq
    have hsum := Crc.repeat_inj crcPoly_msb heq
    rw [hones, ← hsum, ← BitVec.xor_assoc, BitVec.xor_self, BitVec.zero_xor]
    rfl

end Archon
