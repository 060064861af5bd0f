import Mathlib.Algebra.Ring.Int.Defs
import Mathlib.Algebra.Ring.Nat

/-!
# Archon.Relational.Float

`f32` by its bits.  Comparisons are defined on the bits as IEEE 754 has
them; arithmetic is the machine's.
-/

namespace Archon

/-- An `f32`. -/
structure F32 where
  bits : UInt32
  deriving DecidableEq, Repr

namespace F32

def toFloat32 (x : F32) : Float32 := .ofBits x.bits

def ofFloat32 (x : Float32) : F32 := ⟨x.toBits⟩

def zero : F32 := ⟨0⟩

def isNaN (x : F32) : Bool := x.bits &&& 0x7fffffff > 0x7f800000

/-- Position in the numeric order; both zeros are 0. -/
def magnitude (x : F32) : Int :=
  if x.bits.toNat < 2 ^ 31 then x.bits.toNat else 2 ^ 31 - x.bits.toNat

/-- `partial_cmp`. -/
def partialCmp (x y : F32) : Option Ordering :=
  if x.isNaN || y.isNaN then none else some (compare x.magnitude y.magnitude)

/-- `==`. -/
def eq (x y : F32) : Bool := x.partialCmp y == some .eq

/-- Position in the order of `total_cmp`. -/
def totalKey (x : F32) : Int :=
  if x.bits.toNat < 2 ^ 31 then x.bits.toNat else 2 ^ 31 - 1 - x.bits.toNat

/-- `total_cmp`. -/
def totalCmp (x y : F32) : Ordering := compare x.totalKey y.totalKey

def add (x y : F32) : F32 := ofFloat32 (x.toFloat32 + y.toFloat32)

def sub (x y : F32) : F32 := ofFloat32 (x.toFloat32 - y.toFloat32)

def mul (x y : F32) : F32 := ofFloat32 (x.toFloat32 * y.toFloat32)

def div (x y : F32) : F32 := ofFloat32 (x.toFloat32 / y.toFloat32)

/-- `i as f32`. -/
def ofInt64 (i : Int64) : F32 := ofFloat32 i.toFloat32

/-- `n as f32`. -/
def ofNat (n : Nat) : F32 := ofFloat32 (Float32.ofNat n)

/-- `x as f64`. -/
def toFloat (x : F32) : Float := x.toFloat32.toFloat

/-- `x as f32` from an `f64`. -/
def ofFloat (x : Float) : F32 := ofFloat32 x.toFloat32

/-- `iter().sum()`. -/
def sum (xs : List F32) : F32 := xs.foldl add zero

end F32

/-- The vector parameters of a statement. -/
abbrev Params := List (List F32)

end Archon
