/-! # Doubles

A double is its IEEE-754 pattern of 64 bits, so that equal patterns are equal values and nothing
is lost in storage. Arithmetic goes through the machine's floats; the remainder is computed
exactly, because it always is a double.
-/
namespace MobileCode

structure Double where
  bits : UInt64
  deriving DecidableEq, Inhabited, Repr

namespace Double

def toFloat (x : Double) : Float := Float.ofBits x.bits
def ofFloat (f : Float) : Double := ⟨f.toBits⟩

def isNegative (x : Double) : Bool := x.bits >>> 63 = 1
def exponentBits (x : Double) : Nat := (x.bits >>> 52).toNat % 2048
def fractionBits (x : Double) : Nat := x.bits.toNat % (1 <<< 52)
def isNaN (x : Double) : Bool := x.exponentBits = 2047 && x.fractionBits ≠ 0
def isInfinite (x : Double) : Bool := x.exponentBits = 2047 && x.fractionBits = 0

def nan : Double := ⟨0x7ff8000000000000⟩
def zero : Double := ⟨0⟩

/-- A finite double is `± significand · 2 ^ exponent`. -/
def significand (x : Double) : Nat :=
  if x.exponentBits = 0 then x.fractionBits else (1 <<< 52) + x.fractionBits

def exponent (x : Double) : Int :=
  if x.exponentBits = 0 then -1074 else (x.exponentBits : Int) - 1075

/-- The double `± m · 2 ^ e`, for products that need no rounding. -/
def ofExact (negative : Bool) (m : Nat) (e : Int) : Double :=
  let target := max (-1074) (e + m.log2 - 52)
  let scaled := if target ≤ e then m <<< (e - target).toNat else m >>> (target - e).toNat
  let magnitude :=
    if scaled < 1 <<< 52 then scaled else ((target + 1074).toNat <<< 52) + scaled
  ⟨(if negative then 0x8000000000000000 else 0) + UInt64.ofNat magnitude⟩

def add (x y : Double) : Double := ofFloat (x.toFloat + y.toFloat)
def sub (x y : Double) : Double := ofFloat (x.toFloat - y.toFloat)
def mul (x y : Double) : Double := ofFloat (x.toFloat * y.toFloat)
def div (x y : Double) : Double := ofFloat (x.toFloat / y.toFloat)

/-- The remainder of the division that rounds toward zero; it has the sign of the dividend. -/
def rem (x y : Double) : Double :=
  if x.isNaN || y.isNaN || x.isInfinite || y.significand = 0 then nan
  else if y.isInfinite then x
  else
    let e := min x.exponent y.exponent
    let r := (x.significand <<< (x.exponent - e).toNat) % (y.significand <<< (y.exponent - e).toNat)
    ofExact x.isNegative r e

/-- Numeric equality: no NaN equals anything, and both zeros are equal. -/
def equal (x y : Double) : Bool := x.toFloat == y.toFloat

/-- The numeric order; a NaN stands in no relation. -/
def compare? (x y : Double) : Option Ordering :=
  if x.toFloat < y.toFloat then some .lt
  else if x.toFloat == y.toFloat then some .eq
  else if y.toFloat < x.toFloat then some .gt
  else none

def ofInt64 (n : Int64) : Double := ofFloat n.toFloat

end Double
end MobileCode
