namespace NativeBackend

structure BinaryFormat where
  exponentBits : Nat
  fractionBits : Nat
  deriving DecidableEq, Repr

namespace BinaryFormat

def single : BinaryFormat := ⟨8, 23⟩

def double : BinaryFormat := ⟨11, 52⟩

def topExponent (f : BinaryFormat) : Nat := (1 <<< f.exponentBits) - 1

def leastUnit (f : BinaryFormat) : Int := 2 - (1 <<< (f.exponentBits - 1) : Nat) - f.fractionBits

structure Fields where
  negative : Bool
  exponent : Nat
  fraction : Nat
  deriving DecidableEq, Repr

def fields (f : BinaryFormat) (bits : Nat) : Fields where
  negative := (bits >>> (f.exponentBits + f.fractionBits)) % 2 = 1
  exponent := (bits >>> f.fractionBits) % (1 <<< f.exponentBits)
  fraction := bits % (1 <<< f.fractionBits)

def assemble (f : BinaryFormat) (negative : Bool) (magnitude : Nat) : Nat :=
  (if negative then 1 <<< (f.exponentBits + f.fractionBits) else 0) + magnitude

def significand (f : BinaryFormat) (x : Fields) : Nat × Int :=
  if x.exponent = 0 then (x.fraction, f.leastUnit)
  else (x.fraction + (1 <<< f.fractionBits), f.leastUnit + (x.exponent - 1))

/-- Divides by a power of two to the nearest whole number, a half to the even one. -/
def shiftToNearest (m shift : Nat) : Nat :=
  let unit := 1 <<< shift
  let down := m >>> shift
  let rest := 2 * (m % unit)
  if rest > unit ∨ rest = unit ∧ down % 2 = 1 then down + 1 else down

/-- The bits of the number of a format nearest to `m * 2 ^ e`; past the largest one, infinity. -/
def nearest (f : BinaryFormat) (m : Nat) (e : Int) : Nat :=
  let unit := max (e + m.log2 - f.fractionBits) f.leastUnit
  let scaled := if unit ≤ e then m <<< (e - unit).toNat else shiftToNearest m (unit - e).toNat
  min (((unit - f.leastUnit).toNat <<< f.fractionBits) + scaled) (f.topExponent <<< f.fractionBits)

/-- The fraction of a value that is not a number, at another width; the result is quiet. -/
def quietFraction (source target : BinaryFormat) (fraction : Nat) : Nat :=
  let moved := (fraction <<< target.fractionBits) >>> source.fractionBits
  let half := 1 <<< (target.fractionBits - 1)
  half + moved % half

def convert (source target : BinaryFormat) (bits : Nat) : Nat :=
  let x := source.fields bits
  target.assemble x.negative <|
    if x.exponent = source.topExponent then
      (target.topExponent <<< target.fractionBits) +
        if x.fraction = 0 then 0 else quietFraction source target x.fraction
    else
      let (m, e) := source.significand x
      if m = 0 then 0 else target.nearest m e

end BinaryFormat

def roundToSingle (bits : UInt64) : UInt64 :=
  .ofNat (BinaryFormat.single.convert .double (BinaryFormat.double.convert .single bits.toNat))

/-- The double equal to a number of single precision. -/
def widenSingle (bits : UInt32) : UInt64 := .ofNat (BinaryFormat.single.convert .double bits.toNat)

end NativeBackend
