import NativeBackend.Number.Binary

namespace NativeBackend

structure Decimal where
  digits : Nat
  exponent : Int
  deriving DecidableEq, Repr

namespace BinaryFormat

/-- Quarter units from the significand to the lower end of what rounds to the number. Below a power
of two the neighbour is half as far away. -/
def lowerQuarters (x : Fields) : Nat := if x.fraction = 0 ∧ 1 < x.exponent then 1 else 2

/-- Whether `c * 10 ^ k` rounds to the number `m * 2 ^ e`; the ends of the interval count for even
significands. -/
def readsBack (m : Nat) (e : Int) (lower : Nat) (c : Nat) (k : Int) : Bool :=
  let binary := (Nat.pow 10 (-k).toNat) <<< e.toNat
  let decimal := (Nat.pow 10 k.toNat) <<< (-e).toNat
  let point := 4 * c * decimal
  let least := (4 * m - lower) * binary
  let greatest := (4 * m + 2) * binary
  if m % 2 = 0 then least ≤ point && point ≤ greatest else least < point && point < greatest

def nearestOnGrid (m : Nat) (e : Int) (lower : Nat) (k : Int) : Option Nat :=
  let binary := (m * Nat.pow 10 (-k).toNat) <<< e.toNat
  let decimal := (Nat.pow 10 k.toNat) <<< (-e).toNat
  let down := binary / decimal
  let downFits := down != 0 && readsBack m e lower down k
  let upFits := readsBack m e lower (down + 1) k
  let nearerDown := 2 * (binary % decimal) < decimal
  if downFits && (nearerDown || !upFits) then some down else if upFits then some (down + 1) else none

def searchGrids (m : Nat) (e : Int) (lower : Nat) (k : Int) : Nat → Decimal
  | 0 => ⟨m, e⟩
  | steps + 1 =>
    match nearestOnGrid m e lower k with
    | some c => ⟨c, k⟩
    | none => searchGrids m e lower (k - 1) steps

/-- The decimal of fewest digits that reads back as a positive number, and of those the nearest. -/
def shortest (f : BinaryFormat) (x : Fields) : Decimal :=
  let (m, e) := f.significand x
  let top : Nat := 1 <<< f.exponentBits
  searchGrids m e (lowerQuarters x) top (2 * top + f.fractionBits)

end BinaryFormat

namespace Decimal

def leading (d : Decimal) : Int := d.exponent + ((Nat.toDigits 10 d.digits).length - 1 : Nat)

def positional (d : Decimal) : List Char :=
  let digits := Nat.toDigits 10 d.digits
  let whole := (digits.length : Int) + d.exponent
  if 0 ≤ d.exponent then digits ++ List.replicate d.exponent.toNat '0' ++ ['.', '0']
  else if 0 < whole then digits.take whole.toNat ++ '.' :: digits.drop whole.toNat
  else '0' :: '.' :: (List.replicate (-whole).toNat '0' ++ digits)

def scientific (d : Decimal) : List Char :=
  let exponent := 'e' :: (toString d.leading).toList
  match Nat.toDigits 10 d.digits with
  | [] => exponent
  | [digit] => digit :: exponent
  | digit :: rest => digit :: '.' :: (rest ++ exponent)

end Decimal

namespace BinaryFormat

/-- A number as an error text shows it: shortest digits, positional from `10 ^ -4` up to `10 ^ 16`. -/
def text (f : BinaryFormat) (bits : Nat) : String :=
  let x := f.fields bits
  let sign := if x.negative then ['-'] else []
  if x.exponent = f.topExponent then
    if x.fraction = 0 then String.ofList (sign ++ ['i', 'n', 'f']) else "NaN"
  else if x.exponent = 0 ∧ x.fraction = 0 then String.ofList (sign ++ ['0', '.', '0'])
  else
    let d := f.shortest x
    String.ofList (sign ++ if -4 ≤ d.leading ∧ d.leading < 16 then d.positional else d.scientific)

end BinaryFormat

end NativeBackend
