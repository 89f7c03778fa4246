import MethodIR.Decimal.Shortest

/-!
# Decimal text of binary floating point numbers

A binary number is written by the shortest decimal that rounds to it. The interval of such decimals
reaches half way to the neighbours; its ends round to the number if its significand is even.
-/

namespace MethodIR.Decimal

/-- How the bits of a binary number are divided below the sign. -/
structure BinaryFormat where
  fractionBits : Nat
  exponentBits : Nat
  deriving Repr

namespace BinaryFormat

def single : BinaryFormat := ⟨23, 8⟩

def double : BinaryFormat := ⟨52, 11⟩

/-- The decimals that round to a positive number of fraction `fraction` and biased exponent
`biased`. Under a power of two the neighbour is only half as far. -/
def interval (f : BinaryFormat) (fraction biased : Nat) : Interval :=
  let significand := if biased = 0 then fraction else Nat.pow 2 f.fractionBits + fraction
  let bias := Nat.pow 2 (f.exponentBits - 1) - 1
  let e : Int := (if biased = 0 then 1 else biased) - Int.ofNat (bias + f.fractionBits + 2)
  let gapBelow := if fraction = 0 then 1 else 2
  let scale := Nat.pow 2 e.toNat
  { low := (4 * significand - gapBelow) * scale
    value := 4 * significand * scale
    high := (4 * significand + 2) * scale
    den := Nat.pow 2 (-e).toNat
    isClosed := significand % 2 == 0 }

/-- Digits that are enough for every number of the two formats. -/
def digitLimit : Nat := 17

def text (f : BinaryFormat) (bits : Nat) : String :=
  let fraction := bits % Nat.pow 2 f.fractionBits
  let biased := bits / Nat.pow 2 f.fractionBits % Nat.pow 2 f.exponentBits
  let sign := if bits / Nat.pow 2 (f.fractionBits + f.exponentBits) % 2 = 1 then "-" else ""
  if biased = Nat.pow 2 f.exponentBits - 1 then
    if fraction = 0 then sign ++ "inf" else "NaN"
  else if biased = 0 ∧ fraction = 0 then sign ++ "0"
  else sign ++ (((f.interval fraction biased).shortest? digitLimit).map Decimal.text).getD ""

end BinaryFormat

end MethodIR.Decimal
