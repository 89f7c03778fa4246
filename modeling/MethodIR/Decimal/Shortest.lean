/-!
# Shortest decimals

The decimal with the fewest digits in an interval around a positive number, and of those the one
nearest to the number; of two equally near the larger. All comparisons are exact, on natural
numbers over a common denominator.
-/

namespace MethodIR

/-- The number `digits * 10 ^ exponent`. -/
structure Decimal where
  digits : Nat
  exponent : Int
  deriving DecidableEq, Repr, Inhabited

namespace Decimal

/-- The number without exponent: zeros are filled in on either side, and a fraction ends in a digit
other than zero. -/
def text (d : Decimal) : String :=
  let digits := Nat.toDigits 10 d.digits
  match d.exponent with
  | .ofNat e => String.ofList (digits ++ List.replicate e '0')
  | .negSucc e =>
    let filled := List.replicate (e + 2 - digits.length) '0' ++ digits
    let whole := filled.take (filled.length - (e + 1))
    let fraction := (filled.drop (filled.length - (e + 1))).reverse.dropWhile (· == '0')
    if fraction.isEmpty then String.ofList whole
    else String.ofList (whole ++ '.' :: fraction.reverse)

/-- The numbers between `low / den` and `high / den`, around `value / den`; the ends belong to it if
it is closed. -/
structure Interval where
  low : Nat
  value : Nat
  high : Nat
  den : Nat
  isClosed : Bool
  deriving Repr

namespace Interval

def magnitude (i : Interval) : Int :=
  if i.den ≤ i.value then (Nat.toDigits 10 (i.value / i.den)).length - 1
  else -(Nat.toDigits 10 ((i.den - 1) / i.value)).length

/-- The decimal in the interval that has `n` digits from the leading one on and is nearest to the
value. It is enough to try the two neighbours of the value. -/
def nearest? (i : Interval) (n : Nat) : Option Decimal :=
  let e := i.magnitude + 1 - n
  let up := Nat.pow 10 (-e).toNat
  let unit := i.den * Nat.pow 10 e.toNat
  let below := i.value * up / unit
  let inside (d : Nat) : Bool :=
    if i.isClosed then i.low * up ≤ d * unit && d * unit ≤ i.high * up
    else i.low * up < d * unit && d * unit < i.high * up
  let nearer := if i.value * up - below * unit < (below + 1) * unit - i.value * up
    then below else below + 1
  match inside below, inside (below + 1) with
  | true, true => some ⟨nearer, e⟩
  | true, false => some ⟨below, e⟩
  | false, true => some ⟨below + 1, e⟩
  | false, false => none

/-- The shortest decimal of the interval, if one of at most `limit` digits lies in it. -/
def shortest? (i : Interval) (limit : Nat) : Option Decimal :=
  (List.range limit).findSome? fun n => i.nearest? (n + 1)

end Interval

end Decimal

end MethodIR
