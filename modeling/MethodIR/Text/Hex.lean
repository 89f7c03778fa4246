/-!
# Hexadecimal numerals

Lower-case digits, filled with zeros on the left up to a least width.
-/

namespace MethodIR.Text

/-- The hexadecimal numeral of `n`, at least `width` digits long. -/
def hex (width n : Nat) : String :=
  let digits := Nat.toDigits 16 n
  String.ofList (List.replicate (width - digits.length) '0' ++ digits)

def offset (n : Nat) : String := "IL_" ++ hex 4 n

end MethodIR.Text
