/-!
# Ascending lists

Sets of numbers as lists in which each number is greater than the one before it.
-/

namespace MethodIR.Lists

def insertAscending (n : Nat) : List Nat → List Nat
  | [] => [n]
  | m :: ms =>
    if n < m then n :: m :: ms
    else if n = m then m :: ms
    else m :: insertAscending n ms

end MethodIR.Lists
