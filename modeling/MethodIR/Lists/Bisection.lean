/-!
# Bisection

Search for a key in a table. The part that can hold the key is halved until one place is left, and
only that place is compared with the key; on an ascending table this finds the key if it is there.
-/

namespace MethodIR.Lists

/-- The place that is left of the `size` places from `base` on. -/
def bisectFrom (key : Nat → Nat) (target base : Nat) (size : Nat) : Nat :=
  if size ≤ 1 then base
  else
    let half := size / 2
    bisectFrom key target (if target < key (base + half) then base else base + half) (size - half)
termination_by size

def bisect? (key : Nat → Nat) (size target : Nat) : Option Nat :=
  if size = 0 then none
  else
    let place := bisectFrom key target 0 size
    if key place = target then some place else none

end MethodIR.Lists
