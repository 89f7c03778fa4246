/-!
# Linked forests

While dominators are computed, the numbers of blocks hang in a forest that grows from the leaves. A
number asks for the one of least semidominator on its way to the root. Asking shortens the way:
each number passed is hung nearer to the root and remembers the best one it has been asked for.
-/

namespace MethodIR.Dominance

/-- A forest over the numbers below its size. -/
structure Forest where
  /-- The number above, `none` for roots. It is always smaller. -/
  ancestor : Array (Option Nat)
  /-- The best number known on the way up. -/
  label : Array Nat
  /-- The semidominator, as far as it is known. -/
  semi : Array Nat
  deriving DecidableEq, Repr, Inhabited

namespace Forest

def ofSize (n : Nat) : Forest :=
  { ancestor := Array.replicate n none, label := Array.range n, semi := Array.range n }

def above? (f : Forest) (v : Nat) : Option Nat := f.ancestor.getD v none

def labelOf (f : Forest) (v : Nat) : Nat := f.label.getD v 0

def semiOf (f : Forest) (v : Nat) : Nat := f.semi.getD v 0

def path (f : Forest) (v : Nat) : List Nat :=
  match f.above? v with
  | some a => if a < v then if (f.above? a).isSome then v :: f.path a else [] else []
  | none => []
termination_by v

def shorten (f : Forest) (v : Nat) : Forest :=
  match f.above? v with
  | none => f
  | some a =>
    let label := if f.semiOf (f.labelOf a) < f.semiOf (f.labelOf v)
      then f.label.setIfInBounds v (f.labelOf a) else f.label
    { f with label, ancestor := f.ancestor.setIfInBounds v (f.above? a) }

def compress (f : Forest) (v : Nat) : Forest := (f.path v).reverse.foldl shorten f

/-- The number of least semidominator on the way up from `v`, the root left out; `v` if it is a
root. -/
def eval (f : Forest) (v : Nat) : Nat × Forest :=
  if (f.above? v).isNone then (v, f)
  else
    let f := f.compress v
    (f.labelOf v, f)

def link (f : Forest) (v parent : Nat) : Forest :=
  { f with ancestor := f.ancestor.setIfInBounds v (some parent) }

/-- Lowers the semidominator of `w` to that of the best number above `v`. -/
def relax (f : Forest) (w v : Nat) : Forest :=
  let (u, f) := f.eval v
  if f.semiOf u < f.semiOf w then { f with semi := f.semi.setIfInBounds w (f.semiOf u) } else f

end Forest

end MethodIR.Dominance
