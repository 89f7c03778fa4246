import MethodIR.Ident

/-!
# Layout of blocks

The blocks of a body stand in a row. As long as only blocks in the row are named, `order` is the
whole layout and `tail` its last block. A block that was taken out can still be named as the place
for another one; what is placed there is joined to it and not to the row. Such runs of blocks, and
rings that come of placing a block after itself, are kept aside with their links.
-/

namespace MethodIR

/-- The row of blocks, and the runs and rings that are not part of it. -/
structure Layout where
  order : List BlockId := []
  /-- The block after which a block without a place is put. -/
  tail : Option BlockId := none
  stray : List (List BlockId) := []
  rings : List (List BlockId) := []
  deriving DecidableEq, Repr, Inhabited

namespace Layout

def nextIn (b : BlockId) : List BlockId → Option BlockId
  | x :: y :: rest => if x = b then some y else nextIn b (y :: rest)
  | _ => none

def prevIn (b : BlockId) (run : List BlockId) : Option BlockId := nextIn b run.reverse

def putAfter (a b : BlockId) : List BlockId → List BlockId
  | [] => []
  | x :: rest => if x = a then x :: b :: rest else x :: putAfter a b rest

def runs (l : Layout) : List (List BlockId) := l.order :: l.stray

def ring? (l : Layout) (b : BlockId) : Option (List BlockId) := l.rings.find? (b ∈ ·)

def next? (l : Layout) (b : BlockId) : Option BlockId :=
  match l.ring? b with
  | some ring => nextIn b (ring ++ ring.take 1)
  | none => l.runs.findSome? (nextIn b)

def prev? (l : Layout) (b : BlockId) : Option BlockId :=
  match l.ring? b with
  | some ring => prevIn b (ring.getLast?.toList ++ ring)
  | none => l.runs.findSome? (prevIn b)

def insertAfter (l : Layout) (a b : BlockId) : Layout :=
  if a = b then { l with rings := [b] :: l.rings, tail := some b }
  else if (l.ring? a).isSome then { l with rings := l.rings.map (putAfter a b) }
  else
    let stray := if l.runs.any (a ∈ ·) then l.stray else [a] :: l.stray
    { l with
      order := putAfter a b l.order
      stray := stray.map (putAfter a b)
      tail := if (l.next? a).isNone then some b else l.tail }

def append (l : Layout) (b : BlockId) : Layout :=
  match l.tail with
  | some t => l.insertAfter t b
  | none => { l with order := [b], tail := some b, stray := l.runs.filter (· ≠ []) }

/-- Takes a block out. When it has none before it, what follows it becomes the row. -/
def remove (l : Layout) (b : BlockId) : Layout :=
  if (l.ring? b).isSome then
    { l with rings := (l.rings.map (·.erase b)).filter (· ≠ []) }
  else
    let tail := if (l.next? b).isNone then l.prev? b else l.tail
    if (l.prev? b).isSome then
      { l with order := l.order.erase b, stray := l.stray.map (·.erase b), tail }
    else
      let (own, others) := l.runs.partition (·.head? = some b)
      { l with order := own.flatten.drop 1, stray := others.filter (· ≠ []), tail }

end Layout

end MethodIR
