import MethodIR.Error.Basic

/-!
# Bit sets

A set of natural numbers below a capacity, one bit for each, in words of 64. Walking through the
set skips words without a bit.
-/

namespace MethodIR

/-- A set of numbers below `capacity`. -/
structure BitSet where
  words : Array UInt64
  capacity : Nat
  deriving DecidableEq, Repr, Inhabited

namespace BitSet

/-- The empty set with room for the numbers below `capacity`. -/
def empty (capacity : Nat) : BitSet := ⟨Array.replicate ((capacity + 63) / 64) 0, capacity⟩

def mask (i : Nat) : UInt64 := 1 <<< (i % 64).toUInt64

def contains (s : BitSet) (i : Nat) : Bool :=
  i < s.capacity && s.words.getD (i / 64) 0 &&& mask i != 0

def insert (s : BitSet) (i : Nat) : BitSet :=
  if i < s.capacity then { s with words := s.words.modify (i / 64) (· ||| mask i) } else s

/-- Adds a number below the capacity and tells whether it is new. -/
def insertNew (s : BitSet) (i : Nat) : Except Error (Bool × BitSet) :=
  if i < s.capacity then .ok (!s.contains i, s.insert i) else .error .outOfRange

def clear (s : BitSet) : BitSet := { s with words := s.words.map fun _ => 0 }

def isEmpty (s : BitSet) : Bool := s.words.all (· == 0)

/-- The lowest bit of a word that is set and not below `low`. -/
def lowestBit? (w : UInt64) (low : Nat) : Option Nat :=
  if w = 0 then none
  else (List.range 64).find? fun k => low ≤ k && w &&& mask k != 0

def nextFromWord (s : BitSet) (n : Nat) : Option Nat :=
  if h : n < s.words.size then
    match lowestBit? s.words[n] 0 with
    | some k => some (64 * n + k)
    | none => s.nextFromWord (n + 1)
  else none
termination_by s.words.size - n

def next? (s : BitSet) (low : Nat) : Option Nat :=
  if low < s.capacity then
    let found :=
      match lowestBit? (s.words.getD (low / 64) 0) (low % 64) with
      | some k => some (64 * (low / 64) + k)
      | none => s.nextFromWord (low / 64 + 1)
    found.filter (· < s.capacity)
  else none

theorem lowestBit?_ge {w : UInt64} {low k : Nat} (h : lowestBit? w low = some k) : low ≤ k := by
  unfold lowestBit? at h
  split at h
  · simp at h
  · have := List.find?_some h
    simp at this
    exact this.1

theorem nextFromWord_ge {s : BitSet} {n i : Nat} (h : s.nextFromWord n = some i) : 64 * n ≤ i := by
  fun_induction nextFromWord s n with
  | case1 n hn k hk => simp at h; omega
  | case2 n hn hk ih => have := ih h; omega
  | case3 => simp at h

theorem next?_ge {s : BitSet} {low i : Nat} (h : s.next? low = some i) : low ≤ i := by
  unfold next? at h
  split at h
  · simp only [Option.filter_eq_some_iff] at h
    obtain ⟨h, -⟩ := h
    split at h
    · rename_i k hk
      have := lowestBit?_ge hk
      simp at h
      omega
    · have := nextFromWord_ge h
      omega
  · simp at h

theorem next?_lt_capacity {s : BitSet} {low i : Nat} (h : s.next? low = some i) :
    i < s.capacity := by
  unfold next? at h
  split at h
  · simp only [Option.filter_eq_some_iff] at h
    simpa using h.2
  · simp at h

/-- The members that are not below `low`, in ascending order. -/
def toListFrom (s : BitSet) (low : Nat) : List Nat :=
  match h : s.next? low with
  | none => []
  | some i => i :: s.toListFrom (i + 1)
termination_by s.capacity - low
decreasing_by
  have := next?_ge h
  have := next?_lt_capacity h
  omega

def toList (s : BitSet) : List Nat := s.toListFrom 0

def text (s : BitSet) : String :=
  "\x7b" ++ ", ".intercalate (s.toList.map toString) ++ "\x7d"

end BitSet

end MethodIR
