/-!
# Identifiers

Blocks, instructions, arguments and variables of a body are named by their index in the table that
holds them. The four kinds of index are different types, so that one is never taken for another. An
index has 32 bits.
-/

namespace MethodIR

/-- A basic block of a body. -/
@[ext]
structure BlockId where
  index : Nat
  deriving DecidableEq, Repr, Inhabited

/-- An instruction of a body. -/
@[ext]
structure InstId where
  index : Nat
  deriving DecidableEq, Repr, Inhabited

/-- An argument of a method. -/
@[ext]
structure ArgId where
  index : Nat
  deriving DecidableEq, Repr, Inhabited

/-- A variable of a body. -/
@[ext]
structure VarId where
  index : Nat
  deriving DecidableEq, Repr, Inhabited

def wordLimit : Nat := 4294967296

def BlockId.ofNat (n : Nat) : BlockId := ⟨n % wordLimit⟩

/-- The instruction of a number, of which the low 32 bits count. -/
def InstId.ofNat (n : Nat) : InstId := ⟨n % wordLimit⟩

/-- The argument of a number, of which the low 32 bits count. -/
def ArgId.ofNat (n : Nat) : ArgId := ⟨n % wordLimit⟩

/-- The variable of a number, of which the low 32 bits count. -/
def VarId.ofNat (n : Nat) : VarId := ⟨n % wordLimit⟩

def BlockId.text (b : BlockId) : String := "BB_" ++ toString b.index

def InstId.text (i : InstId) : String := "r" ++ toString i.index

def ArgId.text (a : ArgId) : String := "#arg" ++ toString a.index

def VarId.text (v : VarId) : String := "$v" ++ toString v.index

def BlockId.listText (bs : List BlockId) : String :=
  "[" ++ ", ".intercalate (bs.map BlockId.text) ++ "]"

end MethodIR
