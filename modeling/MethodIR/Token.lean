import MethodIR.Text.Hex

/-!
# Metadata tokens

A token is a 32-bit word: the high byte names a table, the low three bytes a row of it.
-/

namespace MethodIR

/-- A reference to a row of a metadata table. -/
structure Token where
  value : UInt32
  deriving DecidableEq, Repr, Inhabited

namespace Token

/-- The token of a row; of the row number only the low three bytes count. -/
def ofParts (table : UInt8) (row : UInt32) : Token :=
  ⟨(table.toUInt32 <<< 24) ||| (row &&& 0xFFFFFF)⟩

def table (t : Token) : UInt8 := (t.value >>> 24).toUInt8

def row (t : Token) : UInt32 := t.value &&& 0xFFFFFF

def isNull (t : Token) : Bool := t.value == 0

def text (t : Token) : String := "0x" ++ Text.hex 8 t.value.toNat

def partsText (t : Token) : String :=
  "Token(0x" ++ Text.hex 2 t.table.toNat ++ ":" ++ toString t.row.toNat ++ ")"

def tables : List (String × UInt8) :=
  [("TypeRef", 0x01), ("TypeDef", 0x02), ("Field", 0x04), ("MethodDef", 0x06),
   ("MemberRef", 0x0A), ("TypeSpec", 0x1B), ("MethodSpec", 0x2B)]

end Token

end MethodIR
