/-!
# Opcodes

The instruction set of the bytecode. An opcode has a one or two byte code, a mnemonic, a form of
operand that follows it and a way in which it passes control on.
-/

namespace MethodIR

/-- The form of the operand that follows an opcode. -/
inductive OperandForm where
  | none | i8 | i32 | i64 | r32 | r64 | var8 | var16 | target8 | target32 | table
  | method | field | type | token | string | sig
  deriving DecidableEq, Repr, Inhabited

namespace OperandForm

def name : OperandForm → String
  | none => "InlineNone" | i8 => "ShortInlineI" | i32 => "InlineI" | i64 => "InlineI8"
  | r32 => "ShortInlineR" | r64 => "InlineR" | var8 => "ShortInlineVar" | var16 => "InlineVar"
  | target8 => "ShortInlineBrTarget" | target32 => "InlineBrTarget" | table => "InlineSwitch"
  | method => "InlineMethod" | field => "InlineField" | type => "InlineType"
  | token => "InlineTok" | string => "InlineString" | sig => "InlineSig"

/-- Encoded size in bytes; of a jump table only its length field. -/
def size : OperandForm → Nat
  | none => 0
  | i8 | var8 | target8 => 1
  | var16 => 2
  | i64 | r64 => 8
  | i32 | r32 | target32 | table | method | field | type | token | string | sig => 4

end OperandForm

/-- How an instruction passes control on. -/
inductive Flow where
  | sequential | conditionalBranch | unconditionalBranch | call | return | switch | throw
  | endFinally | leave | modifier
  deriving DecidableEq, Repr, Inhabited

def Flow.name : Flow → String
  | .sequential => "Sequential" | .conditionalBranch => "ConditionalBranch"
  | .unconditionalBranch => "UnconditionalBranch" | .call => "Call" | .return => "Return"
  | .switch => "Switch" | .throw => "Throw" | .endFinally => "EndFinally" | .leave => "Leave"
  | .modifier => "Prefix"

/-- An operation of the bytecode. -/
inductive Opcode where
  | nop | breakpoint | ldarg0 | ldarg1 | ldarg2 | ldarg3 | ldloc0 | ldloc1 | ldloc2 | ldloc3
  | stloc0 | stloc1 | stloc2 | stloc3 | ldargS | ldargaS | stargS | ldlocS | ldlocaS | stlocS
  | ldnull | ldcI4M1 | ldcI40 | ldcI41 | ldcI42 | ldcI43 | ldcI44 | ldcI45 | ldcI46 | ldcI47
  | ldcI48 | ldcI4S | ldcI4 | ldcI8 | ldcR4 | ldcR8 | dup | pop | jmp | call | calli | ret | brS
  | brfalseS | brtrueS | beqS | bgeS | bgtS | bleS | bltS | bneUnS | bgeUnS | bgtUnS | bleUnS
  | bltUnS | br | brfalse | brtrue | beq | bge | bgt | ble | blt | bneUn | bgeUn | bgtUn | bleUn
  | bltUn | switch | ldindI1 | ldindU1 | ldindI2 | ldindU2 | ldindI4 | ldindU4 | ldindI8
  | ldindI | ldindR4 | ldindR8 | ldindRef | stindRef | stindI1 | stindI2 | stindI4 | stindI8
  | stindR4 | stindR8 | add | sub | mul | div | divUn | rem | remUn | and | or | xor | shl | shr
  | shrUn | neg | not | convI1 | convI2 | convI4 | convI8 | convR4 | convR8 | convU4 | convU8
  | callvirt | cpobj | ldobj | ldstr | newobj | castclass | isinst | convRUn | unbox | throw
  | ldfld | ldflda | stfld | ldsfld | ldsflda | stsfld | stobj | convOvfI1Un | convOvfI2Un
  | convOvfI4Un | convOvfI8Un | convOvfU1Un | convOvfU2Un | convOvfU4Un | convOvfU8Un
  | convOvfIUn | convOvfUUn | box | newarr | ldlen | ldelema | ldelemI1 | ldelemU1 | ldelemI2
  | ldelemU2 | ldelemI4 | ldelemU4 | ldelemI8 | ldelemI | ldelemR4 | ldelemR8 | ldelemRef
  | stelemI | stelemI1 | stelemI2 | stelemI4 | stelemI8 | stelemR4 | stelemR8 | stelemRef
  | ldelem | stelem | unboxAny | convOvfI1 | convOvfU1 | convOvfI2 | convOvfU2 | convOvfI4
  | convOvfU4 | convOvfI8 | convOvfU8 | refanyval | ckfinite | mkrefany | ldtoken | convU2
  | convU1 | convI | convOvfI | convOvfU | addOvf | addOvfUn | mulOvf | mulOvfUn | subOvf
  | subOvfUn | endfinally | leave | leaveS | stindI | convU | arglist | ceq | cgt | cgtUn | clt
  | cltUn | ldftn | ldvirtftn | ldarg | ldarga | starg | ldloc | ldloca | stloc | localloc
  | endfilter | unaligned | volatile | tail | initobj | constrained | cpblk | initblk | rethrow
  | sizeof | refanytype | readonly
  deriving DecidableEq, Repr, Inhabited

namespace Opcode

/-- How an opcode is written: its code, its mnemonic and the form of its operand. -/
structure Encoding where
  code : Nat
  mnemonic : String
  operand : OperandForm

def encoding : Opcode → Encoding
  | nop => ⟨0x00, "nop", .none⟩
  | breakpoint => ⟨0x01, "break", .none⟩
  | ldarg0 => ⟨0x02, "ldarg.0", .none⟩
  | ldarg1 => ⟨0x03, "ldarg.1", .none⟩
  | ldarg2 => ⟨0x04, "ldarg.2", .none⟩
  | ldarg3 => ⟨0x05, "ldarg.3", .none⟩
  | ldloc0 => ⟨0x06, "ldloc.0", .none⟩
  | ldloc1 => ⟨0x07, "ldloc.1", .none⟩
  | ldloc2 => ⟨0x08, "ldloc.2", .none⟩
  | ldloc3 => ⟨0x09, "ldloc.3", .none⟩
  | stloc0 => ⟨0x0A, "stloc.0", .none⟩
  | stloc1 => ⟨0x0B, "stloc.1", .none⟩
  | stloc2 => ⟨0x0C, "stloc.2", .none⟩
  | stloc3 => ⟨0x0D, "stloc.3", .none⟩
  | ldargS => ⟨0x0E, "ldarg.s", .var8⟩
  | ldargaS => ⟨0x0F, "ldarga.s", .var8⟩
  | stargS => ⟨0x10, "starg.s", .var8⟩
  | ldlocS => ⟨0x11, "ldloc.s", .var8⟩
  | ldlocaS => ⟨0x12, "ldloca.s", .var8⟩
  | stlocS => ⟨0x13, "stloc.s", .var8⟩
  | ldnull => ⟨0x14, "ldnull", .none⟩
  | ldcI4M1 => ⟨0x15, "ldc.i4.m1", .none⟩
  | ldcI40 => ⟨0x16, "ldc.i4.0", .none⟩
  | ldcI41 => ⟨0x17, "ldc.i4.1", .none⟩
  | ldcI42 => ⟨0x18, "ldc.i4.2", .none⟩
  | ldcI43 => ⟨0x19, "ldc.i4.3", .none⟩
  | ldcI44 => ⟨0x1A, "ldc.i4.4", .none⟩
  | ldcI45 => ⟨0x1B, "ldc.i4.5", .none⟩
  | ldcI46 => ⟨0x1C, "ldc.i4.6", .none⟩
  | ldcI47 => ⟨0x1D, "ldc.i4.7", .none⟩
  | ldcI48 => ⟨0x1E, "ldc.i4.8", .none⟩
  | ldcI4S => ⟨0x1F, "ldc.i4.s", .i8⟩
  | ldcI4 => ⟨0x20, "ldc.i4", .i32⟩
  | ldcI8 => ⟨0x21, "ldc.i8", .i64⟩
  | ldcR4 => ⟨0x22, "ldc.r4", .r32⟩
  | ldcR8 => ⟨0x23, "ldc.r8", .r64⟩
  | dup => ⟨0x25, "dup", .none⟩
  | pop => ⟨0x26, "pop", .none⟩
  | jmp => ⟨0x27, "jmp", .method⟩
  | call => ⟨0x28, "call", .method⟩
  | calli => ⟨0x29, "calli", .sig⟩
  | ret => ⟨0x2A, "ret", .none⟩
  | brS => ⟨0x2B, "br.s", .target8⟩
  | brfalseS => ⟨0x2C, "brfalse.s", .target8⟩
  | brtrueS => ⟨0x2D, "brtrue.s", .target8⟩
  | beqS => ⟨0x2E, "beq.s", .target8⟩
  | bgeS => ⟨0x2F, "bge.s", .target8⟩
  | bgtS => ⟨0x30, "bgt.s", .target8⟩
  | bleS => ⟨0x31, "ble.s", .target8⟩
  | bltS => ⟨0x32, "blt.s", .target8⟩
  | bneUnS => ⟨0x33, "bne.un.s", .target8⟩
  | bgeUnS => ⟨0x34, "bge.un.s", .target8⟩
  | bgtUnS => ⟨0x35, "bgt.un.s", .target8⟩
  | bleUnS => ⟨0x36, "ble.un.s", .target8⟩
  | bltUnS => ⟨0x37, "blt.un.s", .target8⟩
  | br => ⟨0x38, "br", .target32⟩
  | brfalse => ⟨0x39, "brfalse", .target32⟩
  | brtrue => ⟨0x3A, "brtrue", .target32⟩
  | beq => ⟨0x3B, "beq", .target32⟩
  | bge => ⟨0x3C, "bge", .target32⟩
  | bgt => ⟨0x3D, "bgt", .target32⟩
  | ble => ⟨0x3E, "ble", .target32⟩
  | blt => ⟨0x3F, "blt", .target32⟩
  | bneUn => ⟨0x40, "bne.un", .target32⟩
  | bgeUn => ⟨0x41, "bge.un", .target32⟩
  | bgtUn => ⟨0x42, "bgt.un", .target32⟩
  | bleUn => ⟨0x43, "ble.un", .target32⟩
  | bltUn => ⟨0x44, "blt.un", .target32⟩
  | switch => ⟨0x45, "switch", .table⟩
  | ldindI1 => ⟨0x46, "ldind.i1", .none⟩
  | ldindU1 => ⟨0x47, "ldind.u1", .none⟩
  | ldindI2 => ⟨0x48, "ldind.i2", .none⟩
  | ldindU2 => ⟨0x49, "ldind.u2", .none⟩
  | ldindI4 => ⟨0x4A, "ldind.i4", .none⟩
  | ldindU4 => ⟨0x4B, "ldind.u4", .none⟩
  | ldindI8 => ⟨0x4C, "ldind.i8", .none⟩
  | ldindI => ⟨0x4D, "ldind.i", .none⟩
  | ldindR4 => ⟨0x4E, "ldind.r4", .none⟩
  | ldindR8 => ⟨0x4F, "ldind.r8", .none⟩
  | ldindRef => ⟨0x50, "ldind.ref", .none⟩
  | stindRef => ⟨0x51, "stind.ref", .none⟩
  | stindI1 => ⟨0x52, "stind.i1", .none⟩
  | stindI2 => ⟨0x53, "stind.i2", .none⟩
  | stindI4 => ⟨0x54, "stind.i4", .none⟩
  | stindI8 => ⟨0x55, "stind.i8", .none⟩
  | stindR4 => ⟨0x56, "stind.r4", .none⟩
  | stindR8 => ⟨0x57, "stind.r8", .none⟩
  | add => ⟨0x58, "add", .none⟩
  | sub => ⟨0x59, "sub", .none⟩
  | mul => ⟨0x5A, "mul", .none⟩
  | div => ⟨0x5B, "div", .none⟩
  | divUn => ⟨0x5C, "div.un", .none⟩
  | rem => ⟨0x5D, "rem", .none⟩
  | remUn => ⟨0x5E, "rem.un", .none⟩
  | and => ⟨0x5F, "and", .none⟩
  | or => ⟨0x60, "or", .none⟩
  | xor => ⟨0x61, "xor", .none⟩
  | shl => ⟨0x62, "shl", .none⟩
  | shr => ⟨0x63, "shr", .none⟩
  | shrUn => ⟨0x64, "shr.un", .none⟩
  | neg => ⟨0x65, "neg", .none⟩
  | not => ⟨0x66, "not", .none⟩
  | convI1 => ⟨0x67, "conv.i1", .none⟩
  | convI2 => ⟨0x68, "conv.i2", .none⟩
  | convI4 => ⟨0x69, "conv.i4", .none⟩
  | convI8 => ⟨0x6A, "conv.i8", .none⟩
  | convR4 => ⟨0x6B, "conv.r4", .none⟩
  | convR8 => ⟨0x6C, "conv.r8", .none⟩
  | convU4 => ⟨0x6D, "conv.u4", .none⟩
  | convU8 => ⟨0x6E, "conv.u8", .none⟩
  | callvirt => ⟨0x6F, "callvirt", .method⟩
  | cpobj => ⟨0x70, "cpobj", .type⟩
  | ldobj => ⟨0x71, "ldobj", .type⟩
  | ldstr => ⟨0x72, "ldstr", .string⟩
  | newobj => ⟨0x73, "newobj", .method⟩
  | castclass => ⟨0x74, "castclass", .type⟩
  | isinst => ⟨0x75, "isinst", .type⟩
  | convRUn => ⟨0x76, "conv.r.un", .none⟩
  | unbox => ⟨0x79, "unbox", .type⟩
  | throw => ⟨0x7A, "throw", .none⟩
  | ldfld => ⟨0x7B, "ldfld", .field⟩
  | ldflda => ⟨0x7C, "ldflda", .field⟩
  | stfld => ⟨0x7D, "stfld", .field⟩
  | ldsfld => ⟨0x7E, "ldsfld", .field⟩
  | ldsflda => ⟨0x7F, "ldsflda", .field⟩
  | stsfld => ⟨0x80, "stsfld", .field⟩
  | stobj => ⟨0x81, "stobj", .type⟩
  | convOvfI1Un => ⟨0x82, "conv.ovf.i1.un", .none⟩
  | convOvfI2Un => ⟨0x83, "conv.ovf.i2.un", .none⟩
  | convOvfI4Un => ⟨0x84, "conv.ovf.i4.un", .none⟩
  | convOvfI8Un => ⟨0x85, "conv.ovf.i8.un", .none⟩
  | convOvfU1Un => ⟨0x86, "conv.ovf.u1.un", .none⟩
  | convOvfU2Un => ⟨0x87, "conv.ovf.u2.un", .none⟩
  | convOvfU4Un => ⟨0x88, "conv.ovf.u4.un", .none⟩
  | convOvfU8Un => ⟨0x89, "conv.ovf.u8.un", .none⟩
  | convOvfIUn => ⟨0x8A, "conv.ovf.i.un", .none⟩
  | convOvfUUn => ⟨0x8B, "conv.ovf.u.un", .none⟩
  | box => ⟨0x8C, "box", .type⟩
  | newarr => ⟨0x8D, "newarr", .type⟩
  | ldlen => ⟨0x8E, "ldlen", .none⟩
  | ldelema => ⟨0x8F, "ldelema", .type⟩
  | ldelemI1 => ⟨0x90, "ldelem.i1", .none⟩
  | ldelemU1 => ⟨0x91, "ldelem.u1", .none⟩
  | ldelemI2 => ⟨0x92, "ldelem.i2", .none⟩
  | ldelemU2 => ⟨0x93, "ldelem.u2", .none⟩
  | ldelemI4 => ⟨0x94, "ldelem.i4", .none⟩
  | ldelemU4 => ⟨0x95, "ldelem.u4", .none⟩
  | ldelemI8 => ⟨0x96, "ldelem.i8", .none⟩
  | ldelemI => ⟨0x97, "ldelem.i", .none⟩
  | ldelemR4 => ⟨0x98, "ldelem.r4", .none⟩
  | ldelemR8 => ⟨0x99, "ldelem.r8", .none⟩
  | ldelemRef => ⟨0x9A, "ldelem.ref", .none⟩
  | stelemI => ⟨0x9B, "stelem.i", .none⟩
  | stelemI1 => ⟨0x9C, "stelem.i1", .none⟩
  | stelemI2 => ⟨0x9D, "stelem.i2", .none⟩
  | stelemI4 => ⟨0x9E, "stelem.i4", .none⟩
  | stelemI8 => ⟨0x9F, "stelem.i8", .none⟩
  | stelemR4 => ⟨0xA0, "stelem.r4", .none⟩
  | stelemR8 => ⟨0xA1, "stelem.r8", .none⟩
  | stelemRef => ⟨0xA2, "stelem.ref", .none⟩
  | ldelem => ⟨0xA3, "ldelem", .type⟩
  | stelem => ⟨0xA4, "stelem", .type⟩
  | unboxAny => ⟨0xA5, "unbox.any", .type⟩
  | convOvfI1 => ⟨0xB3, "conv.ovf.i1", .none⟩
  | convOvfU1 => ⟨0xB4, "conv.ovf.u1", .none⟩
  | convOvfI2 => ⟨0xB5, "conv.ovf.i2", .none⟩
  | convOvfU2 => ⟨0xB6, "conv.ovf.u2", .none⟩
  | convOvfI4 => ⟨0xB7, "conv.ovf.i4", .none⟩
  | convOvfU4 => ⟨0xB8, "conv.ovf.u4", .none⟩
  | convOvfI8 => ⟨0xB9, "conv.ovf.i8", .none⟩
  | convOvfU8 => ⟨0xBA, "conv.ovf.u8", .none⟩
  | refanyval => ⟨0xC2, "refanyval", .type⟩
  | ckfinite => ⟨0xC3, "ckfinite", .none⟩
  | mkrefany => ⟨0xC6, "mkrefany", .type⟩
  | ldtoken => ⟨0xD0, "ldtoken", .token⟩
  | convU2 => ⟨0xD1, "conv.u2", .none⟩
  | convU1 => ⟨0xD2, "conv.u1", .none⟩
  | convI => ⟨0xD3, "conv.i", .none⟩
  | convOvfI => ⟨0xD4, "conv.ovf.i", .none⟩
  | convOvfU => ⟨0xD5, "conv.ovf.u", .none⟩
  | addOvf => ⟨0xD6, "add.ovf", .none⟩
  | addOvfUn => ⟨0xD7, "add.ovf.un", .none⟩
  | mulOvf => ⟨0xD8, "mul.ovf", .none⟩
  | mulOvfUn => ⟨0xD9, "mul.ovf.un", .none⟩
  | subOvf => ⟨0xDA, "sub.ovf", .none⟩
  | subOvfUn => ⟨0xDB, "sub.ovf.un", .none⟩
  | endfinally => ⟨0xDC, "endfinally", .none⟩
  | leave => ⟨0xDD, "leave", .target32⟩
  | leaveS => ⟨0xDE, "leave.s", .target8⟩
  | stindI => ⟨0xDF, "stind.i", .none⟩
  | convU => ⟨0xE0, "conv.u", .none⟩
  | arglist => ⟨0xFE00, "arglist", .none⟩
  | ceq => ⟨0xFE01, "ceq", .none⟩
  | cgt => ⟨0xFE02, "cgt", .none⟩
  | cgtUn => ⟨0xFE03, "cgt.un", .none⟩
  | clt => ⟨0xFE04, "clt", .none⟩
  | cltUn => ⟨0xFE05, "clt.un", .none⟩
  | ldftn => ⟨0xFE06, "ldftn", .method⟩
  | ldvirtftn => ⟨0xFE07, "ldvirtftn", .method⟩
  | ldarg => ⟨0xFE09, "ldarg", .var16⟩
  | ldarga => ⟨0xFE0A, "ldarga", .var16⟩
  | starg => ⟨0xFE0B, "starg", .var16⟩
  | ldloc => ⟨0xFE0C, "ldloc", .var16⟩
  | ldloca => ⟨0xFE0D, "ldloca", .var16⟩
  | stloc => ⟨0xFE0E, "stloc", .var16⟩
  | localloc => ⟨0xFE0F, "localloc", .none⟩
  | endfilter => ⟨0xFE11, "endfilter", .none⟩
  | unaligned => ⟨0xFE12, "unaligned.", .i8⟩
  | volatile => ⟨0xFE13, "volatile.", .none⟩
  | tail => ⟨0xFE14, "tail.", .none⟩
  | initobj => ⟨0xFE15, "initobj", .type⟩
  | constrained => ⟨0xFE16, "constrained.", .type⟩
  | cpblk => ⟨0xFE17, "cpblk", .none⟩
  | initblk => ⟨0xFE18, "initblk", .none⟩
  | rethrow => ⟨0xFE1A, "rethrow", .none⟩
  | sizeof => ⟨0xFE1C, "sizeof", .type⟩
  | refanytype => ⟨0xFE1D, "refanytype", .none⟩
  | readonly => ⟨0xFE1E, "readonly.", .none⟩

def all : List Opcode :=
  [nop, breakpoint, ldarg0, ldarg1, ldarg2, ldarg3, ldloc0, ldloc1, ldloc2, ldloc3, stloc0,
   stloc1, stloc2, stloc3, ldargS, ldargaS, stargS, ldlocS, ldlocaS, stlocS, ldnull, ldcI4M1,
   ldcI40, ldcI41, ldcI42, ldcI43, ldcI44, ldcI45, ldcI46, ldcI47, ldcI48, ldcI4S, ldcI4, ldcI8,
   ldcR4, ldcR8, dup, pop, jmp, call, calli, ret, brS, brfalseS, brtrueS, beqS, bgeS, bgtS, bleS,
   bltS, bneUnS, bgeUnS, bgtUnS, bleUnS, bltUnS, br, brfalse, brtrue, beq, bge, bgt, ble, blt,
   bneUn, bgeUn, bgtUn, bleUn, bltUn, switch, ldindI1, ldindU1, ldindI2, ldindU2, ldindI4,
   ldindU4, ldindI8, ldindI, ldindR4, ldindR8, ldindRef, stindRef, stindI1, stindI2, stindI4,
   stindI8, stindR4, stindR8, add, sub, mul, div, divUn, rem, remUn, and, or, xor, shl, shr,
   shrUn, neg, not, convI1, convI2, convI4, convI8, convR4, convR8, convU4, convU8, callvirt,
   cpobj, ldobj, ldstr, newobj, castclass, isinst, convRUn, unbox, throw, ldfld, ldflda, stfld,
   ldsfld, ldsflda, stsfld, stobj, convOvfI1Un, convOvfI2Un, convOvfI4Un, convOvfI8Un,
   convOvfU1Un, convOvfU2Un, convOvfU4Un, convOvfU8Un, convOvfIUn, convOvfUUn, box, newarr, ldlen,
   ldelema, ldelemI1, ldelemU1, ldelemI2, ldelemU2, ldelemI4, ldelemU4, ldelemI8, ldelemI,
   ldelemR4, ldelemR8, ldelemRef, stelemI, stelemI1, stelemI2, stelemI4, stelemI8, stelemR4,
   stelemR8, stelemRef, ldelem, stelem, unboxAny, convOvfI1, convOvfU1, convOvfI2, convOvfU2,
   convOvfI4, convOvfU4, convOvfI8, convOvfU8, refanyval, ckfinite, mkrefany, ldtoken, convU2,
   convU1, convI, convOvfI, convOvfU, addOvf, addOvfUn, mulOvf, mulOvfUn, subOvf, subOvfUn,
   endfinally, leave, leaveS, stindI, convU, arglist, ceq, cgt, cgtUn, clt, cltUn, ldftn,
   ldvirtftn, ldarg, ldarga, starg, ldloc, ldloca, stloc, localloc, endfilter, unaligned,
   volatile, tail, initobj, constrained, cpblk, initblk, rethrow, sizeof, refanytype, readonly]

def code (op : Opcode) : Nat := op.encoding.code

def mnemonic (op : Opcode) : String := op.encoding.mnemonic

def operandForm (op : Opcode) : OperandForm := op.encoding.operand

def ofCode? (code : Nat) : Option Opcode := all.find? fun op => op.code == code

def ofMnemonic? (s : String) : Option Opcode := all.find? fun op => op.mnemonic == s

/-- The mnemonic as one word: the parts between its points, each with a capital. -/
def name (op : Opcode) : String :=
  String.join ((op.mnemonic.splitOn ".").map String.capitalize)

def size (op : Opcode) : Nat := if 0xFF < op.code then 2 else 1

def flow : Opcode → Flow
  | br | brS => .unconditionalBranch
  | brfalse | brfalseS | brtrue | brtrueS | beq | beqS | bge | bgeS | bgt | bgtS | ble | bleS
  | blt | bltS | bneUn | bneUnS | bgeUn | bgeUnS | bgtUn | bgtUnS | bleUn | bleUnS
  | bltUn | bltUnS => .conditionalBranch
  | switch => .switch
  | call | callvirt | calli | newobj | jmp => .call
  | ret => .return
  | throw | rethrow => .throw
  | endfinally | endfilter => .endFinally
  | leave | leaveS => .leave
  | unaligned | volatile | tail | constrained | readonly => .modifier
  | _ => .sequential

def isTerminator (op : Opcode) : Bool :=
  match op.flow with
  | .unconditionalBranch | .return | .throw | .endFinally | .leave => true
  | _ => op == jmp

def endsBlock (op : Opcode) : Bool :=
  op.isTerminator || op.flow == .conditionalBranch || op.flow == .switch

end Opcode

end MethodIR
