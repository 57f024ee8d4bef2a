import CilProfiler.Opcode.Behaviour

/-! # The opcodes

Identity of every opcode of the instruction set, in encoding order, and the row that describes
each one. A value above one byte is a two byte opcode: its high byte is the escape byte `0xFE`.
-/

namespace CilProfiler

inductive Opcode where
  | nop | breakpoint | ldarg0 | ldarg1 | ldarg2 | ldarg3 | ldloc0 | ldloc1 | ldloc2 | ldloc3
  | stloc0 | stloc1 | stloc2 | stloc3 | ldargS | ldargaS | stargS | ldlocS | ldlocaS | stlocS
  | ldnull | ldcI4M1 | ldcI40 | ldcI41 | ldcI42 | ldcI43 | ldcI44 | ldcI45 | ldcI46 | ldcI47
  | ldcI48 | ldcI4S | ldcI4 | ldcI8 | ldcR4 | ldcR8 | dup | pop | jmp | call | calli | ret
  | brS | brfalseS | brtrueS | beqS | bgeS | bgtS | bleS | bltS | bneUnS | bgeUnS | bgtUnS
  | bleUnS | bltUnS | br | brfalse | brtrue | beq | bge | bgt | ble | blt | bneUn | bgeUn
  | bgtUn | bleUn | bltUn | switch | ldindI1 | ldindU1 | ldindI2 | ldindU2 | ldindI4 | ldindU4
  | ldindI8 | ldindI | ldindR4 | ldindR8 | ldindRef | stindRef | stindI1 | stindI2 | stindI4
  | stindI8 | stindR4 | stindR8 | add | sub | mul | div | divUn | rem | remUn | and | or | xor
  | shl | shr | shrUn | neg | not | convI1 | convI2 | convI4 | convI8 | convR4 | convR8
  | convU4 | convU8 | callvirt | cpobj | ldobj | ldstr | newobj | castclass | isinst | convRUn
  | unbox | throwObject | ldfld | ldflda | stfld | ldsfld | ldsflda | stsfld | stobj
  | convOvfI1Un | convOvfI2Un | convOvfI4Un | convOvfI8Un | convOvfU1Un | convOvfU2Un
  | convOvfU4Un | convOvfU8Un | convOvfIUn | convOvfUUn | box | newarr | ldlen | ldelema
  | ldelemI1 | ldelemU1 | ldelemI2 | ldelemU2 | ldelemI4 | ldelemU4 | ldelemI8 | ldelemI
  | ldelemR4 | ldelemR8 | ldelemRef | stelemI | stelemI1 | stelemI2 | stelemI4 | stelemI8
  | stelemR4 | stelemR8 | stelemRef | ldelemAny | stelemAny | unboxAny | convOvfI1 | convOvfU1
  | convOvfI2 | convOvfU2 | convOvfI4 | convOvfU4 | convOvfI8 | convOvfU8 | refanyval
  | ckfinite | mkrefany | ldtoken | convU2 | convU1 | convI | convOvfI | convOvfU | addOvf
  | addOvfUn | mulOvf | mulOvfUn | subOvf | subOvfUn | endfinally | leave | leaveS | stindI
  | convU | arglist | ceq | cgt | cgtUn | clt | cltUn | ldftn | ldvirtftn | ldarg | ldarga
  | starg | ldloc | ldloca | stloc | localloc | endfilter | unaligned | volatile | tailCall
  | initobj | constrained | cpblk | initblk | noCheck | rethrow | sizeof | refanytype
  | readonly
  deriving Repr, DecidableEq

/-- What the instruction set's table says about one opcode. -/
structure OpcodeInfo where
  mnemonic : String
  /-- Encoded opcode, with the escape byte on top for the two byte ones. -/
  value : Nat
  operandType : OperandType
  flow : FlowControl
  pops : PopBehaviour
  pushes : PushBehaviour
  deriving Repr, DecidableEq

namespace Opcode

def info : Opcode → OpcodeInfo
  | .nop => ⟨"nop", 0x00, .inlineNone, .next, .pop0, .push0⟩
  | .breakpoint => ⟨"break", 0x01, .inlineNone, .breaks, .pop0, .push0⟩
  | .ldarg0 => ⟨"ldarg.0", 0x02, .inlineNone, .next, .pop0, .push1⟩
  | .ldarg1 => ⟨"ldarg.1", 0x03, .inlineNone, .next, .pop0, .push1⟩
  | .ldarg2 => ⟨"ldarg.2", 0x04, .inlineNone, .next, .pop0, .push1⟩
  | .ldarg3 => ⟨"ldarg.3", 0x05, .inlineNone, .next, .pop0, .push1⟩
  | .ldloc0 => ⟨"ldloc.0", 0x06, .inlineNone, .next, .pop0, .push1⟩
  | .ldloc1 => ⟨"ldloc.1", 0x07, .inlineNone, .next, .pop0, .push1⟩
  | .ldloc2 => ⟨"ldloc.2", 0x08, .inlineNone, .next, .pop0, .push1⟩
  | .ldloc3 => ⟨"ldloc.3", 0x09, .inlineNone, .next, .pop0, .push1⟩
  | .stloc0 => ⟨"stloc.0", 0x0A, .inlineNone, .next, .pop1, .push0⟩
  | .stloc1 => ⟨"stloc.1", 0x0B, .inlineNone, .next, .pop1, .push0⟩
  | .stloc2 => ⟨"stloc.2", 0x0C, .inlineNone, .next, .pop1, .push0⟩
  | .stloc3 => ⟨"stloc.3", 0x0D, .inlineNone, .next, .pop1, .push0⟩
  | .ldargS => ⟨"ldarg.s", 0x0E, .shortInlineArg, .next, .pop0, .push1⟩
  | .ldargaS => ⟨"ldarga.s", 0x0F, .shortInlineArg, .next, .pop0, .pushI⟩
  | .stargS => ⟨"starg.s", 0x10, .shortInlineArg, .next, .pop1, .push0⟩
  | .ldlocS => ⟨"ldloc.s", 0x11, .shortInlineVar, .next, .pop0, .push1⟩
  | .ldlocaS => ⟨"ldloca.s", 0x12, .shortInlineVar, .next, .pop0, .pushI⟩
  | .stlocS => ⟨"stloc.s", 0x13, .shortInlineVar, .next, .pop1, .push0⟩
  | .ldnull => ⟨"ldnull", 0x14, .inlineNone, .next, .pop0, .pushRef⟩
  | .ldcI4M1 => ⟨"ldc.i4.m1", 0x15, .inlineNone, .next, .pop0, .pushI⟩
  | .ldcI40 => ⟨"ldc.i4.0", 0x16, .inlineNone, .next, .pop0, .pushI⟩
  | .ldcI41 => ⟨"ldc.i4.1", 0x17, .inlineNone, .next, .pop0, .pushI⟩
  | .ldcI42 => ⟨"ldc.i4.2", 0x18, .inlineNone, .next, .pop0, .pushI⟩
  | .ldcI43 => ⟨"ldc.i4.3", 0x19, .inlineNone, .next, .pop0, .pushI⟩
  | .ldcI44 => ⟨"ldc.i4.4", 0x1A, .inlineNone, .next, .pop0, .pushI⟩
  | .ldcI45 => ⟨"ldc.i4.5", 0x1B, .inlineNone, .next, .pop0, .pushI⟩
  | .ldcI46 => ⟨"ldc.i4.6", 0x1C, .inlineNone, .next, .pop0, .pushI⟩
  | .ldcI47 => ⟨"ldc.i4.7", 0x1D, .inlineNone, .next, .pop0, .pushI⟩
  | .ldcI48 => ⟨"ldc.i4.8", 0x1E, .inlineNone, .next, .pop0, .pushI⟩
  | .ldcI4S => ⟨"ldc.i4.s", 0x1F, .shortInlineI, .next, .pop0, .pushI⟩
  | .ldcI4 => ⟨"ldc.i4", 0x20, .inlineI, .next, .pop0, .pushI⟩
  | .ldcI8 => ⟨"ldc.i8", 0x21, .inlineI8, .next, .pop0, .pushI8⟩
  | .ldcR4 => ⟨"ldc.r4", 0x22, .shortInlineR, .next, .pop0, .pushR4⟩
  | .ldcR8 => ⟨"ldc.r8", 0x23, .inlineR, .next, .pop0, .pushR8⟩
  | .dup => ⟨"dup", 0x25, .inlineNone, .next, .pop1, .push1Push1⟩
  | .pop => ⟨"pop", 0x26, .inlineNone, .next, .pop1, .push0⟩
  | .jmp => ⟨"jmp", 0x27, .inlineMethod, .call, .pop0, .push0⟩
  | .call => ⟨"call", 0x28, .inlineMethod, .call, .varPop, .varPush⟩
  | .calli => ⟨"calli", 0x29, .inlineSig, .call, .varPop, .varPush⟩
  | .ret => ⟨"ret", 0x2A, .inlineNone, .returns, .varPop, .push0⟩
  | .brS => ⟨"br.s", 0x2B, .shortInlineBrTarget, .branch, .pop0, .push0⟩
  | .brfalseS => ⟨"brfalse.s", 0x2C, .shortInlineBrTarget, .condBranch, .popI, .push0⟩
  | .brtrueS => ⟨"brtrue.s", 0x2D, .shortInlineBrTarget, .condBranch, .popI, .push0⟩
  | .beqS => ⟨"beq.s", 0x2E, .shortInlineBrTarget, .condBranch, .pop1Pop1, .push0⟩
  | .bgeS => ⟨"bge.s", 0x2F, .shortInlineBrTarget, .condBranch, .pop1Pop1, .push0⟩
  | .bgtS => ⟨"bgt.s", 0x30, .shortInlineBrTarget, .condBranch, .pop1Pop1, .push0⟩
  | .bleS => ⟨"ble.s", 0x31, .shortInlineBrTarget, .condBranch, .pop1Pop1, .push0⟩
  | .bltS => ⟨"blt.s", 0x32, .shortInlineBrTarget, .condBranch, .pop1Pop1, .push0⟩
  | .bneUnS => ⟨"bne.un.s", 0x33, .shortInlineBrTarget, .condBranch, .pop1Pop1, .push0⟩
  | .bgeUnS => ⟨"bge.un.s", 0x34, .shortInlineBrTarget, .condBranch, .pop1Pop1, .push0⟩
  | .bgtUnS => ⟨"bgt.un.s", 0x35, .shortInlineBrTarget, .condBranch, .pop1Pop1, .push0⟩
  | .bleUnS => ⟨"ble.un.s", 0x36, .shortInlineBrTarget, .condBranch, .pop1Pop1, .push0⟩
  | .bltUnS => ⟨"blt.un.s", 0x37, .shortInlineBrTarget, .condBranch, .pop1Pop1, .push0⟩
  | .br => ⟨"br", 0x38, .inlineBrTarget, .branch, .pop0, .push0⟩
  | .brfalse => ⟨"brfalse", 0x39, .inlineBrTarget, .condBranch, .popI, .push0⟩
  | .brtrue => ⟨"brtrue", 0x3A, .inlineBrTarget, .condBranch, .popI, .push0⟩
  | .beq => ⟨"beq", 0x3B, .inlineBrTarget, .condBranch, .pop1Pop1, .push0⟩
  | .bge => ⟨"bge", 0x3C, .inlineBrTarget, .condBranch, .pop1Pop1, .push0⟩
  | .bgt => ⟨"bgt", 0x3D, .inlineBrTarget, .condBranch, .pop1Pop1, .push0⟩
  | .ble => ⟨"ble", 0x3E, .inlineBrTarget, .condBranch, .pop1Pop1, .push0⟩
  | .blt => ⟨"blt", 0x3F, .inlineBrTarget, .condBranch, .pop1Pop1, .push0⟩
  | .bneUn => ⟨"bne.un", 0x40, .inlineBrTarget, .condBranch, .pop1Pop1, .push0⟩
  | .bgeUn => ⟨"bge.un", 0x41, .inlineBrTarget, .condBranch, .pop1Pop1, .push0⟩
  | .bgtUn => ⟨"bgt.un", 0x42, .inlineBrTarget, .condBranch, .pop1Pop1, .push0⟩
  | .bleUn => ⟨"ble.un", 0x43, .inlineBrTarget, .condBranch, .pop1Pop1, .push0⟩
  | .bltUn => ⟨"blt.un", 0x44, .inlineBrTarget, .condBranch, .pop1Pop1, .push0⟩
  | .switch => ⟨"switch", 0x45, .inlineSwitch, .condBranch, .popI, .push0⟩
  | .ldindI1 => ⟨"ldind.i1", 0x46, .inlineNone, .next, .popI, .pushI⟩
  | .ldindU1 => ⟨"ldind.u1", 0x47, .inlineNone, .next, .popI, .pushI⟩
  | .ldindI2 => ⟨"ldind.i2", 0x48, .inlineNone, .next, .popI, .pushI⟩
  | .ldindU2 => ⟨"ldind.u2", 0x49, .inlineNone, .next, .popI, .pushI⟩
  | .ldindI4 => ⟨"ldind.i4", 0x4A, .inlineNone, .next, .popI, .pushI⟩
  | .ldindU4 => ⟨"ldind.u4", 0x4B, .inlineNone, .next, .popI, .pushI⟩
  | .ldindI8 => ⟨"ldind.i8", 0x4C, .inlineNone, .next, .popI, .pushI8⟩
  | .ldindI => ⟨"ldind.i", 0x4D, .inlineNone, .next, .popI, .pushI⟩
  | .ldindR4 => ⟨"ldind.r4", 0x4E, .inlineNone, .next, .popI, .pushR4⟩
  | .ldindR8 => ⟨"ldind.r8", 0x4F, .inlineNone, .next, .popI, .pushR8⟩
  | .ldindRef => ⟨"ldind.ref", 0x50, .inlineNone, .next, .popI, .pushRef⟩
  | .stindRef => ⟨"stind.ref", 0x51, .inlineNone, .next, .popIPopI, .push0⟩
  | .stindI1 => ⟨"stind.i1", 0x52, .inlineNone, .next, .popIPopI, .push0⟩
  | .stindI2 => ⟨"stind.i2", 0x53, .inlineNone, .next, .popIPopI, .push0⟩
  | .stindI4 => ⟨"stind.i4", 0x54, .inlineNone, .next, .popIPopI, .push0⟩
  | .stindI8 => ⟨"stind.i8", 0x55, .inlineNone, .next, .popIPopI8, .push0⟩
  | .stindR4 => ⟨"stind.r4", 0x56, .inlineNone, .next, .popIPopR4, .push0⟩
  | .stindR8 => ⟨"stind.r8", 0x57, .inlineNone, .next, .popIPopR8, .push0⟩
  | .add => ⟨"add", 0x58, .inlineNone, .next, .pop1Pop1, .push1⟩
  | .sub => ⟨"sub", 0x59, .inlineNone, .next, .pop1Pop1, .push1⟩
  | .mul => ⟨"mul", 0x5A, .inlineNone, .next, .pop1Pop1, .push1⟩
  | .div => ⟨"div", 0x5B, .inlineNone, .next, .pop1Pop1, .push1⟩
  | .divUn => ⟨"div.un", 0x5C, .inlineNone, .next, .pop1Pop1, .push1⟩
  | .rem => ⟨"rem", 0x5D, .inlineNone, .next, .pop1Pop1, .push1⟩
  | .remUn => ⟨"rem.un", 0x5E, .inlineNone, .next, .pop1Pop1, .push1⟩
  | .and => ⟨"and", 0x5F, .inlineNone, .next, .pop1Pop1, .push1⟩
  | .or => ⟨"or", 0x60, .inlineNone, .next, .pop1Pop1, .push1⟩
  | .xor => ⟨"xor", 0x61, .inlineNone, .next, .pop1Pop1, .push1⟩
  | .shl => ⟨"shl", 0x62, .inlineNone, .next, .pop1Pop1, .push1⟩
  | .shr => ⟨"shr", 0x63, .inlineNone, .next, .pop1Pop1, .push1⟩
  | .shrUn => ⟨"shr.un", 0x64, .inlineNone, .next, .pop1Pop1, .push1⟩
  | .neg => ⟨"neg", 0x65, .inlineNone, .next, .pop1, .push1⟩
  | .not => ⟨"not", 0x66, .inlineNone, .next, .pop1, .push1⟩
  | .convI1 => ⟨"conv.i1", 0x67, .inlineNone, .next, .pop1, .pushI⟩
  | .convI2 => ⟨"conv.i2", 0x68, .inlineNone, .next, .pop1, .pushI⟩
  | .convI4 => ⟨"conv.i4", 0x69, .inlineNone, .next, .pop1, .pushI⟩
  | .convI8 => ⟨"conv.i8", 0x6A, .inlineNone, .next, .pop1, .pushI8⟩
  | .convR4 => ⟨"conv.r4", 0x6B, .inlineNone, .next, .pop1, .pushR4⟩
  | .convR8 => ⟨"conv.r8", 0x6C, .inlineNone, .next, .pop1, .pushR8⟩
  | .convU4 => ⟨"conv.u4", 0x6D, .inlineNone, .next, .pop1, .pushI⟩
  | .convU8 => ⟨"conv.u8", 0x6E, .inlineNone, .next, .pop1, .pushI8⟩
  | .callvirt => ⟨"callvirt", 0x6F, .inlineMethod, .call, .varPop, .varPush⟩
  | .cpobj => ⟨"cpobj", 0x70, .inlineType, .next, .popIPopI, .push0⟩
  | .ldobj => ⟨"ldobj", 0x71, .inlineType, .next, .popI, .push1⟩
  | .ldstr => ⟨"ldstr", 0x72, .inlineString, .next, .pop0, .pushRef⟩
  | .newobj => ⟨"newobj", 0x73, .inlineMethod, .call, .varPop, .pushRef⟩
  | .castclass => ⟨"castclass", 0x74, .inlineType, .next, .popRef, .pushRef⟩
  | .isinst => ⟨"isinst", 0x75, .inlineType, .next, .popRef, .pushI⟩
  | .convRUn => ⟨"conv.r.un", 0x76, .inlineNone, .next, .pop1, .pushR8⟩
  | .unbox => ⟨"unbox", 0x79, .inlineType, .next, .popRef, .pushI⟩
  | .throwObject => ⟨"throw", 0x7A, .inlineNone, .throws, .popRef, .push0⟩
  | .ldfld => ⟨"ldfld", 0x7B, .inlineField, .next, .popRef, .push1⟩
  | .ldflda => ⟨"ldflda", 0x7C, .inlineField, .next, .popRef, .pushI⟩
  | .stfld => ⟨"stfld", 0x7D, .inlineField, .next, .popRefPop1, .push0⟩
  | .ldsfld => ⟨"ldsfld", 0x7E, .inlineField, .next, .pop0, .push1⟩
  | .ldsflda => ⟨"ldsflda", 0x7F, .inlineField, .next, .pop0, .pushI⟩
  | .stsfld => ⟨"stsfld", 0x80, .inlineField, .next, .pop1, .push0⟩
  | .stobj => ⟨"stobj", 0x81, .inlineType, .next, .popIPop1, .push0⟩
  | .convOvfI1Un => ⟨"conv.ovf.i1.un", 0x82, .inlineNone, .next, .pop1, .pushI⟩
  | .convOvfI2Un => ⟨"conv.ovf.i2.un", 0x83, .inlineNone, .next, .pop1, .pushI⟩
  | .convOvfI4Un => ⟨"conv.ovf.i4.un", 0x84, .inlineNone, .next, .pop1, .pushI⟩
  | .convOvfI8Un => ⟨"conv.ovf.i8.un", 0x85, .inlineNone, .next, .pop1, .pushI8⟩
  | .convOvfU1Un => ⟨"conv.ovf.u1.un", 0x86, .inlineNone, .next, .pop1, .pushI⟩
  | .convOvfU2Un => ⟨"conv.ovf.u2.un", 0x87, .inlineNone, .next, .pop1, .pushI⟩
  | .convOvfU4Un => ⟨"conv.ovf.u4.un", 0x88, .inlineNone, .next, .pop1, .pushI⟩
  | .convOvfU8Un => ⟨"conv.ovf.u8.un", 0x89, .inlineNone, .next, .pop1, .pushI8⟩
  | .convOvfIUn => ⟨"conv.ovf.i.un", 0x8A, .inlineNone, .next, .pop1, .pushI⟩
  | .convOvfUUn => ⟨"conv.ovf.u.un", 0x8B, .inlineNone, .next, .pop1, .pushI⟩
  | .box => ⟨"box", 0x8C, .inlineType, .next, .pop1, .pushRef⟩
  | .newarr => ⟨"newarr", 0x8D, .inlineType, .next, .popI, .pushRef⟩
  | .ldlen => ⟨"ldlen", 0x8E, .inlineNone, .next, .popRef, .pushI⟩
  | .ldelema => ⟨"ldelema", 0x8F, .inlineType, .next, .popRefPopI, .pushI⟩
  | .ldelemI1 => ⟨"ldelem.i1", 0x90, .inlineNone, .next, .popRefPopI, .pushI⟩
  | .ldelemU1 => ⟨"ldelem.u1", 0x91, .inlineNone, .next, .popRefPopI, .pushI⟩
  | .ldelemI2 => ⟨"ldelem.i2", 0x92, .inlineNone, .next, .popRefPopI, .pushI⟩
  | .ldelemU2 => ⟨"ldelem.u2", 0x93, .inlineNone, .next, .popRefPopI, .pushI⟩
  | .ldelemI4 => ⟨"ldelem.i4", 0x94, .inlineNone, .next, .popRefPopI, .pushI⟩
  | .ldelemU4 => ⟨"ldelem.u4", 0x95, .inlineNone, .next, .popRefPopI, .pushI⟩
  | .ldelemI8 => ⟨"ldelem.i8", 0x96, .inlineNone, .next, .popRefPopI, .pushI8⟩
  | .ldelemI => ⟨"ldelem.i", 0x97, .inlineNone, .next, .popRefPopI, .pushI⟩
  | .ldelemR4 => ⟨"ldelem.r4", 0x98, .inlineNone, .next, .popRefPopI, .pushR4⟩
  | .ldelemR8 => ⟨"ldelem.r8", 0x99, .inlineNone, .next, .popRefPopI, .pushR8⟩
  | .ldelemRef => ⟨"ldelem.ref", 0x9A, .inlineNone, .next, .popRefPopI, .pushRef⟩
  | .stelemI => ⟨"stelem.i", 0x9B, .inlineNone, .next, .popRefPopIPopI, .push0⟩
  | .stelemI1 => ⟨"stelem.i1", 0x9C, .inlineNone, .next, .popRefPopIPopI, .push0⟩
  | .stelemI2 => ⟨"stelem.i2", 0x9D, .inlineNone, .next, .popRefPopIPopI, .push0⟩
  | .stelemI4 => ⟨"stelem.i4", 0x9E, .inlineNone, .next, .popRefPopIPopI, .push0⟩
  | .stelemI8 => ⟨"stelem.i8", 0x9F, .inlineNone, .next, .popRefPopIPopI8, .push0⟩
  | .stelemR4 => ⟨"stelem.r4", 0xA0, .inlineNone, .next, .popRefPopIPopR4, .push0⟩
  | .stelemR8 => ⟨"stelem.r8", 0xA1, .inlineNone, .next, .popRefPopIPopR8, .push0⟩
  | .stelemRef => ⟨"stelem.ref", 0xA2, .inlineNone, .next, .popRefPopIPopRef, .push0⟩
  | .ldelemAny => ⟨"ldelem.any", 0xA3, .inlineType, .next, .popRefPopI, .push1⟩
  | .stelemAny => ⟨"stelem.any", 0xA4, .inlineType, .next, .popRefPopIPopRef, .push0⟩
  | .unboxAny => ⟨"unbox.any", 0xA5, .inlineType, .next, .popRef, .push1⟩
  | .convOvfI1 => ⟨"conv.ovf.i1", 0xB3, .inlineNone, .next, .pop1, .pushI⟩
  | .convOvfU1 => ⟨"conv.ovf.u1", 0xB4, .inlineNone, .next, .pop1, .pushI⟩
  | .convOvfI2 => ⟨"conv.ovf.i2", 0xB5, .inlineNone, .next, .pop1, .pushI⟩
  | .convOvfU2 => ⟨"conv.ovf.u2", 0xB6, .inlineNone, .next, .pop1, .pushI⟩
  | .convOvfI4 => ⟨"conv.ovf.i4", 0xB7, .inlineNone, .next, .pop1, .pushI⟩
  | .convOvfU4 => ⟨"conv.ovf.u4", 0xB8, .inlineNone, .next, .pop1, .pushI⟩
  | .convOvfI8 => ⟨"conv.ovf.i8", 0xB9, .inlineNone, .next, .pop1, .pushI8⟩
  | .convOvfU8 => ⟨"conv.ovf.u8", 0xBA, .inlineNone, .next, .pop1, .pushI8⟩
  | .refanyval => ⟨"refanyval", 0xC2, .inlineType, .next, .pop1, .pushI⟩
  | .ckfinite => ⟨"ckfinite", 0xC3, .inlineNone, .next, .pop1, .pushR8⟩
  | .mkrefany => ⟨"mkrefany", 0xC6, .inlineType, .next, .popI, .push1⟩
  | .ldtoken => ⟨"ldtoken", 0xD0, .inlineTok, .next, .pop0, .pushI⟩
  | .convU2 => ⟨"conv.u2", 0xD1, .inlineNone, .next, .pop1, .pushI⟩
  | .convU1 => ⟨"conv.u1", 0xD2, .inlineNone, .next, .pop1, .pushI⟩
  | .convI => ⟨"conv.i", 0xD3, .inlineNone, .next, .pop1, .pushI⟩
  | .convOvfI => ⟨"conv.ovf.i", 0xD4, .inlineNone, .next, .pop1, .pushI⟩
  | .convOvfU => ⟨"conv.ovf.u", 0xD5, .inlineNone, .next, .pop1, .pushI⟩
  | .addOvf => ⟨"add.ovf", 0xD6, .inlineNone, .next, .pop1Pop1, .push1⟩
  | .addOvfUn => ⟨"add.ovf.un", 0xD7, .inlineNone, .next, .pop1Pop1, .push1⟩
  | .mulOvf => ⟨"mul.ovf", 0xD8, .inlineNone, .next, .pop1Pop1, .push1⟩
  | .mulOvfUn => ⟨"mul.ovf.un", 0xD9, .inlineNone, .next, .pop1Pop1, .push1⟩
  | .subOvf => ⟨"sub.ovf", 0xDA, .inlineNone, .next, .pop1Pop1, .push1⟩
  | .subOvfUn => ⟨"sub.ovf.un", 0xDB, .inlineNone, .next, .pop1Pop1, .push1⟩
  | .endfinally => ⟨"endfinally", 0xDC, .inlineNone, .returns, .pop0, .push0⟩
  | .leave => ⟨"leave", 0xDD, .inlineBrTarget, .branch, .popAll, .push0⟩
  | .leaveS => ⟨"leave.s", 0xDE, .shortInlineBrTarget, .branch, .popAll, .push0⟩
  | .stindI => ⟨"stind.i", 0xDF, .inlineNone, .next, .popIPopI, .push0⟩
  | .convU => ⟨"conv.u", 0xE0, .inlineNone, .next, .pop1, .pushI⟩
  | .arglist => ⟨"arglist", 0xFE00, .inlineNone, .next, .pop0, .pushI⟩
  | .ceq => ⟨"ceq", 0xFE01, .inlineNone, .next, .pop1Pop1, .pushI⟩
  | .cgt => ⟨"cgt", 0xFE02, .inlineNone, .next, .pop1Pop1, .pushI⟩
  | .cgtUn => ⟨"cgt.un", 0xFE03, .inlineNone, .next, .pop1Pop1, .pushI⟩
  | .clt => ⟨"clt", 0xFE04, .inlineNone, .next, .pop1Pop1, .pushI⟩
  | .cltUn => ⟨"clt.un", 0xFE05, .inlineNone, .next, .pop1Pop1, .pushI⟩
  | .ldftn => ⟨"ldftn", 0xFE06, .inlineMethod, .next, .pop0, .pushI⟩
  | .ldvirtftn => ⟨"ldvirtftn", 0xFE07, .inlineMethod, .next, .popRef, .pushI⟩
  | .ldarg => ⟨"ldarg", 0xFE09, .inlineArg, .next, .pop0, .push1⟩
  | .ldarga => ⟨"ldarga", 0xFE0A, .inlineArg, .next, .pop0, .pushI⟩
  | .starg => ⟨"starg", 0xFE0B, .inlineArg, .next, .pop1, .push0⟩
  | .ldloc => ⟨"ldloc", 0xFE0C, .inlineVar, .next, .pop0, .push1⟩
  | .ldloca => ⟨"ldloca", 0xFE0D, .inlineVar, .next, .pop0, .pushI⟩
  | .stloc => ⟨"stloc", 0xFE0E, .inlineVar, .next, .pop1, .push0⟩
  | .localloc => ⟨"localloc", 0xFE0F, .inlineNone, .next, .popI, .pushI⟩
  | .endfilter => ⟨"endfilter", 0xFE11, .inlineNone, .returns, .popI, .push0⟩
  | .unaligned => ⟨"unaligned.", 0xFE12, .shortInlineI, .prefixed, .pop0, .push0⟩
  | .volatile => ⟨"volatile.", 0xFE13, .inlineNone, .prefixed, .pop0, .push0⟩
  | .tailCall => ⟨"tail.", 0xFE14, .inlineNone, .prefixed, .pop0, .push0⟩
  | .initobj => ⟨"initobj", 0xFE15, .inlineType, .next, .popI, .push0⟩
  | .constrained => ⟨"constrained.", 0xFE16, .inlineType, .prefixed, .pop0, .push0⟩
  | .cpblk => ⟨"cpblk", 0xFE17, .inlineNone, .next, .popIPopIPopI, .push0⟩
  | .initblk => ⟨"initblk", 0xFE18, .inlineNone, .next, .popIPopIPopI, .push0⟩
  | .noCheck => ⟨"no.", 0xFE19, .shortInlineI, .prefixed, .pop0, .push0⟩
  | .rethrow => ⟨"rethrow", 0xFE1A, .inlineNone, .throws, .pop0, .push0⟩
  | .sizeof => ⟨"sizeof", 0xFE1C, .inlineType, .next, .pop0, .pushI⟩
  | .refanytype => ⟨"refanytype", 0xFE1D, .inlineNone, .next, .pop1, .pushI⟩
  | .readonly => ⟨"readonly.", 0xFE1E, .inlineNone, .prefixed, .pop0, .push0⟩

/-- Every opcode, in encoding order. -/
def all : List Opcode := [
  .nop, .breakpoint, .ldarg0, .ldarg1, .ldarg2, .ldarg3, .ldloc0, .ldloc1, .ldloc2, .ldloc3,
  .stloc0, .stloc1, .stloc2, .stloc3, .ldargS, .ldargaS, .stargS, .ldlocS, .ldlocaS, .stlocS,
  .ldnull, .ldcI4M1, .ldcI40, .ldcI41, .ldcI42, .ldcI43, .ldcI44, .ldcI45, .ldcI46, .ldcI47,
  .ldcI48, .ldcI4S, .ldcI4, .ldcI8, .ldcR4, .ldcR8, .dup, .pop, .jmp, .call, .calli, .ret,
  .brS, .brfalseS, .brtrueS, .beqS, .bgeS, .bgtS, .bleS, .bltS, .bneUnS, .bgeUnS, .bgtUnS,
  .bleUnS, .bltUnS, .br, .brfalse, .brtrue, .beq, .bge, .bgt, .ble, .blt, .bneUn, .bgeUn,
  .bgtUn, .bleUn, .bltUn, .switch, .ldindI1, .ldindU1, .ldindI2, .ldindU2, .ldindI4, .ldindU4,
  .ldindI8, .ldindI, .ldindR4, .ldindR8, .ldindRef, .stindRef, .stindI1, .stindI2, .stindI4,
  .stindI8, .stindR4, .stindR8, .add, .sub, .mul, .div, .divUn, .rem, .remUn, .and, .or, .xor,
  .shl, .shr, .shrUn, .neg, .not, .convI1, .convI2, .convI4, .convI8, .convR4, .convR8,
  .convU4, .convU8, .callvirt, .cpobj, .ldobj, .ldstr, .newobj, .castclass, .isinst, .convRUn,
  .unbox, .throwObject, .ldfld, .ldflda, .stfld, .ldsfld, .ldsflda, .stsfld, .stobj,
  .convOvfI1Un, .convOvfI2Un, .convOvfI4Un, .convOvfI8Un, .convOvfU1Un, .convOvfU2Un,
  .convOvfU4Un, .convOvfU8Un, .convOvfIUn, .convOvfUUn, .box, .newarr, .ldlen, .ldelema,
  .ldelemI1, .ldelemU1, .ldelemI2, .ldelemU2, .ldelemI4, .ldelemU4, .ldelemI8, .ldelemI,
  .ldelemR4, .ldelemR8, .ldelemRef, .stelemI, .stelemI1, .stelemI2, .stelemI4, .stelemI8,
  .stelemR4, .stelemR8, .stelemRef, .ldelemAny, .stelemAny, .unboxAny, .convOvfI1, .convOvfU1,
  .convOvfI2, .convOvfU2, .convOvfI4, .convOvfU4, .convOvfI8, .convOvfU8, .refanyval,
  .ckfinite, .mkrefany, .ldtoken, .convU2, .convU1, .convI, .convOvfI, .convOvfU, .addOvf,
  .addOvfUn, .mulOvf, .mulOvfUn, .subOvf, .subOvfUn, .endfinally, .leave, .leaveS, .stindI,
  .convU, .arglist, .ceq, .cgt, .cgtUn, .clt, .cltUn, .ldftn, .ldvirtftn, .ldarg, .ldarga,
  .starg, .ldloc, .ldloca, .stloc, .localloc, .endfilter, .unaligned, .volatile, .tailCall,
  .initobj, .constrained, .cpblk, .initblk, .noCheck, .rethrow, .sizeof, .refanytype, .readonly]

def mnemonic (op : Opcode) : String := op.info.mnemonic

def value (op : Opcode) : Nat := op.info.value

def operandType (op : Opcode) : OperandType := op.info.operandType

def flow (op : Opcode) : FlowControl := op.info.flow

def escapeByte : Nat := 0xFE

def size (op : Opcode) : Nat :=
  if op.value / 256 = escapeByte then 2 else 1

def ofValue? (value : Nat) : Option Opcode :=
  all.find? (·.value == value)

def ofMnemonic? (mnemonic : String) : Option Opcode :=
  all.find? (·.mnemonic == mnemonic)

end Opcode
end CilProfiler
