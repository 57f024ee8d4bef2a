/-! # Classes of opcode behaviour

What an opcode row says beside its mnemonic and its encoding: which inline operand follows
it, how control leaves it, and what it takes from and puts on the evaluation stack.
-/

namespace CilProfiler

inductive OperandType where
  | inlineNone
  | shortInlineI
  | shortInlineVar
  | shortInlineArg
  | shortInlineR
  | shortInlineBrTarget
  | inlineVar
  | inlineArg
  | inlineI
  | inlineI8
  | inlineR
  | inlineBrTarget
  | inlineSwitch
  | inlineString
  | inlineField
  | inlineMethod
  | inlineType
  | inlineTok
  | inlineSig
  deriving Repr, DecidableEq

namespace OperandType

def name : OperandType → String
  | .inlineNone => "InlineNone"
  | .shortInlineI => "ShortInlineI"
  | .shortInlineVar => "ShortInlineVar"
  | .shortInlineArg => "ShortInlineArg"
  | .shortInlineR => "ShortInlineR"
  | .shortInlineBrTarget => "ShortInlineBrTarget"
  | .inlineVar => "InlineVar"
  | .inlineArg => "InlineArg"
  | .inlineI => "InlineI"
  | .inlineI8 => "InlineI8"
  | .inlineR => "InlineR"
  | .inlineBrTarget => "InlineBrTarget"
  | .inlineSwitch => "InlineSwitch"
  | .inlineString => "InlineString"
  | .inlineField => "InlineField"
  | .inlineMethod => "InlineMethod"
  | .inlineType => "InlineType"
  | .inlineTok => "InlineTok"
  | .inlineSig => "InlineSig"

/-- Operand bytes that do not depend on the operand's value. A switch has its four byte
    count here; every target adds four more. -/
def baseSize : OperandType → Nat
  | .inlineNone => 0
  | .shortInlineI | .shortInlineVar | .shortInlineArg | .shortInlineBrTarget => 1
  | .inlineVar | .inlineArg => 2
  | .inlineI | .shortInlineR | .inlineBrTarget | .inlineSwitch | .inlineString | .inlineField
  | .inlineMethod | .inlineType | .inlineTok | .inlineSig => 4
  | .inlineI8 | .inlineR => 8

def takesToken : OperandType → Bool
  | .inlineString | .inlineField | .inlineMethod | .inlineType | .inlineTok | .inlineSig => true
  | _ => false

def takesTargets : OperandType → Bool
  | .shortInlineBrTarget | .inlineBrTarget | .inlineSwitch => true
  | _ => false

end OperandType

inductive FlowControl where
  | next
  | branch
  | condBranch
  | call
  | returns
  | throws
  | breaks
  | prefixed
  deriving Repr, DecidableEq

namespace FlowControl

def name : FlowControl → String
  | .next => "Next"
  | .branch => "Branch"
  | .condBranch => "CondBranch"
  | .call => "Call"
  | .returns => "Return"
  | .throws => "Throw"
  | .breaks => "Break"
  | .prefixed => "Meta"

/-- Nothing is carried past the opcode to the instruction that follows it. -/
def stopsFlow : FlowControl → Bool
  | .branch | .breaks | .throws | .returns => true
  | _ => false

end FlowControl

inductive PopBehaviour where
  | pop0
  | pop1
  | pop1Pop1
  | popI
  | popIPop1
  | popIPopI
  | popIPopI8
  | popIPopIPopI
  | popIPopR4
  | popIPopR8
  | popRef
  | popRefPop1
  | popRefPopI
  | popRefPopIPopI
  | popRefPopIPopI8
  | popRefPopIPopR4
  | popRefPopIPopR8
  | popRefPopIPopRef
  /-- Empties the stack. -/
  | popAll
  /-- Depends on a signature or on the method's return type. -/
  | varPop
  deriving Repr, DecidableEq

def PopBehaviour.name : PopBehaviour → String
  | .pop0 => "Pop0"
  | .pop1 => "Pop1"
  | .pop1Pop1 => "Pop1Pop1"
  | .popI => "PopI"
  | .popIPop1 => "PopIPop1"
  | .popIPopI => "PopIPopI"
  | .popIPopI8 => "PopIPopI8"
  | .popIPopIPopI => "PopIPopIPopI"
  | .popIPopR4 => "PopIPopR4"
  | .popIPopR8 => "PopIPopR8"
  | .popRef => "PopRef"
  | .popRefPop1 => "PopRefPop1"
  | .popRefPopI => "PopRefPopI"
  | .popRefPopIPopI => "PopRefPopIPopI"
  | .popRefPopIPopI8 => "PopRefPopIPopI8"
  | .popRefPopIPopR4 => "PopRefPopIPopR4"
  | .popRefPopIPopR8 => "PopRefPopIPopR8"
  | .popRefPopIPopRef => "PopRefPopIPopRef"
  | .popAll => "PopAll"
  | .varPop => "VarPop"

inductive PushBehaviour where
  | push0
  | push1
  | push1Push1
  | pushI
  | pushI8
  | pushR4
  | pushR8
  | pushRef
  /-- Depends on the callee's return type. -/
  | varPush
  deriving Repr, DecidableEq

def PushBehaviour.name : PushBehaviour → String
  | .push0 => "Push0"
  | .push1 => "Push1"
  | .push1Push1 => "Push1Push1"
  | .pushI => "PushI"
  | .pushI8 => "PushI8"
  | .pushR4 => "PushR4"
  | .pushR8 => "PushR8"
  | .pushRef => "PushRef"
  | .varPush => "VarPush"

end CilProfiler
