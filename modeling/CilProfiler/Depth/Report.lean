import CilProfiler.Depth.Walk
import CilProfiler.Log

/-! # Reports of depth computations

A depth computation reports its size, every instruction it has evaluated, and the depth it
found. Calls of generic instantiations are warned about before they are resolved, so the
instruction that a failed computation stopped at may have a warning and never has a trace line.
-/

namespace CilProfiler

def mnemonicWidth : Nat := 12

def padRight (width : Nat) (text : String) : String :=
  text ++ String.ofList (List.replicate (width - text.length) ' ')

/-- Warning about a direct or virtual call whose callee is a generic instantiation. -/
def Instruction.genericWarning (item : Instruction) : List LogLine :=
  match item.token? with
  | none => []
  | some callee =>
    if item.code.flow = .call ∧ item.code ≠ .calli ∧ callee.table? = some .methodSpec then
      [⟨.warn, "Generic method call " ++ callee.text ++ " at " ++ offsetLabel item.offset
        ++ ": stack effect may be inexact"⟩]
    else []

def DepthVisit.report (visit : DepthVisit) : List LogLine :=
  visit.item.genericWarning
    ++ [⟨.trace, offsetLabel visit.item.offset ++ " "
      ++ padRight mnemonicWidth visit.item.code.mnemonic ++ " depth " ++ visit.after.repr⟩]

namespace MethodBody

def depthReport (body : MethodBody) (analysis : DepthAnalysis) : List LogLine :=
  let start : LogLine :=
    ⟨.debug, "Computing max stack over " ++ body.code.length.repr ++ " instructions, "
      ++ body.clauses.length.repr ++ " exception handlers"⟩
  let finish : List LogLine :=
    match analysis.outcome with
    | .ok maxStack => [⟨.debug, "Max stack: " ++ maxStack.repr⟩]
    | .error _ =>
      match body.code.items[analysis.visits.length]? with
      | some (_, item) => item.genericWarning
      | none => []
  start :: analysis.visits.flatMap (·.report) ++ finish

def recalculationReport (body : MethodBody) (analysis : DepthAnalysis) : List LogLine :=
  body.depthReport analysis ++
    match analysis.outcome with
    | .ok maxStack =>
      [⟨.debug, "max stack for " ++ body.code.length.repr ++ " instructions: "
        ++ body.maxStack.repr ++ " -> " ++ maxStack.repr⟩]
    | .error _ => []

end MethodBody
end CilProfiler
